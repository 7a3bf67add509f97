import FiscoSmart.Support.Runs
import Mathlib.Order.CompletePartialOrder

/-!
# Locations that a call reads and writes

A state is looked at through its locations: `view s k` is what stands at `k`.
`Footprint view reads writes x` says that the call `x` depends on `reads` only
and leaves everything outside `writes` as it was.  Two calls commute where
neither writes what the other reads.
-/

namespace FiscoSmart.Support

variable {ε σ κ ν α β : Type} {x : EStateM ε σ α} {f : α → EStateM ε σ β} {s : σ}

/-- What a call returns or throws. -/
def outcome (x : EStateM ε σ α) (s : σ) : Except ε α :=
  match x s with
  | .ok a _ => .ok a
  | .error e _ => .error e

theorem Runs.outcome_eq {s' : σ} {a : α} (h : Runs x s a s') : outcome x s = .ok a := by
  rw [outcome, h]

theorem outcome_bind : outcome (x >>= f) s =
      match outcome x s with
      | .ok a => outcome (f a) (final x s)
      | .error e => .error e := by
  rcases hx : x s with ⟨a, s'⟩ | ⟨e, s'⟩
  · simp [outcome, final, Runs.bind_eq hx, hx]
  · simp [outcome, Fails.bind_eq hx, hx]

theorem final_bind : final (x >>= f) s =
      match outcome x s with
      | .ok a => final (f a) (final x s)
      | .error _ => final x s := by
  rcases hx : x s with ⟨a, s'⟩ | ⟨e, s'⟩
  · simp [outcome, final, Runs.bind_eq hx, hx]
  · simp [outcome, final, Fails.bind_eq hx, hx]

/-- From `s`, the two calls give the same outcomes and the same state in either
order. -/
structure CommuteAt (x : EStateM ε σ α) (y : EStateM ε σ β) (s : σ) : Prop where
  left : outcome x (final y s) = outcome x s
  right : outcome y (final x s) = outcome y s
  state : final y (final x s) = final x (final y s)

/-- The call depends on the locations in `reads` only, and writes to those in
`writes` only. -/
structure Footprint (view : σ → κ → ν) (reads writes : Set κ) (x : EStateM ε σ α) :
    Prop where
  outcome : ∀ s t, Set.EqOn (view s) (view t) reads → outcome x s = outcome x t
  agree : ∀ s t, Set.EqOn (view s) (view t) reads →
    Set.EqOn (view (final x s)) (view (final x t)) reads
  kept : ∀ s, Set.EqOn (view (final x s)) (view s) writesᶜ

namespace Footprint

variable {view : σ → κ → ν} {reads writes reads' writes' : Set κ} {y : EStateM ε σ β}

theorem of_pure {a : α} : Footprint view reads writes (pure a : EStateM ε σ α) where
  outcome _ _ _ := rfl
  agree _ _ h := h
  kept _ _ _ := rfl

theorem of_throw {e : ε} : Footprint view reads writes (throw e : EStateM ε σ α) where
  outcome _ _ _ := rfl
  agree _ _ h := h
  kept _ _ _ := rfl

theorem of_ite {c : Prop} [Decidable c] {z : EStateM ε σ α}
    (hx : c → Footprint view reads writes x) (hz : ¬ c → Footprint view reads writes z) :
    Footprint view reads writes (if c then x else z) := by
  split_ifs with hc
  · exact hx hc
  · exact hz hc

theorem bind (hx : Footprint view reads writes x) (hf : ∀ a, Footprint view reads writes (f a)) :
    Footprint view reads writes (x >>= f) where
  outcome s t h := by
    rw [outcome_bind, outcome_bind, hx.outcome s t h]
    rcases Support.outcome x t with e | a
    · rfl
    · exact (hf a).outcome _ _ (hx.agree s t h)
  agree s t h := by
    rw [final_bind, final_bind, hx.outcome s t h]
    rcases Support.outcome x t with e | a
    · exact hx.agree s t h
    · exact (hf a).agree _ _ (hx.agree s t h)
  kept s := by
    rw [final_bind]
    rcases Support.outcome x s with e | a
    · exact hx.kept s
    · exact ((hf a).kept _).trans (hx.kept s)

/-- What a call does not write, another one reads as before. -/
theorem eqOn_final (hy : Footprint view reads' writes' y) (h : Disjoint writes' reads)
    (s : σ) : Set.EqOn (view (final y s)) (view s) reads :=
  fun _ hk => hy.kept s fun hmem => Set.disjoint_left.mp h hmem hk

/-- Calls commute where neither writes what the other reads. -/
theorem commuteAt (hview : Function.Injective view)
    (hx : Footprint view reads writes x) (hy : Footprint view reads' writes' y)
    (hsub : writes ⊆ reads) (hsub' : writes' ⊆ reads')
    (hxy : Disjoint writes reads') (hyx : Disjoint writes' reads) (s : σ) : CommuteAt x y s where
  left := hx.outcome _ _ (hy.eqOn_final hyx s)
  right := hy.outcome _ _ (hx.eqOn_final hxy s)
  state := by
    have hleft := hx.agree _ _ (hy.eqOn_final hyx s)
    have hright := hy.agree _ _ (hx.eqOn_final hxy s)
    apply hview
    funext k
    by_cases hk : k ∈ writes
    · have hk' : k ∉ writes' := fun h => Set.disjoint_left.mp hxy hk (hsub' h)
      exact (hy.kept (final x s) hk').trans (hleft (hsub hk)).symm
    · have hkept := hx.kept (final y s) hk
      by_cases hk' : k ∈ writes'
      · exact (hright (hsub' hk')).trans hkept.symm
      · exact (hy.kept _ hk').trans ((hx.kept s hk).trans ((hy.kept s hk').symm.trans hkept.symm))

end Footprint

end FiscoSmart.Support
