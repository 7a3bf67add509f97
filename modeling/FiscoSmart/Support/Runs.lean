import Mathlib.Tactic

/-!
# Successful runs of stateful calls

`Runs x s a s'` says that the call `x`, started in state `s`, returns `a` and
leaves state `s'`.  The rules below compose runs, so that a proof about a long
call is a chain of facts about its parts.
-/

namespace FiscoSmart.Support

open List

variable {ε σ α β : Type} {x : EStateM ε σ α} {f : α → EStateM ε σ β} {s s' s'' : σ} {a : α} {e : ε}
  {h : ε → EStateM ε σ α} {l : List α}

/-- `x` started in `s` succeeds with `a` in state `s'`. -/
def Runs (x : EStateM ε σ α) (s : σ) (a : α) (s' : σ) : Prop :=
  x s = .ok a s'

/-- The state that a call leaves. -/
def final (x : EStateM ε σ α) (s : σ) : σ :=
  match x s with
  | .ok _ s' => s'
  | .error _ s' => s'

/-- `x` started in `s` fails with `e` in state `s'`. -/
def Fails (x : EStateM ε σ α) (s : σ) (e : ε) (s' : σ) : Prop :=
  x s = .error e s'

/-- Where `x` succeeds, `p` holds of what it returns and of the state it leaves. -/
def After (x : EStateM ε σ α) (s : σ) (p : α → σ → Prop) : Prop :=
  ∀ a s', Runs x s a s' → p a s'

theorem after_congr {p q : α → σ → Prop} (h : ∀ a s', p a s' ↔ q a s') :
    After x s p ↔ After x s q :=
  forall₂_congr fun a s' => imp_congr_right fun _ => h a s'

theorem Runs.bind_eq (hx : Runs x s a s') (f : α → EStateM ε σ β) : (x >>= f) s = f a s' := by
  change EStateM.bind x f s = f a s'
  rw [EStateM.bind, hx]

theorem Fails.bind_eq (hx : Fails x s e s')
    (f : α → EStateM ε σ β) : (x >>= f) s = .error e s' := by
  change EStateM.bind x f s = .error e s'
  rw [EStateM.bind, hx]

namespace Runs

variable {g : α → EStateM ε σ β} {b : β} {I : σ → Prop}

theorem of_pure : Runs (pure a : EStateM ε σ α) s a s := rfl

theorem unique {a' : α} (h : Runs x s a s') (h' : Runs x s a' s'') : a = a' ∧ s' = s'' := by
  have heq := h.symm.trans h'
  cases heq
  exact ⟨rfl, rfl⟩

theorem eq_final (h : Runs x s a s') : s' = final x s := by
  rw [final, h]

theorem bind (hx : Runs x s a s') (hf : Runs (f a) s' b s'') : Runs (x >>= f) s b s'' := by
  rw [Runs, hx.bind_eq]
  exact hf

theorem of_bind (h : Runs (x >>= f) s b s'') : ∃ a s', Runs x s a s' ∧ Runs (f a) s' b s'' := by
  cases hx : x s with
  | ok a s' => exact ⟨a, s', hx, (bind_eq hx f).symm.trans h⟩
  | error e s' => cases (Fails.bind_eq hx f).symm.trans h

theorem get_bind {f : σ → EStateM ε σ β} (hf : Runs (f s) s b s') : Runs (get >>= f) s b s' :=
  bind (x := get) rfl hf

theorem of_set : Runs (set s' : EStateM ε σ PUnit) s PUnit.unit s' := rfl

theorem of_modify {g : σ → σ} : Runs (modify g : EStateM ε σ PUnit) s PUnit.unit (g s) := rfl

/-- A loop whose steps keep `I`. -/
theorem mapM (value : α → β) (hs : I s)
    (hg : ∀ a ∈ l, ∀ u, I u → ∃ u', Runs (g a) u (value a) u' ∧ I u') :
    ∃ s', Runs (l.mapM g) s (l.map value) s' ∧ I s' := by
  induction l generalizing s with
  | nil => exact ⟨s, of_pure, hs⟩
  | cons a l ih =>
    obtain ⟨s₁, hrun₁, hs₁⟩ := hg a mem_cons_self s hs
    obtain ⟨s₂, hrun₂, hs₂⟩ := ih hs₁ fun b hb => hg b (mem_cons_of_mem _ hb)
    rw [mapM_cons]
    exact ⟨s₂, hrun₁.bind (hrun₂.bind (of_pure)), hs₂⟩

/-- What the steps of a loop need to succeed holds if the loop succeeds. -/
theorem of_mapM {P : α → Prop} {bs : List β} (h : Runs (l.mapM g) s bs s') (hs : I s)
    (hg : ∀ a ∈ l, ∀ u b u', I u → Runs (g a) u b u' → P a ∧ I u') : ∀ a ∈ l, P a := by
  induction l generalizing s s' bs with
  | nil => exact fun _ ha => absurd ha not_mem_nil
  | cons a l ih =>
    rw [mapM_cons] at h
    obtain ⟨b, s₁, hrun, hrest⟩ := h.of_bind
    obtain ⟨_, s₂, hloop, -⟩ := hrest.of_bind
    obtain ⟨ha, hs₁⟩ := hg a mem_cons_self s b s₁ hs hrun
    have htail := ih hloop hs₁ fun c hc => hg c (mem_cons_of_mem _ hc)
    exact forall_mem_cons.mpr ⟨ha, htail⟩

theorem tryCatch_of_ok (hx : Runs x s a s') : Runs (tryCatch x h) s a s' := by
  change EStateM.tryCatch x h s = .ok a s'
  rw [Runs] at hx
  simp [EStateM.tryCatch, hx]

end Runs

namespace Fails

theorem of_throw : Fails (throw e : EStateM ε σ α) s e s := rfl

theorem bind (hx : Fails x s e s') : Fails (x >>= f) s e s' :=
  hx.bind_eq f

theorem after (hx : Runs x s a s') (hf : Fails (f a) s' e s'') : Fails (x >>= f) s e s'' :=
  (hx.bind_eq f).trans hf

theorem get_bind {f : σ → EStateM ε σ β} (hf : Fails (f s) s e s') : Fails (get >>= f) s e s' :=
  after (x := get) rfl hf

theorem of_tryCatch {e' : ε} (hx : Fails x s e s')
    (hh : Fails (h e) s' e' s'') : Fails (tryCatch x h) s e' s'' := by
  change EStateM.tryCatch x h s = .error e' s''
  rw [Fails] at hx
  simp only [EStateM.tryCatch, hx]
  exact hh

theorem not_runs (hx : Fails x s e s') : ¬ Runs x s a s'' := by
  intro hrun
  cases hx.symm.trans hrun

end Fails

end FiscoSmart.Support
