import FiscoSmart.Support.Runs

/-!
# Pre- and postconditions of stateful calls

`Ensures P x Q E` says that the call `x`, started in a state with `P`, returns
with `Q` or fails with `E`.  There is one rule for each way of composing calls,
so that the contract of a long call follows its text.
-/

namespace FiscoSmart.Support

variable {ε σ α β : Type} {P P' : σ → Prop} {x : EStateM ε σ α} {Q : α → σ → Prop}
  {R : β → σ → Prop} {E E' : ε → σ → Prop} {c : Prop} {e : ε} {g : σ → σ}

/-- Started in a state with `P`, the call `x` ends with `Q` or fails with `E`. -/
def Ensures (P : σ → Prop) (x : EStateM ε σ α) (Q : α → σ → Prop) (E : ε → σ → Prop) : Prop :=
  ∀ s, P s → match x s with
    | .ok a s' => Q a s'
    | .error e s' => E e s'

namespace Ensures

variable {f : α → EStateM ε σ β} {s s' : σ} {a : α}

theorem of_pure (h : ∀ s, P s → Q a s) : Ensures P (pure a : EStateM ε σ α) Q E :=
  h

theorem of_throw (h : ∀ s, P s → E e s) : Ensures P (throw e : EStateM ε σ α) Q E :=
  h

theorem bind (hx : Ensures P x Q E) (hf : ∀ a, Ensures (Q a) (f a) R E) :
    Ensures P (x >>= f) R E := by
  intro s hs
  have hres := hx s hs
  rcases hrun : x s with ⟨a, s'⟩ | ⟨e, s'⟩
  · rw [hrun] at hres
    rw [Runs.bind_eq hrun]
    exact hf a s' hres
  · rw [hrun] at hres
    rw [Fails.bind_eq hrun]
    exact hres

section

variable (h : Ensures P x Q E) {Q' : α → σ → Prop}

include h

theorem imp (hQ : ∀ a s, Q a s → Q' a s) (hE : ∀ e s, E e s → E' e s) : Ensures P x Q' E' := by
  intro s hs
  have hres := h s hs
  rcases hrun : x s with ⟨a, s'⟩ | ⟨e, s'⟩
  · rw [hrun] at hres
    exact hQ a s' hres
  · rw [hrun] at hres
    exact hE e s' hres

theorem post (hQ : ∀ a s, Q a s → Q' a s) : Ensures P x Q' E :=
  h.imp hQ fun _ _ => id

theorem and (h' : Ensures P x Q' E') :
    Ensures P x (fun a s => Q a s ∧ Q' a s) (fun e s => E e s ∧ E' e s) := by
  intro s hs
  have hres := h s hs
  have hres' := h' s hs
  rcases hrun : x s with ⟨a, s'⟩ | ⟨e, s'⟩
  · rw [hrun] at hres hres'
    exact ⟨hres, hres'⟩
  · rw [hrun] at hres hres'
    exact ⟨hres, hres'⟩

theorem pre (hP : ∀ s, P' s → P s) : Ensures P' x Q E :=
  fun s hs => h s (hP s hs)

theorem fail (hE : ∀ e s, E e s → E' e s) : Ensures P x Q E' :=
  h.imp (fun _ _ => id) hE

end

theorem assume (hP : ∀ s, P s → c ∧ P' s) (h : c → Ensures P' x Q E) : Ensures P x Q E :=
  fun s hs => h (hP s hs).1 s (hP s hs).2

theorem tryCatch {handler : ε → EStateM ε σ α} (hx : Ensures P x Q E)
    (hh : ∀ e, Ensures (E e) (handler e) Q E') : Ensures P (tryCatch x handler) Q E' := by
  intro s hs
  have hcatch : (MonadExceptOf.tryCatch x handler) s = (match x s with
      | .ok a s => .ok a s
      | .error e s => handler e s) := by
    change EStateM.tryCatch x handler s = _
    rw [EStateM.tryCatch]
    cases x s <;> rfl
  have hres := hx s hs
  change match (MonadExceptOf.tryCatch x handler) s with
    | .ok a s' => Q a s'
    | .error e s' => E' e s'
  rw [hcatch]
  rcases hrun : x s with ⟨a, s'⟩ | ⟨e, s'⟩
  · rw [hrun] at hres
    exact hres
  · rw [hrun] at hres
    exact hh e s' hres

theorem of_ite [Decidable c] {y : EStateM ε σ α}
    (hx : c → Ensures P x Q E) (hy : ¬ c → Ensures P y Q E) :
    Ensures P (if c then x else y) Q E := by
  by_cases hc : c
  · rw [if_pos hc]
    exact hx hc
  · rw [if_neg hc]
    exact hy hc

theorem trivial (P : σ → Prop) (x : EStateM ε σ α) :
    Ensures P x (fun _ _ => True) (fun _ _ => True) := by
  intro s _
  cases x s <;> exact True.intro

theorem bindAt (hx : Ensures (· = s) x Q E)
    (hf : ∀ a s', Q a s' → Ensures (· = s') (f a) R E) : Ensures (· = s) (x >>= f) R E :=
  hx.bind (fun a s' hs' => hf a s' hs' s' rfl)

theorem of_pureAt (h : Q a s) : Ensures (· = s) (pure a : EStateM ε σ α) Q E := by
  rintro _ rfl
  exact h

theorem of_throwAt (h : E e s) : Ensures (· = s) (throw e : EStateM ε σ α) Q E := by
  rintro _ rfl
  exact h

theorem getAt {f : σ → EStateM ε σ β} (hf : Ensures (· = s) (f s) R E) :
    Ensures (· = s) (get >>= f) R E := by
  rintro s' rfl
  exact hf s' rfl

theorem modifyAt {Q : PUnit → σ → Prop} (h : Q PUnit.unit (g s)) :
    Ensures (· = s) (modify g : EStateM ε σ PUnit) Q E := by
  rintro _ rfl
  exact h

theorem setAt {Q : PUnit → σ → Prop} (h : Q PUnit.unit s') :
    Ensures (· = s) (set s' : EStateM ε σ PUnit) Q E := by
  rintro _ rfl
  exact h

theorem modify_bindAt {f : PUnit → EStateM ε σ β}
    (hf : Ensures (· = g s) (f PUnit.unit) R E) : Ensures (· = s) (modify g >>= f) R E := by
  rintro _ rfl
  exact hf _ rfl

theorem set_bindAt {f : PUnit → EStateM ε σ β}
    (hf : Ensures (· = s') (f PUnit.unit) R E) : Ensures (· = s) (set s' >>= f) R E := by
  rintro _ rfl
  exact hf _ rfl

theorem ok (h : Ensures P x Q E) (hs : P s) (hrun : x s = .ok a s') : Q a s' := by
  have hres := h s hs
  rw [hrun] at hres
  exact hres

end Ensures

/-- Go on with the result of a call, or with what it threw. -/
def tryThen (x : EStateM ε σ α) (handler : ε → EStateM ε σ β)
    (next : α → EStateM ε σ β) : EStateM ε σ β := fun s =>
  match x s with
  | .ok a s' => next a s'
  | .error e s' => handler e s'

theorem Ensures.tryThen
    {handler : ε → EStateM ε σ β} {next : α → EStateM ε σ β} (hx : Ensures P x Q E)
    (hhandler : ∀ e, Ensures (E e) (handler e) R E') (hnext : ∀ a, Ensures (Q a) (next a) R E') :
    Ensures P (tryThen x handler next) R E' := by
  intro s hs
  have hres := hx s hs
  rw [Support.tryThen]
  rcases hrun : x s with ⟨a, s'⟩ | ⟨e, s'⟩
  · rw [hrun] at hres
    exact hnext a s' hres
  · rw [hrun] at hres
    exact hhandler e s' hres

end FiscoSmart.Support
