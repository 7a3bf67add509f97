import FiscoSmart.Support.Runs

/-!
# Runs of a machine and their specification

A machine takes steps `i : ι` by running `run i` on its state.  A step may be
subject to a condition on the state it is taken in.  If every admitted step
succeeds and matches a step of the specification, then so does every run whose
steps are all admitted.
-/

namespace FiscoSmart.Support

variable {ε σ τ ι υ : Type} {spec : ι → τ → τ} {is : List ι}

/-- Every step of the list is admitted in the state in which it is taken. -/
def Admitted (run : ι → EStateM ε σ Unit) (admits : σ → ι → Prop) : σ → List ι → Prop
  | _, [] => True
  | s, i :: is =>
    admits s i ∧ ∀ s', Runs (run i) s () s' → Admitted run admits s' is

/-- Admitted steps succeed and match the steps of the specification. -/
def Simulates (run : ι → EStateM ε σ Unit) (admits : σ → ι → Prop)
    (R : σ → τ → Prop) (spec : ι → τ → τ) : Prop :=
  ∀ s m i, R s m → admits s i → ∃ s', Runs (run i) s () s' ∧ R s' (spec i m)

/-- The specification after a list of steps. -/
def specRun (spec : ι → τ → τ) (m : τ) (is : List ι) : τ :=
  is.foldl (fun m i => spec i m) m

/-- Two specifications side by side. -/
def pairSpec {υ : Type} (spec : ι → τ → τ) (spec' : ι → υ → υ) : ι → τ × υ → τ × υ :=
  fun i m => (spec i m.1, spec' i m.2)

theorem specRun_pairSpec (spec : ι → τ → τ) (spec' : ι → υ → υ)
    (m : τ × υ) (is : List ι) : specRun (pairSpec spec spec') m is =
      (specRun spec m.1 is, specRun spec' m.2 is) := by
  induction is generalizing m with
  | nil => rfl
  | cons i is ih => exact ih _

/-- Every step of the list is admitted by the state of the specification in
which it is taken. -/
def SpecAdmitted (spec : ι → τ → τ) (admits : τ → ι → Prop) : τ → List ι → Prop
  | _, [] => True
  | m, i :: is => admits m i ∧ SpecAdmitted spec admits (spec i m) is

theorem SpecAdmitted.pair {spec' : ι → υ → υ}
    {admits : τ → ι → Prop} {m : τ × υ} (h : SpecAdmitted spec admits m.1 is) :
    SpecAdmitted (pairSpec spec spec') (fun m i => admits m.1 i) m is := by
  induction is generalizing m with
  | nil => trivial
  | cons i is ih => exact ⟨h.1, ih h.2⟩

section Run

variable {run : ι → EStateM ε σ Unit} {admits : σ → ι → Prop} {R : σ → τ → Prop} {s : σ} {m : τ}

theorem Admitted.of_forall (h : ∀ s i, admits s i) : Admitted run admits s is := by
  induction is generalizing s with
  | nil => trivial
  | cons i is ih => exact ⟨h s i, fun _ _ => ih⟩

theorem Admitted.cons_final {i : ι} (hi : admits s i)
    (his : Admitted run admits (final (run i) s) is) : Admitted run admits s (i :: is) := by
  refine ⟨hi, fun s' hrun => ?_⟩
  rw [hrun.eq_final]
  exact his

/-- Admitted runs succeed and match the runs of the specification. -/
theorem Simulates.runs (h : Simulates run admits R spec)
    (hR : R s m) (his : Admitted run admits s is) :
    ∃ s', Runs (is.forM run) s () s' ∧ R s' (specRun spec m is) := by
  induction is generalizing s m with
  | nil => exact ⟨s, .of_pure, hR⟩
  | cons i is ih =>
    obtain ⟨s₁, hrun₁, hR₁⟩ := h s m i hR his.1
    obtain ⟨s₂, hrun₂, hR₂⟩ := ih hR₁ (his.2 s₁ hrun₁)
    exact ⟨s₂, hrun₁.bind hrun₂, hR₂⟩

/-- An invariant that every step under consideration keeps. -/
theorem runs_of_invariant {invariant : σ → Prop} {considered : ι → Prop}
    (h : ∀ s i, invariant s → considered i → ∃ s', Runs (run i) s () s' ∧ invariant s')
    (hs : invariant s) (his : ∀ i ∈ is, considered i) :
    ∃ s', Runs (is.forM run) s () s' ∧ invariant s' := by
  induction is generalizing s with
  | nil => exact ⟨s, .of_pure, hs⟩
  | cons i is ih =>
    obtain ⟨s₁, hrun₁, hs₁⟩ := h s i hs (his i (List.mem_cons_self ..))
    obtain ⟨s₂, hrun₂, hs₂⟩ :=
      ih hs₁ (fun j hj => his j (List.mem_cons_of_mem _ hj))
    exact ⟨s₂, hrun₁.bind hrun₂, hs₂⟩

/-- Runs whose steps are admitted both by the state and by the specification. -/
theorem runs_of_specAdmitted {considered : τ → ι → Prop} (h : ∀ s m i, R s m → admits s i →
      considered m i → ∃ s', Runs (run i) s () s' ∧ R s' (spec i m))
    (hR : R s m) (his : Admitted run admits s is) (hspec : SpecAdmitted spec considered m is) :
    ∃ s', Runs (is.forM run) s () s' ∧ R s' (specRun spec m is) := by
  induction is generalizing s m with
  | nil => exact ⟨s, .of_pure, hR⟩
  | cons i is ih =>
    obtain ⟨s₁, hrun₁, hR₁⟩ := h s m i hR his.1 hspec.1
    obtain ⟨s₂, hrun₂, hR₂⟩ := ih hR₁ (his.2 s₁ hrun₁) hspec.2
    exact ⟨s₂, hrun₁.bind hrun₂, hR₂⟩

end Run

end FiscoSmart.Support
