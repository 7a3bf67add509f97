import Mathlib.Tactic

/-!
# Batches of updates

A list of updates is applied one after the other.  Where the updates of one key
agree, the result at this key does not depend on their order.
-/

namespace FiscoSmart.Support

open Function

variable {κ ν : Type} [DecidableEq κ]

def applyUpdates (updates : List (κ × ν)) (m : κ → ν) : κ → ν :=
  updates.foldl (fun m u => update m u.1 u.2) m

variable {updates : List (κ × ν)} {m : κ → ν} {k : κ} {v : ν}

theorem applyUpdates_of_not_mem (h : ∀ v, (k, v) ∉ updates) : applyUpdates updates m k = m k := by
  induction updates generalizing m with
  | nil => rfl
  | cons u updates ih =>
    have hne : k ≠ u.1 := by
      rintro rfl
      exact h u.2 (List.mem_cons_self ..)
    have hrest : ∀ v, (k, v) ∉ updates :=
      fun v hv => h v (List.mem_cons_of_mem _ hv)
    exact (ih hrest).trans (update_of_ne hne ..)

theorem applyUpdates_of_mem (hmem : (k, v) ∈ updates) (hagree : ∀ v', (k, v') ∈ updates → v' = v) :
    applyUpdates updates m k = v := by
  induction updates generalizing m with
  | nil => exact absurd hmem List.not_mem_nil
  | cons u updates ih =>
    have hrest : ∀ v', (k, v') ∈ updates → v' = v :=
      fun v' hv' => hagree v' (List.mem_cons_of_mem _ hv')
    by_cases hin : (k, v) ∈ updates
    · exact ih hin hrest
    · have hnone : ∀ v', (k, v') ∉ updates := by
        intro v' hv'
        rw [hrest v' hv'] at hv'
        exact hin hv'
      rcases List.mem_cons.mp hmem with rfl | hmem
      · exact (applyUpdates_of_not_mem hnone).trans (update_self ..)
      · exact absurd hmem hin

end FiscoSmart.Support
