import Mathlib.Tactic

/-!
# Undo logs

A log lists, newest first, the values that writes to a map have replaced.
Putting the logged values back in this order leads through the maps between the
writes to the map before the first write.
-/

namespace FiscoSmart.Support

open Function

variable {κ ν : Type} [DecidableEq κ] {start m : κ → Option ν} {log : List (κ × Option ν)}

/-- `log` lists what the writes between `start` and the present map replaced. -/
inductive UndoLog (start : κ → Option ν) :
    List (κ × Option ν) → (κ → Option ν) → Prop
  | nil : UndoLog start [] start
  | write {log : List (κ × Option ν)} {m : κ → Option ν} (h : UndoLog start log m) (k : κ) (v : ν) :
      UndoLog start ((k, m k) :: log) (update m k (some v))

namespace UndoLog

variable {k : κ} {old : Option ν}

theorem bound (h : UndoLog start log m) : ∀ x ∈ log, m x.1 ≠ none := by
  induction h with
  | nil =>
    intro x hx
    exact absurd hx List.not_mem_nil
  | write h k v ih =>
    intro x hx
    by_cases hk : x.1 = k
    · rw [hk, update_self]
      simp
    · rw [update_of_ne hk]
      rcases List.mem_cons.mp hx with rfl | hx
      · exact absurd rfl hk
      · exact ih x hx

theorem undo (h : UndoLog start ((k, old) :: log) m) : UndoLog start log (update m k old) := by
  cases h with
  | write h k v =>
    rw [update_idem, update_eq_self]
    exact h

/-- If the newest write bound a new key, no older one wrote to it. -/
theorem not_logged (h : UndoLog start ((k, none) :: log) m) : ∀ x ∈ log, x.1 ≠ k := by
  intro x hx hk
  have hbound := h.undo.bound x hx
  rw [hk, update_self] at hbound
  exact hbound rfl

theorem eq_start (h : UndoLog start [] m) : m = start := by
  cases h
  rfl

end UndoLog

/-- The map with the logged values put back, the newest first. -/
def putBack (log : List (κ × Option ν)) (m : κ → Option ν) : κ → Option ν :=
  log.foldl (fun m x => update m x.1 x.2) m

theorem UndoLog.putBack_eq (h : UndoLog start log m) : putBack log m = start := by
  induction log generalizing m with
  | nil => exact h.eq_start
  | cons x log ih => exact ih h.undo

end FiscoSmart.Support
