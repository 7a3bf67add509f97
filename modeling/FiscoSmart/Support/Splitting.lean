import Mathlib.Tactic

/-!
# Splitting at separators

`splitTokens` splits a list at its runs of separators, as `boost::split` does
with compressed tokens: a separator at the beginning or at the end gives an
empty token, but adjacent separators count as one.
-/

namespace FiscoSmart.Support

variable {α : Type} [DecidableEq α] {sep : α}

def splitTokens (sep : α) : List α → List (List α)
  | [] => [[]]
  | c :: rest =>
    if c = sep then
      if rest.head? = some sep then splitTokens sep rest else [] :: splitTokens sep rest
    else (splitTokens sep rest).modifyHead (c :: ·)

theorem splitTokens_of_not_mem {t : List α} (h : sep ∉ t) : splitTokens sep t = [t] := by
  induction t with
  | nil => rfl
  | cons c t ih =>
    rw [List.mem_cons, not_or] at h
    rw [splitTokens, if_neg (Ne.symm h.1), ih h.2]
    rfl

theorem splitTokens_append {t rest : List α} (h : sep ∉ t) (hrest : rest.head? ≠ some sep) :
    splitTokens sep (t ++ sep :: rest) = t :: splitTokens sep rest := by
  induction t with
  | nil =>
    rw [List.nil_append, splitTokens, if_pos rfl, if_neg hrest]
  | cons c t ih =>
    rw [List.mem_cons, not_or] at h
    rw [List.cons_append, splitTokens, if_neg (Ne.symm h.1), ih h.2]
    rfl

end FiscoSmart.Support
