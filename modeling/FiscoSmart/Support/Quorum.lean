import Mathlib.Data.BitVec
import Mathlib.Tactic

/-!
# Weighted quorums

Votes are counted by the weights of the voters, in words of a fixed width.
-/

namespace FiscoSmart.Support

/-- A loop that adds up words. -/
def wordSum {w : ℕ} (words : List (BitVec w)) : BitVec w :=
  words.foldl (· + ·) 0

theorem toNat_foldl_add {w : ℕ} (words : List (BitVec w)) (start : BitVec w) :
    (words.foldl (· + ·) start).toNat =
      (start.toNat + (words.map BitVec.toNat).sum) % 2 ^ w := by
  induction words generalizing start with
  | nil => exact (Nat.mod_eq_of_lt start.isLt).symm
  | cons x words ih =>
    rw [List.foldl_cons, ih, BitVec.toNat_add, Nat.mod_add_mod, List.map_cons, List.sum_cons,
      Nat.add_assoc]

theorem toNat_wordSum {w : ℕ} {words : List (BitVec w)}
    (h : (words.map BitVec.toNat).sum < 2 ^ w) :
    (wordSum words).toNat = (words.map BitVec.toNat).sum := by
  simp [wordSum, toNat_foldl_add, Nat.mod_eq_of_lt h]

/-- Two sets share what their weights exceed that of all. -/
theorem sum_add_sum_le {ι : Type} [DecidableEq ι] {weight : ι → ℕ} {all A B : Finset ι}
    (hA : A ⊆ all) (hB : B ⊆ all) :
    ∑ i ∈ A, weight i + ∑ i ∈ B, weight i ≤ ∑ i ∈ all, weight i + ∑ i ∈ A ∩ B, weight i := by
  rw [← Finset.sum_union_inter]
  exact Nat.add_le_add_right (Finset.sum_le_sum_of_subset (Finset.union_subset hA hB)) _

end FiscoSmart.Support
