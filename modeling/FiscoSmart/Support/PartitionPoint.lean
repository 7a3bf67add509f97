import Mathlib.Tactic

/-!
# Binary search for a partition point

`std::lower_bound` and `std::upper_bound` halve a range until it is empty.  The
loop below is theirs.  On a list that a predicate cuts into a front where it
holds and a back where it fails, the loop returns the length of the front.
-/

namespace FiscoSmart.Support

variable {α : Type*} {l r : List α}

/-- The halving loop on the range of `len` positions that starts at `first`. -/
def partitionLoop (p : ℕ → Bool) : ℕ → ℕ → ℕ → ℕ
  | 0, first, _ => first
  | fuel + 1, first, len =>
    if len = 0 then first
    else if p (first + len / 2) then
      partitionLoop p fuel (first + len / 2 + 1) (len - len / 2 - 1)
    else partitionLoop p fuel first (len / 2)

/-- The position the binary search for `p` returns on `l`. -/
def partitionPoint (p : α → Bool) (l : List α) : ℕ :=
  partitionLoop (fun i => (l[i]?).any p) l.length 0 l.length

theorem partitionLoop_eq {p : ℕ → Bool} {n : ℕ} :
    ∀ (fuel first len : ℕ), len ≤ fuel → first ≤ n → n ≤ first + len →
      (∀ i, first ≤ i → i < n → p i = true) → (∀ i, n ≤ i → i < first + len → p i = false) →
      partitionLoop p fuel first len = n := by
  intro fuel
  induction fuel with
  | zero =>
    simp only [partitionLoop]
    omega
  | succ fuel ih =>
    intro first len hfuel hfirst hn hbelow habove
    rw [partitionLoop]
    split_ifs with hzero hmid
    · omega
    · have hlt : first + len / 2 < n := by
        by_contra hge
        have hfalse := habove (first + len / 2) (by omega) (by omega)
        rw [hmid] at hfalse
        cases hfalse
      apply ih
      · omega
      · omega
      · omega
      · intro i hi
        exact hbelow i (by omega)
      · intro i hi hlt'
        exact habove i hi (by omega)
    · have hge : n ≤ first + len / 2 := by
        by_contra hlt
        exact hmid (hbelow (first + len / 2) (by omega) (by omega))
      apply ih
      · omega
      · exact hfirst
      · exact hge
      · exact hbelow
      · intro i hi hlt'
        exact habove i hi (by omega)

theorem partitionPoint_append {p : α → Bool}
    (hl : ∀ x ∈ l, p x = true) (hr : ∀ x ∈ r, p x = false) :
    partitionPoint p (l ++ r) = l.length := by
  apply partitionLoop_eq
  · exact Nat.le_refl _
  · exact Nat.zero_le _
  · simp
  · intro i _ hi
    rw [List.getElem?_append_left hi, List.getElem?_eq_getElem hi]
    exact hl _ (List.getElem_mem hi)
  · intro i hi hlt
    rw [List.getElem?_append_right hi]
    have hlt' : i - l.length < r.length := by
      simp at hlt
      omega
    rw [List.getElem?_eq_getElem hlt']
    exact hr _ (List.getElem_mem hlt')

/-! ## The element behind a front of known length -/

theorem modify_length {g : α → α} {x : α} : (l ++ x :: r).modify l.length g = l ++ g x :: r := by
  induction l <;> simp_all

theorem insertIdx_length (l : List α) (x : α) (r : List α) :
    (l ++ r).insertIdx l.length x = l ++ x :: r := by
  induction l <;> simp_all

end FiscoSmart.Support
