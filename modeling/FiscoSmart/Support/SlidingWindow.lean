import Mathlib.Tactic

/-!
# One set filled and emptied by numbered batches

The batches `1, 2, 3, …` are added one after the other to a single set, and the
arrival of a batch takes out every element of the batch that is `lag` older.
The set does not count how often an element was added, so an old batch also
takes out what a younger one added in between.  An element is therefore in the
set exactly if some batch added it and no batch with the same element has
expired since.
-/

namespace FiscoSmart.Support

variable {α : Type*} (lag : ℕ) (batch : ℕ → Set α)

/-- The elements taken out when batch `k` arrives. -/
def expiring (k : ℕ) : Set α :=
  {x | ∃ i, 0 < i ∧ i + lag = k ∧ x ∈ batch i}

/-- The set after the batches `1, …, k`. -/
def retained : ℕ → Set α
  | 0 => ∅
  | k + 1 => (retained k ∪ batch (k + 1)) \ expiring lag batch (k + 1)

/-- Some batch with the element `x` has expired between the arrivals of the
batches `j` and `k`. -/
def ExpiredBetween (x : α) (j k : ℕ) : Prop :=
  ∃ i, 0 < i ∧ x ∈ batch i ∧ j ≤ i + lag ∧ i + lag ≤ k

variable {lag batch} {x : α} {i j k : ℕ}

theorem ExpiredBetween.mono_right {l : ℕ} (h : ExpiredBetween lag batch x j k)
    (hkl : k ≤ l) : ExpiredBetween lag batch x j l := by
  obtain ⟨i, hpos, hx, hj, hk⟩ := h
  exact ⟨i, hpos, hx, hj, hk.trans hkl⟩

/-- An element leaves the set at the latest when its batch expires. -/
theorem notMem_retained_add (hpos : 0 < i) (hx : x ∈ batch i) :
    x ∉ retained lag batch (i + lag) := by
  obtain ⟨k, hk⟩ : ∃ k, i + lag = k + 1 := Nat.exists_eq_add_of_le' (by omega)
  rw [hk]
  exact fun hmem => hmem.2 ⟨i, hpos, hk, hx⟩

/-- What is in the set was added by a batch after which no batch with the same
element has expired. -/
theorem mem_retained : x ∈ retained lag batch k ↔
      ∃ j, 0 < j ∧ j ≤ k ∧ x ∈ batch j ∧ ¬ ExpiredBetween lag batch x j k := by
  induction k with
  | zero =>
    constructor
    · exact False.elim
    · rintro ⟨j, hpos, hj, _⟩
      omega
  | succ k ih =>
    constructor
    · rintro ⟨hmem | hmem, hkept⟩
      · obtain ⟨j, hpos, hj, hx, hnot⟩ := ih.mp hmem
        refine ⟨j, hpos, by omega, hx, ?_⟩
        rintro ⟨i, hi, hxi, hji, hik⟩
        rcases Nat.lt_or_ge (i + lag) (k + 1) with hlt | hge
        · exact hnot ⟨i, hi, hxi, hji, by omega⟩
        · exact hkept ⟨i, hi, by omega, hxi⟩
      · refine ⟨k + 1, by omega, le_rfl, hmem, ?_⟩
        rintro ⟨i, hi, hxi, hji, hik⟩
        exact hkept ⟨i, hi, by omega, hxi⟩
    · rintro ⟨j, hpos, hj, hx, hnot⟩
      refine ⟨?_, ?_⟩
      · rcases Nat.lt_or_ge j (k + 1) with hlt | hge
        · refine .inl (ih.mpr ⟨j, hpos, by omega, hx, ?_⟩)
          exact fun h => hnot (h.mono_right (by omega))
        · obtain rfl : j = k + 1 := by omega
          exact .inr hx
      · rintro ⟨i, hi, hik, hxi⟩
        exact hnot ⟨i, hi, hxi, by omega, by omega⟩

theorem mem_retained_of_le (hk : k ≤ lag) :
    x ∈ retained lag batch k ↔ ∃ j, 0 < j ∧ j ≤ k ∧ x ∈ batch j := by
  rw [mem_retained]
  constructor
  · rintro ⟨j, hpos, hj, hx, _⟩
    exact ⟨j, hpos, hj, hx⟩
  · rintro ⟨j, hpos, hj, hx⟩
    refine ⟨j, hpos, hj, hx, ?_⟩
    rintro ⟨i, hi, _, _, hik⟩
    omega

theorem lt_add_of_mem_retained (h : x ∈ retained lag batch k) :
    ∃ j, 0 < j ∧ j ≤ k ∧ k < j + lag ∧ x ∈ batch j := by
  obtain ⟨j, hpos, hj, hx, hnot⟩ := mem_retained.mp h
  refine ⟨j, hpos, hj, ?_, hx⟩
  by_contra hle
  exact hnot ⟨j, hpos, hx, by omega, by omega⟩

end FiscoSmart.Support
