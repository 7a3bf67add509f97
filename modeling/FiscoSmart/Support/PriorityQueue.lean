import Mathlib.Tactic

/-!
# Priority queues

A priority queue gives out an element of least rank.  Which one it is when there
are several is left to the implementation, so a program that works with every
`PriorityQueue` does not depend on it.  Programs mostly take elements off as long
as they meet a condition on the rank; what they get and what they leave is a
matter of filtering.
-/

namespace FiscoSmart.Support

open Multiset

structure PriorityQueue (α : Type) (rank : α → ℕ) where
  Carrier : Type
  elems : Carrier → Multiset α
  size : Carrier → ℕ
  empty : Carrier
  push : α → Carrier → Carrier
  top : Carrier → Option α
  pop : Carrier → Carrier
  size_eq : ∀ q, size q = (elems q).card
  elems_empty : elems empty = 0
  elems_push : ∀ a q, elems (push a q) = a ::ₘ elems q
  elems_of_top_none : ∀ {q}, top q = none → elems q = 0
  elems_of_top : ∀ {q a}, top q = some a → elems q = a ::ₘ elems (pop q)
  rank_top_le : ∀ {q a b}, top q = some a → b ∈ elems q → rank a ≤ rank b

namespace PriorityQueue

variable {α : Type} {rank : α → ℕ} (Q : PriorityQueue α rank) {q : Q.Carrier} {a b : α}
  {p : α → Bool}

theorem mem_of_top (h : Q.top q = some a) : a ∈ Q.elems q := by
  rw [Q.elems_of_top h]
  exact mem_cons_self a _

theorem size_of_top (h : Q.top q = some a) : Q.size q = Q.size (Q.pop q) + 1 := by
  rw [Q.size_eq, Q.size_eq, Q.elems_of_top h, card_cons]

/-! ## Taking elements off -/

/-- Takes off at most `n` elements, as long as they meet `p`. -/
def drain (p : α → Bool) : ℕ → Q.Carrier → List α × Q.Carrier
  | 0, q => ([], q)
  | n + 1, q =>
    match Q.top q with
    | none => ([], q)
    | some a =>
      if p a then
        let rest := drain p n (Q.pop q)
        (a :: rest.1, rest.2)
      else ([], q)

/-- Takes elements off as long as they meet `p`. -/
def popWhile (p : α → Bool) (q : Q.Carrier) : List α × Q.Carrier :=
  Q.drain p (Q.size q) q

/-- The elements that meet `p` come before the others. -/
def Initial (rank : α → ℕ) (p : α → Bool) : Prop :=
  ∀ ⦃a b⦄, rank a ≤ rank b → p b = true → p a = true

theorem drain_spec (hp : Initial rank p) (n : ℕ) (q : Q.Carrier)
    (hn : Q.size q = n) : ((Q.drain p n q).1 : Multiset α) = (Q.elems q).filter (p · = true) ∧
      Q.elems (Q.drain p n q).2 = (Q.elems q).filter (¬ p · = true) := by
  induction n generalizing q with
  | zero =>
    have hempty : Q.elems q = 0 := by
      rwa [Q.size_eq, card_eq_zero] at hn
    simp [drain, hempty]
  | succ n ih =>
    rcases htop : Q.top q with - | a
    · have hempty := Q.elems_of_top_none htop
      simp [drain, htop, hempty]
    · by_cases ha : p a = true
      · rw [Q.size_of_top htop, Nat.add_right_cancel_iff] at hn
        obtain ⟨htaken, hleft⟩ := ih (Q.pop q) hn
        simp only [drain, htop, ha, if_true, Q.elems_of_top htop]
        rw [← cons_coe, htaken, hleft]
        simp [ha]
      · -- the top does not meet `p`, so no element does
        have hnone : ∀ b ∈ Q.elems q, ¬ p b = true :=
          fun b hb hpb => ha (hp (Q.rank_top_le htop hb) hpb)
        simp only [drain, htop, ha]
        rw [filter_eq_nil.mpr hnone, filter_eq_self.mpr hnone]
        exact ⟨rfl, rfl⟩

theorem elems_popWhile (hp : Initial rank p) (q : Q.Carrier) :
    Q.elems (Q.popWhile p q).2 = (Q.elems q).filter (¬ p · = true) :=
  (Q.drain_spec hp _ q rfl).2

theorem popWhile_taken (hp : Initial rank p) (q : Q.Carrier) :
    ((Q.popWhile p q).1 : Multiset α) = (Q.elems q).filter (p · = true) :=
  (Q.drain_spec hp _ q rfl).1

theorem elems_foldl_push (l : List α) (q : Q.Carrier) :
    Q.elems (l.foldl (fun q a => Q.push a q) q) = (l : Multiset α) + Q.elems q := by
  induction l generalizing q with
  | nil => simp
  | cons a l ih =>
    rw [List.foldl_cons, ih, Q.elems_push, ← cons_coe, add_cons, cons_add]

/-- The elements with a rank of at most `n` are taken off. -/
def dropUpTo (n : ℕ) (q : Q.Carrier) : Q.Carrier :=
  (Q.popWhile (fun a => decide (rank a ≤ n)) q).2

theorem elems_dropUpTo {n : ℕ} : Q.elems (Q.dropUpTo n q) = (Q.elems q).filter (n < rank ·) := by
  have hp : Initial rank fun a => decide (rank a ≤ n) := fun a b hab hb => by
    simp only [decide_eq_true_eq] at hb ⊢
    exact hab.trans hb
  rw [dropUpTo, Q.elems_popWhile hp]
  exact filter_congr fun a _ => by simp

theorem mem_dropUpTo {n : ℕ} : a ∈ Q.elems (Q.dropUpTo n q) ↔ a ∈ Q.elems q ∧ n < rank a := by
  rw [Q.elems_dropUpTo, mem_filter]

/-! ## Sorted lists -/

/-- The elements in the order of their ranks, a new one before those of its rank. -/
def sortedList (rank : α → ℕ) : PriorityQueue α rank where
  Carrier := {l : List α // l.Pairwise (rank · ≤ rank ·)}
  elems q := q.1
  size q := q.1.length
  empty := ⟨[], List.Pairwise.nil⟩
  push a q := ⟨q.1.orderedInsert (rank · ≤ rank ·) a, by
    have : Std.Total (fun a b : α => rank a ≤ rank b) := ⟨fun a b => le_total _ _⟩
    have : IsTrans α (fun a b : α => rank a ≤ rank b) := ⟨fun _ _ _ => le_trans⟩
    exact q.2.orderedInsert a _⟩
  top q := q.1.head?
  pop q := ⟨q.1.tail, q.2.tail⟩
  size_eq q := rfl
  elems_empty := rfl
  elems_push a q := Multiset.coe_eq_coe.mpr (List.perm_orderedInsert _ a q.1)
  elems_of_top_none h := by rw [List.head?_eq_none_iff.mp h, Multiset.coe_nil]
  elems_of_top h := by rw [Multiset.cons_coe, List.cons_head?_tail h]
  rank_top_le := by
    rintro ⟨_ | ⟨c, l⟩, hl⟩ a b ha hb
    · cases ha
    · obtain rfl : c = a := Option.some.inj ha
      rcases List.mem_cons.mp (Multiset.mem_coe.mp hb) with rfl | hb
      · exact le_rfl
      · exact List.rel_of_pairwise_cons hl hb

end PriorityQueue

end FiscoSmart.Support
