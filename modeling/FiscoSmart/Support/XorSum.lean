import Mathlib.Data.BitVec

/-!
# Exclusive-or over a list

The exclusive or of a list of words does not depend on the order of the list
and ignores zero words.  Two duplicate-free lists therefore have the same
exclusive or of a function that vanishes where the lists differ.
-/

namespace FiscoSmart.Support

open List

variable {w : ℕ} {α : Type*} {l : List (BitVec w)} {f : α → BitVec w}

def xorSum (l : List (BitVec w)) : BitVec w :=
  l.foldr (· ^^^ ·) 0

@[simp]
theorem xorSum_nil : xorSum ([] : List (BitVec w)) = 0 := rfl

@[simp]
theorem xorSum_cons {x : BitVec w} : xorSum (x :: l) = x ^^^ xorSum l := rfl

@[simp]
theorem xorSum_append (l r : List (BitVec w)) : xorSum (l ++ r) = xorSum l ^^^ xorSum r := by
  induction l with
  | nil => simp
  | cons x l ih => simp [ih, BitVec.xor_assoc]

theorem xorSum_flatMap (f : α → List (BitVec w)) (l : List α) :
    xorSum (l.flatMap f) = xorSum (l.map (fun x => xorSum (f x))) := by
  induction l with
  | nil => rfl
  | cons x l ih => simp [ih]

theorem xorSum_perm {r : List (BitVec w)} (h : l.Perm r) : xorSum l = xorSum r := by
  induction h with
  | nil => rfl
  | cons x _ ih => rw [xorSum_cons, xorSum_cons, ih]
  | swap x y l =>
    simp [xorSum_cons, ← BitVec.xor_assoc, BitVec.xor_comm x y]
  | trans _ _ ih ih' => exact ih.trans ih'

theorem xorSum_eq_zero (h : ∀ x ∈ l, x = 0) : xorSum l = 0 := by
  induction l with
  | nil => rfl
  | cons x l ih =>
    rw [xorSum_cons, h x (mem_cons_self ..), ih (fun y hy => h y (mem_cons_of_mem x hy))]
    simp

theorem xorSum_filter (f : α → BitVec w) (l : List α) :
    xorSum ((l.filter (fun x => f x ≠ 0)).map f) = xorSum (l.map f) := by
  induction l with
  | nil => rfl
  | cons x l ih =>
    by_cases hx : f x = 0
    · rw [filter_cons_of_neg (by simpa using hx), ih]
      simp [hx]
    · rw [filter_cons_of_pos (by simpa using hx), map_cons, map_cons, xorSum_cons, xorSum_cons, ih]

theorem xorSum_congr {l r : List α} (hl : l.Nodup) (hr : r.Nodup)
    (h : ∀ x, f x ≠ 0 → (x ∈ l ↔ x ∈ r)) : xorSum (l.map f) = xorSum (r.map f) := by
  rw [← xorSum_filter f l, ← xorSum_filter f r]
  refine xorSum_perm (List.Perm.map f ?_)
  refine (perm_ext_iff_of_nodup (hl.filter _) (hr.filter _)).mpr ?_
  intro x
  simp only [mem_filter]
  constructor
  · rintro ⟨hx, hf⟩
    exact ⟨(h x (by simpa using hf)).mp hx, hf⟩
  · rintro ⟨hx, hf⟩
    exact ⟨(h x (by simpa using hf)).mpr hx, hf⟩

theorem foldl_xor {l : List α} {acc : BitVec w} :
    l.foldl (fun acc x => acc ^^^ f x) acc = acc ^^^ xorSum (l.map f) := by
  induction l generalizing acc with
  | nil => simp
  | cons x l ih => simp [ih, BitVec.xor_assoc]

theorem foldl_xor_zero {l : List α} : l.foldl (fun acc x => acc ^^^ f x) 0 = xorSum (l.map f) := by
  rw [foldl_xor]
  simp

/-- `total` is the exclusive or of `f` over all arguments at which it does not
vanish. -/
def XorOver (f : α → BitVec w) (total : BitVec w) : Prop :=
  ∃ l : List α, l.Nodup ∧ (∀ x, f x ≠ 0 → x ∈ l) ∧ total = xorSum (l.map f)

theorem XorOver.unique {total total' : BitVec w}
    (h : XorOver f total) (h' : XorOver f total') : total = total' := by
  obtain ⟨l, hl, hsupport, rfl⟩ := h
  obtain ⟨l', hl', hsupport', rfl⟩ := h'
  apply xorSum_congr hl hl'
  intro x hx
  constructor
  · intro _
    exact hsupport' x hx
  · intro _
    exact hsupport x hx

end FiscoSmart.Support
