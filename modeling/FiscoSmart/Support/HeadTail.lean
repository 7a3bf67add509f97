import Mathlib.Tactic

/-!
# Heads and tails

A sequence of parts of varying size is laid out in two sections.  Each part has
a head of known size in the first section: the part itself, or a reference to
where it stands in the second section.  `At data p part` says that `part`
stands at position `p` of `data`; `Placed` collects what a reader of the two
sections needs to know about them.
-/

namespace FiscoSmart.Support

open List

variable {τ : Type} {data : List τ} {p : ℕ}

/-- `part` stands at position `p`. -/
def At (data : List τ) (p : ℕ) (part : List τ) : Prop :=
  ∃ before after, data = before ++ (part ++ after) ∧ before.length = p

namespace At

variable {part part' : List τ}

theorem left (h : At data p (part ++ part')) : At data p part := by
  obtain ⟨before, after, hdata, hp⟩ := h
  exact ⟨before, part' ++ after, by rw [hdata, append_assoc], hp⟩

theorem right (h : At data p (part ++ part')) : At data (p + part.length) part' := by
  obtain ⟨before, after, hdata, hp⟩ := h
  refine ⟨before ++ part, after, ?_, ?_⟩
  · rw [hdata, append_assoc, append_assoc]
  · rw [length_append, hp]

theorem le_length (h : At data p part) : p + part.length ≤ data.length := by
  obtain ⟨before, after, rfl, rfl⟩ := h
  rw [length_append, length_append]
  omega

theorem take_drop (h : At data p part) : (data.drop p).take part.length = part := by
  obtain ⟨before, after, rfl, rfl⟩ := h
  rw [drop_left, take_left]

theorem self (data : List τ) : At data 0 data :=
  ⟨[], [], (append_nil data).symm, rfl⟩

end At

/-- A part, and whether it goes to the second section. -/
abbrev Chunk (τ : Type) := Bool × List τ

variable (reference : ℕ → List τ)

/-- The two sections; `next` is where the next part of the second section will be. -/
def layout : (next : ℕ) → List (Chunk τ) → List τ × List τ
  | _, [] => ([], [])
  | next, (true, part) :: parts =>
    (reference next ++ (layout (next + part.length) parts).1,
      part ++ (layout (next + part.length) parts).2)
  | next, (false, part) :: parts =>
    (part ++ (layout next parts).1, (layout next parts).2)

/-- The parts, with the positions of the next head and the next tail after `base`. -/
def Placed (data : List τ) (base : ℕ) : (head tail : ℕ) → List (Chunk τ) → Prop
  | _, _, [] => True
  | head, tail, (true, part) :: parts =>
    At data (base + head) (reference tail) ∧ At data (base + tail) part ∧
      Placed data base (head + (reference tail).length) (tail + part.length) parts
  | head, tail, (false, part) :: parts =>
    At data (base + head) part ∧ Placed data base (head + part.length) tail parts

variable {reference} {base : ℕ} {parts : List (Chunk τ)}

theorem placed_of_at {head tail : ℕ}
    (hheads : At data (base + head) (layout reference tail parts).1)
    (htails : At data (base + tail) (layout reference tail parts).2) :
    Placed reference data base head tail parts := by
  induction parts generalizing head tail with
  | nil => trivial
  | cons item parts ih =>
    obtain ⟨dynamic, part⟩ := item
    rcases dynamic with - | -
    · refine ⟨hheads.left, ih ?_ htails⟩
      rw [← Nat.add_assoc]
      exact hheads.right
    · refine ⟨hheads.left, htails.left, ih ?_ ?_⟩
      · rw [← Nat.add_assoc]
        exact hheads.right
      · rw [← Nat.add_assoc]
        exact htails.right

variable {next : ℕ}

theorem placed_of_append
    (h : At data base ((layout reference next parts).1 ++ (layout reference next parts).2))
    (hnext : (layout reference next parts).1.length = next) :
    Placed reference data base 0 next parts := by
  apply placed_of_at h.left
  have htails := h.right
  rwa [hnext] at htails

theorem layout_of_static (h : ∀ item ∈ parts, item.1 = false) :
    (layout reference next parts).2 = [] := by
  induction parts with
  | nil => rfl
  | cons item parts ih =>
    obtain ⟨dynamic, part⟩ := item
    obtain rfl : dynamic = false := h _ (mem_cons_self ..)
    exact ih fun item hitem => h item (mem_cons_of_mem _ hitem)

theorem placed_of_static
    (h : At data base ((layout reference next parts).1 ++ (layout reference next parts).2))
    (hstatic : ∀ item ∈ parts, item.1 = false) : Placed reference data base 0 next parts := by
  have hheads := h.left
  clear h
  suffices ∀ head, At data (base + head) (layout reference next parts).1 →
      Placed reference data base head next parts from this 0 hheads
  clear hheads
  induction parts with
  | nil => exact fun _ _ => trivial
  | cons item parts ih =>
    intro head hheads
    obtain ⟨dynamic, part⟩ := item
    obtain rfl : dynamic = false := hstatic _ (mem_cons_self ..)
    refine ⟨hheads.left, ih (fun item hitem => hstatic item (mem_cons_of_mem _ hitem)) _ ?_⟩
    rw [← Nat.add_assoc]
    exact hheads.right

end FiscoSmart.Support
