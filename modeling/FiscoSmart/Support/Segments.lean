import FiscoSmart.Support.SortedMap

/-!
# Ordered segments

A sorted list of bindings can be stored in segments: each segment has an upper
bound for its keys, and all its keys lie above the bound of the segment before
it.  The list is recovered by flattening.  This module gives the rules by which
segments are searched, rewritten, renamed, split and merged.
-/

namespace FiscoSmart.Support

open List

variable {κ ν : Type*}

/-- A segment is its upper bound together with its bindings. -/
abbrev Segment (κ ν : Type*) := κ × List (κ × ν)

variable {segs : List (Segment κ ν)} {s t : Segment κ ν} {c k : κ} {v : ν}

/-- The list of bindings stored in a list of segments. -/
def flatten (segs : List (Segment κ ν)) : List (κ × ν) :=
  segs.flatMap Prod.snd

theorem mem_flatten {x : κ × ν} : x ∈ flatten segs ↔ ∃ s ∈ segs, x ∈ s.2 :=
  mem_flatMap

@[simp]
theorem flatten_append (l r : List (Segment κ ν)) : flatten (l ++ r) = flatten l ++ flatten r :=
  flatMap_append

@[simp]
theorem flatten_cons (s : Segment κ ν) (l : List (Segment κ ν)) :
    flatten (s :: l) = s.2 ++ flatten l :=
  flatMap_cons

variable [LinearOrder κ]

/-- The bindings of a segment increase and stay below its bound. -/
def Segment.Bounded (s : Segment κ ν) : Prop :=
  KeysIncreasing s.2 ∧ ∀ x ∈ s.2, x.1 ≤ s.1

/-- `s` stands before `t`: the bound and the keys of `t` are above the bound of
`s`. -/
def Segment.Before (s t : Segment κ ν) : Prop :=
  s.1 < t.1 ∧ ∀ x ∈ t.2, s.1 < x.1

/-- Bounded segments in increasing order. -/
structure SegmentsOrdered (segs : List (Segment κ ν)) : Prop where
  pairwise : segs.Pairwise Segment.Before
  bounded : ∀ s ∈ segs, Segment.Bounded s

/-- In a nonempty list, a key has a first element that reaches it, or the last
element stays below it. -/
theorem exists_reaching {α : Type*} (bound : α → κ) {l : List α} (hne : l ≠ []) (k : κ) :
    ∃ front x back, l = front ++ x :: back ∧ (∀ t ∈ front, bound t < k) ∧
      (k ≤ bound x ∨ (back = [] ∧ bound x < k)) := by
  induction l with
  | nil => exact absurd rfl hne
  | cons a rest ih =>
    by_cases hk : k ≤ bound a
    · exact ⟨[], a, rest, rfl, by simp, .inl hk⟩
    · have hlt : bound a < k := lt_of_not_ge hk
      rcases rest with - | ⟨b, rest⟩
      · exact ⟨[], a, [], rfl, by simp, .inr ⟨rfl, hlt⟩⟩
      · obtain ⟨front, x, back, hEq, hfront, hx⟩ := ih (by simp)
        exact ⟨a :: front, x, back, by simp [hEq], forall_mem_cons.mpr ⟨hlt, hfront⟩, hx⟩

namespace SegmentsOrdered

theorem nil : SegmentsOrdered ([] : List (Segment κ ν)) :=
  ⟨List.Pairwise.nil, fun _ h => absurd h not_mem_nil⟩

section

variable (h : SegmentsOrdered segs)

include h

theorem bound_increasing : (segs.map Prod.fst).Pairwise (· < ·) :=
  pairwise_map.mpr (h.pairwise.imp fun hab => hab.1)

theorem flatten_increasing : KeysIncreasing (flatten segs) := by
  refine pairwise_flatMap.mpr ⟨fun s hs => (h.bounded s hs).1, ?_⟩
  refine h.pairwise.imp_of_mem ?_
  intro a b ha _ hab x hx y hy
  exact lt_of_le_of_lt ((h.bounded a ha).2 x hx) (hab.2 y hy)

theorem sublist {segs' : List (Segment κ ν)} (hsub : segs'.Sublist segs) : SegmentsOrdered segs' :=
  ⟨h.pairwise.sublist hsub, fun s hs => h.bounded s (hsub.subset hs)⟩

theorem filterValues (g : ν → Option ν) :
    SegmentsOrdered (segs.map (fun s => (s.1, filterValues g s.2))) := by
  constructor
  · refine pairwise_map.mpr (h.pairwise.imp ?_)
    rintro s t ⟨hlt, hrows⟩
    refine ⟨hlt, fun x hx => ?_⟩
    obtain ⟨v, hv, _⟩ := mem_filterValues.mp hx
    exact hrows (x.1, v) hv
  · intro s hs
    obtain ⟨t, ht, rfl⟩ := mem_map.mp hs
    obtain ⟨hinc, hle⟩ := h.bounded t ht
    refine ⟨hinc.filterValues g, fun x hx => ?_⟩
    obtain ⟨v, hv, _⟩ := mem_filterValues.mp hx
    exact hle (x.1, v) hv

end

section Around

variable {front back : List (Segment κ ν)}

/-- What it takes for a segment to stand between two lists of segments. -/
structure Fits (front back : List (Segment κ ν)) (s : Segment κ ν) : Prop where
  bounded : Segment.Bounded s
  above : ∀ t ∈ front, Segment.Before t s
  below : ∀ t ∈ back, Segment.Before s t

theorem around_iff : SegmentsOrdered (front ++ s :: back) ↔
      SegmentsOrdered front ∧ SegmentsOrdered back ∧ Fits front back s ∧
        ∀ a ∈ front, ∀ b ∈ back, Segment.Before a b := by
  constructor
  · rintro ⟨hpair, hbounded⟩
    obtain ⟨hfront, hrest, hcross⟩ := pairwise_append.mp hpair
    obtain ⟨hs, hback⟩ := pairwise_cons.mp hrest
    refine ⟨⟨hfront, fun t ht => hbounded t (by simp [ht])⟩,
      ⟨hback, fun t ht => hbounded t (by simp [ht])⟩,
      ⟨hbounded s (by simp), fun t ht => hcross t ht s (by simp), hs⟩, ?_⟩
    intro a ha b hb
    exact hcross a ha b (by simp [hb])
  · rintro ⟨hfront, hback, hfits, hcross⟩
    refine ⟨pairwise_append.mpr ⟨hfront.pairwise,
      pairwise_cons.mpr ⟨hfits.below, hback.pairwise⟩, ?_⟩, ?_⟩
    · intro a ha
      exact forall_mem_cons.mpr ⟨hfits.above a ha, hcross a ha⟩
    · exact forall_mem_append.mpr
        ⟨hfront.bounded, forall_mem_cons.mpr ⟨hfits.bounded, hback.bounded⟩⟩

section

variable (h : SegmentsOrdered (front ++ s :: back))

include h

theorem fits : Fits front back s :=
  (around_iff.mp h).2.2.1

theorem replace (ht : Fits front back t) : SegmentsOrdered (front ++ t :: back) := by
  obtain ⟨hfront, hback, _, hcross⟩ := around_iff.mp h
  exact around_iff.mpr ⟨hfront, hback, ht, hcross⟩

/-- A key above the bounds in front of a segment, and not above its own bound
unless it is the last one, has no binding in the other segments. -/
theorem not_mem_around (habove : ∀ t ∈ front, t.1 < k) (hbelow : k ≤ s.1 ∨ back = []) (v : ν) :
    (k, v) ∉ flatten front ∧ (k, v) ∉ flatten back := by
  obtain ⟨hfront, _, hfits, _⟩ := around_iff.mp h
  constructor
  · intro hx
    obtain ⟨t, ht, hx⟩ := mem_flatten.mp hx
    have hle : k ≤ t.1 := (hfront.bounded t ht).2 _ hx
    exact absurd (habove t ht) (not_lt_of_ge hle)
  · intro hx
    obtain ⟨t, ht, hx⟩ := mem_flatten.mp hx
    rcases hbelow with hle | hnil
    · have hlt : s.1 < k := (hfits.below t ht).2 _ hx
      exact absurd hle (not_le_of_gt hlt)
    · subst hnil
      exact absurd ht not_mem_nil

theorem mem_flatten_iff (habove : ∀ t ∈ front, t.1 < k) (hbelow : k ≤ s.1 ∨ back = []) :
    (k, v) ∈ flatten (front ++ s :: back) ↔ (k, v) ∈ s.2 := by
  obtain ⟨hfront, hback⟩ := h.not_mem_around habove hbelow v
  simp [hfront, hback]

end

variable {b : κ} {l r : List (κ × ν)}

theorem split (h : SegmentsOrdered (front ++ (b, l ++ r) :: back))
    (hl : ∀ x ∈ l, x.1 ≤ c) (hc : ∃ v, (c, v) ∈ l) (hr : ∀ x ∈ r, x.1 ≤ b) (hne : r ≠ []) :
    SegmentsOrdered (front ++ (c, l) :: (b, r) :: back) := by
  obtain ⟨hfront, hback, hfits, hcross⟩ := around_iff.mp h
  obtain ⟨v, hv⟩ := hc
  obtain ⟨hinc, _⟩ := hfits.bounded
  obtain ⟨hincl, hincr, hlr⟩ := pairwise_append.mp hinc
  have hcr : ∀ x ∈ r, c < x.1 := fun x hx => hlr (c, v) hv x hx
  obtain ⟨x, hx⟩ := exists_mem_of_ne_nil r hne
  have hcb : c < b := lt_of_lt_of_le (hcr x hx) (hr x hx)
  have hr' : SegmentsOrdered ((b, r) :: back) :=
    ⟨pairwise_cons.mpr ⟨hfits.below, hback.pairwise⟩,
      forall_mem_cons.mpr ⟨⟨hincr, hr⟩, hback.bounded⟩⟩
  refine around_iff.mpr ⟨hfront, hr', ⟨⟨hincl, hl⟩, ?_, ?_⟩, ?_⟩
  · intro t ht
    have habove := (hfits.above t ht).2
    exact ⟨habove (c, v) (mem_append_left _ hv),
      fun y hy => habove y (mem_append_left _ hy)⟩
  · intro t ht
    rcases mem_cons.mp ht with rfl | ht
    · exact ⟨hcb, hcr⟩
    · obtain ⟨hlt, hrows⟩ := hfits.below t ht
      exact ⟨lt_trans hcb hlt, fun y hy => lt_trans hcb (hrows y hy)⟩
  · intro a ha t ht
    rcases mem_cons.mp ht with rfl | ht
    · obtain ⟨hlt, hrows⟩ := hfits.above a ha
      exact ⟨hlt, fun y hy => hrows y (mem_append_right _ hy)⟩
    · exact hcross a ha t ht

theorem merge (h : SegmentsOrdered (front ++ (c, l) :: (b, r) :: back)) :
    SegmentsOrdered (front ++ (b, l ++ r) :: back) := by
  obtain ⟨hfront, hrest, hfits, hcross⟩ := around_iff.mp h
  obtain ⟨hbefore, hback⟩ := pairwise_cons.mp hrest.pairwise
  obtain ⟨hincr, hr⟩ := hrest.bounded (b, r) (by simp)
  obtain ⟨hincl, hl⟩ := hfits.bounded
  obtain ⟨hcb, hcr⟩ := hfits.below (b, r) (by simp)
  refine around_iff.mpr ⟨hfront, ⟨hback, fun t ht => hrest.bounded t (by simp [ht])⟩,
    ⟨⟨?_, ?_⟩, ?_, hbefore⟩, ?_⟩
  · refine pairwise_append.mpr ⟨hincl, hincr, ?_⟩
    intro x hx y hy
    exact lt_of_le_of_lt (hl x hx) (hcr y hy)
  · exact forall_mem_append.mpr ⟨fun x hx => le_of_lt (lt_of_le_of_lt (hl x hx) hcb), hr⟩
  · intro t ht
    obtain ⟨hlt, hrows⟩ := hfits.above t ht
    have hnext := hcross t ht (b, r) (by simp)
    refine ⟨hnext.1, ?_⟩
    exact forall_mem_append.mpr ⟨hrows, hnext.2⟩
  · intro a ha t ht
    exact hcross a ha t (by simp [ht])

theorem tighten {e : κ} (h : SegmentsOrdered (front ++ (b, l) :: back)) (he : ∃ v, (e, v) ∈ l)
    (hmax : ∀ x ∈ l, x.1 ≤ e) : SegmentsOrdered (front ++ (e, l) :: back) := by
  obtain ⟨v, hv⟩ := he
  obtain ⟨⟨hinc, hle⟩, habove, hbelow⟩ := h.fits
  have heb : e ≤ b := hle _ hv
  refine h.replace ⟨⟨hinc, hmax⟩, ?_, ?_⟩
  · intro t ht
    exact ⟨(habove t ht).2 _ hv, (habove t ht).2⟩
  · intro t ht
    obtain ⟨hlt, hrows⟩ := hbelow t ht
    exact ⟨lt_of_le_of_lt heb hlt, fun x hx => lt_of_le_of_lt heb (hrows x hx)⟩

end Around

/-- The bound of a segment occurs as a key in no other segment. -/
theorem bound_eq_of_mem (h : SegmentsOrdered segs) (hs : s ∈ segs) (ht : t ∈ segs)
    (hv : (s.1, v) ∈ t.2) : s.1 = t.1 := by
  obtain ⟨front, back, rfl⟩ := append_of_mem ht
  obtain ⟨_, _, hfits, _⟩ := around_iff.mp h
  rcases mem_append.mp hs with hs | hs
  · exact absurd ((hfits.above s hs).2 _ hv) (lt_irrefl s.1)
  · rcases mem_cons.mp hs with rfl | hs
    · rfl
    · have hle : s.1 ≤ t.1 := hfits.bounded.2 _ hv
      exact absurd (hfits.below s hs).1 (not_lt_of_ge hle)

end SegmentsOrdered

end FiscoSmart.Support
