import Mathlib.Tactic

/-!
# Trees of digests

The leaves of a tree are a list.  A level is cut into groups of `width` neighbours,
the last one perhaps shorter, and the digests of the groups are the level above.
A climb starts at a node, goes from a group that contains the node to the digest of
the group, and so on.

From every node there is a climb to the level `k` steps above it.  If digests do not
collide, every climb that ends in the tree goes through the tree: it starts as many
levels below its end as it has groups.
-/

namespace FiscoSmart.Support.HashTree

open List

section Levels

variable {α : Type*} (digest : List α → α) (width : ℕ)

/-- The group number `i` of a level. -/
def group (l : List α) (i : ℕ) : List α := (l.drop (i * width)).take width

/-- The level above. -/
def parents (l : List α) : List α :=
  (List.range ((l.length + (width - 1)) / width)).map fun i => digest (group width l i)

/-- The level `k` steps above. -/
def level (k : ℕ) (l : List α) : List α := (parents digest width)^[k] l

variable {digest width} {l : List α} {i k : ℕ} {x y : α}

@[simp]
theorem level_zero : level digest width 0 l = l := rfl

theorem level_succ : level digest width (k + 1) l = level digest width k (parents digest width l) :=
  rfl

theorem level_succ' :
    level digest width (k + 1) l = parents digest width (level digest width k l) :=
  Function.iterate_succ_apply' _ _ _

@[simp]
theorem length_parents : (parents digest width l).length = (l.length + (width - 1)) / width := by
  rw [parents, length_map, length_range]

theorem mem_of_mem_group (h : x ∈ group width l i) : x ∈ l :=
  mem_of_mem_drop (mem_of_mem_take h)

theorem length_group : (group width l i).length = min width (l.length - i * width) := by
  rw [group, length_take, length_drop]

theorem mem_parents : x ∈ parents digest width l ↔
    ∃ i < (l.length + (width - 1)) / width, digest (group width l i) = x := by
  simp [parents]

variable (digest) in
theorem length_parents_lt (hwidth : 2 ≤ width) (hl : 2 ≤ l.length) :
    (parents digest width l).length < l.length := by
  rw [length_parents, Nat.div_lt_iff_lt_mul (by omega)]
  have hmul : l.length * 2 ≤ l.length * width := Nat.mul_le_mul_left _ hwidth
  have hwide : 2 * width ≤ l.length * width := Nat.mul_le_mul_right _ hl
  omega

variable (digest) in
theorem length_parents_pos (hwidth : 0 < width) (hl : 0 < l.length) :
    0 < (parents digest width l).length := by
  rw [length_parents]
  exact Nat.div_pos (by omega) hwidth

section Group

variable (hwidth : 0 < width) (hx : l[i]? = some x)

include hwidth hx

theorem mem_group_div : x ∈ group width l (i / width) := by
  have hindex : i / width * width + i % width = i := Nat.div_add_mod' i width
  rw [group, mem_iff_getElem?]
  refine ⟨i % width, ?_⟩
  rw [getElem?_take_of_lt (Nat.mod_lt i hwidth), getElem?_drop, hindex, hx]

theorem getElem?_parents_div :
    (parents digest width l)[i / width]? = some (digest (group width l (i / width))) := by
  obtain ⟨hi, -⟩ := List.getElem?_eq_some_iff.mp hx
  have hlt : i / width < (l.length + (width - 1)) / width := by
    rw [Nat.lt_iff_add_one_le, Nat.le_div_iff_mul_le hwidth, Nat.add_mul, Nat.one_mul]
    have hle := Nat.div_mul_le_self i width
    omega
  rw [parents, getElem?_map, getElem?_range hlt]
  rfl

end Group

/-! ## Climbs -/

variable (digest) in
/-- The climb from `x` through the groups ends in `y`. -/
def Climbs : List (List α) → α → α → Prop
  | [], x, y => x = y
  | g :: groups, x, y => x ∈ g ∧ Climbs groups (digest g) y

variable (digest width) in
/-- The groups above the node `i`, up to the level `k` steps above. -/
def path : ℕ → List α → ℕ → List (List α)
  | 0, _, _ => []
  | k + 1, l, i => group width l (i / width) :: path k (parents digest width l) (i / width)

theorem exists_climbs_path (hwidth : 0 < width) (hx : l[i]? = some x) :
    ∃ y ∈ level digest width k l, Climbs digest (path digest width k l i) x y := by
  induction k generalizing l i x with
  | zero => exact ⟨x, mem_of_getElem? hx, rfl⟩
  | succ k ih =>
    obtain ⟨y, hy, hclimbs⟩ := ih (getElem?_parents_div hwidth hx)
    exact ⟨y, hy, mem_group_div hwidth hx, hclimbs⟩

theorem length_le_of_mem_path (hwidth : 0 < width) {g : List α}
    (hg : g ∈ path digest width k l i) : g.length ≤ l.length := by
  induction k generalizing l i with
  | zero => exact absurd hg not_mem_nil
  | succ k ih =>
    rcases mem_cons.mp hg with rfl | hg
    · rw [length_group]
      omega
    · have hparents : (parents digest width l).length ≤ l.length := by
        rw [length_parents, Nat.div_le_iff_le_mul_add_pred hwidth]
        have hle := Nat.le_mul_of_pos_left l.length hwidth
        omega
      exact (ih hg).trans hparents

/-- The groups of the first `d` levels. -/
def treeGroups (digest : List α → α) (width d : ℕ) (l : List α) : Set (List α) :=
  {g | ∃ k < d, ∃ i < (parents digest width (level digest width k l)).length,
    g = group width (level digest width k l) i}

theorem exists_group_of_mem_level {d : ℕ} (hk : k < d) (hx : x ∈ level digest width (k + 1) l) :
    ∃ g ∈ treeGroups digest width d l, digest g = x ∧ ∀ z ∈ g, z ∈ level digest width k l := by
  rw [level_succ', mem_parents] at hx
  obtain ⟨i, hi, hdigest⟩ := hx
  exact ⟨_, ⟨k, hk, i, by rwa [length_parents], rfl⟩, hdigest, fun _ => mem_of_mem_group⟩

section Sound

variable {G : Set (List α)} {d : ℕ} (hinjective : Set.InjOn digest G)
  (hleaf : ∀ g ∈ G, digest g ∉ l) (htree : treeGroups digest width d l ⊆ G) {groups : List (List α)}

include hinjective hleaf htree

theorem Climbs.mem_level (hgroups : ∀ g ∈ groups, g ∈ G)
    (hclimbs : Climbs digest groups x y) (hy : y ∈ level digest width d l) :
    groups.length ≤ d ∧ x ∈ level digest width (d - groups.length) l := by
  induction groups generalizing x with
  | nil =>
    obtain rfl : x = y := hclimbs
    exact ⟨Nat.zero_le d, hy⟩
  | cons g groups ih =>
    obtain ⟨hx, hclimbs⟩ := hclimbs
    have hg : g ∈ G := hgroups g (mem_cons_self ..)
    obtain ⟨hle, hmem⟩ := ih (fun g' hg' => hgroups g' (mem_cons_of_mem g hg')) hclimbs
    rcases Nat.eq_or_lt_of_le hle with heq | hlt
    · -- the digest of a group would be a leaf
      rw [heq, Nat.sub_self] at hmem
      exact absurd hmem (hleaf g hg)
    · have hsub : d - groups.length = d - (groups.length + 1) + 1 := by omega
      have hbelow : d - (groups.length + 1) < d := by omega
      rw [hsub] at hmem
      obtain ⟨g', hg', hdigest, hlevel⟩ := exists_group_of_mem_level hbelow hmem
      obtain rfl := hinjective (htree hg') hg hdigest
      exact ⟨hlt, hlevel x hx⟩

/-- Such a climb starts at a leaf exactly if it has one group for every level. -/
theorem Climbs.mem_leaves_iff (hgroups : ∀ g ∈ groups, g ∈ G)
    (hclimbs : Climbs digest groups x y) (hy : y ∈ level digest width d l) :
    x ∈ l ↔ groups.length = d := by
  obtain ⟨hle, hmem⟩ := hclimbs.mem_level hinjective hleaf htree hgroups hy
  constructor
  · intro hx
    by_contra hne
    have hsub : d - groups.length = d - groups.length - 1 + 1 := by omega
    have hbelow : d - groups.length - 1 < d := by omega
    rw [hsub] at hmem
    obtain ⟨g, hg, hdigest, -⟩ := exists_group_of_mem_level hbelow hmem
    exact hleaf g (htree hg) (hdigest ▸ hx)
  · intro heq
    rwa [heq, Nat.sub_self] at hmem

end Sound

end Levels

end FiscoSmart.Support.HashTree
