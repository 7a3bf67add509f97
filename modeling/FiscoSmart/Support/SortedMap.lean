import Mathlib.Tactic

/-!
# Finite maps kept in key order

An ordered associative container (`std::map`, `std::set`) is modelled by the
list of its bindings in increasing key order, together with the proof that the
order is strict.  Strictness makes membership of a binding a partial function
of the key, so every lemma below is phrased by membership: a lookup succeeds
exactly on the bindings of the list, and two maps with the same bindings are
equal.
-/

namespace FiscoSmart.Support

open List Option

variable {κ ν : Type*} {l : List (κ × ν)} {k x : κ} {v w : ν} {f : ν → Option ν}

/-- The bindings of `l` stand in strictly increasing key order. -/
def KeysIncreasing [LT κ] (l : List (κ × ν)) : Prop :=
  l.Pairwise (fun a b => a.1 < b.1)

/-- Single-pass insertion that replaces the binding of an equal key. -/
def insertBinding [LinearOrder κ] (k : κ) (v : ν) : List (κ × ν) → List (κ × ν)
  | [] => [(k, v)]
  | (a, b) :: rest =>
    if k < a then (k, v) :: (a, b) :: rest
    else if k = a then (k, v) :: rest
    else (a, b) :: insertBinding k v rest

section Lists

variable [LinearOrder κ]

theorem KeysIncreasing.value_unique (h : KeysIncreasing l)
    (hv : (k, v) ∈ l) (hw : (k, w) ∈ l) : v = w := by
  by_contra hne
  have hpair := List.Pairwise.forall_of_forall_of_flip
    (R := fun a b : κ × ν => a.1 = b.1 → a.2 = b.2) (l := l) (fun a _ _ => rfl)
    (List.Pairwise.imp (fun {a b} hab hEq => absurd hEq (ne_of_lt hab)) h) (List.Pairwise.imp
      (fun {a b} hab hEq => absurd hEq.symm (ne_of_lt hab)) h)
  exact hne (hpair hv hw rfl)

theorem mem_of_mem_insertBinding {x : κ × ν}
    (hx : x ∈ insertBinding k v l) : x = (k, v) ∨ x ∈ l := by
  induction l with
  | nil =>
    simpa [insertBinding] using hx
  | cons a rest ih =>
    rw [insertBinding] at hx
    split_ifs at hx with hlt heq
    · simpa using hx
    · rcases mem_cons.mp hx with rfl | hx
      · exact .inl rfl
      · exact .inr (mem_cons_of_mem _ hx)
    · rcases mem_cons.mp hx with rfl | hx
      · exact .inr (mem_cons_self ..)
      · exact (ih hx).imp_right (mem_cons_of_mem _)

theorem insertBinding_increasing (h : KeysIncreasing l) : KeysIncreasing (insertBinding k v l) := by
  induction l with
  | nil => simp [insertBinding, KeysIncreasing]
  | cons a rest ih =>
    obtain ⟨hhead, htail⟩ := pairwise_cons.mp h
    rw [insertBinding]
    split_ifs with hlt heq
    · refine pairwise_cons.mpr ⟨?_, h⟩
      exact forall_mem_cons.mpr ⟨hlt, fun x hx => lt_trans hlt (hhead x hx)⟩
    · subst heq
      exact pairwise_cons.mpr ⟨hhead, htail⟩
    · refine pairwise_cons.mpr ⟨?_, ih htail⟩
      intro x hx
      rcases mem_of_mem_insertBinding hx with rfl | hx
      · exact lt_of_le_of_ne (not_lt.mp hlt) (Ne.symm heq)
      · exact hhead x hx

theorem mem_insertBinding (h : KeysIncreasing l) : (x, w) ∈ insertBinding k v l ↔
      (x = k ∧ w = v) ∨ (x ≠ k ∧ (x, w) ∈ l) := by
  induction l with
  | nil => simp [insertBinding]
  | cons a rest ih =>
    obtain ⟨a, b⟩ := a
    obtain ⟨hhead, htail⟩ := pairwise_cons.mp h
    have habove : ∀ y u, (y, u) ∈ rest → a < y := fun y u hy => hhead _ hy
    rw [insertBinding]
    split_ifs with hlt heq
    · have hne : ∀ y u, (y, u) ∈ (a, b) :: rest → y ≠ k := by
        intro y u hy
        rcases mem_cons.mp hy with hEq | hy
        · cases hEq
          exact ne_of_gt hlt
        · exact ne_of_gt (lt_trans hlt (habove y u hy))
      constructor
      · intro hx
        rcases mem_cons.mp hx with hEq | hx
        · cases hEq
          exact .inl ⟨rfl, rfl⟩
        · exact .inr ⟨hne x w hx, hx⟩
      · rintro (⟨rfl, rfl⟩ | ⟨_, hx⟩)
        · exact mem_cons_self ..
        · exact mem_cons_of_mem _ hx
    · subst heq
      constructor
      · intro hx
        rcases mem_cons.mp hx with hEq | hx
        · cases hEq
          exact .inl ⟨rfl, rfl⟩
        · exact .inr ⟨ne_of_gt (habove x w hx), mem_cons_of_mem _ hx⟩
      · rintro (⟨rfl, rfl⟩ | ⟨hne, hx⟩)
        · exact mem_cons_self ..
        · rcases mem_cons.mp hx with hEq | hx
          · cases hEq
            exact absurd rfl hne
          · exact mem_cons_of_mem _ hx
    · rw [mem_cons, mem_cons, ih htail]
      constructor
      · rintro (hEq | h' | ⟨hne, hx⟩)
        · cases hEq
          exact .inr ⟨Ne.symm heq, .inl rfl⟩
        · exact .inl h'
        · exact .inr ⟨hne, .inr hx⟩
      · rintro (h' | ⟨hne, hEq | hx⟩)
        · exact .inr (.inl h')
        · exact .inl hEq
        · exact .inr (.inr ⟨hne, hx⟩)

theorem insertBinding_of_all_lt (h : ∀ x ∈ l, x.1 < k) : insertBinding k v l = l ++ [(k, v)] := by
  induction l with
  | nil => rfl
  | cons a rest ih =>
    obtain ⟨a, b⟩ := a
    have ha : a < k := h (a, b) (mem_cons_self ..)
    have hrest : ∀ x ∈ rest, x.1 < k :=
      fun x hx => h x (mem_cons_of_mem _ hx)
    simp [insertBinding, not_lt_of_gt ha, (ne_of_lt ha).symm, ih hrest]

theorem length_insertBinding_le : (insertBinding k v l).length ≤ l.length + 1 := by
  induction l with
  | nil => rfl
  | cons a rest ih =>
    rw [insertBinding]
    split_ifs
    · rfl
    · exact Nat.le_succ _
    · exact Nat.succ_le_succ ih

/-- The value bound to `k` in a list of bindings. -/
def valueOf (l : List (κ × ν)) (k : κ) : Option ν :=
  (l.find? (fun b => b.1 = k)).map Prod.snd

theorem valueOf_eq_some (h : KeysIncreasing l) : valueOf l k = some v ↔ (k, v) ∈ l := by
  constructor
  · intro hv
    obtain ⟨⟨a, b⟩, hfound, rfl⟩ := map_eq_some_iff.mp hv
    have hkey : a = k := by simpa using find?_some hfound
    subst hkey
    exact mem_of_find?_eq_some hfound
  · intro hmem
    rcases hfound : l.find? (fun b => b.1 = k) with - | b
    · have hnone := find?_eq_none.mp hfound (k, v) hmem
      simp at hnone
    · obtain ⟨a, b⟩ := b
      have hkey : a = k := by simpa using find?_some hfound
      subst hkey
      have hb : b = v := h.value_unique (mem_of_find?_eq_some hfound) hmem
      simp [valueOf, hfound, hb]

end Lists

/-- Apply `f` to every value and drop the bindings it sends to `none`. -/
def filterValues (f : ν → Option ν) (l : List (κ × ν)) : List (κ × ν) :=
  l.filterMap (fun b => (f b.2).map (Prod.mk b.1))

theorem mem_filterValues : (k, w) ∈ filterValues f l ↔ ∃ v, (k, v) ∈ l ∧ f v = some w := by
  simp only [filterValues, mem_filterMap, map_eq_some_iff]
  constructor
  · rintro ⟨⟨a, b⟩, hmem, w', hw', hEq⟩
    cases hEq
    exact ⟨b, hmem, hw'⟩
  · rintro ⟨v, hmem, hv⟩
    exact ⟨(k, v), hmem, w, hv, rfl⟩

theorem filterValues_append (f : ν → Option ν) (l r : List (κ × ν)) :
    filterValues f (l ++ r) = filterValues f l ++ filterValues f r :=
  filterMap_append

theorem KeysIncreasing.filterValues [LT κ]
    (h : KeysIncreasing l) (f : ν → Option ν) : KeysIncreasing (filterValues f l) := by
  refine List.Pairwise.filterMap _ ?_ h
  intro a b hab a' ha' b' hb'
  obtain ⟨v, _, rfl⟩ := map_eq_some_iff.mp ha'
  obtain ⟨w, _, rfl⟩ := map_eq_some_iff.mp hb'
  exact hab

/-- A finite map given by its bindings in strictly increasing key order. -/
structure SortedMap (κ ν : Type*) [LinearOrder κ] where
  toList : List (κ × ν)
  increasing : KeysIncreasing toList
deriving DecidableEq

namespace SortedMap

variable [LinearOrder κ] {m n : SortedMap κ ν}

@[ext]
theorem ext (h : m.toList = n.toList) : m = n := by
  cases n
  cases h
  rfl

theorem ext_mem (h : ∀ k v, (k, v) ∈ m.toList ↔ (k, v) ∈ n.toList) : m = n := by
  apply SortedMap.ext
  exact List.Pairwise.eq_of_mem_iff m.increasing n.increasing (fun ⟨k, v⟩ => h k v)

def empty : SortedMap κ ν := ⟨[], List.Pairwise.nil⟩

instance : Inhabited (SortedMap κ ν) := ⟨empty⟩

@[simp]
theorem empty_toList : (empty : SortedMap κ ν).toList = [] := rfl

def find? (m : SortedMap κ ν) (k : κ) : Option ν := valueOf m.toList k

theorem find?_eq_some : m.find? k = some v ↔ (k, v) ∈ m.toList :=
  valueOf_eq_some m.increasing

theorem find?_eq_none : m.find? k = none ↔ ∀ v, (k, v) ∉ m.toList := by
  constructor
  · intro h v hmem
    rw [find?_eq_some.mpr hmem] at h
    cases h
  · intro h
    rcases hfound : m.find? k with - | v
    · rfl
    · exact absurd (find?_eq_some.mp hfound) (h v)

/-- Bind `k` to `v`, replacing an earlier binding of `k`. -/
def insert (m : SortedMap κ ν) (k : κ) (v : ν) : SortedMap κ ν :=
  ⟨insertBinding k v m.toList, insertBinding_increasing m.increasing⟩

theorem mem_insert : (x, w) ∈ (m.insert k v).toList ↔
      (x = k ∧ w = v) ∨ (x ≠ k ∧ (x, w) ∈ m.toList) :=
  mem_insertBinding m.increasing

/-- Bind `k` to `v` unless `k` already has a binding. -/
def emplace (m : SortedMap κ ν) (k : κ) (v : ν) : SortedMap κ ν :=
  if (m.find? k).isSome then m else m.insert k v

def erase (m : SortedMap κ ν) (k : κ) : SortedMap κ ν :=
  ⟨m.toList.filter (fun b => b.1 ≠ k), m.increasing.filter _⟩

theorem mem_erase : (x, w) ∈ (m.erase k).toList ↔ x ≠ k ∧ (x, w) ∈ m.toList := by
  simp [erase, and_comm]

theorem find?_insert : (m.insert k v).find? x = if x = k then some v else m.find? x := by
  ext w
  rw [find?_eq_some, mem_insert]
  split
  · rename_i heq
    simp [heq, eq_comm]
  · rename_i hne
    simp [hne, find?_eq_some]

theorem find?_emplace :
    (m.emplace k v).find? x = if x = k then some ((m.find? k).getD v) else m.find? x := by
  rw [emplace]
  rcases hfound : m.find? k with - | w
  · rw [isSome_none, if_neg Bool.false_ne_true, find?_insert]
    rfl
  · rw [isSome_some, if_pos rfl]
    split_ifs with heq
    · rw [heq, hfound]
      rfl
    · rfl

theorem find?_erase : (m.erase k).find? x = if x = k then none else m.find? x := by
  ext w
  rw [find?_eq_some, mem_erase]
  split
  · rename_i heq
    simp [heq]
  · rename_i hne
    simp [hne, find?_eq_some]

/-- The bindings whose key and value pass the test. -/
def filter (p : κ → ν → Bool) (m : SortedMap κ ν) : SortedMap κ ν :=
  ⟨m.toList.filter (fun b => p b.1 b.2), m.increasing.filter _⟩

def map {ν' : Type*} (f : ν → ν') (m : SortedMap κ ν) : SortedMap κ ν' where
  toList := m.toList.map (fun b => (b.1, f b.2))
  increasing := by
    rw [KeysIncreasing, List.pairwise_map]
    exact m.increasing

/-- Apply `f` to every value and drop the bindings it sends to `none`. -/
def filterMap (f : ν → Option ν) (m : SortedMap κ ν) : SortedMap κ ν where
  toList := filterValues f m.toList
  increasing := m.increasing.filterValues f

theorem mem_filterMap : (k, w) ∈ (m.filterMap f).toList ↔
      ∃ v, (k, v) ∈ m.toList ∧ f v = some w :=
  mem_filterValues

def firstKey? (m : SortedMap κ ν) : Option κ :=
  m.toList.head?.map Prod.fst

def lastKey? (m : SortedMap κ ν) : Option κ :=
  m.toList.getLast?.map Prod.fst

def isEmpty (m : SortedMap κ ν) : Bool := m.toList.isEmpty

theorem isEmpty_iff : m.isEmpty = true ↔ ∀ k, m.find? k = none := by
  rw [isEmpty, List.isEmpty_iff]
  constructor
  · intro h k
    exact find?_eq_none.mpr fun v hmem => by simp [h] at hmem
  · intro h
    refine eq_nil_iff_forall_not_mem.mpr ?_
    rintro ⟨k, v⟩ hmem
    exact find?_eq_none.mp (h k) v hmem

def size (m : SortedMap κ ν) : ℕ := m.toList.length

theorem size_emplace_le (m : SortedMap κ ν) (k : κ) (v : ν) :
    (m.emplace k v).size ≤ m.size + 1 := by
  rw [emplace]
  split_ifs
  · exact Nat.le_succ _
  · exact length_insertBinding_le

theorem emplace_toList_of_all_lt (h : ∀ b ∈ m.toList, b.1 < k) :
    (m.emplace k v).toList = m.toList ++ [(k, v)] := by
  have hnone : m.find? k = none :=
    find?_eq_none.mpr fun w hmem => lt_irrefl k (h (k, w) hmem)
  rw [emplace, hnone, isSome_none, if_neg Bool.false_ne_true]
  exact insertBinding_of_all_lt h

theorem lastKey?_eq_none : m.lastKey? = none ↔ m.toList = [] := by
  rw [lastKey?, Option.map_eq_none_iff, getLast?_eq_none_iff]

theorem lastKey?_eq_some : m.lastKey? = some k ↔
      (∃ v, (k, v) ∈ m.toList) ∧ ∀ x w, (x, w) ∈ m.toList → x ≤ k := by
  have hlargest : ∀ {a}, m.lastKey? = some a →
      (∃ v, (a, v) ∈ m.toList) ∧ ∀ x w, (x, w) ∈ m.toList → x ≤ a := by
    intro a h
    obtain ⟨⟨a, b⟩, hlast, rfl⟩ := map_eq_some_iff.mp h
    obtain ⟨front, hfront⟩ := getLast?_eq_some_iff.mp hlast
    have hinc := m.increasing
    rw [hfront] at hinc
    refine ⟨⟨b, by simp [hfront]⟩, ?_⟩
    intro x w hx
    rw [hfront, mem_append] at hx
    rcases hx with hx | hx
    · exact le_of_lt ((pairwise_append.mp hinc).2.2 _ hx (a, b) (mem_singleton_self _))
    · cases mem_singleton.mp hx
      exact le_refl _
  refine ⟨hlargest, ?_⟩
  rintro ⟨⟨v, hv⟩, hmax⟩
  rcases hlast : m.lastKey? with - | a
  · simp [lastKey?_eq_none.mp hlast] at hv
  · obtain ⟨⟨w, hw⟩, hmax'⟩ := hlargest hlast
    rw [le_antisymm (hmax a w hw) (hmax' k v hv)]

theorem firstKey?_eq_some (h : m.firstKey? = some k) :
    (∃ v, (k, v) ∈ m.toList) ∧ ∀ x w, (x, w) ∈ m.toList → k ≤ x := by
  obtain ⟨⟨a, b⟩, hhead, rfl⟩ := map_eq_some_iff.mp h
  obtain ⟨tail, htail⟩ := head?_eq_some_iff.mp hhead
  have hinc := m.increasing
  rw [htail] at hinc
  refine ⟨⟨b, by simp [htail]⟩, ?_⟩
  intro x w hx
  rw [htail, mem_cons] at hx
  rcases hx with hx | hx
  · cases hx
    exact le_refl _
  · exact le_of_lt ((pairwise_cons.mp hinc).1 _ hx)

end SortedMap

end FiscoSmart.Support
