import FiscoSmart.Storage.Page

/-!
# What the page operations do

One specification per operation of `Page`: which rows the resulting pages hold,
that `m_validCount` keeps counting the rows that are not deleted, and how the
set of retired page keys changes.  Later modules use these and do not unfold
the operations.
-/

namespace FiscoSmart.Storage

open Support List SortedMap

namespace Page

variable {key x last : Key} {p : Page} {entry cur e old : Entry} {threshold : ℕ}

/-! ## Writing a row -/

@[simp]
theorem setEntry_entries (p : Page) (key : Key) (entry : Entry) :
    (p.setEntry key entry).1.entries = p.entries.insert key entry := by
  unfold setEntry
  cases p.entries.find? key <;> rfl

theorem mem_setEntry :
    (x, e) ∈ (p.setEntry key entry).1.entries.toList ↔
      (x = key ∧ e = entry) ∨ (x ≠ key ∧ (x, e) ∈ p.entries.toList) := by
  rw [setEntry_entries, mem_insert]

@[simp]
theorem setEntry_old (p : Page) (key : Key) (entry : Entry) :
    (p.setEntry key entry).2.1 = p.entries.find? key := by
  unfold setEntry
  cases p.entries.find? key <;> rfl

variable {rows : List (Key × Entry)}

theorem liveCount_insertBinding_new (hnew : ∀ e, (key, e) ∉ rows) :
    liveCount (insertBinding key entry rows) = liveCount rows + entry.live.toNat := by
  induction rows with
  | nil => simp [insertBinding]
  | cons row rest ih =>
    obtain ⟨a, b⟩ := row
    have hne : key ≠ a := by
      rintro rfl
      exact hnew b (mem_cons_self ..)
    have hrest := ih (fun e he => hnew e (mem_cons_of_mem _ he))
    rw [insertBinding]
    split_ifs
    · simp
    · simp only [liveCount_cons, hrest]
      omega

theorem liveCount_insertBinding_old (hinc : KeysIncreasing rows) (entry : Entry)
    (hold : (key, old) ∈ rows) :
    liveCount (insertBinding key entry rows) + old.live.toNat =
      liveCount rows + entry.live.toNat := by
  induction rows with
  | nil => exact absurd hold not_mem_nil
  | cons row rest ih =>
    obtain ⟨a, b⟩ := row
    obtain ⟨hhead, htail⟩ := pairwise_cons.mp hinc
    rw [insertBinding]
    rcases mem_cons.mp hold with hEq | hold
    · cases hEq
      simp only [lt_irrefl, if_false, if_true, liveCount_cons]
      omega
    · have hlt : a < key := hhead _ hold
      simp only [not_lt_of_gt hlt, (ne_of_lt hlt).symm, if_false, liveCount_cons]
      have hrest := ih htail hold
      omega

theorem replaceCount_fst {n m : ℕ} {new : Entry} (h : m + old.live.toNat = n + new.live.toNat) :
    (replaceCount (UInt32.ofNat n) old new).1 = UInt32.ofNat m := by
  cases hnew : new.live <;> cases hold : old.live <;>
    simp only [hnew, hold, Bool.toNat_false, Bool.toNat_true] at h <;>
    simp [replaceCount, hnew, hold, Bool.false_eq_true]
  · rw [show n = m by omega]
  · rw [show n = m + 1 by omega, UInt32.ofNat_add]
    exact UInt32.add_sub_cancel _ _
  · rw [show m = n + 1 by omega, UInt32.ofNat_add]
    rfl
  · rw [show n = m by omega]

theorem setEntry_countOk (h : CountOk p) (key : Key) (entry : Entry) :
    CountOk (p.setEntry key entry).1 := by
  rw [CountOk, setEntry_entries]
  change _ = UInt32.ofNat (liveCount (insertBinding key entry p.entries.toList))
  unfold setEntry
  rcases hfind : p.entries.find? key with - | old
  · rw [liveCount_insertBinding_new (find?_eq_none.mp hfind), ofNat_add_live, ← h]
  · have hmem := find?_eq_some.mp hfind
    have hcount :=
      liveCount_insertBinding_old p.entries.increasing entry hmem
    exact (congrArg (fun n => (replaceCount n old entry).1) h).trans (replaceCount_fst hcount)

/-- A write that does not report a change replaces a row and leaves the
counters and the retired keys alone. -/
theorem setEntry_unchanged (h : (p.setEntry key entry).2.2 = false) :
    (∃ old, p.entries.find? key = some old) ∧ (p.setEntry key entry).1.validCount = p.validCount ∧
      (p.setEntry key entry).1.invalidPageKeys = p.invalidPageKeys ∧
      p.invalidPageKeys.size ≠ 1 := by
  unfold setEntry at h ⊢
  rcases hfind : p.entries.find? key with - | old
  · rw [hfind] at h
    cases h
  · rw [hfind] at h
    simp only [Bool.or_eq_false_iff, beq_eq_false_iff_ne] at h
    refine ⟨⟨old, rfl⟩, ?_, rfl, h.2⟩
    have hflag := h.1
    revert hflag
    simp only [replaceCount]
    cases entry.live <;> cases old.live <;> simp

theorem setEntry_endKey_le (h : p.entries.toList ≠ []) (hle : key ≤ p.endKey) :
    (p.setEntry key entry).1.endKey = p.endKey := by
  obtain ⟨⟨e, hmem⟩, hmax⟩ := endKey_mem h
  have hold : ∀ x ∈ (p.setEntry key entry).1.entries.toList, x.1 ≤ p.endKey := by
    rintro ⟨x, w⟩ hx
    rcases mem_setEntry.mp hx with ⟨rfl, _⟩ | ⟨_, hx⟩
    · exact hle
    · exact hmax _ hx
  by_cases hkey : p.endKey = key
  · exact endKey_eq (mem_setEntry.mpr (.inl ⟨hkey, rfl⟩)) hold
  · exact endKey_eq (mem_setEntry.mpr (.inr ⟨hkey, hmem⟩)) hold

theorem setEntry_endKey_gt (entry : Entry) (hgt : ∀ x ∈ p.entries.toList, x.1 < key) :
    (p.setEntry key entry).1.endKey = key := by
  refine endKey_eq (mem_setEntry.mpr (.inl ⟨rfl, rfl⟩)) ?_
  rintro ⟨x, w⟩ hx
  rcases mem_setEntry.mp hx with ⟨rfl, _⟩ | ⟨_, hx⟩
  · exact le_refl _
  · exact le_of_lt (hgt _ hx)

/-- A row behind the others retires the last key before it. -/
theorem setEntry_retired_gt (hgt : ∀ y ∈ p.entries.toList, y.1 < key) :
    (p.setEntry key entry).1.Retired x ↔
      x ≠ key ∧ (p.entries.lastKey? = some x ∨ p.Retired x) := by
  have hfind : p.entries.find? key = none :=
    find?_eq_none.mpr fun e he => lt_irrefl _ (hgt _ he)
  rw [setEntry, hfind]
  rcases hlast : p.entries.lastKey? with - | last
  · simp [Retired, retireLastKey, hlast, mem_erase]
  · obtain ⟨⟨e, he⟩, -⟩ := lastKey?_eq_some.mp hlast
    by_cases hx : x = last
    · simp [Retired, retireLastKey, hlast, hgt _ he, mem_erase, mem_insert, hx]
    · simp [Retired, retireLastKey, hlast, hgt _ he, mem_erase, mem_insert, hx, Ne.symm hx]

theorem setEntry_retired_le (h : ¬ ∀ y ∈ p.entries.toList, y.1 < key) :
    (p.setEntry key entry).1.Retired x ↔ p.Retired x := by
  rw [setEntry]
  rcases p.entries.find? key with - | old
  · rcases hlast : p.entries.lastKey? with - | last
    · simp [lastKey?_eq_none.mp hlast] at h
    · have hle : ¬ last < key := fun hlt => h fun y hy =>
        lt_of_le_of_lt ((lastKey?_eq_some.mp hlast).2 y.1 y.2 hy) hlt
      simp [Retired, retireLastKey, hlast, hle]
  · rfl

theorem setEntry_retired (h : p.Retired x) :
    (p.setEntry key entry).1.Retired x ∨ x = (p.setEntry key entry).1.endKey := by
  by_cases hgt : ∀ y ∈ p.entries.toList, y.1 < key
  · rw [setEntry_retired_gt hgt, setEntry_endKey_gt entry hgt]
    by_cases hx : x = key
    · exact .inr hx
    · exact .inl ⟨hx, .inr h⟩
  · exact .inl ((setEntry_retired_le hgt).mpr h)

theorem setEntry_retired_sub (h : (p.setEntry key entry).1.Retired x) :
    p.Retired x ∨ ∃ e, (x, e) ∈ p.entries.toList := by
  by_cases hgt : ∀ y ∈ p.entries.toList, y.1 < key
  · rcases ((setEntry_retired_gt hgt).mp h).2 with hlast | h
    · exact .inr (lastKey?_eq_some.mp hlast).1
    · exact .inl h
  · exact .inl ((setEntry_retired_le hgt).mp h)

theorem setEntry_retires_endKey (h : p.entries.toList ≠ []) :
    (p.setEntry key entry).1.Retired p.endKey ∨ p.endKey = (p.setEntry key entry).1.endKey := by
  by_cases hlt : p.endKey < key
  · have hgt : ∀ y ∈ p.entries.toList, y.1 < key :=
      fun y hy => lt_of_le_of_lt ((endKey_mem h).2 y hy) hlt
    exact .inl ((setEntry_retired_gt hgt).mpr ⟨ne_of_lt hlt, .inl (lastKey?_eq_endKey h)⟩)
  · exact .inr (setEntry_endKey_le h (not_lt.mp hlt)).symm

/-! ## Moving rows between pages -/

variable {src dst : Page} {rest : List (Key × Entry)} {entries : SortedMap Key Entry}
  {g : Entry → Option Entry}

theorem moveEntry_rows (hsrc : src.entries.toList = (key, entry) :: rest)
    (hdst : ∀ x ∈ dst.entries.toList, x.1 < key) :
    (moveEntry key entry src dst).1.entries.toList = rest ∧
      (moveEntry key entry src dst).2.entries.toList = dst.entries.toList ++ [(key, entry)] := by
  have hinc := src.entries.increasing
  rw [hsrc] at hinc
  constructor
  · have hrest : ∀ x ∈ rest, x.1 ≠ key :=
      fun x hx => ne_of_gt ((pairwise_cons.mp hinc).1 x hx)
    simp only [moveEntry, SortedMap.erase, hsrc]
    simpa using hrest
  · have hfind : dst.entries.find? key = none :=
      find?_eq_none.mpr (fun e he => absurd (hdst _ he) (lt_irrefl _))
    simp only [moveEntry, SortedMap.emplace, hfind, SortedMap.insert]
    exact insertBinding_of_all_lt hdst

theorem moveEntry_countOk (hcsrc : CountOk src) (hcdst : CountOk dst)
    (hsrc : src.entries.toList = (key, entry) :: rest)
    (hdst : ∀ x ∈ dst.entries.toList, x.1 < key) : CountOk (moveEntry key entry src dst).1 ∧
      CountOk (moveEntry key entry src dst).2 := by
  obtain ⟨hleft, hright⟩ := moveEntry_rows hsrc hdst
  rw [CountOk] at hcsrc hcdst
  rw [CountOk, CountOk, hleft, hright]
  constructor
  · rw [hsrc, liveCount_cons] at hcsrc
    rw [ofNat_sub_live (liveCount rest) entry]
    simp [moveEntry, hcsrc]
  · rw [liveCount_append, liveCount_cons, liveCount_nil, Nat.zero_add, ofNat_add_live, ← hcdst]
    rfl

/-- Only the retired keys move. -/
theorem moveInvalidKey_rows (key : Key) (src dst : Page) :
    ((moveInvalidKey key src dst).1.entries = src.entries ∧
        (moveInvalidKey key src dst).1.validCount = src.validCount) ∧
      (moveInvalidKey key src dst).2.entries = dst.entries ∧
        (moveInvalidKey key src dst).2.validCount = dst.validCount := by
  unfold moveInvalidKey
  rcases src.invalidPageKeys.firstKey? with - | first
  · exact ⟨⟨rfl, rfl⟩, rfl, rfl⟩
  · by_cases hle : first ≤ key <;> simp [hle]

theorem moveInvalidKey_retired (key : Key) (src dst : Page) (x : Key) :
    (moveInvalidKey key src dst).1.Retired x ∨ (moveInvalidKey key src dst).2.Retired x ↔
      src.Retired x ∨ dst.Retired x := by
  unfold moveInvalidKey
  rcases hfirst : src.invalidPageKeys.firstKey? with - | first
  · exact Iff.rfl
  · by_cases hle : first ≤ key
    · obtain ⟨⟨⟨⟩, hmem⟩, _⟩ := firstKey?_eq_some hfirst
      simp only [hle, if_true, Retired, mem_erase, mem_insert]
      by_cases hEq : x = first
      · subst hEq
        simp [hmem]
      · simp [hEq]
    · simp [hle]

/-- What a loop that moves rows off the front of a page keeps true: `l` are the
rows still to be visited. -/
structure Moving (l : List (Key × Entry)) (src dst : Page) : Prop where
  rows : src.entries.toList = l
  below : ∀ x ∈ dst.entries.toList, ∀ y ∈ l, x.1 < y.1
  countSrc : CountOk src
  countDst : CountOk dst

theorem Moving.step (h : Moving ((key, entry) :: rest) src dst) :
    Moving rest (moveEntry key entry src dst).1 (moveEntry key entry src dst).2 ∧
      (moveEntry key entry src dst).2.entries.toList = dst.entries.toList ++ [(key, entry)] := by
  have hdst : ∀ x ∈ dst.entries.toList, x.1 < key :=
    fun x hx => h.below x hx _ (mem_cons_self ..)
  have hinc := src.entries.increasing
  rw [h.rows] at hinc
  obtain ⟨hleft, hright⟩ := moveEntry_rows h.rows hdst
  obtain ⟨hcl, hcr⟩ := moveEntry_countOk h.countSrc h.countDst h.rows hdst
  refine ⟨⟨hleft, ?_, hcl, hcr⟩, hright⟩
  intro x hx y hy
  rw [hright, mem_append] at hx
  rcases hx with hx | hx
  · exact h.below x hx y (mem_cons_of_mem _ hy)
  · cases mem_singleton.mp hx
    exact (pairwise_cons.mp hinc).1 y hy

theorem Moving.invalidKey {l : List (Key × Entry)} (h : Moving l src dst) (key : Key) :
    Moving l (moveInvalidKey key src dst).1 (moveInvalidKey key src dst).2 := by
  obtain ⟨⟨hes, hcs⟩, hed, hcd⟩ := moveInvalidKey_rows key src dst
  refine ⟨by rw [hes]; exact h.rows, by rw [hed]; exact h.below, ?_, ?_⟩
  · rw [CountOk, hes, hcs]
    exact h.countSrc
  · rw [CountOk, hed, hcd]
    exact h.countDst

/-! ## Splitting a page -/

/-- The result of a loop that has moved a nonempty front of `l` to `dst` and
left a nonempty rest in `src`. -/
structure SplitResult (l : List (Key × Entry)) (src dst old new : Page) :
    Prop where
  rows : ∃ front back, l = front ++ back ∧ front ≠ [] ∧ back ≠ [] ∧ old.entries.toList = back ∧
    new.entries.toList = dst.entries.toList ++ front
  countOld : CountOk old
  countNew : CountOk new
  retired : ∀ x, old.Retired x ∨ new.Retired x ↔ src.Retired x ∨ dst.Retired x

theorem splitLoop_result :
    ∀ (l : List (Key × Entry)) (src dst : Page), Moving l src dst → 2 ≤ l.length →
      SplitResult l src dst (splitLoop threshold l src dst).1
        (splitLoop threshold l src dst).2 := by
  intro l
  induction l with
  | nil =>
    intro src dst _ hlen
    simp at hlen
  | cons row rest ih =>
    obtain ⟨key, entry⟩ := row
    intro src dst hmoving hlen
    obtain ⟨hstep, hrows⟩ := hmoving.step
    have hnext := hstep.invalidKey key
    have hretired := moveInvalidKey_retired key
      (moveEntry key entry src dst).1 (moveEntry key entry src dst).2
    have hentries := (moveInvalidKey_rows key
      (moveEntry key entry src dst).1 (moveEntry key entry src dst).2).2.1
    rw [splitLoop]
    rcases rest with - | ⟨row', rest'⟩
    · simp at hlen
    · obtain ⟨key', entry'⟩ := row'
      dsimp only
      split_ifs with hstop
      · exact ⟨⟨[(key, entry)], (key', entry') :: rest', rfl, by simp,
          by simp, hnext.rows, by rw [hentries, hrows]⟩, hnext.countSrc, hnext.countDst, hretired⟩
      · have hlen' : 2 ≤ ((key', entry') :: rest').length := by
          simp only [Bool.or_eq_true, not_or, beq_iff_eq] at hstop
          have := hstop.2
          simp only [length_cons] at this ⊢
          omega
        obtain ⟨⟨front, back, hEq, _, hback, hold, hnew⟩, hco, hcn, hret⟩ :=
          ih _ _ hnext hlen'
        refine ⟨⟨(key, entry) :: front, back, by rw [hEq]; rfl, by simp,
          hback, hold, ?_⟩, hco, hcn, fun x => ?_⟩
        · rw [hnew, hentries, hrows, append_assoc]
          rfl
        · rw [hret x, hretired x]
          exact Iff.rfl

/-- `Page::split` cuts the rows in two nonempty runs.  The new page takes the
smaller keys, its last key is retired in neither page, and no other retired key
is lost. -/
theorem split_spec (hcount : CountOk p) (hlen : 2 ≤ p.entries.toList.length) :
    ∃ front back, p.entries.toList = front ++ back ∧ front ≠ [] ∧ back ≠ [] ∧
      (p.split threshold).1.entries.toList = back ∧ (p.split threshold).2.entries.toList = front ∧
      CountOk (p.split threshold).1 ∧ CountOk (p.split threshold).2 ∧
      ∀ x, (p.split threshold).1.Retired x ∨ (p.split threshold).2.Retired x ↔
        p.Retired x ∧ x ≠ (p.split threshold).2.endKey := by
  have hmoving : Moving p.entries.toList p empty :=
    ⟨rfl, by simp [empty], hcount, countOk_empty⟩
  obtain ⟨⟨front, back, hEq, hfront, hback, hold, hnew⟩, hco, hcn, hret⟩ :=
    splitLoop_result _ p empty hmoving hlen
  refine ⟨front, back, hEq, hfront, hback, hold, hnew, hco, hcn, ?_⟩
  intro x
  have hempty : ¬ empty.Retired x := by simp [Retired, empty]
  have hx := hret x
  simp only [Retired] at hx hempty
  simp only [split, Retired, mem_erase, ← and_or_left, hx, hempty, or_false]
  exact and_comm

/-! ## Merging pages -/

theorem moveEntry_dst (hcount : CountOk dst) (hnew : ∀ e, (key, e) ∉ dst.entries.toList) :
    (∀ x, x ∈ (moveEntry key entry src dst).2.entries.toList ↔
        x = (key, entry) ∨ x ∈ dst.entries.toList) ∧ CountOk (moveEntry key entry src dst).2 := by
  have hfind : dst.entries.find? key = none := find?_eq_none.mpr hnew
  have hentries : (moveEntry key entry src dst).2.entries =
      dst.entries.insert key entry := by
    simp [moveEntry, SortedMap.emplace, hfind]
  constructor
  · rintro ⟨x, w⟩
    rw [hentries, mem_insert, Prod.mk.injEq]
    constructor
    · rintro (h | ⟨_, h⟩)
      · exact .inl h
      · exact .inr h
    · rintro (h | h)
      · exact .inl h
      · refine .inr ⟨?_, h⟩
        rintro rfl
        exact hnew w h
  · rw [CountOk, hentries]
    change _ = UInt32.ofNat (liveCount (insertBinding key entry dst.entries.toList))
    rw [liveCount_insertBinding_new hnew, ofNat_add_live, ← hcount]
    rfl

theorem mergeLoop_result : ∀ (l : List (Key × Entry)) (src dst : Page),
      src.entries.toList = l → CountOk src → CountOk dst →
      (∀ x ∈ l, ∀ y ∈ dst.entries.toList, x.1 ≠ y.1) → (mergeLoop l src dst).1.entries.toList = [] ∧
        CountOk (mergeLoop l src dst).1 ∧ CountOk (mergeLoop l src dst).2 ∧
        (∀ x, x ∈ (mergeLoop l src dst).2.entries.toList ↔ x ∈ l ∨ x ∈ dst.entries.toList) ∧
        (mergeLoop l src dst).1.invalidPageKeys = src.invalidPageKeys ∧
        (mergeLoop l src dst).2.invalidPageKeys = dst.invalidPageKeys := by
  intro l
  induction l with
  | nil =>
    intro src dst hsrc hcs hcd _
    exact ⟨hsrc, hcs, hcd, by simp [mergeLoop], rfl, rfl⟩
  | cons row rest ih =>
    obtain ⟨key, entry⟩ := row
    intro src dst hsrc hcs hcd hdisj
    have hinc := src.entries.increasing
    rw [hsrc] at hinc
    have hnew : ∀ e, (key, e) ∉ dst.entries.toList := fun e he =>
      hdisj (key, entry) (mem_cons_self ..) (key, e) he rfl
    obtain ⟨hrows, hcd'⟩ : _ ∧ CountOk (moveEntry key entry src dst).2 := moveEntry_dst hcd hnew
    have hmoving : Moving ((key, entry) :: rest) src empty :=
      ⟨hsrc, by simp [empty], hcs, countOk_empty⟩
    obtain ⟨hstep, _⟩ := hmoving.step
    have hdisj' : ∀ x ∈ rest, ∀ y ∈ (moveEntry key entry src dst).2.entries.toList, x.1 ≠ y.1 := by
      intro x hx y hy
      rcases (hrows y).mp hy with rfl | hy
      · exact ne_of_gt ((pairwise_cons.mp hinc).1 x hx)
      · exact hdisj x (mem_cons_of_mem _ hx) y hy
    obtain ⟨h1, h2, h3, h4, h5, h6⟩ :=
      ih (moveEntry key entry src dst).1 (moveEntry key entry src dst).2
        hstep.rows hstep.countSrc hcd' hdisj'
    refine ⟨h1, h2, h3, ?_, h5, h6⟩
    intro x
    rw [mergeLoop, h4 x, hrows x, mem_cons]
    exact or_left_comm.trans or_assoc.symm

theorem mem_foldl_emplace (l : List (Key × Unit)) : ∀ (acc : SortedMap Key Unit) (x : Key),
      (x, ()) ∈ (l.foldl (fun acc k => acc.emplace k.1 ()) acc).toList ↔
        (x, ()) ∈ l ∨ (x, ()) ∈ acc.toList := by
  induction l with
  | nil => simp
  | cons k rest ih =>
    obtain ⟨k, ⟨⟩⟩ := k
    intro acc x
    rw [foldl_cons, ih, mem_cons, Prod.mk.injEq]
    have hemplace : (x, ()) ∈ (acc.emplace k ()).toList ↔ x = k ∨ (x, ()) ∈ acc.toList := by
      unfold SortedMap.emplace
      rcases hfind : acc.find? k with - | u
      · simp only [Option.isSome_none, Bool.false_eq_true, if_false, mem_insert]
        tauto
      · have hmem := find?_eq_some.mp hfind
        constructor
        · exact .inr
        · rintro (rfl | h)
          · exact hmem
          · exact h
    tauto

/-- `dst.merge(src)` leaves `src` without rows and gives `dst` the rows and the
retired keys of both. -/
theorem merge_spec (hcd : CountOk dst) (hcs : CountOk src)
    (hdisj : ∀ x ∈ src.entries.toList, ∀ y ∈ dst.entries.toList, x.1 < y.1) :
    (dst.merge src).1.entries.toList = [] ∧ CountOk (dst.merge src).1 ∧ CountOk (dst.merge src).2 ∧
      (dst.merge src).2.entries.toList = src.entries.toList ++ dst.entries.toList ∧
      (∀ x, (dst.merge src).1.Retired x → src.Retired x) ∧
      ∀ x, (dst.merge src).2.Retired x ↔ src.Retired x ∨ dst.Retired x := by
  obtain ⟨h1, h2, h3, h4, h5, h6⟩ := mergeLoop_result src.entries.toList src dst
    rfl hcs hcd (fun x hx y hy => ne_of_lt (hdisj x hx y hy))
  refine ⟨h1, h2, h3, ?_, ?_, ?_⟩
  · have hinc : KeysIncreasing (src.entries.toList ++ dst.entries.toList) :=
      pairwise_append.mpr ⟨src.entries.increasing, dst.entries.increasing, hdisj⟩
    have hEq : (mergeLoop src.entries.toList src dst).2.entries =
        ⟨src.entries.toList ++ dst.entries.toList, hinc⟩ := by
      apply ext_mem
      intro k v
      rw [h4, mem_append]
    exact congrArg SortedMap.toList hEq
  · intro x hx
    have hx' := mem_of_mem_filter hx
    rw [h5] at hx'
    exact hx'
  · intro x
    have hx := mem_foldl_emplace (mergeLoop src.entries.toList src dst).1.invalidPageKeys.toList
      (mergeLoop src.entries.toList src dst).2.invalidPageKeys x
    simpa only [merge, mergeKeys, Retired, h5, h6] using hx

/-! ## Importing a page -/

theorem invalidKeysOf_last
    (hlast : entries.lastKey? = some last) : (invalidKeysOf entries last).toList = [] := by
  simp [invalidKeysOf, hlast, SortedMap.empty]

theorem invalidKeysOf_ne {pageKey : Key}
    (hlast : entries.lastKey? = some last) (hne : pageKey ≠ last) :
    (invalidKeysOf entries pageKey).toList = [(pageKey, ())] := by
  simp [invalidKeysOf, hlast, hne, SortedMap.insert, insertBinding]

/-- `g` drops deleted rows and turns the others into `NORMAL` rows. -/
structure Refreshes (g : Entry → Option Entry) : Prop where
  dead : ∀ e, e.live = false → g e = none
  live : ∀ e, e.live = true → ∃ e', g e = some e' ∧ e'.status = .normal

theorem refreshes_cleanEntry : Refreshes cleanEntry := by
  constructor
  · intro e he
    simp [cleanEntry, he]
  · intro e he
    exact ⟨e.setStatus .normal, by simp [cleanEntry, he], by simp⟩

theorem Refreshes.status (h : Refreshes g)
    {e' : Entry} (he : g e = some e') : e.live = true ∧ e'.status = .normal := by
  rcases hlive : e.live with - | -
  · rw [h.dead e hlive] at he
    cases he
  · obtain ⟨e₁, he₁, hstat⟩ := h.live e hlive
    cases he₁.symm.trans he
    exact ⟨rfl, hstat⟩

theorem liveCount_filterValues (h : Refreshes g) :
    liveCount (filterValues g rows) = liveCount rows := by
  induction rows with
  | nil => rfl
  | cons row rest ih =>
    rw [filterValues] at ih ⊢
    cases hlive : row.2.live
    · simp [h.dead row.2 hlive, hlive, ih]
    · obtain ⟨e', he', hstat⟩ := h.live row.2 hlive
      have hlive' : e'.live = true := by simp [Entry.live, hstat]
      simp [he', hlive, ih, hlive']

/-! ## Undoing a change -/

theorem liveCount_filter_ne (hinc : KeysIncreasing rows)
    (hmem : (key, cur) ∈ rows) {keep : Key × Entry → Bool}
    (hkeep : ∀ b, keep b = true ↔ b.1 ≠ key) :
    liveCount (rows.filter keep) + cur.live.toNat = liveCount rows := by
  induction rows with
  | nil => exact absurd hmem not_mem_nil
  | cons row rest ih =>
    obtain ⟨a, b⟩ := row
    obtain ⟨hhead, htail⟩ := pairwise_cons.mp hinc
    rcases mem_cons.mp hmem with hEq | hmem
    · cases hEq
      have hrest : rest.filter keep = rest :=
        filter_eq_self.mpr (fun x hx => (hkeep x).mpr (ne_of_gt (hhead x hx)))
      rw [filter_cons_of_neg (by simp [hkeep]), hrest, liveCount_cons]
    · have hne : a ≠ key := ne_of_lt (hhead _ hmem)
      rw [filter_cons_of_pos ((hkeep _).mpr hne), liveCount_cons, liveCount_cons, ← ih htail hmem]
      omega

/-- Undoing the change of a row that the page holds puts the recorded entry
back, or removes the row when there was none. -/
theorem rollback_spec {change : Change}
    (hcount : CountOk p) (hcur : (change.key, cur) ∈ p.entries.toList) :
    ∃ p', p.rollback change = .ok p' ∧ CountOk p' ∧ (∀ x, p'.Retired x → p.Retired x) ∧
      ∀ k e, (k, e) ∈ p'.entries.toList ↔ (k = change.key ∧ change.entry = some e) ∨
          (k ≠ change.key ∧ (k, e) ∈ p.entries.toList) := by
  have hfind := find?_eq_some.mpr hcur
  rcases hentry : change.entry with - | old
  · refine ⟨_, by simp only [rollback, hentry, hfind]; rfl, ?_, ?_, ?_⟩
    · have hlive : liveCount (p.entries.erase change.key).toList +
          cur.live.toNat = liveCount p.entries.toList :=
        liveCount_filter_ne p.entries.increasing hcur (fun b => by simp)
      rw [CountOk, ← hlive] at hcount
      rw [CountOk, hcount]
      exact (ofNat_sub_live _ cur).symm
    · intro x hx
      simp only [Retired, reviveLastKey] at hx
      split at hx
      · split_ifs at hx
        · exact (mem_erase.mp hx).2
        · exact hx
      · exact hx
    · intro k e
      simp [mem_erase]
  · refine ⟨_, by simp only [rollback, hentry, hfind]; rfl, ?_, ?_, ?_⟩
    · have hlive := liveCount_insertBinding_old p.entries.increasing old hcur
      exact (congrArg (fun n => (replaceCount n cur old).1) hcount).trans (replaceCount_fst hlive)
    · exact fun x hx => hx
    · intro k e
      rw [mem_insert]
      simp [eq_comm]

end Page

end FiscoSmart.Storage
