import FiscoSmart.Storage.PageSpec
import FiscoSmart.Storage.Archive

/-!
# Reading back what was saved

The round trip of pages and page indexes through an archive.  A page comes back
with its live rows, all `NORMAL`, and an index without its empty pages.
-/

namespace FiscoSmart.Storage

open Support List

namespace Page

variable {p : Page} {value : Bytes}

/-- What is read back of a row. -/
def storedEntry (e : Entry) : Option Entry :=
  if e.live then some ⟨e.get, e.get.length, .normal⟩ else none

theorem refreshes_storedEntry : Refreshes storedEntry := by
  constructor
  · intro e he
    simp [storedEntry, he]
  · intro e he
    exact ⟨⟨e.get, e.get.length, .normal⟩, by simp [storedEntry, he], rfl⟩

theorem emplace_toList {m : SortedMap Key Entry} {key : Key} (entry : Entry)
    (h : ∀ x ∈ m.toList, x.1 < key) :
    (m.emplace key entry).toList = m.toList ++ [(key, entry)] := by
  have hnone : m.find? key = none := by
    rw [SortedMap.find?_eq_none]
    intro v hv
    exact absurd (h _ hv) (lt_irrefl key)
  rw [SortedMap.emplace, hnone]
  exact insertBinding_of_all_lt h

theorem loadRows_saveRows (rows : List (Key × Entry)) (p : Page)
    (hinc : KeysIncreasing (p.entries.toList ++ rows)) :
    ∃ p', loadRows (liveCount rows) (rows.flatMap saveRow) p = some p' ∧
      p'.entries.toList = p.entries.toList ++ filterValues storedEntry rows ∧
      p'.validCount = p.validCount := by
  induction rows generalizing p with
  | nil => exact ⟨p, rfl, by simp [filterValues], rfl⟩
  | cons row rows ih =>
    obtain ⟨key, entry⟩ := row
    have hrest : KeysIncreasing (p.entries.toList ++ rows) :=
      List.Pairwise.sublist (List.Sublist.append_left (sublist_cons_self _ _) _) hinc
    rcases hlive : entry.live with - | -
    · obtain ⟨p', hload, hrows, hcount⟩ := ih p hrest
      refine ⟨p', ?_, ?_, hcount⟩
      · simpa [saveRow, hlive] using hload
      · simpa [filterValues, storedEntry, hlive] using hrows
    · have hbelow : ∀ x ∈ p.entries.toList, x.1 < key := by
        intro x hx
        exact (pairwise_append.mp hinc).2.2 x hx _ (mem_cons_self ..)
      have hentries := emplace_toList (⟨entry.get, entry.get.length, .normal⟩ : Entry) hbelow
      have hstored : KeysIncreasing ((p.entries.emplace key
          ⟨entry.get, entry.get.length, .normal⟩).toList ++ rows) := by
        rw [hentries, append_assoc]
        obtain ⟨hleft, hright, hcross⟩ := pairwise_append.mp hinc
        obtain ⟨hhead, htail⟩ := pairwise_cons.mp hright
        refine pairwise_append.mpr ⟨hleft, pairwise_cons.mpr ⟨hhead, htail⟩, ?_⟩
        intro x hx y hy
        rcases mem_cons.mp hy with rfl | hy
        · exact hbelow x hx
        · exact hcross x hx y (mem_cons_of_mem _ hy)
      obtain ⟨p', hload, hrows, hcount⟩ := ih { p with
          entries := p.entries.emplace key ⟨entry.get, entry.get.length, .normal⟩
          size := p.size + UInt32.ofNat entry.get.length + UInt32.ofNat key.length } hstored
      refine ⟨p', ?_, ?_, hcount⟩
      · simpa [saveRow, hlive, loadRows] using hload
      · rw [hrows, hentries]
        simp [filterValues, storedEntry, hlive]

theorem storedEntry_self : storedEntry ⟨value, value.length, .normal⟩ =
      some ⟨value, value.length, .normal⟩ := by
  simp [storedEntry, Entry.live, Entry.get]

theorem loadRows_stored {n : ℕ} {items : List ArchiveItem} {p' : Page}
    (h : loadRows n items p = some p')
    (hp : ∀ row ∈ p.entries.toList, storedEntry row.2 = some row.2) :
    ∀ row ∈ p'.entries.toList, storedEntry row.2 = some row.2 := by
  fun_induction loadRows n items p with
  | case1 p =>
    cases h
    exact hp
  | case2 _ _ _ _ _ ih =>
    apply ih h
    rintro ⟨x, e⟩ hrow
    rw [SortedMap.emplace] at hrow
    split_ifs at hrow
    · exact hp _ hrow
    · rcases SortedMap.mem_insert.mp hrow with ⟨_, rfl⟩ | ⟨_, hrow⟩
      · exact storedEntry_self
      · exact hp _ hrow
  | case3 => cases h
  | case4 => cases h

theorem ofValue_stored {archive : Archive} {pageKey : Key}
    (h : ofValue archive value pageKey = .ok p) :
    ∀ row ∈ p.entries.toList, storedEntry row.2 = some row.2 := by
  unfold ofValue at h
  split_ifs at h
  · cases h
    intro row hrow
    exact absurd hrow not_mem_nil
  · split at h
    · cases h
    · rename_i p' hload
      split at h
      · cases h
      · cases h
        obtain ⟨items, _, hitems⟩ := Option.bind_eq_some_iff.mp hload
        unfold load at hitems
        split at hitems
        · have hrows := loadRows_stored hitems (fun row hrow => absurd hrow not_mem_nil)
          exact hrows
        · cases hitems

theorem ofValue_save (archive : Archive) (p : Page) (pageKey : Key)
    (hcount : p.validCount.toNat = liveCount p.entries.toList)
    (hlive : ∃ row ∈ p.entries.toList, row.2.live = true) :
    ∃ p', ofValue archive (archive.write p.save) pageKey = .ok p' ∧
      p'.entries.toList = filterValues storedEntry p.entries.toList ∧ p'.validCount = p.validCount ∧
      p'.invalidPageKeys = invalidKeysOf p'.entries pageKey := by
  have hcountBack : UInt32.ofNat p.validCount.toNat = p.validCount :=
    UInt32.ofNat_toNat
  have hinc : KeysIncreasing ((SortedMap.empty : SortedMap Key Entry).toList ++ p.entries.toList) :=
    p.entries.increasing
  obtain ⟨p', hload, hrows, hvalid⟩ := loadRows_saveRows p.entries.toList
    ⟨SortedMap.empty, 0, p.validCount, SortedMap.empty⟩ hinc
  have hnonempty : p'.entries.toList ≠ [] := by
    obtain ⟨row, hrow, hrowLive⟩ := hlive
    obtain ⟨e', he', _⟩ := refreshes_storedEntry.live row.2 hrowLive
    rw [hrows]
    exact ne_nil_of_mem (mem_filterValues.mpr ⟨row.2, hrow, he'⟩)
  have hread : (archive.read (archive.write p.save)).bind load = some p' := by
    rw [archive.read_write, Option.bind_some, save, load, hcountBack, hcount]
    exact hload
  refine ⟨{ p' with invalidPageKeys := invalidKeysOf p'.entries pageKey }, ?_, hrows, hvalid, rfl⟩
  rw [ofValue, if_neg (archive.write_ne_nil _), hread]
  simp [lastKey?_eq_endKey hnonempty]

end Page

namespace TableMeta

theorem loadInfos_saveInfos {pages : List PageInfo} :
    loadInfos pages.length (pages.flatMap saveInfo) =
      some (pages.map (fun info => { info with pageData := none })) := by
  induction pages with
  | nil => rfl
  | cons info pages ih =>
    simp [saveInfo, loadInfos, ih]

theorem ofValue_save (archive : Archive) (m : TableMeta) :
    ofValue archive (archive.write m.save) = .ok m.clean := by
  have hread : (archive.read (archive.write m.save)).bind load =
      some m.clean := by
    rw [archive.read_write, Option.bind_some, save, load, loadInfos_saveInfos]
    rfl
  rw [ofValue, if_neg (archive.write_ne_nil _), hread]

end TableMeta

end FiscoSmart.Storage
