import FiscoSmart.Storage.PlainStore

/-!
# The state hash

The hash of a storage is the exclusive or over its dirty rows, each counted
once.  It is therefore a function of the rows alone: neither the pages of a
table nor the order of the containers shows in it.
-/

namespace FiscoSmart.Storage

open Support List

variable {hashImpl : Bytes → HashType} {t : Table} {x : Table × Key}

/-- What the row under a table and key contributes to the hash. -/
def cellHash (hashImpl : Bytes → HashType) (m : PlainStore) (x : Table × Key) :
    HashType :=
  match m x.1 x.2 with
  | some e => rowHash x.1 hashImpl (x.2, e)
  | none => 0

section Cells

variable {m : PlainStore} {key : Key}

theorem cellHash_some {e : Entry} (h : m t key = some e) :
    cellHash hashImpl m (t, key) = rowHash t hashImpl (key, e) := by
  simp [cellHash, h]

theorem exists_of_cellHash_ne (h : cellHash hashImpl m x ≠ 0) : ∃ e, m x.1 x.2 = some e := by
  rcases hm : m x.1 x.2 with - | e
  · refine absurd ?_ h
    simp [cellHash, hm]
  · exact ⟨e, rfl⟩

theorem RowCache.mem_keys_iff {c : RowCache} : x ∈ c.keys ↔ ∃ e, c.find x.1 x.2 = some e := by
  rw [← AList.mem_keys, ← AList.lookup_isSome, Option.isSome_iff_exists]
  exact Iff.rfl

theorem RowCache.hash_eq (c : RowCache) :
    c.hash hashImpl = xorSum (c.keys.map (cellHash hashImpl c.find)) := by
  have hkeys : c.keys = c.entries.map Sigma.fst := rfl
  rw [RowCache.hash, foldl_xor_zero, RowCache.rows, hkeys, map_map, map_map]
  congr 1
  apply map_congr_left
  intro r hr
  have hfind : c.find r.1.1 r.1.2 = some r.2 := AList.mem_lookup_iff.mpr hr
  exact (cellHash_some hfind).symm

theorem RowCache.hash_xorOver (c : RowCache) :
    XorOver (cellHash hashImpl c.find) (c.hash hashImpl) := by
  refine ⟨c.keys, c.keys_nodup, ?_, c.hash_eq⟩
  intro x hx
  exact RowCache.mem_keys_iff.mpr (exists_of_cellHash_ne hx)

end Cells

namespace KeyPageStorage

variable {s : KeyPageStorage}

/-- The rows of the paged tables, by table and key. -/
def pagedCells (s : KeyPageStorage) : List (Table × Key) :=
  s.tables.keys.flatMap (fun t => (s.rows t).map (fun row => (t, row.1)))

theorem mem_pagedCells : x ∈ s.pagedCells ↔ x.1 ∈ s.tables ∧ ∃ e, (x.2, e) ∈ s.rows x.1 := by
  simp only [pagedCells, mem_flatMap, mem_map]
  constructor
  · rintro ⟨t, ht, row, hrow, rfl⟩
    exact ⟨AList.mem_keys.mpr ht, row.2, hrow⟩
  · rintro ⟨ht, e, he⟩
    exact ⟨x.1, AList.mem_keys.mp ht, (x.2, e), he, rfl⟩

theorem Ok.pagedCells_nodup (h : s.Ok) : s.pagedCells.Nodup := by
  rw [pagedCells, nodup_flatMap]
  constructor
  · intro t ht
    have hinc := h.rows_increasing (h.paged t (AList.mem_keys.mpr ht))
    refine List.Pairwise.map _ ?_ hinc
    intro a b hlt hEq
    exact absurd (Prod.mk.inj hEq).2 (ne_of_lt hlt)
  · refine s.tables.keys_nodup.imp ?_
    intro t t' hne x hx hx'
    obtain ⟨_, _, rfl⟩ := mem_map.mp hx
    obtain ⟨_, _, hEq⟩ := mem_map.mp hx'
    exact hne (Prod.mk.inj hEq).1.symm

theorem Ok.pagesHash_eq (h : s.Ok) :
    s.tables.entries.foldl (fun acc r => acc ^^^ r.2.hash r.1 hashImpl) 0 =
      xorSum (s.pagedCells.map (cellHash hashImpl s.contents)) := by
  have hkeys : s.tables.keys = s.tables.entries.map Sigma.fst := rfl
  rw [foldl_xor_zero, pagedCells, map_flatMap, xorSum_flatMap, hkeys, map_map]
  congr 1
  apply map_congr_left
  intro r hr
  have hmem : r.1 ∈ s.tables := mem_keys_of_mem hr
  have hpaged := h.paged r.1 hmem
  have htable : s.table r.1 = r.2 := by
    have hlookup : s.tables.lookup r.1 = some r.2 := AList.mem_lookup_iff.mpr hr
    rw [KeyPageStorage.table, hlookup, Option.getD_some]
  have hhash := hash_eq_rows r.1 hashImpl (h.sees hpaged)
    (h.table r.1 hpaged).consistent (fun k d hd => h.prev.clean r.1 k d hd)
  rw [htable] at hhash
  have hrows : s.rows r.1 = rowsOf (s.env r.1) r.2.cached := by
    rw [rows, htable]
  rw [hhash, Function.comp_apply, map_map, ← hrows]
  congr 1
  apply map_congr_left
  intro row hrow
  exact (cellHash_some ((h.contents_eq_some hpaged).mpr hrow)).symm

theorem Ok.entriesHash_eq (h : s.Ok) : s.entries.hash hashImpl =
      xorSum (s.entries.keys.map (cellHash hashImpl s.contents)) := by
  rw [RowCache.hash_eq]
  congr 1
  apply map_congr_left
  intro x hx
  obtain ⟨e, he⟩ := RowCache.mem_keys_iff.mp hx
  have hignored : x.1 ∈ s.ignoreTables := by
    by_contra hpaged
    rw [h.unpaged x.1 hpaged] at he
    cases he
  simp [cellHash, contents, if_pos hignored]

theorem Ok.untouched_clean (h : s.Ok) (ht : t ∉ s.ignoreTables)
    (huntouched : t ∉ s.tables) : ∀ row ∈ s.rows t, row.2.dirty = false := by
  have hcache : (s.table t).cached = noRecords := by
    rw [KeyPageStorage.table, AList.lookup_eq_none.mpr huntouched]
    rfl
  have hc := (h.table t ht).consistent
  intro row hrow
  rw [rows, hcache] at hrow
  rw [hcache] at hc
  obtain ⟨info, hinfo, hmem⟩ := mem_rowsOf.mp hrow
  obtain ⟨_, ⟨d, p, hrec, hp, _⟩, _⟩ := hc.infos info hinfo
  rw [hrec, pageRows_eq hp.data] at hmem
  have hfetch : s.prev.getData t info.pageKey = .ok (some d) :=
    fetch_of_recordOf rfl hrec
  exact hp.clean (h.prev.clean t _ d hfetch) row hmem

theorem Ok.hash_xorOver (h : s.Ok) : XorOver (cellHash hashImpl s.contents) (s.hash hashImpl) := by
  refine ⟨s.pagedCells ++ s.entries.keys, ?_, ?_, ?_⟩
  · rw [nodup_append]
    refine ⟨h.pagedCells_nodup, s.entries.keys_nodup, ?_⟩
    intro x hx y hy hEq
    subst hEq
    obtain ⟨e, he⟩ := RowCache.mem_keys_iff.mp hy
    rw [h.unpaged x.1 (h.paged x.1 (mem_pagedCells.mp hx).1)] at he
    cases he
  · intro x hx
    obtain ⟨e, he⟩ := exists_of_cellHash_ne hx
    apply mem_append.mpr
    by_cases hignored : x.1 ∈ s.ignoreTables
    · right
      rw [contents, if_pos hignored] at he
      exact RowCache.mem_keys_iff.mpr ⟨e, he⟩
    · left
      have hrow := (h.contents_eq_some hignored).mp he
      refine mem_pagedCells.mpr ⟨?_, e, hrow⟩
      by_contra huntouched
      apply hx
      simp [cellHash, he, rowHash, h.untouched_clean hignored huntouched _ hrow, Bool.false_eq_true]
  · rw [hash, h.pagesHash_eq, h.entriesHash_eq, map_append, xorSum_append]
    simp

end KeyPageStorage

end FiscoSmart.Storage
