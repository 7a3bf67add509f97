import FiscoSmart.Storage.StorageInvariant

/-!
# Stacked storages

A `KeyPageStorage` on top of another one imports cleaned copies of the records
below.  A copy of an imported record imports as itself, so a storage at any
height of a stack sees the same clean records, and it starts from the live rows
of the storage below.
-/

namespace FiscoSmart.Storage

open Support

variable {k : Key} {d : Data} {archive : Archive} {e : Entry}

/-! ## Importing a record -/

section Imported

variable {d' : Data} {p : Page} {m : TableMeta}

theorem Data.imported_page (hk : k ≠ []) (hkey : d.key = k) (hdata : d.data = .page p) :
    d.imported = .ok ⟨k, d.type, d.entry.setStatus .normal, .page (p.clean k)⟩ := by
  subst hkey
  rw [Data.imported, if_pos hk, hdata]

theorem Data.imported_meta (h : MetaRecord d m) :
    d.imported = .ok ⟨tableMetaKey, .tableMeta, d.entry.setStatus .normal,
      .tableMeta m.clean⟩ := by
  rw [Data.imported, if_neg (by simp [h.key]), h.data, ← h.key, ← h.type]

theorem Data.imported_clean (h : d.imported = .ok d') : d'.entry.dirty = false := by
  have hentry : d'.entry = d.entry.setStatus .normal := by
    unfold Data.imported at h
    split_ifs at h <;> split at h <;> cases h <;> rfl
  simp [hentry, Entry.dirty]

theorem cleanEntry_normal {e' : Entry} (h : Page.cleanEntry e = some e') :
    Page.cleanEntry e' = some e' := by
  unfold Page.cleanEntry at h ⊢
  split_ifs at h
  cases h
  simp [Entry.live, Entry.setStatus]

theorem Page.clean_clean (p : Page) (k : Key) : (p.clean k).clean k = p.clean k := by
  have hentries : (p.entries.filterMap Page.cleanEntry).filterMap
      Page.cleanEntry = p.entries.filterMap Page.cleanEntry := by
    apply SortedMap.ext_mem
    intro x e
    rw [SortedMap.mem_filterMap]
    constructor
    · rintro ⟨v, hv, he⟩
      obtain ⟨w, _, hw⟩ := SortedMap.mem_filterMap.mp hv
      cases (cleanEntry_normal hw).symm.trans he
      exact hv
    · intro he
      obtain ⟨w, _, hw⟩ := SortedMap.mem_filterMap.mp he
      exact ⟨e, he, cleanEntry_normal hw⟩
  simp [Page.clean, hentries]

theorem TableMeta.clean_clean (m : TableMeta) : m.clean.clean = m.clean := by
  have hkeeps : ∀ info ∈ (m.pages.filter keeps).map
      (fun info => { info with pageData := none }), keeps info = true := by
    intro info hinfo
    obtain ⟨i, hi, rfl⟩ := List.mem_map.mp hinfo
    exact (List.mem_filter.mp hi).2
  simp [TableMeta.clean, List.filter_eq_self.mpr hkeeps, List.map_map, Function.comp_def]

theorem Data.imported_imported (h : d.imported = .ok d') : d'.imported = .ok d' := by
  have hstat : (d.entry.setStatus .normal).setStatus .normal =
      d.entry.setStatus .normal := by
    simp [Entry.setStatus]
  unfold Data.imported at h
  split_ifs at h with hkey
  · split at h
    · cases h
      simp [Data.imported, hkey, Page.clean_clean, hstat]
    · cases h
  · split at h
    · cases h
      simp [Data.imported, not_not.mp hkey, TableMeta.clean_clean, hstat]
    · cases h

theorem PageRecord.refreshed {g : Entry → Option Entry}
    (h : PageRecord k d p) (p' : Page) (hg : Page.Refreshes g) (hk : k ≠ [])
    (hlive : ∃ row ∈ p.entries.toList, row.2.live = true)
    (hrows : p'.entries.toList = filterValues g p.entries.toList)
    (hcount : p'.validCount = p.validCount)
    (hinvalid : p'.invalidPageKeys = Page.invalidKeysOf p'.entries k) (he : e.status = .normal) :
    PageRecord k ⟨k, .page, e, .page p'⟩ p' := by
  have hmem : ∀ x e', (x, e') ∈ p'.entries.toList →
      ∃ e, (x, e) ∈ p.entries.toList ∧ g e = some e' := by
    intro x e' hx
    rw [hrows] at hx
    exact mem_filterValues.mp hx
  have hnonempty : p'.entries.toList ≠ [] := by
    obtain ⟨row, hrow, hrowLive⟩ := hlive
    obtain ⟨e', he', _⟩ := hg.live row.2 hrowLive
    rw [hrows]
    exact List.ne_nil_of_mem (mem_filterValues.mpr ⟨row.2, hrow, he'⟩)
  have hlast := Page.lastKey?_eq_endKey hnonempty
  refine ⟨rfl, rfl, rfl, hnonempty, ?_, ?_, ?_, by simp [he], ?_, ?_⟩
  · rintro ⟨x, e'⟩ hrow
    obtain ⟨old, hold, _⟩ := hmem x e' hrow
    exact h.keys (x, old) hold
  · intro x hx
    rw [Page.Retired, hinvalid] at hx
    by_cases hEq : k = p'.endKey
    · rw [Page.invalidKeysOf_last (hEq ▸ hlast)] at hx
      exact absurd hx List.not_mem_nil
    · rw [Page.invalidKeysOf_ne hlast hEq, List.mem_singleton] at hx
      cases hx
      exact hk
  · have hcountOk := h.count
    rw [Page.CountOk] at hcountOk ⊢
    rw [hcount, hrows, Page.liveCount_filterValues hg, hcountOk]
  · by_cases hEq : k = p'.endKey
    · exact .inl hEq.symm
    · right
      exact ⟨by simp [Entry.dirty, he], hinvalid ▸ Page.invalidKeysOf_ne hlast hEq⟩
  · rintro _ ⟨x, e'⟩ hrow
    obtain ⟨old, _, hold⟩ := hmem x e' hrow
    simp [Entry.dirty, (hg.status hold).2]

end Imported

/-! ## Previous storages -/

theorem decodeRow_clean {row : Option Entry}
    (h : decodeRow archive k row = .ok (some d)) : d.entry.dirty = false := by
  rcases row with - | entry
  · cases h
  · have hentry : d.entry = entry.setStatus .normal := by
      simp only [decodeRow, Data.ofEntry] at h
      split_ifs at h
      · rcases hm : TableMeta.ofValue archive (entry.setStatus .normal).get with e | m
        · simp [hm, Except.map, bind, Except.bind] at h
        · simp [hm, Except.map, bind, Except.bind, pure, Except.pure] at h
          exact h ▸ rfl
      · rcases hp : Page.ofValue archive (entry.setStatus .normal).get k with e | p
        · simp [hp, Except.map, bind, Except.bind] at h
        · simp [hp, Except.map, bind, Except.bind, pure, Except.pure] at h
          exact h ▸ rfl
    simp [hentry, Entry.dirty]

theorem Prev.ofRows_ok (archive : Archive) (rows : Table → Key → Except Fault (Option Entry)) :
    (Prev.ofRows archive rows).Ok := by
  have hcopy : ∀ t k r, (Prev.ofRows archive rows).getData t k = .ok r →
      (Prev.ofRows archive rows).copyData t k = .ok r := by
    intro t k r h
    simp only [Prev.ofRows] at h ⊢
    rcases hrows : rows t k with e | entry
    · simp [hrows] at h
    · simpa [hrows] using h
  refine ⟨?_, fun t k h => hcopy t k none h,
    fun t k d h => ⟨d, hcopy t k (some d) h, rfl⟩⟩
  intro t k d h
  simp only [Prev.ofRows] at h
  rcases hrows : rows t k with e | entry
  · simp [hrows] at h
  · rw [hrows] at h
    exact decodeRow_clean h

namespace KeyPageStorage

variable {s : KeyPageStorage} {t : Table}

theorem Ok.copyData_some (h : s.Ok) (hrec : recordOf (s.env t) (s.table t).cached k = some d) :
    ∃ d', s.copyData t k = .ok (some d') ∧ d'.imported = d.imported := by
  unfold KeyPageStorage.copyData
  rcases hcache : (s.table t).cached k with - | d₁
  · exact h.prev.copySome t k d (fetch_of_recordOf hcache hrec)
  · cases (recordOf_cached hcache).symm.trans hrec
    exact ⟨d, rfl, rfl⟩

theorem ofKeyPage_getData_some (h : s.Ok)
    (hrec : recordOf (s.env t) (s.table t).cached k = some d) :
    (Prev.ofKeyPage s).getData t k = d.imported.map some := by
  obtain ⟨d', hcopy, himported⟩ := h.copyData_some hrec
  simp [Prev.ofKeyPage, hcopy, himported]

theorem ofKeyPage_getData_none (h : s.Ok) (hcache : (s.table t).cached k = none)
    (hfetch : s.prev.getData t k = .ok none) : (Prev.ofKeyPage s).getData t k = .ok none := by
  have hcopy := h.prev.copyNone t k hfetch
  simp [Prev.ofKeyPage, KeyPageStorage.copyData, hcache, hcopy]

theorem ofKeyPage_ok : (Prev.ofKeyPage s).Ok := by
  have hcases : ∀ t k r, (Prev.ofKeyPage s).getData t k = .ok r →
      (r = none ∧ s.copyData t k = .ok none) ∨ ∃ d d', r = some d ∧ s.copyData t k = .ok (some d') ∧
          d'.imported = .ok d := by
    intro t k r h
    simp only [Prev.ofKeyPage] at h
    rcases hcopy : s.copyData t k with e | c
    · simp [hcopy] at h
    · rcases c with - | d'
      · rw [hcopy] at h
        cases h
        exact .inl ⟨rfl, rfl⟩
      · simp only [hcopy] at h
        rcases himported : d'.imported with e | d
        · simp [himported, Except.map] at h
        · simp only [himported, Except.map] at h
          cases h
          exact .inr ⟨d, d', rfl, rfl, himported⟩
  refine ⟨?_, ?_, ?_⟩
  · intro t k d h
    rcases hcases t k _ h with ⟨hr, _⟩ | ⟨_, d', hr, _, himported⟩
    · cases hr
    · cases hr
      exact Data.imported_clean himported
  · intro t k h
    rcases hcases t k _ h with ⟨_, hcopy⟩ | ⟨_, _, hr, _⟩
    · exact hcopy
    · cases hr
  · intro t k d h
    rcases hcases t k _ h with ⟨hr, _⟩ | ⟨_, d', hr, hcopy, himported⟩
    · cases hr
    · cases hr
      exact ⟨d', hcopy, himported.trans (Data.imported_imported himported).symm⟩

theorem Ok.refreshed (h : s.Ok) (ht : t ∉ s.ignoreTables) {env' : TableEnv}
    (henv : env'.fetch = (Prev.ofKeyPage s).getData t) :
    Refreshed (s.env t) (s.table t).cached env' Page.cleanEntry := by
  have hc := (h.table t ht).consistent
  refine ⟨Page.refreshes_cleanEntry.dead, ?_, ?_⟩
  · rw [henv]
    rcases hrec : recordOf (s.env t) (s.table t).cached tableMetaKey with - | d
    · have hindex : indexOf (s.env t) (s.table t).cached = [] := by
        rw [indexOf, hrec]
        rfl
      have hcache : (s.table t).cached tableMetaKey = none := by
        rcases hcache : (s.table t).cached tableMetaKey with - | d
        · rfl
        · rw [recordOf_cached hcache] at hrec
          cases hrec
      obtain ⟨r, hr⟩ := hc.fetchMeta
      cases (recordOf_fetched hcache hr).symm.trans hrec
      refine ⟨none, ofKeyPage_getData_none h hcache hr, ?_, ?_⟩
      · rw [hindex]
        rfl
      · intro d hd
        cases hd
    · obtain ⟨m, hm⟩ := hc.metaRecord d hrec
      rw [ofKeyPage_getData_some h hrec, Data.imported_meta hm, indexOf_eq hrec hm]
      refine ⟨_, rfl, rfl, ?_⟩
      intro d' hd'
      cases hd'
      exact ⟨m.clean, rfl, rfl, rfl⟩
  · intro info hinfo hcount
    obtain ⟨hkey, ⟨d, p, hrec, hp, hinfoCount⟩, _⟩ := hc.infos info hinfo
    have hlive := Page.exists_live hp.count (hinfoCount ▸ hcount)
    have hclean : PageRecord info.pageKey ⟨info.pageKey, .page,
        d.entry.setStatus .normal, .page (p.clean info.pageKey)⟩ (p.clean info.pageKey) :=
      hp.refreshed (p.clean info.pageKey) Page.refreshes_cleanEntry hkey hlive
        rfl rfl rfl Entry.setStatus_status
    refine ⟨_, p.clean info.pageKey, ?_, hclean, hinfoCount, ?_⟩
    · rw [henv, ofKeyPage_getData_some h hrec, Data.imported_page hkey hp.key hp.data, hp.type]
      rfl
    · rw [segmentOf_eq hrec hp.data]
      rfl

/-! ## A storage just created -/

section Create

variable {prev : Prev} {pageSize : ℕ} {ignoreTables : Option (List Table)} {ignoreNotExist : Bool}

/-- A new storage meets the invariant if the previous storage shows consistent
tables. -/
theorem create_ok (hprev : prev.Ok) (htable : ∀ t ∉ ignoreTables.getD [sysTables], Consistent
      ((create archive prev pageSize ignoreTables ignoreNotExist).env t) noAddresses noRecords) :
    (create archive prev pageSize ignoreTables ignoreNotExist).Ok := by
  refine ⟨rfl, hprev, fun t ht => absurd ht (AList.notMem_empty t),
    fun _ _ _ => rfl, fun t ht => ⟨?_, htable t ht⟩⟩
  have hempty : Sees False TableState.empty _ _ := Sees.empty
  exact hempty.heapOk

/-- A new storage on top of another one. -/
def layer (s : KeyPageStorage) (pageSize : ℕ) (ignoreNotExist : Bool) :
    KeyPageStorage :=
  create s.archive (Prev.ofKeyPage s) pageSize (some s.ignoreTables) ignoreNotExist

theorem layer_ok (h : s.Ok) (pageSize : ℕ) (ignoreNotExist : Bool) :
    (s.layer pageSize ignoreNotExist).Ok :=
  create_ok ofKeyPage_ok (fun t ht => (h.refreshed (t := t) ht rfl).consistent
      (h.table t ht).consistent)

theorem layer_rows (h : s.Ok) (ht : t ∉ s.ignoreTables)
    (hfit : CountsFit (s.env t) (s.table t).cached) (pageSize : ℕ) (ignoreNotExist : Bool) :
    (s.layer pageSize ignoreNotExist).rows t = filterValues Page.cleanEntry (s.rows t) :=
  (h.refreshed ht rfl).rows (h.table t ht).consistent hfit

end Create

end KeyPageStorage

end FiscoSmart.Storage
