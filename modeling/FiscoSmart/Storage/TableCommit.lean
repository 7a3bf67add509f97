import FiscoSmart.Storage.StorageLayers
import FiscoSmart.Storage.StoredForm

/-!
# Writing a table out

What `parallelTraverse` hands out for the dirty records of one table: the index,
every page with live rows under its page key, and a deletion for every page
without live rows and every retired page key.  A batch of these is consistent if
the dirty pages retire only keys of rows of their own.  A table read back from
the backend then has the live rows of the table that was written out, and the
backend has no page records besides those of its index.
-/

namespace FiscoSmart.Storage

open Support List

variable {env env' : TableEnv} {f : Key → Option Address} {c : Key → Option Data}
  {archive : Archive} {d : Data} {p : Page} {m : TableMeta} {key x k : Key} {e : Entry}
  {old new column : Key → Option Bytes} {state : TableState}

/-- The row is handed out for one of the records. -/
def Emitted (archive : Archive) (c : Key → Option Data) (k : Key) (e : Entry) :
    Prop :=
  ∃ key d, c key = some d ∧ (k, e) ∈ d.traverse archive true key

/-- What the backend stores of a row. -/
def effect (e : Entry) : Option Bytes :=
  if e.status = .deleted then none else some e.get

/-- What holds of the records of a table between two commits. -/
structure BlockOk (env : TableEnv) (f : Key → Option Address)
    (c : Key → Option Data) : Prop where
  consistent : Consistent env f c
  marked : PagesMarked env c
  accounted : ∀ x, x ≠ [] → Accounted env noRecords x → Accounted env c x
  touched : MetaDirty c ∨ ((∀ k d, c k = some d → d.entry.dirty = false) ∧
    rowsOf env c = rowsOf env noRecords)

/-- When the records of a table can be written out: the 16-bit counts of the
index are exact, and a dirty page retires only keys of rows of its own before
the last one. -/
structure CommitOk (env : TableEnv) (c : Key → Option Data) : Prop where
  counts : CountsFit env c
  retired : ∀ k d p, c k = some d → d.entry.dirty = true → d.data = .page p →
    ∀ x, p.Retired x → x ≠ p.endKey ∧ ∃ e, (x, e) ∈ p.entries.toList

theorem mem_records : (key, d) ∈ state.records ↔ state.cached key = some d := by
  rw [TableState.records, mem_filterMap]
  constructor
  · rintro ⟨k, _, hk⟩
    obtain ⟨d', hd', hEq⟩ := Option.map_eq_some_iff.mp hk
    cases hEq
    exact hd'
  · intro hd
    refine ⟨key, ?_, by simp [hd]⟩
    obtain ⟨a, ha, _⟩ := Option.bind_eq_some_iff.mp hd
    exact AList.lookup_isSome.mp (by
      rw [← TableState.find, ha]
      rfl)

/-- The check of the retired keys of one record. -/
def Data.retiresOwn (d : Data) : Bool :=
  match d.data with
  | .page p => !d.entry.dirty || p.invalidPageKeys.toList.all (fun x =>
    decide (x.1 ≠ p.endKey) && (p.entries.find? x.1).isSome)
  | .tableMeta _ => true

section Block

variable {f' : Key → Option Address} {c' : Key → Option Data}

theorem BlockOk.start (h : Consistent env noAddresses noRecords)
    (hclean : ∀ k d, env.fetch k = .ok (some d) → d.entry.dirty = false) :
    BlockOk env noAddresses noRecords := by
  refine ⟨h, ?_, fun _ _ hx => hx, .inr ⟨fun k d hd => ?_, rfl⟩⟩
  · intro info hinfo d p hrec hd
    have hfetch := fetch_of_recordOf rfl hrec
    refine ⟨?_, fun _ => hfetch⟩
    intro hdeleted
    have := hclean _ d hfetch
    simp [Entry.dirty, hdeleted] at this
  · cases hd

theorem BlockOk.loads (h : BlockOk env f c)
    (hclean : ∀ k d, env.fetch k = .ok (some d) → d.entry.dirty = false)
    (hloads : Loads env c f' c') : BlockOk env f' c' := by
  refine ⟨hloads.consistent, hloads.advances.marked h.marked,
    fun x hx hacc => hloads.advances.accounted x hx (h.accounted x hx hacc), ?_⟩
  rcases h.touched with hmeta | ⟨hrecords, hrows⟩
  · exact .inl (hloads.advances.metaDirty hmeta)
  · right
    refine ⟨?_, hloads.rows.trans hrows⟩
    intro k d hd
    rcases hloads.entries k d hd with ⟨d', hd', hentry⟩ | ⟨d', hd', hentry⟩ |
      hentry
    · rw [hentry]
      exact hrecords k d' hd'
    · rw [hentry]
      exact hclean k d' hd'
    · rw [hentry]
      rfl

theorem BlockOk.writes (h : BlockOk env f c) {entry : Entry}
    (hwrites : Writes env c key entry f' c') : BlockOk env f' c' :=
  ⟨hwrites.consistent, hwrites.advances.marked h.marked,
    fun x hx hacc => hwrites.advances.accounted x hx (h.accounted x hx hacc),
    .inl hwrites.metaDirty⟩

end Block

theorem commitOk_of_check (hcounts : CountsFit env state.cached)
    (h : ∀ r ∈ state.records, r.2.retiresOwn = true) : CommitOk env state.cached := by
  refine ⟨hcounts, ?_⟩
  intro k d p hd hdirty hdata x hx
  have hcheck := h (k, d) (mem_records.mpr hd)
  simp only [Data.retiresOwn, hdata, hdirty, Bool.not_true, Bool.false_or,
    all_eq_true, Bool.and_eq_true, decide_eq_true_eq] at hcheck
  obtain ⟨hne, hfound⟩ := hcheck (x, ()) hx
  obtain ⟨e, he⟩ := Option.isSome_iff_exists.mp hfound
  exact ⟨hne, e, SortedMap.find?_eq_some.mp he⟩

theorem commitOk_untouched (h : indexOf env noRecords = []) : CommitOk env noRecords := by
  constructor
  · intro t ht
    rw [segmentsOf, h] at ht
    exact absurd ht not_mem_nil
  · intro k d p hd
    cases hd

/-! ## The rows handed out -/

/-- The row handed out for a page under its page key. -/
def pageRow (archive : Archive) (d : Data) (p : Page) : Entry :=
  if p.validCount = 0 then Entry.default.setStatus .deleted
  else (Entry.default.set (archive.write p.save)).setStatus d.entry.status

/-- The row handed out for a retired page key. -/
def retiredRow : Entry := Entry.default.setStatus .deleted

theorem mem_traverse_page (htype : d.type = .page) (hdata : d.data = .page p) :
    (x, e) ∈ d.traverse archive true key ↔ d.entry.dirty = true ∧
      ((x = key ∧ e = pageRow archive d p) ∨ (p.Retired x ∧ e = retiredRow)) := by
  rcases hdirty : d.entry.dirty with - | -
  · simp [Data.traverse, hdirty]
  · have hrows : d.traverse archive true key = (key, pageRow archive d p) ::
        p.invalidPageKeys.toList.map (fun k => (k.1, retiredRow)) := by
      rw [Data.traverse, if_pos (by simp [hdirty]), htype, hdata]
      simp only [pageRow, retiredRow]
      split_ifs <;> rfl
    rw [hrows, mem_cons, mem_map, Prod.mk.injEq]
    simp only [true_and]
    refine or_congr Iff.rfl ?_
    constructor
    · rintro ⟨⟨k, u⟩, hk, hEq⟩
      cases hEq
      exact ⟨hk, rfl⟩
    · rintro ⟨hx, rfl⟩
      exact ⟨(x, ()), hx, rfl⟩

theorem mem_traverse_meta (h : MetaRecord d m) :
    (x, e) ∈ d.traverse archive true key ↔ d.entry.dirty = true ∧
      x = key ∧ e = Entry.default.set (archive.write m.save) := by
  cases hdirty : d.entry.dirty <;>
    simp [Data.traverse, hdirty, h.type, h.data]

theorem effect_pageRow_zero (h : p.validCount = 0) : effect (pageRow archive d p) = none := by
  rw [pageRow, if_pos h]
  rfl

theorem effect_pageRow (hvalid : p.validCount ≠ 0) (hstat : d.entry.status ≠ .deleted) :
    effect (pageRow archive d p) = some (archive.write p.save) := by
  rw [pageRow, if_neg hvalid, effect, if_neg (by simpa using hstat), Entry.setStatus_get hstat]
  simp [Entry.set, Entry.get]

section Emission

variable {info : PageInfo}

theorem Consistent.page_of_cached (h : Consistent env f c)
    (hk : k ≠ []) (hd : c k = some d) : ∃ p, d.type = .page ∧ d.data = .page p ∧ d.key = k ∧
      (∀ x, p.Retired x → x ≠ []) ∧ ((∃ info ∈ indexOf env c, info.pageKey = k ∧ PageRecord k d p ∧
        info.count = p.validCount.toUInt16) ∨ Orphan k d p) := by
  rcases h.cachedPages k d hk hd with hmem | ⟨p, horphan⟩
  · obtain ⟨info, hinfo, rfl⟩ := mem_map.mp hmem
    obtain ⟨_, ⟨d', p, hrec, hp, hcount⟩, _⟩ := h.infos info hinfo
    cases (recordOf_cached hd).symm.trans hrec
    exact ⟨p, hp.type, hp.data, hp.key, hp.retired, .inl ⟨info, hinfo, rfl, hp, hcount⟩⟩
  · exact ⟨p, horphan.type, horphan.data, horphan.key, horphan.retired, .inr horphan⟩

theorem cached_of_dirty (hclean : ∀ k d, env.fetch k = .ok (some d) → d.entry.dirty = false)
    (hrec : recordOf env c k = some d) (hdirty : d.entry.dirty = true) : c k = some d := by
  rcases hck : c k with - | d'
  · rw [hclean k d (fetch_of_recordOf hck hrec)] at hdirty
    cases hdirty
  · rw [recordOf_cached hck] at hrec
    exact hrec

/-- No page retires the page key of an indexed page. -/
theorem CommitOk.not_retired (hcommit : CommitOk env c) (h : Consistent env f c)
    (hinfo : info ∈ indexOf env c) (hk : k ≠ []) (hd : c k = some d)
    (hdirty : d.entry.dirty = true) (hdata : d.data = .page p) : ¬ p.Retired info.pageKey := by
  intro hretired
  obtain ⟨hne, e, he⟩ := hcommit.retired k d p hd hdirty hdata _ hretired
  obtain ⟨p', _, hdata', _, _, hplace⟩ := h.page_of_cached hk hd
  cases hdata.symm.trans hdata'
  rcases hplace with ⟨info', hinfo', rfl, hp, _⟩ | horphan
  · have hsegment : segmentOf env c info' = (info'.pageKey, p.entries.toList) := by
      rw [segmentOf_eq (recordOf_cached hd) hdata]
    have hrow : ((segmentOf env c info).1, e) ∈ (segmentOf env c info').2 := by
      rw [hsegment]
      exact he
    have hkey : info.pageKey = info'.pageKey := h.ordered.bound_eq_of_mem
      (mem_map_of_mem hinfo) (mem_map_of_mem hinfo') hrow
    rcases hp.endKey with hend | ⟨hclean, _⟩
    · exact hne (hkey.trans hend.symm)
    · rw [hclean] at hdirty
      cases hdirty
  · rw [horphan.rows] at he
    exact absurd he not_mem_nil

theorem emitted_page (hd : c info.pageKey = some d)
    (hp : PageRecord info.pageKey d p) (hdirty : d.entry.dirty = true) :
    Emitted archive c info.pageKey (pageRow archive d p) :=
  ⟨info.pageKey, d, hd, (mem_traverse_page hp.type hp.data).mpr ⟨hdirty, .inl ⟨rfl, rfl⟩⟩⟩

/-- Whatever is handed out under the key of an indexed page is this page. -/
theorem CommitOk.emitted_indexed (hcommit : CommitOk env c)
    (h : Consistent env f c) (hinfo : info ∈ indexOf env c)
    (hrec : recordOf env c info.pageKey = some d) (hp : PageRecord info.pageKey d p)
    (he : Emitted archive c info.pageKey e) : d.entry.dirty = true ∧ e = pageRow archive d p := by
  obtain ⟨k, d', hd', hmem⟩ := he
  have hkey := (h.infos info hinfo).key
  by_cases hk : k = []
  · subst hk
    obtain ⟨m, hm⟩ := h.metaRecord d' (recordOf_cached hd')
    obtain ⟨_, hEq, _⟩ := (mem_traverse_meta hm).mp hmem
    exact absurd hEq hkey
  · obtain ⟨p', htype, hdata, _⟩ := h.page_of_cached hk hd'
    obtain ⟨hdirty, hcase⟩ := (mem_traverse_page htype hdata).mp hmem
    rcases hcase with ⟨rfl, rfl⟩ | ⟨hretired, _⟩
    · cases (recordOf_cached hd').symm.trans hrec
      cases hdata.symm.trans hp.data
      exact ⟨hdirty, rfl⟩
    · exact absurd hretired (hcommit.not_retired h hinfo hk hd' hdirty hdata)

/-- What is handed out under a key of no page with live rows is a deletion. -/
theorem CommitOk.emitted_dead (hcommit : CommitOk env c) (h : Consistent env f c) (hx : x ≠ [])
    (hdead : ∀ info ∈ indexOf env c, info.pageKey = x → info.count = 0)
    (he : Emitted archive c x e) : effect e = none := by
  obtain ⟨k, d, hd, hmem⟩ := he
  by_cases hk : k = []
  · subst hk
    obtain ⟨m, hm⟩ := h.metaRecord d (recordOf_cached hd)
    obtain ⟨_, hEq, _⟩ := (mem_traverse_meta hm).mp hmem
    exact absurd hEq hx
  · obtain ⟨p, htype, hdata, _, _, hplace⟩ := h.page_of_cached hk hd
    obtain ⟨_, hcase⟩ := (mem_traverse_page htype hdata).mp hmem
    rcases hcase with ⟨rfl, rfl⟩ | ⟨_, rfl⟩
    · apply effect_pageRow_zero
      rcases hplace with ⟨info, hinfo, rfl, hp, hcount⟩ | horphan
      · have hzero := hdead info hinfo rfl
        rwa [hcommit.counts.count_eq_zero hinfo (recordOf_cached hd) hp hcount] at hzero
      · have hcount := horphan.count
        rw [Page.CountOk, horphan.rows] at hcount
        exact hcount
    · rfl

theorem Consistent.emitted_meta (h : Consistent env f c)
    (hd : c tableMetaKey = some d) (hm : MetaRecord d m)
    (he : Emitted archive c tableMetaKey e) : e = Entry.default.set (archive.write m.save) := by
  obtain ⟨k, d', hd', hmem⟩ := he
  by_cases hk : k = []
  · subst hk
    cases hd.symm.trans hd'
    exact ((mem_traverse_meta hm).mp hmem).2.2
  · obtain ⟨p, htype, hdata, _, hretired, _⟩ := h.page_of_cached hk hd'
    obtain ⟨_, hcase⟩ := (mem_traverse_page htype hdata).mp hmem
    rcases hcase with ⟨hEq, _⟩ | ⟨hret, _⟩
    · exact absurd hEq.symm hk
    · exact absurd rfl (hretired _ hret)

theorem live_of_clean (hp : PageRecord info.pageKey d p) (hclean : d.entry.dirty = false) :
    ∃ row ∈ p.entries.toList, row.2.live = true := by
  obtain ⟨row, hrow⟩ := exists_mem_of_ne_nil _ hp.nonempty
  refine ⟨row, hrow, ?_⟩
  have hrowClean := hp.clean hclean row hrow
  simp only [Entry.dirty, Bool.or_eq_false_iff] at hrowClean
  simpa [Entry.live] using hrowClean.2

/-- A key that is accounted for, but not by a page with live rows, is handed
out. -/
theorem CommitOk.emitted_of_accounted (hcommit : CommitOk env c) (h : Consistent env f c)
    (hclean : ∀ k d, env.fetch k = .ok (some d) → d.entry.dirty = false) (hx : Accounted env c x)
    (hdead : ∀ info ∈ indexOf env c, info.pageKey = x → info.count = 0) :
    ∃ e, Emitted archive c x e := by
  rcases hx with hmem | ⟨info, hinfo, d, p, hrec, hdata, hdirty, hretired⟩ |
    ⟨d, p, hd, hdirty, horphan⟩
  · obtain ⟨info, hinfo, rfl⟩ := mem_map.mp hmem
    obtain ⟨_, ⟨d, p, hrec, hp, hcount⟩, _⟩ := h.infos info hinfo
    have hdirty : d.entry.dirty = true := by
      by_contra hnot
      obtain ⟨row, hrow, hlive⟩ := live_of_clean hp (by simpa using hnot)
      exact hcommit.counts.count_ne_zero_of_live hinfo hrec hp hcount hrow hlive
        (hdead info hinfo rfl)
    exact ⟨_, emitted_page (cached_of_dirty hclean hrec hdirty) hp hdirty⟩
  · have hd := cached_of_dirty hclean hrec hdirty
    obtain ⟨_, ⟨d', p', hrec', hp, _⟩, _⟩ := h.infos info hinfo
    cases hrec.symm.trans hrec'
    exact ⟨retiredRow, info.pageKey, d, hd, (mem_traverse_page hp.type hdata).mpr
      ⟨hdirty, .inr ⟨hretired, rfl⟩⟩⟩
  · exact ⟨pageRow archive d p, x, d, hd, (mem_traverse_page horphan.type horphan.data).mpr
        ⟨hdirty, .inl ⟨rfl, rfl⟩⟩⟩

end Emission

/-! ## Reading back -/

/-- A stored value as the backend returns it. -/
def storedRow (value : Bytes) : Entry := ⟨value, value.length, .normal⟩

theorem storedRow_get {value : Bytes} : (storedRow value).get = value := by
  simp [storedRow, Entry.get]

/-- The records of a table in a backend that holds `column`. -/
def columnFetch (archive : Archive) (column : Key → Option Bytes) (k : Key) :
    Except Fault (Option Data) :=
  decodeRow archive k ((column k).map storedRow)

/-- The backend held `old` and holds `new` after everything handed out for the
records `c` was stored, in some order. -/
structure WrittenOut (archive : Archive) (c : Key → Option Data)
    (old new : Key → Option Bytes) : Prop where
  put : ∀ k e, Emitted archive c k e →
    (∀ e', Emitted archive c k e' → effect e' = effect e) → new k = effect e
  keep : ∀ k, (∀ e, ¬ Emitted archive c k e) → new k = old k

theorem columnFetch_none (h : column k = none) : columnFetch archive column k = .ok none := by
  rw [columnFetch, h]
  rfl

theorem columnFetch_clean (hfetch : env.fetch = columnFetch archive column) :
    ∀ k d, env.fetch k = .ok (some d) → d.entry.dirty = false := by
  intro k d hd
  rw [hfetch] at hd
  exact decodeRow_clean hd

theorem columnFetch_meta (h : column tableMetaKey = some (archive.write m.save)) :
    columnFetch archive column tableMetaKey = .ok (some ⟨tableMetaKey,
      .tableMeta, storedRow (archive.write m.save), .tableMeta m.clean⟩) := by
  have hload := TableMeta.ofValue_save archive m
  rw [columnFetch, h, Option.map_some, decodeRow, if_pos rfl, Data.ofEntry,
    Entry.setStatus_get (by decide), storedRow_get, hload]
  rfl

theorem columnFetch_page (hk : k ≠ []) (h : column k = some (archive.write p.save))
    (hcount : p.validCount.toNat = Page.liveCount p.entries.toList)
    (hlive : ∃ row ∈ p.entries.toList, row.2.live = true) :
    ∃ p', columnFetch archive column k = .ok (some ⟨k, .page,
        storedRow (archive.write p.save), .page p'⟩) ∧
      p'.entries.toList = filterValues Page.storedEntry p.entries.toList ∧
      p'.validCount = p.validCount ∧ p'.invalidPageKeys = Page.invalidKeysOf p'.entries k := by
  obtain ⟨p', hload, hrest⟩ := Page.ofValue_save archive p k hcount hlive
  refine ⟨p', ?_, hrest⟩
  rw [columnFetch, h, Option.map_some, decodeRow, if_neg hk, Data.ofEntry,
    Entry.setStatus_get (by decide), storedRow_get, hload]
  rfl

/-- The rows of a page in the backend are as they are read back. -/
theorem columnFetch_stored
    (h : columnFetch archive column k = .ok (some d)) (hd : d.data = .page p) :
    ∀ row ∈ p.entries.toList, Page.storedEntry row.2 = some row.2 := by
  rw [columnFetch] at h
  rcases hcolumn : column k with - | value
  · rw [hcolumn] at h
    cases h
  · simp only [hcolumn, Option.map_some, decodeRow, Data.ofEntry] at h
    split_ifs at h
    · cases hm : TableMeta.ofValue archive ((storedRow value).setStatus .normal).get with
      | error e => simp [hm, Except.map, bind, Except.bind] at h
      | ok m =>
        simp [hm, Except.map, bind, Except.bind, pure, Except.pure] at h
        rw [← h] at hd
        cases hd
    · cases hp : Page.ofValue archive ((storedRow value).setStatus .normal).get k with
      | error e => simp [hp, Except.map, bind, Except.bind] at h
      | ok p' =>
        simp [hp, Except.map, bind, Except.bind, pure, Except.pure] at h
        rw [← h] at hd
        cases hd
        exact Page.ofValue_stored hp

theorem filterValues_eq_self {g : Entry → Option Entry}
    {rows : List (Key × Entry)} (h : ∀ row ∈ rows, g row.2 = some row.2) :
    filterValues g rows = rows := by
  induction rows with
  | nil => rfl
  | cons row rows ih =>
    have hrest := ih (fun r hr => h r (mem_cons_of_mem _ hr))
    rw [filterValues] at hrest ⊢
    rw [filterMap_cons, h row (mem_cons_self ..), hrest]
    rfl

/-- A table whose index is dirty is read back with its live rows. -/
theorem BlockOk.refreshed (h : BlockOk env f c) (hcommit : CommitOk env c)
    (hmeta : MetaDirty c) (hfetch : env.fetch = columnFetch archive old)
    (hfetch' : env'.fetch = columnFetch archive new) (hw : WrittenOut archive c old new) :
    Refreshed env c env' Page.storedEntry := by
  have hc := h.consistent
  refine ⟨Page.refreshes_storedEntry.dead, ?_, ?_⟩
  · obtain ⟨d, hd, hdirty⟩ := hmeta
    obtain ⟨m, hm⟩ := hc.metaRecord d (recordOf_cached hd)
    have hemitted : Emitted archive c tableMetaKey (Entry.default.set (archive.write m.save)) :=
      ⟨tableMetaKey, d, hd, (mem_traverse_meta hm).mpr ⟨hdirty, rfl, rfl⟩⟩
    have hnew : new tableMetaKey = some (archive.write m.save) := by
      rw [hw.put _ _ hemitted (fun e' he' => by rw [hc.emitted_meta hd hm he'])]
      simp [effect, Entry.set, Entry.get]
    refine ⟨some ⟨tableMetaKey, .tableMeta, storedRow (archive.write m.save),
      .tableMeta m.clean⟩, ?_, ?_, ?_⟩
    · rw [hfetch']
      exact columnFetch_meta hnew
    · rw [indexOf_eq (recordOf_cached hd) hm]
      rfl
    · intro d' hd'
      cases hd'
      exact ⟨m.clean, rfl, rfl, rfl⟩
  · intro info hinfo hcountNe
    obtain ⟨hkey, ⟨d, p, hrec, hp, hcount⟩, _⟩ := hc.infos info hinfo
    have hlive := Page.exists_live hp.count (hcount ▸ hcountNe)
    rw [segmentOf_eq hrec hp.data]
    obtain ⟨hmarked, hfetched⟩ := h.marked info hinfo d p hrec hp.data
    rcases hdirty : d.entry.dirty with - | -
    · have hsame : new info.pageKey = old info.pageKey := by
        apply hw.keep
        intro e he
        rw [(hcommit.emitted_indexed hc hinfo hrec hp he).1] at hdirty
        cases hdirty
      have hread : columnFetch archive new info.pageKey = .ok (some d) := by
        rw [columnFetch, hsame, ← columnFetch, ← hfetch]
        exact hfetched hdirty
      refine ⟨d, p, ?_, hp, hcount, ?_⟩
      · rw [hfetch']
        exact hread
      · exact (filterValues_eq_self (columnFetch_stored hread hp.data)).symm
    · have hd := cached_of_dirty (columnFetch_clean hfetch) hrec hdirty
      have hvalid : p.validCount ≠ 0 := by
        intro hzero
        exact hcountNe ((hcommit.counts.count_eq_zero hinfo hrec hp hcount).mpr hzero)
      have hstat : d.entry.status ≠ .deleted :=
        fun hdeleted => hvalid (hmarked hdeleted)
      have hnew : new info.pageKey = some (archive.write p.save) := by
        rw [hw.put _ _ (emitted_page hd hp hdirty) (fun e' he' => by
          rw [(hcommit.emitted_indexed hc hinfo hrec hp he').2]),
          effect_pageRow hvalid hstat]
      obtain ⟨p', hread, hrows', hvalid', hinvalid⟩ := columnFetch_page hkey
        hnew (hcommit.counts.liveCount_eq hinfo hrec hp).1 hlive
      have hrecord : PageRecord info.pageKey ⟨info.pageKey, .page,
          storedRow (archive.write p.save), .page p'⟩ p' :=
        hp.refreshed p' Page.refreshes_storedEntry hkey hlive hrows' hvalid'
          hinvalid (e := storedRow (archive.write p.save)) rfl
      refine ⟨_, p', ?_, hrecord, hvalid' ▸ hcount, ?_⟩
      · rw [hfetch']
        exact hread
      · exact hrows'

/-! ## The backend after a commit -/

/-- The column of a table in the backend: a consistent table, and no page
record besides those of its index. -/
structure ColumnOk (archive : Archive) (column : Key → Option Bytes) : Prop where
  consistent : ∀ env : TableEnv, env.fetch = columnFetch archive column →
    Consistent env noAddresses noRecords
  noStale : ∀ env : TableEnv, env.fetch = columnFetch archive column →
    ∀ x, x ≠ [] → column x ≠ none → x ∈ (indexOf env noRecords).map PageInfo.pageKey

theorem ColumnOk.empty (archive : Archive) : ColumnOk archive (fun _ => none) := by
  constructor
  · intro env hfetch
    apply consistent_empty
    rw [hfetch]
    exact columnFetch_none rfl
  · intro env _ x _ hx
    exact absurd rfl hx

theorem ColumnOk.start (h : ColumnOk archive column)
    (hfetch : env.fetch = columnFetch archive column) : BlockOk env noAddresses noRecords :=
  BlockOk.start (h.consistent env hfetch) (columnFetch_clean hfetch)

theorem ColumnOk.stored (h : ColumnOk archive column) (env : TableEnv)
    (hfetch : env.fetch = columnFetch archive column) :
    ∀ row ∈ rowsOf env noRecords, Page.storedEntry row.2 = some row.2 := by
  intro row hrow
  obtain ⟨info, hinfo, hmem⟩ := mem_rowsOf.mp hrow
  obtain ⟨_, ⟨d, p, hrec, hp, _⟩, _⟩ := (h.consistent env hfetch).infos info hinfo
  rw [hrec, pageRows_eq hp.data] at hmem
  have hread : columnFetch archive column info.pageKey = .ok (some d) := by
    rw [← hfetch]
    exact fetch_of_recordOf rfl hrec
  exact columnFetch_stored hread hp.data row hmem

/-- While a block leaves a table without pages, the backend has no record of
it: the first write does not meet an old page. -/
theorem BlockOk.unindexed_fetch (h : BlockOk env f c) (hcolumn : ColumnOk archive column)
    (hfetch : env.fetch = columnFetch archive column)
    (hindex : indexOf env c = []) (hx : x ≠ []) : env.fetch x = .ok none := by
  rw [hfetch]
  apply columnFetch_none
  by_contra hne
  have hold := hcolumn.noStale env hfetch x hx hne
  rcases h.accounted x hx (.inl hold) with hmem | ⟨info, hinfo, _⟩ |
    ⟨d, p, hd, _⟩
  · rw [hindex] at hmem
    exact absurd hmem not_mem_nil
  · rw [hindex] at hinfo
    exact absurd hinfo not_mem_nil
  · rw [h.consistent.unindexed hindex x hx] at hd
    cases hd

/-- What is handed out under one key has one effect. -/
theorem CommitOk.emitted_agree (hcommit : CommitOk env c) (h : Consistent env f c) {e' : Entry}
    (he : Emitted archive c x e) (he' : Emitted archive c x e') : effect e = effect e' := by
  by_cases hx : x = []
  · subst hx
    obtain ⟨k, d, hd, hmem⟩ := he
    have hk : k = [] := by
      by_contra hk
      obtain ⟨p, htype, hdata, _, hretired, _⟩ := h.page_of_cached hk hd
      rcases ((mem_traverse_page htype hdata).mp hmem).2 with ⟨hEq, _⟩ |
        ⟨hret, _⟩
      · exact hk hEq.symm
      · exact hretired _ hret rfl
    subst hk
    obtain ⟨m, hm⟩ := h.metaRecord d (recordOf_cached hd)
    rw [h.emitted_meta hd hm ⟨[], d, hd, hmem⟩, h.emitted_meta hd hm he']
  · by_cases hmem : x ∈ (indexOf env c).map PageInfo.pageKey
    · obtain ⟨info, hinfo, rfl⟩ := mem_map.mp hmem
      obtain ⟨_, ⟨d, p, hrec, hp, _⟩, _⟩ := h.infos info hinfo
      rw [(hcommit.emitted_indexed h hinfo hrec hp he).2,
        (hcommit.emitted_indexed h hinfo hrec hp he').2]
    · have hdead : ∀ info ∈ indexOf env c, info.pageKey = x → info.count = 0 := by
        rintro info hinfo rfl
        exact absurd (mem_map_of_mem hinfo) hmem
      rw [hcommit.emitted_dead h hx hdead he, hcommit.emitted_dead h hx hdead he']

/-- After a commit the backend has no page records besides those of the pages
with live rows. -/
theorem BlockOk.noStale (h : BlockOk env f c) (hcommit : CommitOk env c)
    (hold : ColumnOk archive old) (hfetch : env.fetch = columnFetch archive old)
    (hw : WrittenOut archive c old new) (hx : x ≠ []) (hne : new x ≠ none) :
    ∃ info ∈ indexOf env c, info.pageKey = x ∧ info.count ≠ 0 := by
  by_contra hnone
  have hdead : ∀ info ∈ indexOf env c, info.pageKey = x → info.count = 0 := by
    intro info hinfo hkey
    by_contra hcount
    exact hnone ⟨info, hinfo, hkey, hcount⟩
  have hemitted : ∃ e, Emitted archive c x e := by
    by_contra hno
    rw [hw.keep x (fun e he => hno ⟨e, he⟩)] at hne
    have haccounted := h.accounted x hx (.inl (hold.noStale env hfetch x hx hne))
    exact hno (hcommit.emitted_of_accounted h.consistent
      (columnFetch_clean hfetch) haccounted hdead)
  obtain ⟨e, he⟩ := hemitted
  apply hne
  rw [hw.put x e he (fun e' he' => hcommit.emitted_agree h.consistent he' he)]
  exact hcommit.emitted_dead h.consistent hx hdead he

theorem not_emitted_of_clean
    (h : ∀ k d, c k = some d → d.entry.dirty = false) (x : Key) (e : Entry) :
    ¬ Emitted archive c x e := by
  rintro ⟨k, d, hd, hmem⟩
  simp [Data.traverse, h k d hd] at hmem

/-- A table read back after a commit has the live rows of the table that was
written out. -/
theorem BlockOk.committed (h : BlockOk env f c) (hcommit : CommitOk env c)
    (hold : ColumnOk archive old) (hfetch : env.fetch = columnFetch archive old)
    (hw : WrittenOut archive c old new) : ColumnOk archive new ∧ ∀ env' : TableEnv,
      env'.fetch = columnFetch archive new →
        rowsOf env' noRecords = filterValues Page.storedEntry (rowsOf env c) := by
  rcases h.touched with hmeta | ⟨hclean, hrows⟩
  · have hread : ∀ env' : TableEnv, env'.fetch = columnFetch archive new →
        Refreshed env c env' Page.storedEntry :=
      fun env' hfetch' => h.refreshed hcommit hmeta hfetch hfetch' hw
    refine ⟨⟨fun env' hfetch' => (hread env' hfetch').consistent h.consistent,
      ?_⟩, fun env' hfetch' => (hread env' hfetch').rows h.consistent hcommit.counts⟩
    intro env' hfetch' x hx hne
    obtain ⟨info, hinfo, hkey, hcount⟩ := h.noStale hcommit hold hfetch hw hx hne
    rw [(hread env' hfetch').index, map_map]
    exact mem_map.mpr ⟨info, mem_filter.mpr ⟨hinfo, (keeps_eq h.consistent hinfo).mpr hcount⟩, hkey⟩
  · have hsame : new = old := by
      funext x
      exact hw.keep x (not_emitted_of_clean hclean x)
    subst hsame
    refine ⟨hold, ?_⟩
    intro env' hfetch'
    have hrows' : rowsOf env' noRecords = rowsOf env noRecords := by
      rw [rowsOf, rowsOf, segmentsOf_settings (hfetch'.trans hfetch.symm)]
    rw [hrows', hrows, filterValues_eq_self (hold.stored env hfetch)]

end FiscoSmart.Storage
