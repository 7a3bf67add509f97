import FiscoSmart.Storage.TableScan

/-!
# Opening a storage on top of a table

A new storage sees the records of the previous one cleaned: deleted rows are
gone, the rows that are left are `NORMAL`, and pages without live rows have left
the index.  The same holds of a storage opened on a backend the table was written
to.  `Refreshed` describes both, and shows that the new storage starts from a
consistent table with the live rows of the old one.
-/

namespace FiscoSmart.Storage

open Support

/-- `env'` shows the table of `env` and `c` with the live rows changed by `g`. -/
structure Refreshed (env : TableEnv) (c : Key → Option Data) (env' : TableEnv)
    (g : Entry → Option Entry) : Prop where
  dead : ∀ e, e.live = false → g e = none
  metaFetch : ∃ r, env'.fetch tableMetaKey = .ok r ∧
    metaPages r = ((indexOf env c).filter TableMeta.keeps).map
      (fun info => { info with pageData := none }) ∧ ∀ d, r = some d → ∃ m, MetaRecord d m
  pages : ∀ info ∈ indexOf env c, info.count ≠ 0 → ∃ d p, env'.fetch info.pageKey = .ok (some d) ∧
      PageRecord info.pageKey d p ∧ info.count = p.validCount.toUInt16 ∧
      p.entries.toList = filterValues g (segmentOf env c info).2

/-- The records of a table whose container is empty. -/
def noRecords : Key → Option Data := fun _ => none

/-- The addresses of a table whose container is empty. -/
def noAddresses : Key → Option Address := fun _ => none

section Refresh

variable {env env' : TableEnv} {f : Key → Option Address}
  {c : Key → Option Data} {g : Entry → Option Entry} {info : PageInfo}

theorem keeps_eq (hc : Consistent env f c) (hinfo : info ∈ indexOf env c) :
    TableMeta.keeps info = true ↔ info.count ≠ 0 := by
  simp [TableMeta.keeps, (hc.infos info hinfo).key]

section

variable (hfetch : env'.fetch = env.fetch)

include hfetch

theorem recordOf_settings (k : Key) : recordOf env' c k = recordOf env c k := by
  rw [recordOf, recordOf, hfetch]

theorem indexOf_settings : indexOf env' c = indexOf env c := by
  rw [indexOf, indexOf, recordOf_settings hfetch]

theorem segmentsOf_settings : segmentsOf env' c = segmentsOf env c := by
  rw [segmentsOf, segmentsOf, indexOf_settings hfetch]
  apply List.map_congr_left
  intro info _
  rw [segmentOf, segmentOf, recordOf_settings hfetch]

end

/-- What the previous storage shows of a table does not depend on the settings
of the storage that looks at it. -/
theorem Consistent.congr (h : Consistent env f c)
    (hfetch : env'.fetch = env.fetch) : Consistent env' f c := by
  have hrec : ∀ k, recordOf env' c k = recordOf env c k :=
    recordOf_settings hfetch
  have hindex : indexOf env' c = indexOf env c := indexOf_settings hfetch
  have hsegments : segmentsOf env' c = segmentsOf env c :=
    segmentsOf_settings hfetch
  constructor
  · rw [hfetch]
    exact h.fetchMeta
  · rw [hrec]
    exact h.metaRecord
  · intro info hinfo
    rw [hindex] at hinfo
    obtain ⟨hkey, hrecord, hptr⟩ := h.infos info hinfo
    rw [← hrec] at hrecord
    exact ⟨hkey, hrecord, hptr⟩
  · rw [hsegments]
    exact h.ordered
  · rw [hindex]
    exact h.cachedPages
  · rw [hindex]
    exact h.unindexed

theorem consistent_empty (h : env.fetch tableMetaKey = .ok none) :
    Consistent env noAddresses noRecords := by
  have hrec : recordOf env noRecords tableMetaKey = none := recordOf_fetched rfl h
  have hindex : indexOf env noRecords = [] := by
    rw [indexOf, hrec]
    rfl
  refine ⟨⟨none, h⟩, ?_, ?_, ?_, ?_, fun _ _ _ => rfl⟩
  · intro d hd
    rw [hrec] at hd
    cases hd
  · intro info hinfo
    rw [hindex] at hinfo
    exact absurd hinfo List.not_mem_nil
  · rw [segmentsOf, hindex]
    exact SegmentsOrdered.nil
  · intro k d _ hd
    cases hd

section Counts

variable {d : Data} {p : Page} (hfit : CountsFit env c) (hinfo : info ∈ indexOf env c)
  (hrec : recordOf env c info.pageKey = some d) (hp : PageRecord info.pageKey d p)
  (hcount : info.count = p.validCount.toUInt16)

include hfit hinfo hrec hp hcount

/-- An indexed page has live rows exactly if its count is not zero. -/
theorem CountsFit.count_eq_zero : info.count = 0 ↔ p.validCount = 0 := by
  obtain ⟨heq, hlt⟩ := hfit.liveCount_eq hinfo hrec hp
  rw [hcount, ← UInt16.toNat_inj, ← UInt32.toNat_inj, UInt32.toNat_toUInt16, heq]
  simp only [UInt16.toNat_zero, UInt32.toNat_zero]
  omega

theorem CountsFit.count_ne_zero_of_live {row : Key × Entry} (hrow : row ∈ p.entries.toList)
    (hlive : row.2.live = true) : info.count ≠ 0 := by
  rw [Ne, hfit.count_eq_zero hinfo hrec hp hcount]
  intro hzero
  obtain ⟨heq, _⟩ := hfit.liveCount_eq hinfo hrec hp
  have hpos := Page.liveCount_pos hrow hlive
  rw [← heq, hzero] at hpos
  exact absurd hpos (lt_irrefl 0)

end Counts

theorem live_eq_false_of_count (hc : Consistent env f c)
    (hfit : CountsFit env c) (hinfo : info ∈ indexOf env c)
    (hzero : info.count = 0) : ∀ row ∈ (segmentOf env c info).2, row.2.live = false := by
  obtain ⟨_, ⟨d, p, hrec, hp, hcount⟩, _⟩ := hc.infos info hinfo
  intro row hrow
  rw [segmentOf_eq hrec hp.data] at hrow
  by_contra hlive
  exact hfit.count_ne_zero_of_live hinfo hrec hp hcount hrow (by simpa using hlive) hzero

theorem filterValues_eq_nil {rows : List (Key × Entry)} (hdead : ∀ e, e.live = false → g e = none)
    (h : ∀ row ∈ rows, row.2.live = false) : filterValues g rows = [] := by
  refine List.filterMap_eq_nil_iff.mpr ?_
  intro row hrow
  rw [hdead row.2 (h row hrow), Option.map_none]

namespace Refreshed

variable (hr : Refreshed env c env' g)

include hr

theorem index : indexOf env' noRecords = ((indexOf env c).filter TableMeta.keeps).map
      (fun info => { info with pageData := none }) := by
  obtain ⟨r, hfetch, hpages, _⟩ := hr.metaFetch
  rw [indexOf, recordOf_fetched rfl hfetch, hpages]

variable (hc : Consistent env f c)

include hc

theorem segments : segmentsOf env' noRecords =
      (((indexOf env c).filter TableMeta.keeps).map (segmentOf env c)).map
        (fun t => (t.1, filterValues g t.2)) := by
  rw [segmentsOf, hr.index, List.map_map, List.map_map]
  refine List.map_congr_left (fun info hinfo => ?_)
  obtain ⟨hmem, hkeeps⟩ := List.mem_filter.mp hinfo
  obtain ⟨d, p, hfetch, hp, _, hrows⟩ :=
    hr.pages info hmem ((keeps_eq hc hmem).mp hkeeps)
  have hrec := recordOf_fetched (c := noRecords) rfl hfetch
  simp [segmentOf, hrec, pageRows_eq hp.data, hrows]

theorem consistent : Consistent env' noAddresses noRecords := by
  obtain ⟨r, hfetch, _, hrecord⟩ := hr.metaFetch
  refine ⟨⟨r, hfetch⟩, ?_, ?_, ?_, ?_, fun _ _ _ => rfl⟩
  · intro d hd
    rw [recordOf_fetched rfl hfetch] at hd
    exact hrecord d hd
  · intro info hinfo
    rw [hr.index] at hinfo
    obtain ⟨i, hi, rfl⟩ := List.mem_map.mp hinfo
    obtain ⟨hmem, hkeeps⟩ := List.mem_filter.mp hi
    obtain ⟨d, p, hpage, hp, hcount, _⟩ :=
      hr.pages i hmem ((keeps_eq hc hmem).mp hkeeps)
    refine ⟨(hc.infos i hmem).key, ⟨d, p, recordOf_fetched rfl hpage, hp, hcount⟩, ?_⟩
    intro a ha
    cases ha
  · rw [hr.segments hc]
    refine SegmentsOrdered.filterValues ?_ g
    exact hc.ordered.sublist (List.filter_sublist.map _)
  · intro k d _ hd
    cases hd

theorem rows (hfit : CountsFit env c) : rowsOf env' noRecords = filterValues g (rowsOf env c) := by
  have hall : ∀ infos : List PageInfo, (∀ info ∈ infos, info ∈ indexOf env c) →
      flatten (((infos.filter TableMeta.keeps).map (segmentOf env c)).map
        (fun t => (t.1, filterValues g t.2))) =
          filterValues g (flatten (infos.map (segmentOf env c))) := by
    intro infos
    induction infos with
    | nil => exact fun _ => rfl
    | cons info infos ih =>
      intro hmem
      have hinfo := hmem info (List.mem_cons_self ..)
      have hrest := ih (fun i hi => hmem i (List.mem_cons_of_mem _ hi))
      rw [List.map_cons, flatten_cons, filterValues_append, ← hrest]
      by_cases hkeeps : TableMeta.keeps info = true
      · rw [List.filter_cons_of_pos hkeeps, List.map_cons, List.map_cons, flatten_cons]
      · have hzero : info.count = 0 := by
          by_contra hne
          exact hkeeps ((keeps_eq hc hinfo).mpr hne)
        rw [List.filter_cons_of_neg hkeeps, filterValues_eq_nil hr.dead
          (live_eq_false_of_count hc hfit hinfo hzero), List.nil_append]
  rw [rowsOf, hr.segments hc]
  exact hall _ (fun _ hinfo => hinfo)

end Refreshed

end Refresh

end FiscoSmart.Storage
