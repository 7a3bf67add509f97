import FiscoSmart.Storage.TableHeap
import FiscoSmart.Storage.PageSpec
import FiscoSmart.Support.Segments

/-!
# The joint invariant of index, container and pages

A record of a table is the one in the container or, if there is none, the one
the previous storage has.  The page index then lists the pages of the table, and
the rows of the table are the rows of these pages in index order.  `Consistent`
says that the indexed pages cut the rows into ordered segments, that the index
points to the records it names, and that a page record outside the index holds
no rows.  The operations on a table replace a few neighbouring pages of the
index at a time; `Window` is the rule for such a replacement.
-/

namespace FiscoSmart.Storage

open Support Function

variable {m : TableMeta} {env : TableEnv} {f f' f₂ : Key → Option Address}
  {c c' : Key → Option Data} {d : Data} {p : Page} {k : Key} {info : PageInfo} {a : Address}

/-- The record under `key` as a call would find it. -/
def recordOf (env : TableEnv) (c : Key → Option Data) (key : Key) :
    Option Data :=
  match c key with
  | some d => some d
  | none =>
    match env.fetch key with
    | .ok d => d
    | .error _ => none

def metaPages : Option Data → List PageInfo
  | some ⟨_, _, _, .tableMeta m⟩ => m.pages
  | _ => []

def pageRows : Option Data → List (Key × Entry)
  | some ⟨_, _, _, .page p⟩ => p.entries.toList
  | _ => []

def indexOf (env : TableEnv) (c : Key → Option Data) : List PageInfo :=
  metaPages (recordOf env c tableMetaKey)

/-- The segment of rows a page information stands for. -/
def segmentOf (env : TableEnv) (c : Key → Option Data) (info : PageInfo) :
    Segment Key Entry :=
  (info.pageKey, pageRows (recordOf env c info.pageKey))

/-- The rows of the table, cut into pages. -/
def segmentsOf (env : TableEnv) (c : Key → Option Data) : List (Segment Key Entry) :=
  (indexOf env c).map (segmentOf env c)

/-- The rows of the table in key order. -/
def rowsOf (env : TableEnv) (c : Key → Option Data) : List (Key × Entry) :=
  flatten (segmentsOf env c)

/-- What holds of the record `d` of an indexed page `p` stored under `k`.  A
page that was not written since it was loaded may be stored under a key that is
not its last one; that key is then its only retired key. -/
structure PageRecord (k : Key) (d : Data) (p : Page) : Prop where
  key : d.key = k
  type : d.type = .page
  data : d.data = .page p
  nonempty : p.entries.toList ≠ []
  keys : ∀ row ∈ p.entries.toList, row.1 ≠ []
  retired : ∀ x, p.Retired x → x ≠ []
  count : p.CountOk
  status : d.entry.status ≠ .empty
  endKey : p.endKey = k ∨ (d.entry.dirty = false ∧ p.invalidPageKeys.toList = [(k, ())])
  clean : d.entry.dirty = false → ∀ row ∈ p.entries.toList, row.2.dirty = false

/-- What holds of a page information of the index. -/
structure InfoOk (env : TableEnv) (f : Key → Option Address)
    (c : Key → Option Data) (info : PageInfo) : Prop where
  key : info.pageKey ≠ []
  record : ∃ d p, recordOf env c info.pageKey = some d ∧
    PageRecord info.pageKey d p ∧ info.count = p.validCount.toUInt16
  pointer : ∀ a, info.pageData = some a → f info.pageKey = some a

/-- What holds of the record of the index. -/
structure MetaRecord (d : Data) (m : TableMeta) : Prop where
  key : d.key = tableMetaKey
  type : d.type = .tableMeta
  data : d.data = .tableMeta m

/-- A page record that the index does not list. -/
structure Orphan (k : Key) (d : Data) (p : Page) : Prop where
  key : d.key = k
  type : d.type = .page
  data : d.data = .page p
  rows : p.entries.toList = []
  retired : ∀ x, p.Retired x → x ≠ []
  count : p.CountOk

/-- The joint invariant of the index, the container and the pages. -/
structure Consistent (env : TableEnv) (f : Key → Option Address)
    (c : Key → Option Data) : Prop where
  fetchMeta : ∃ r, env.fetch tableMetaKey = .ok r
  metaRecord : ∀ d, recordOf env c tableMetaKey = some d → ∃ m, MetaRecord d m
  infos : ∀ info ∈ indexOf env c, InfoOk env f c info
  ordered : SegmentsOrdered (segmentsOf env c)
  cachedPages : ∀ k d, k ≠ [] → c k = some d →
    k ∈ (indexOf env c).map PageInfo.pageKey ∨ ∃ p, Orphan k d p
  unindexed : indexOf env c = [] → ∀ k, k ≠ [] → c k = none

theorem recordOf_cached (h : c k = some d) : recordOf env c k = some d := by
  rw [recordOf, h]

theorem recordOf_fetched {r : Option Data} (h : c k = none)
    (hfetch : env.fetch k = .ok r) : recordOf env c k = r := by
  rw [recordOf, h, hfetch]

theorem fetch_of_recordOf (h : c k = none)
    (hrec : recordOf env c k = some d) : env.fetch k = .ok (some d) := by
  rw [recordOf, h] at hrec
  rcases hfetch : env.fetch k with e | r
  · rw [hfetch] at hrec
    cases hrec
  · rw [hfetch] at hrec
    exact congrArg Except.ok hrec

theorem recordOf_congr (h : c k = c' k) : recordOf env c k = recordOf env c' k := by
  rw [recordOf, recordOf, h]

theorem metaPages_eq (h : d.data = .tableMeta m) : metaPages (some d) = m.pages := by
  cases d
  cases h
  rfl

theorem pageRows_eq (h : d.data = .page p) : pageRows (some d) = p.entries.toList := by
  cases d
  cases h
  rfl

theorem indexOf_eq (hrec : recordOf env c tableMetaKey = some d) (h : MetaRecord d m) :
    indexOf env c = m.pages := by
  rw [indexOf, hrec, metaPages_eq h.data]

theorem segmentOf_eq (hrec : recordOf env c info.pageKey = some d)
    (h : d.data = .page p) : segmentOf env c info = (info.pageKey, p.entries.toList) := by
  rw [segmentOf, hrec, pageRows_eq h]

theorem mem_rowsOf {row : Key × Entry} : row ∈ rowsOf env c ↔ ∃ info ∈ indexOf env c,
      row ∈ pageRows (recordOf env c info.pageKey) := by
  rw [rowsOf, mem_flatten, segmentsOf]
  simp [segmentOf]

theorem pageRecord_of_dirty (hkey : d.key = k) (htype : d.type = .page) (hdata : d.data = .page p)
    (hne : p.entries.toList ≠ []) (hkeys : ∀ row ∈ p.entries.toList, row.1 ≠ [])
    (hretired : ∀ x, p.Retired x → x ≠ [])
    (hcount : p.CountOk) (hdirty : d.entry.dirty = true) (hend : p.endKey = k) :
    PageRecord k d p := by
  refine ⟨hkey, htype, hdata, hne, hkeys, hretired, hcount, ?_, .inl hend, ?_⟩
  · intro hempty
    simp [Entry.dirty, hempty] at hdirty
  · intro hclean
    rw [hdirty] at hclean
    cases hclean

theorem Consistent.rows_increasing (h : Consistent env f c) : KeysIncreasing (rowsOf env c) :=
  h.ordered.flatten_increasing

theorem Consistent.keys_increasing (h : Consistent env f c) :
    ((indexOf env c).map PageInfo.pageKey).Pairwise (· < ·) := by
  have hbound := h.ordered.bound_increasing
  rw [segmentsOf, List.map_map] at hbound
  exact hbound

/-! ## What operations never undo -/

/-- The row under `key` is in an indexed page whose record is dirty. -/
def DirtyRow (env : TableEnv) (c : Key → Option Data) (key : Key) : Prop :=
  ∃ info ∈ indexOf env c, ∃ d p, recordOf env c info.pageKey = some d ∧
    d.data = .page p ∧ d.entry.dirty = true ∧ ∃ e, (key, e) ∈ p.entries.toList

/-- `x` is the key of an indexed page, is retired by a dirty indexed page, or is
the key of a dirty page record without rows: a traversal of the dirty records
accounts for it. -/
def Accounted (env : TableEnv) (c : Key → Option Data) (x : Key) : Prop :=
  x ∈ (indexOf env c).map PageInfo.pageKey ∨
    (∃ info ∈ indexOf env c, ∃ d p, recordOf env c info.pageKey = some d ∧
      d.data = .page p ∧ d.entry.dirty = true ∧ p.Retired x) ∨
    ∃ d p, c x = some d ∧ d.entry.dirty = true ∧ Orphan x d p

def MetaDirty (c : Key → Option Data) : Prop :=
  ∃ d, c tableMetaKey = some d ∧ d.entry.dirty = true

/-- A page record marked `DELETED` has no live rows. -/
def Marked (d : Data) (p : Page) : Prop :=
  d.entry.status = .deleted → p.validCount = 0

/-- The records of the indexed pages are marked `DELETED` only if they have no
live rows, and those that are not dirty are as they were fetched. -/
def PagesMarked (env : TableEnv) (c : Key → Option Data) : Prop :=
  ∀ info ∈ indexOf env c, ∀ d p, recordOf env c info.pageKey = some d → d.data = .page p →
      Marked d p ∧ (d.entry.dirty = false → env.fetch info.pageKey = .ok (some d))

/-- Dirty rows stay in dirty pages, accounted keys stay accounted for, a dirty
index stays dirty, and pages stay properly marked. -/
structure Advances (env : TableEnv) (c c' : Key → Option Data) : Prop where
  dirtyRow : ∀ x, DirtyRow env c x → DirtyRow env c' x
  accounted : ∀ x, x ≠ [] → Accounted env c x → Accounted env c' x
  metaDirty : MetaDirty c → MetaDirty c'
  marked : PagesMarked env c → PagesMarked env c'

theorem Advances.refl (env : TableEnv) (c : Key → Option Data) : Advances env c c :=
  ⟨fun _ h => h, fun _ _ h => h, fun h => h, fun h => h⟩

variable {c₂ : Key → Option Data}

theorem Advances.trans {c₁ c₃ : Key → Option Data}
    (h : Advances env c₁ c₂) (h' : Advances env c₂ c₃) : Advances env c₁ c₃ :=
  ⟨fun x hx => h'.dirtyRow x (h.dirtyRow x hx),
    fun x hne hx => h'.accounted x hne (h.accounted x hne hx),
    fun hx => h'.metaDirty (h.metaDirty hx),
    fun hx => h'.marked (h.marked hx)⟩

/-! ## Loading records -/

section Loading

/-- The entry of a loaded record: it was in the container, was fetched, or is
that of a record just created. -/
def EntryKept (env : TableEnv) (c : Key → Option Data) (k : Key) (e : Entry) :
    Prop :=
  (∃ d, c k = some d ∧ e = d.entry) ∨
    (∃ d, env.fetch k = .ok (some d) ∧ e = d.entry) ∨ e = Entry.default

/-- Records were brought into the container and page pointers were set; the
pages and their rows are what they were. -/
structure Loads (env : TableEnv) (c : Key → Option Data)
    (f' : Key → Option Address) (c' : Key → Option Data) : Prop where
  segments : segmentsOf env c' = segmentsOf env c
  records : ∀ x, x ≠ [] → recordOf env c' x = recordOf env c x
  entries : ∀ k d, c' k = some d → EntryKept env c k d.entry
  advances : Advances env c c'
  consistent : Consistent env f' c'

theorem Loads.refl (h : Consistent env f c) : Loads env c f c :=
  ⟨rfl, fun _ _ => rfl, fun _ d hd => .inl ⟨d, hd, rfl⟩, Advances.refl env c, h⟩

theorem Loads.trans (h : Loads env c f' c') (h' : Loads env c' f₂ c₂) : Loads env c f₂ c₂ := by
  refine ⟨h'.segments.trans h.segments, fun x hx => (h'.records x hx).trans (h.records x hx), ?_,
    h.advances.trans h'.advances, h'.consistent⟩
  intro k d hd
  rcases h'.entries k d hd with ⟨d', hd', hentry⟩ | hkept
  · exact hentry ▸ h.entries k d' hd'
  · exact .inr hkept

theorem Loads.rows (h : Loads env c f' c') : rowsOf env c' = rowsOf env c := by
  rw [rowsOf, rowsOf, h.segments]

/-- No page of the table has more live rows than the 16-bit count of its page
information can tell. -/
def CountsFit (env : TableEnv) (c : Key → Option Data) : Prop :=
  ∀ t ∈ segmentsOf env c, Page.liveCount t.2 < 65536

theorem CountsFit.loads (h : CountsFit env c) (hloads : Loads env c f' c') : CountsFit env c' := by
  rw [CountsFit, hloads.segments]
  exact h

section Counts

variable (hfit : CountsFit env c) (hinfo : info ∈ indexOf env c)
  (hrec : recordOf env c info.pageKey = some d) (hp : PageRecord info.pageKey d p)

include hfit hinfo hrec hp

theorem CountsFit.liveCount_eq : p.validCount.toNat = Page.liveCount p.entries.toList ∧
    Page.liveCount p.entries.toList < 65536 := by
  have hlt : Page.liveCount p.entries.toList < 65536 := by
    have := hfit _ (List.mem_map_of_mem hinfo)
    rwa [segmentOf_eq hrec hp.data] at this
  have hcount : p.validCount = UInt32.ofNat (Page.liveCount p.entries.toList) := hp.count
  rw [hcount, UInt32.toNat_ofNat']
  omega

/-- The count of the page information is exact. -/
theorem CountsFit.validCount_eq (hcount : info.count = p.validCount.toUInt16) :
    p.validCount.toNat = info.count.toNat := by
  obtain ⟨heq, hlt⟩ := hfit.liveCount_eq hinfo hrec hp
  rw [hcount, UInt32.toNat_toUInt16]
  omega

end Counts

theorem segmentsOf_fst :
    (segmentsOf env c).map Prod.fst = (indexOf env c).map PageInfo.pageKey := by
  rw [segmentsOf, List.map_map]
  rfl

theorem Loads.keys (h : Loads env c f' c') : (indexOf env c').map PageInfo.pageKey =
      (indexOf env c).map PageInfo.pageKey := by
  rw [← segmentsOf_fst, ← segmentsOf_fst, h.segments]

theorem Loads.index_eq_nil (h : Loads env c f' c') : indexOf env c' = [] ↔ indexOf env c = [] := by
  rw [← List.map_eq_nil_iff (f := PageInfo.pageKey), h.keys, List.map_eq_nil_iff]

variable (h : Consistent env f c)

include h

/-- Nothing changes but the record of the index, whose pages keep their keys and
counts, and the records that were fetched. -/
theorem Consistent.loads_of (hsame : ∀ x, x ≠ [] → recordOf env c' x = recordOf env c x)
    (hmeta : ∀ d, recordOf env c' tableMetaKey = some d → ∃ m, MetaRecord d m)
    (hpages : (indexOf env c').map (fun info => (info.pageKey, info.count)) =
      (indexOf env c).map (fun info => (info.pageKey, info.count)))
    (hptr : ∀ info ∈ indexOf env c', ∀ a, info.pageData = some a → f' info.pageKey = some a)
    (hkept : ∀ x d, x ≠ [] → c x = some d → c' x = some d)
    (hloaded : ∀ x d, x ≠ [] → c' x = some d →
      c x = some d ∨ x ∈ (indexOf env c).map PageInfo.pageKey)
    (hentries : ∀ k d, c' k = some d → EntryKept env c k d.entry)
    (hdirty : MetaDirty c → MetaDirty c') : Loads env c f' c' := by
  have hkeys : (indexOf env c').map PageInfo.pageKey = (indexOf env c).map PageInfo.pageKey := by
    have := congrArg (List.map Prod.fst) hpages
    simpa only [List.map_map, Function.comp_def] using this
  have hmem : ∀ info ∈ indexOf env c', ∃ info' ∈ indexOf env c,
      info'.pageKey = info.pageKey ∧ info'.count = info.count := by
    intro info hinfo
    obtain ⟨info', hinfo', heq⟩ := List.mem_map.mp (hpages ▸ List.mem_map_of_mem hinfo)
    exact ⟨info', hinfo', Prod.mk.inj heq⟩
  have hrecord : ∀ info ∈ indexOf env c,
      recordOf env c' info.pageKey = recordOf env c info.pageKey :=
    fun info hinfo => hsame _ (h.infos info hinfo).key
  have hmem' : ∀ info ∈ indexOf env c, ∀ d, recordOf env c info.pageKey = some d →
      ∃ info' ∈ indexOf env c', recordOf env c' info'.pageKey = some d := by
    intro info hinfo d hd
    obtain ⟨info', hinfo', hkey⟩ := List.mem_map.mp (hkeys ▸ List.mem_map_of_mem hinfo)
    exact ⟨info', hinfo', by rw [hkey, hrecord info hinfo, hd]⟩
  have hsegs : segmentsOf env c' = segmentsOf env c := by
    have hleft : ∀ c₁, segmentsOf env c₁ = ((indexOf env c₁).map PageInfo.pageKey).map
        (fun k => (k, pageRows (recordOf env c₁ k))) := by
      intro c₁
      rw [List.map_map]
      rfl
    rw [hleft, hleft, hkeys, List.map_map, List.map_map]
    exact List.map_congr_left fun info hinfo => by simp [hrecord info hinfo]
  refine ⟨hsegs, hsame, hentries, ⟨?_, ?_, hdirty, ?_⟩, ⟨h.fetchMeta, hmeta, ?_, ?_, ?_, ?_⟩⟩
  · rintro x ⟨info, hinfo, d, p, hd, hrest⟩
    obtain ⟨info', hinfo', hd'⟩ := hmem' info hinfo d hd
    exact ⟨info', hinfo', d, p, hd', hrest⟩
  · rintro x hx (hx' | ⟨info, hinfo, d, p, hd, hrest⟩ | ⟨d, p, hd, hrest⟩)
    · exact .inl (hkeys ▸ hx')
    · obtain ⟨info', hinfo', hd'⟩ := hmem' info hinfo d hd
      exact .inr (.inl ⟨info', hinfo', d, p, hd', hrest⟩)
    · exact .inr (.inr ⟨d, p, hkept x d hx hd, hrest⟩)
  · intro hmarked info hinfo d p hd hp
    obtain ⟨info', hinfo', hkey, -⟩ := hmem info hinfo
    rw [← hkey] at hd ⊢
    exact hmarked info' hinfo' d p ((hrecord info' hinfo').symm.trans hd) hp
  · intro info hinfo
    obtain ⟨info', hinfo', hkey, hcount⟩ := hmem info hinfo
    obtain ⟨hne, ⟨d, p, hd, hpage, hcount'⟩, -⟩ := h.infos info' hinfo'
    refine ⟨hkey ▸ hne, ⟨d, p, ?_, hkey ▸ hpage, hcount ▸ hcount'⟩, hptr info hinfo⟩
    rw [← hkey, hrecord info' hinfo', hd]
  · rw [hsegs]
    exact h.ordered
  · intro x d hx hd
    rw [hkeys]
    rcases hloaded x d hx hd with hd | hmem
    · exact h.cachedPages x d hx hd
    · exact .inl hmem
  · intro hnil x hx
    rw [hnil, List.map_nil] at hkeys
    rcases hd : c' x with - | d
    · rfl
    · rcases hloaded x d hx hd with hd | hmem
      · rw [h.unindexed (List.map_eq_nil_iff.mp hkeys.symm) x hx] at hd
        cases hd
      · exact absurd (hkeys ▸ hmem) List.not_mem_nil

theorem Consistent.loads (hc : c k = none) (hf : f k = none) (hrec : recordOf env c k = some d)
    (hk : k = [] ∨ k ∈ (indexOf env c).map PageInfo.pageKey) :
    Loads env c (update f k (some a)) (update c k (some d)) := by
  have hsame : ∀ x, recordOf env (update c k (some d)) x = recordOf env c x := by
    intro x
    by_cases hx : x = k
    · subst hx
      rw [hrec]
      exact recordOf_cached (update_self ..)
    · exact recordOf_congr (update_of_ne hx ..)
  have hindex : indexOf env (update c k (some d)) = indexOf env c := by
    rw [indexOf, indexOf, hsame]
  have hkeep : ∀ x d', c x = some d' → update c k (some d) x = some d' := by
    intro x d' hx
    rw [update_of_ne _, hx]
    rintro rfl
    rw [hc] at hx
    cases hx
  refine h.loads_of (fun x _ => hsame x) (fun d' hd' => h.metaRecord d' (hsame _ ▸ hd'))
    (by rw [hindex]) ?_ (fun x d' _ => hkeep x d') ?_ ?_ ?_
  · intro info hinfo b hb
    have hfb := (h.infos info (hindex ▸ hinfo)).pointer b hb
    rw [update_of_ne _, hfb]
    intro heq
    rw [heq, hf] at hfb
    cases hfb
  · intro x d' hx hd'
    by_cases hxk : x = k
    · exact .inr (hxk ▸ hk.resolve_left (hxk ▸ hx))
    · exact .inl ((update_of_ne hxk ..).symm.trans hd')
  · intro x d' hd'
    by_cases hx : x = k
    · subst hx
      rw [update_self] at hd'
      cases hd'
      exact .inr (.inl ⟨d, fetch_of_recordOf hc hrec, rfl⟩)
    · exact .inl ⟨d', (update_of_ne hx ..).symm.trans hd', rfl⟩
  · rintro ⟨d', hd', hdirty⟩
    exact ⟨d', hkeep _ d' hd', hdirty⟩

/-- The record of the index is replaced. -/
theorem Consistent.loads_index (hd : MetaRecord d m)
    (hpages : m.pages.map (fun info => (info.pageKey, info.count)) =
      (indexOf env c).map (fun info => (info.pageKey, info.count)))
    (hptr : ∀ info ∈ m.pages, ∀ a, info.pageData = some a → f' info.pageKey = some a)
    (hentry : EntryKept env c tableMetaKey d.entry) (hdirty : MetaDirty c → d.entry.dirty = true) :
    Loads env c f' (update c tableMetaKey (some d)) := by
  have hrec : recordOf env (update c tableMetaKey (some d)) tableMetaKey = some d :=
    recordOf_cached (update_self ..)
  have hindex := indexOf_eq hrec hd
  refine h.loads_of (fun x hx => recordOf_congr (update_of_ne hx ..)) ?_ (by rw [hindex, hpages])
    (by rw [hindex]; exact hptr) (fun x _ hx => (update_of_ne hx ..).trans)
    (fun x _ hx hd' => .inl ((update_of_ne hx ..).symm.trans hd')) ?_
    fun hmeta => ⟨d, update_self .., hdirty hmeta⟩
  · intro d' hd'
    cases hrec.symm.trans hd'
    exact ⟨m, hd⟩
  · intro x d' hd'
    by_cases hx : x = tableMetaKey
    · subst hx
      cases hd'
      exact hentry
    · exact .inl ⟨d', (update_of_ne hx ..).symm.trans hd', rfl⟩

theorem Consistent.loads_created (hc : c tableMetaKey = none)
    (hfetch : env.fetch tableMetaKey = .ok none) : Loads env c (update f tableMetaKey (some a))
      (update c tableMetaKey (some (Data.created tableMetaKey))) := by
  have hnone : indexOf env c = [] := by
    rw [indexOf, recordOf_fetched hc hfetch]
    rfl
  refine h.loads_index (m := TableMeta.empty) ⟨rfl, rfl, rfl⟩ (by rw [hnone]; rfl)
    (fun _ hinfo => absurd hinfo List.not_mem_nil) (.inr (.inr rfl)) ?_
  rintro ⟨d, hd, -⟩
  rw [hc] at hd
  cases hd

theorem Consistent.loads_meta (hd : MetaRecord d m)
    (hpages : m.pages.map (fun info => (info.pageKey, info.count)) =
      (indexOf env c).map (fun info => (info.pageKey, info.count)))
    (hptr : ∀ info ∈ m.pages, ∀ a, info.pageData = some a → f info.pageKey = some a) {d₀ : Data}
    (hd₀ : c tableMetaKey = some d₀) (hentry : d.entry = d₀.entry) :
    Loads env c f (update c tableMetaKey (some d)) := by
  refine h.loads_index hd hpages hptr (.inl ⟨d₀, hd₀, hentry⟩) ?_
  rintro ⟨d', hd', hdirty⟩
  cases hd₀.symm.trans hd'
  rw [hentry, hdirty]

end Loading

/-- The rows may be cut into other pages; as a table they are what they were. -/
structure Reshapes (env : TableEnv) (c : Key → Option Data)
    (f' : Key → Option Address) (c' : Key → Option Data) : Prop where
  rows : rowsOf env c' = rowsOf env c
  advances : Advances env c c'
  consistent : Consistent env f' c'

theorem Loads.reshapes (h : Loads env c f' c') : Reshapes env c f' c' :=
  ⟨h.rows, h.advances, h.consistent⟩

theorem Reshapes.trans (h : Reshapes env c f' c')
    (h' : Reshapes env c' f₂ c₂) : Reshapes env c f₂ c₂ :=
  ⟨h'.rows.trans h.rows, h.advances.trans h'.advances, h'.consistent⟩

/-! ## Replacing a window of the index -/

/-- The pages `old` of the index were replaced by the pages `new`; a record that
was replaced is gone or holds no rows. -/
structure Window (env : TableEnv) (f : Key → Option Address) (c : Key → Option Data)
    (f' : Key → Option Address) (c' : Key → Option Data)
    (front old new back : List PageInfo) : Prop where
  before : Consistent env f c
  index : indexOf env c = front ++ old ++ back
  metaRecord : ∃ d m, c' tableMetaKey = some d ∧ MetaRecord d m ∧ m.pages = front ++ new ++ back
  nonempty : new ≠ []
  other : ∀ x, x ≠ [] → x ∉ (old ++ new).map PageInfo.pageKey → c' x = c x
  address : ∀ info ∈ front ++ back, info.pageKey ∉ (old ++ new).map PageInfo.pageKey →
    f' info.pageKey = f info.pageKey
  replaced : ∀ info ∈ old, ∀ d, c' info.pageKey = some d →
    info.pageKey ∈ new.map PageInfo.pageKey ∨ ∃ p, Orphan info.pageKey d p
  infos : ∀ info ∈ new, InfoOk env f' c' info
  ordered : SegmentsOrdered (front.map (segmentOf env c) ++
    new.map (segmentOf env c') ++ back.map (segmentOf env c))

section Window

variable {front old new back : List PageInfo}

theorem mem_window {α : Type} {front middle back : List α} {x : α} :
    x ∈ front ++ middle ++ back ↔ x ∈ middle ∨ x ∈ front ++ back := by
  simp only [List.mem_append, or_assoc, or_left_comm]

theorem not_mem_middle {middle : List PageInfo}
    (h : ((front ++ middle ++ back).map PageInfo.pageKey).Pairwise (· < ·))
    (hi : info ∈ front ++ back) : info.pageKey ∉ middle.map PageInfo.pageKey := by
  intro hmiddle
  simp only [List.map_append, List.pairwise_append] at h
  rcases List.mem_append.mp hi with hi | hi
  · exact (h.1.2.2 _ (List.mem_map_of_mem hi) _ hmiddle).false
  · exact (h.2.2 _ (List.mem_append_right _ hmiddle) _ (List.mem_map_of_mem hi)).false

namespace Window

variable (hw : Window env f c f' c' front old new back)

include hw

theorem indexOf_eq : indexOf env c' = front ++ new ++ back := by
  obtain ⟨d, m, hd, hm, hpages⟩ := hw.metaRecord
  rw [Storage.indexOf_eq (recordOf_cached hd) hm, hpages]

/-- The page keys increase before and after, so no neighbour is stored under a
key of the window. -/
theorem not_mem (hi : info ∈ front ++ back) : info.pageKey ∉ (old ++ new).map PageInfo.pageKey := by
  have hnew : ((front ++ new ++ back).map PageInfo.pageKey).Pairwise (· < ·) := by
    have hbound := hw.ordered.bound_increasing
    simp only [List.map_append, List.map_map] at hbound ⊢
    exact hbound
  rw [List.map_append, List.mem_append, not_or]
  exact ⟨not_mem_middle (hw.index ▸ hw.before.keys_increasing) hi, not_mem_middle hnew hi⟩

theorem recordOf_eq (hi : info ∈ front ++ back) :
    recordOf env c' info.pageKey = recordOf env c info.pageKey :=
  recordOf_congr (hw.other _ (hw.before.infos info (hw.index ▸ mem_window.mpr (.inr hi))).key
    (hw.not_mem hi))

theorem segments : segmentsOf env c' = front.map (segmentOf env c) ++
      new.map (segmentOf env c') ++ back.map (segmentOf env c) := by
  have hseg : ∀ info ∈ front ++ back, segmentOf env c' info = segmentOf env c info := by
    intro info hinfo
    rw [segmentOf, segmentOf, hw.recordOf_eq hinfo]
  rw [segmentsOf, hw.indexOf_eq, List.map_append, List.map_append]
  congr 1
  · congr 1
    exact List.map_congr_left fun info hinfo => hseg info (List.mem_append_left _ hinfo)
  · exact List.map_congr_left fun info hinfo => hseg info (List.mem_append_right _ hinfo)

theorem consistent : Consistent env f' c' := by
  have h := hw.before
  refine ⟨h.fetchMeta, ?_, ?_, hw.segments ▸ hw.ordered, ?_, ?_⟩
  · obtain ⟨d, m, hd, hm, -⟩ := hw.metaRecord
    intro d' hd'
    cases (recordOf_cached hd).symm.trans hd'
    exact ⟨m, hm⟩
  · intro info hinfo
    rcases mem_window.mp (hw.indexOf_eq ▸ hinfo) with hinfo | hinfo
    · exact hw.infos info hinfo
    · obtain ⟨hkey, ⟨d, p, hrec, hpage, hcount⟩, hptr⟩ :=
        h.infos info (hw.index ▸ mem_window.mpr (.inr hinfo))
      refine ⟨hkey, ⟨d, p, (hw.recordOf_eq hinfo).trans hrec, hpage, hcount⟩, ?_⟩
      intro a ha
      rw [hw.address info hinfo (hw.not_mem hinfo), hptr a ha]
  · intro k d hk hd
    rw [hw.indexOf_eq, List.map_append, List.map_append, mem_window]
    by_cases hmem : k ∈ (old ++ new).map PageInfo.pageKey
    · obtain ⟨info, hinfo, rfl⟩ := List.mem_map.mp hmem
      rcases List.mem_append.mp hinfo with hinfo | hinfo
      · exact (hw.replaced info hinfo d hd).imp_left .inl
      · exact .inl (.inl (List.mem_map_of_mem hinfo))
    · rw [hw.other k hk hmem] at hd
      have hcached := h.cachedPages k d hk hd
      rw [hw.index, List.map_append, List.map_append, mem_window] at hcached
      rw [List.map_append, List.mem_append, not_or] at hmem
      exact hcached.imp_left fun hold => .inr (hold.resolve_left hmem.1)
  · intro hnil
    simp [hw.indexOf_eq, hw.nonempty] at hnil

/-- What a replacement of the pages `old` has to account for. -/
theorem advances (hmeta : MetaDirty c')
    (hold : ∀ info ∈ old, ∃ d p, recordOf env c info.pageKey = some d ∧ d.data = .page p ∧
      (∀ row ∈ p.entries.toList, DirtyRow env c' row.1) ∧ Accounted env c' info.pageKey ∧
      ∀ x, p.Retired x → Accounted env c' x)
    (hnew : PagesMarked env c → ∀ info ∈ new, ∃ d p, recordOf env c' info.pageKey = some d ∧
      d.data = .page p ∧ Marked d p ∧ d.entry.dirty = true) : Advances env c c' := by
  have hmem : ∀ info ∈ indexOf env c, info ∈ old ∨ (info ∈ indexOf env c' ∧
        recordOf env c' info.pageKey = recordOf env c info.pageKey) := by
    intro info hinfo
    refine (mem_window.mp (hw.index ▸ hinfo)).imp_right fun hinfo => ⟨?_, hw.recordOf_eq hinfo⟩
    rw [hw.indexOf_eq]
    exact mem_window.mpr (.inr hinfo)
  refine ⟨?_, ?_, fun _ => hmeta, ?_⟩
  · rintro x ⟨info, hinfo, d, p, hrec, hd, hdirty, e, he⟩
    rcases hmem info hinfo with hin | ⟨hin, hsame⟩
    · obtain ⟨d', p', hrec', hd', hrows, -⟩ := hold info hin
      cases hrec.symm.trans hrec'
      cases hd.symm.trans hd'
      exact hrows (x, e) he
    · exact ⟨info, hin, d, p, hsame.trans hrec, hd, hdirty, e, he⟩
  · rintro x hx (hk | ⟨info, hinfo, d, p, hrec, hd, hdirty, hret⟩ | ⟨d, p, hc, hrest⟩)
    · obtain ⟨info, hinfo, rfl⟩ := List.mem_map.mp hk
      rcases hmem info hinfo with hin | ⟨hin, -⟩
      · obtain ⟨d, p, -, -, -, hkey, -⟩ := hold info hin
        exact hkey
      · exact .inl (List.mem_map_of_mem hin)
    · rcases hmem info hinfo with hin | ⟨hin, hsame⟩
      · obtain ⟨d', p', hrec', hd', -, -, hretired⟩ := hold info hin
        cases hrec.symm.trans hrec'
        cases hd.symm.trans hd'
        exact hretired x hret
      · exact .inr (.inl ⟨info, hin, d, p, hsame.trans hrec, hd, hdirty, hret⟩)
    · by_cases hwin : x ∈ (old ++ new).map PageInfo.pageKey
      · obtain ⟨info, hinfo, rfl⟩ := List.mem_map.mp hwin
        rcases List.mem_append.mp hinfo with hinfo | hinfo
        · obtain ⟨d', p', -, -, -, hkey, -⟩ := hold info hinfo
          exact hkey
        · exact .inl (List.mem_map_of_mem (hw.indexOf_eq ▸ mem_window.mpr (.inl hinfo)))
      · exact .inr (.inr ⟨d, p, (hw.other x hx hwin).trans hc, hrest⟩)
  · intro hm info hinfo d p hrec hd
    rcases mem_window.mp (hw.indexOf_eq ▸ hinfo) with hin | hin
    · obtain ⟨d', p', hrec', hd', hmark, hdirty⟩ := hnew hm info hin
      cases hrec.symm.trans hrec'
      cases hd.symm.trans hd'
      exact ⟨hmark, fun hclean => absurd (hdirty.symm.trans hclean) (by simp)⟩
    · rw [hw.recordOf_eq hin] at hrec
      exact hm info (hw.index ▸ mem_window.mpr (.inr hin)) d p hrec hd

end Window

end Window

end FiscoSmart.Storage
