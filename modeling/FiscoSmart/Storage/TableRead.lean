import FiscoSmart.Storage.TableInvariant

/-!
# Finding and reading a row

The search for the page of a key, by the cached last page or by binary search,
lands on the one segment that can hold the key.  Reading a row of a consistent
table therefore returns the row itself, and leaves the pages and their rows as
they were.
-/

namespace FiscoSmart.Storage

open Support Function List

variable {ok : Prop} {s : TableState} {f : Key → Option Address} {c : Key → Option Data}
  {a b : Address}
  {d : Data} {m : TableMeta} {front back : List PageInfo} {info : PageInfo} {e : Entry} {k : Key}

/-- The index is in the container at address `a`, with record `d`. -/
structure MetaAt (f : Key → Option Address) (c : Key → Option Data)
    (a : Address) (d : Data) (m : TableMeta) : Prop where
  address : f tableMetaKey = some a
  cached : c tableMetaKey = some d
  record : MetaRecord d m

theorem MetaRecord.withMeta (h : MetaRecord d m) (m' : TableMeta) : MetaRecord (d.withMeta m') m' :=
  ⟨h.key, h.type, rfl⟩

section

variable (hm : MetaAt f c a d m)

include hm

theorem MetaAt.index (env : TableEnv) : indexOf env c = m.pages :=
  indexOf_eq (recordOf_cached hm.cached) hm.record

theorem MetaAt.runs (h : Sees ok s f c) : Runs (TableM.metaAt a) s m s :=
  TableM.metaAt_runs h hm.address hm.cached hm.record.data

theorem MetaAt.infoAt_runs (h : Sees ok s f c)
    (hpages : m.pages = front ++ info :: back) : Runs (TableM.infoAt a front.length) s info s := by
  have hinfo : m.pages[front.length]? = some info := by simp [hpages]
  refine (hm.runs h).bind ?_
  rw [hinfo]
  exact .of_pure

theorem MetaAt.update (hk : k ≠ []) (v : Option Data) : MetaAt f (update c k v) a d m :=
  ⟨hm.address, (update_of_ne (Ne.symm hk) ..).trans hm.cached, hm.record⟩

end

namespace TableM

variable {env : TableEnv}

theorem getData_meta (h : Sees ok s f c) (hc : Consistent env f c) :
    ∃ a s' f' c' d m, Runs (getData env tableMetaKey false) s a s' ∧
      Sees ok s' f' c' ∧ Loads env c f' c' ∧ MetaAt f' c' a d m := by
  rcases hcache : c tableMetaKey with - | d
  · have hf : f tableMetaKey = none := (h.find_eq_none _).mpr hcache
    obtain ⟨r, hfetch⟩ := hc.fetchMeta
    rcases r with - | d
    · obtain ⟨a, s', hrun, hsees⟩ := getData_created h hf hfetch
      exact ⟨a, s', _, _, _, TableMeta.empty, hrun, hsees, hc.loads_created hcache hfetch,
        ⟨update_self .., update_self .., rfl, rfl, rfl⟩⟩
    · have hrec := recordOf_fetched hcache hfetch
      obtain ⟨m, hm⟩ := hc.metaRecord d hrec
      obtain ⟨a, s', hrun, hsees⟩ := getData_fetched h hf hfetch false
      exact ⟨a, s', _, _, d, m, hrun, hsees, hc.loads hcache hf hrec (.inl rfl),
        ⟨update_self .., update_self .., hm⟩⟩
  · obtain ⟨a, hf⟩ := h.exists_address hcache
    obtain ⟨m, hm⟩ := hc.metaRecord d (recordOf_cached hcache)
    exact ⟨a, s, f, c, d, m, getData_found h hf env false, h, Loads.refl hc, ⟨hf, hcache, hm⟩⟩

/-- `position` is the place of the page that may hold `key`. -/
structure Position (pages : List PageInfo) (key : Key) (front : List PageInfo)
    (info : PageInfo) (back : List PageInfo) : Prop where
  split : pages = front ++ info :: back
  above : ∀ t ∈ front, t.pageKey < key
  below : key ≤ info.pageKey ∨ back = []

variable {p : Page} {key : Key}

/-- The rows of a page lie between the pages before it and its page key. -/
theorem row_between (hc : Consistent env f c) (hindex : indexOf env c = front ++ info :: back)
    (hrec : recordOf env c info.pageKey = some d) (hd : d.data = .page p)
    (hmem : (key, e) ∈ p.entries.toList) : (∀ t ∈ front, t.pageKey < key) ∧ key ≤ info.pageKey := by
  have hsegs := hc.ordered
  rw [segmentsOf, hindex, map_append, map_cons, segmentOf_eq hrec hd] at hsegs
  exact ⟨fun t ht => (hsegs.fits.above _ (mem_map_of_mem ht)).2 _ hmem,
    hsegs.fits.bounded.2 _ hmem⟩

/-- A page whose rows lie where those of the page of `info` may lie fits in its place. -/
theorem fits_of_between (hc : Consistent env f c)
    (hindex : indexOf env c = front ++ info :: back) (hne : p.entries.toList ≠ [])
    (hrows : ∀ row ∈ p.entries.toList, (∀ t ∈ front, t.pageKey < row.1) ∧
      (row.1 ≤ info.pageKey ∨ back = [])) : SegmentsOrdered.Fits (front.map (segmentOf env c))
      (back.map (segmentOf env c)) (p.endKey, p.entries.toList) := by
  have hsegs := hc.ordered
  rw [segmentsOf, hindex, map_append, map_cons] at hsegs
  obtain ⟨⟨e, hend⟩, hmax⟩ := Page.endKey_mem hne
  refine ⟨⟨p.entries.increasing, hmax⟩, ?_, ?_⟩
  · intro t ht
    obtain ⟨i, hi, rfl⟩ := mem_map.mp ht
    exact ⟨(hrows _ hend).1 i hi, fun row hrow => (hrows row hrow).1 i hi⟩
  · intro t ht
    rcases (hrows _ hend).2 with hle | rfl
    · obtain ⟨hlt, hbelow⟩ := hsegs.fits.below t ht
      exact ⟨lt_of_le_of_lt hle hlt, fun x hx => lt_of_le_of_lt hle (hbelow x hx)⟩
    · simp at ht

/-- A page whose rows surround `key` is the page that may hold `key`. -/
theorem position_of_hit (hc : Consistent env f c) {i : ℕ} (hinfo : (indexOf env c)[i]? = some info)
    (hrec : recordOf env c info.pageKey = some d) (hd : d.data = .page p)
    (hstart : p.startKey ≠ []) (hle : p.startKey ≤ key) (hend : key ≤ p.endKey) :
    Position (indexOf env c) key ((indexOf env c).take i) info ((indexOf env c).drop (i + 1)) := by
  obtain ⟨hlt, hget⟩ := List.getElem?_eq_some_iff.mp hinfo
  have hsplit : indexOf env c = (indexOf env c).take i ++ info :: (indexOf env c).drop (i + 1) := by
    rw [← hget, cons_getElem_drop_succ, take_append_drop]
  obtain ⟨e, hmem⟩ := Page.startKey_mem hstart
  obtain ⟨⟨e', hlast⟩, _⟩ := Page.endKey_mem (ne_nil_of_mem hmem)
  refine ⟨hsplit, fun t ht => ?_, .inl ?_⟩
  · exact lt_of_lt_of_le ((row_between hc hsplit hrec hd hmem).1 t ht) hle
  · exact le_trans hend (row_between hc hsplit hrec hd hlast).2

theorem searchPage_position (hc : Consistent env f c) (hindex : indexOf env c = m.pages)
    (hnil : m.pages ≠ []) :
    ∃ front info back i, Position m.pages key front info back ∧ m.searchPage key =
        (some front.length, { m with lastPageInfoIndex := i }) := by
  obtain ⟨front, info, back, hsplit, habove, hbelow⟩ :=
    exists_reaching PageInfo.pageKey hnil key
  rcases hbelow with hle | ⟨rfl, hlt⟩
  · have hback : ∀ t ∈ back, info.pageKey < t.pageKey := by
      have hkeys := hc.keys_increasing
      rw [hindex, hsplit, map_append, map_cons] at hkeys
      have htail := (pairwise_append.mp hkeys).2.1
      intro t ht
      exact (pairwise_cons.mp htail).1 _ (mem_map_of_mem ht)
    have hpoint : m.lowerBound key = front.length := by
      rw [TableMeta.lowerBound, hsplit]
      refine partitionPoint_append (fun t ht => by simpa using habove t ht) ?_
      intro t ht
      rcases mem_cons.mp ht with rfl | ht
      · simpa using hle
      · simpa using le_trans hle (le_of_lt (hback t ht))
    have hlen : front.length < m.pages.length := by simp [hsplit]
    refine ⟨front, info, back, front.length, ⟨hsplit, habove, .inl hle⟩, ?_⟩
    rw [TableMeta.searchPage, hpoint, if_pos hlen]
  · have hall : ∀ t ∈ m.pages, t.pageKey < key := by
      intro t ht
      rw [hsplit] at ht
      rcases mem_append.mp ht with ht | ht
      · exact habove t ht
      · cases mem_singleton.mp ht
        exact hlt
    have hpoint : m.lowerBound key = m.pages.length := by
      have := partitionPoint_append
        (p := fun t : PageInfo => decide (t.pageKey < key)) (l := m.pages)
        (r := []) (by simpa using hall) (by simp)
      simpa [TableMeta.lowerBound] using this
    have hlast : (m.pages.getLast?.map PageInfo.pageKey).getD [] =
        info.pageKey := by simp [hsplit]
    have hkey : info.pageKey ≠ [] :=
      (hc.infos info (by simp [hindex, hsplit])).key
    have hlen : m.pages.length - 1 = front.length := by simp [hsplit]
    refine ⟨front, info, [], m.pages.length - 1, ⟨hsplit, habove, .inr rfl⟩, ?_⟩
    rw [TableMeta.searchPage, hpoint, if_neg (lt_irrefl _), hlast, if_neg hkey, hlen]

variable (h : Sees ok s f c) (hc : Consistent env f c)

include h hc

theorem meta_getPageInfoNoLock (hm : MetaAt f c a d m) :
    (m.pages = [] ∧ m.getPageInfoNoLock (pageOf s) key = .ok (none, m)) ∨
      ∃ front info back i, Position m.pages key front info back ∧
        m.getPageInfoNoLock (pageOf s) key =
          .ok (some front.length, { m with lastPageInfoIndex := i }) := by
  have hindex := hm.index env
  by_cases hnil : m.pages = []
  · left
    simp [TableMeta.getPageInfoNoLock, hnil]
  right
  have hempty : m.pages.isEmpty = false := by simpa using hnil
  obtain ⟨front, info, back, i, hpos, hsearch⟩ :=
    searchPage_position hc hindex hnil
  rcases hlast : m.pages[m.lastPageInfoIndex]? with - | last
  · refine ⟨front, info, back, i, hpos, ?_⟩
    simp [TableMeta.getPageInfoNoLock, TableMeta.lastPageHit, hempty, hlast, hsearch]
  · have hmem : last ∈ indexOf env c := hindex ▸ mem_of_getElem? hlast
    obtain ⟨_, ⟨d', p, hrec, hpage, _⟩, hptr⟩ := hc.infos last hmem
    rcases hdata : last.pageData with - | b
    · refine ⟨front, info, back, i, hpos, ?_⟩
      simp [TableMeta.getPageInfoNoLock, TableMeta.lastPageHit, hempty, hlast, hdata, hsearch]
    · have hfb := hptr b hdata
      obtain ⟨d'', hd''⟩ := h.exists_record hfb
      rw [recordOf_cached hd''] at hrec
      cases hrec
      have hpageOf := pageOf_eq h hfb hd'' hpage.data
      by_cases hhit : p.startKey ≠ [] ∧ p.startKey ≤ key ∧ key ≤ p.endKey
      · have hlast' : (indexOf env c)[m.lastPageInfoIndex]? = some last := by
          rw [hindex, hlast]
        have hposition := position_of_hit hc hlast' (recordOf_cached hd'')
          hpage.data hhit.1 hhit.2.1 hhit.2.2
        rw [hindex] at hposition
        refine ⟨_, last, _, m.lastPageInfoIndex, hposition, ?_⟩
        have hlen : (m.pages.take m.lastPageInfoIndex).length =
            m.lastPageInfoIndex := by
          rw [length_take]
          have := (List.getElem?_eq_some_iff.mp hlast).1
          omega
        rw [hlen]
        simp [TableMeta.getPageInfoNoLock, TableMeta.lastPageHit, hempty,
          hlast, hdata, hpageOf, hhit, Except.map]
      · refine ⟨front, info, back, i, hpos, ?_⟩
        simp only [TableMeta.getPageInfoNoLock, TableMeta.lastPageHit,
          hempty, hlast, hdata, hpageOf, hhit, Except.map, hsearch]
        rfl

theorem getPageInfoNoLock_runs (hm : MetaAt f c a d m)
    (key : Key) : ∃ r s' c' d' m', Runs (getPageInfoNoLock a key) s r s' ∧ Sees ok s' f c' ∧
      Loads env c f c' ∧ MetaAt f c' a d' m' ∧ ((r = none ∧ m'.pages = []) ∨
        ∃ front info back, r = some front.length ∧ Position m'.pages key front info back) := by
  have hrun : ∀ r m', m.getPageInfoNoLock (pageOf s) key = .ok (r, m') → m'.pages = m.pages →
      ∃ s', Runs (getPageInfoNoLock a key) s r s' ∧ Sees ok s' f (update c tableMetaKey
          (some (d.withMeta m'))) ∧ Loads env c f (update c tableMetaKey
          (some (d.withMeta m'))) ∧ MetaAt f (update c tableMetaKey
          (some (d.withMeta m'))) a (d.withMeta m') m' := by
    intro r m' hfound hpages
    obtain ⟨s', hset, hsees⟩ := setMeta_runs h hm.address hm.cached m'
    have hrecord : MetaRecord (d.withMeta m') m' :=
      hm.record.withMeta _
    refine ⟨s', ?_, hsees, ?_, ⟨hm.address, update_self .., hrecord⟩⟩
    · refine (hm.runs h).bind (Runs.get_bind ?_)
      rw [hfound]
      exact hset.bind .of_pure
    · refine hc.loads_meta hrecord (by rw [hpages, hm.index env]) ?_ hm.cached rfl
      intro info hinfo b hb
      rw [hpages, ← hm.index env] at hinfo
      exact (hc.infos info hinfo).pointer b hb
  rcases meta_getPageInfoNoLock h hc hm with
    ⟨hnil, hfound⟩ | ⟨front, info, back, i, hpos, hfound⟩
  · obtain ⟨s', hr, hsees, hloads, hm'⟩ := hrun none m hfound rfl
    exact ⟨none, s', _, _, m, hr, hsees, hloads, hm', .inl ⟨rfl, hnil⟩⟩
  · obtain ⟨s', hr, hsees, hloads, hm'⟩ := hrun _ _ hfound rfl
    exact ⟨_, s', _, _, _, hr, hsees, hloads, hm', .inr ⟨front, info, back, rfl, hpos⟩⟩

/-! ## Loading a page -/

/-- The page stored under `k` is in the container at address `b`. -/
structure PageAt (f : Key → Option Address) (c : Key → Option Data)
    (b : Address) (k : Key) (d : Data) (p : Page) : Prop where
  address : f k = some b
  cached : c k = some d
  record : PageRecord k d p

omit hc in
theorem PageAt.runs (hpage : PageAt f c b k d p) : Runs (pageAt b) s p s :=
  pageAt_runs h hpage.address hpage.cached hpage.record.data

theorem getData_page (hinfo : info ∈ indexOf env c) (mustExist : Bool) :
    ∃ b s' f' c' d p, Runs (getData env info.pageKey mustExist) s b s' ∧
      Sees ok s' f' c' ∧ Loads env c f' c' ∧ PageAt f' c' b info.pageKey d p ∧
      info.count = p.validCount.toUInt16 ∧ ∀ x, x ≠ info.pageKey → f' x = f x ∧ c' x = c x := by
  obtain ⟨_, ⟨d, p, hrec, hpage, hcount⟩, _⟩ := hc.infos info hinfo
  rcases hcache : c info.pageKey with - | d'
  · have hf : f info.pageKey = none := (h.find_eq_none _).mpr hcache
    obtain ⟨b, s', hrun, hsees⟩ := getData_fetched h hf (fetch_of_recordOf hcache hrec) mustExist
    refine ⟨b, s', _, _, d, p, hrun, hsees, hc.loads hcache hf hrec (.inr (mem_map_of_mem hinfo)),
      ⟨update_self .., update_self .., hpage⟩, hcount, ?_⟩
    intro x hx
    exact ⟨update_of_ne hx .., update_of_ne hx ..⟩
  · rw [recordOf_cached hcache] at hrec
    cases hrec
    obtain ⟨b, hb⟩ := h.exists_address hcache
    exact ⟨b, s, f, c, d, p, getData_found h hb env mustExist, h,
      Loads.refl hc, ⟨hb, hcache, hpage⟩, hcount, fun _ _ => ⟨rfl, rfl⟩⟩

theorem setPageData_runs (hm : MetaAt f c a d m)
    (hpages : m.pages = front ++ info :: back) (hb : f info.pageKey = some b) :
    ∃ s' c' d' m', Runs (setPageData a front.length b) s () s' ∧
      Sees ok s' f c' ∧ Loads env c f c' ∧ MetaAt f c' a d' m' ∧
      m'.pages = front ++ { info with pageData := some b } :: back ∧ ∀ x, x ≠ [] → c' x = c x := by
  have hmodify : m.pages.modify front.length (fun info => { info with pageData := some b }) =
        front ++ { info with pageData := some b } :: back := by
    rw [hpages]
    exact modify_length
  obtain ⟨s', hset, hsees⟩ := setMeta_runs h hm.address hm.cached (⟨m.pages.modify front.length
      (fun info => { info with pageData := some b }), m.lastPageInfoIndex⟩)
  refine ⟨s', _, _, _, (hm.runs h).bind
    hset, hsees, ?_, ⟨hm.address, update_self ..,
      hm.record.withMeta _⟩, hmodify, ?_⟩
  · refine hc.loads_meta (hm.record.withMeta _) ?_ ?_ hm.cached rfl
    · rw [hm.index env]
      simp only [hmodify]
      simp [hpages, map_append, map_cons]
    · intro info' hinfo' b' hb'
      have hold : ∀ i ∈ m.pages, ∀ x, i.pageData = some x → f i.pageKey = some x := by
        intro i hi
        exact (hc.infos i (hm.index env ▸ hi)).pointer
      simp only [hmodify, mem_append, mem_cons] at hinfo'
      rcases hinfo' with hinfo' | rfl | hinfo'
      · exact hold info' (by simp [hpages, hinfo']) b' hb'
      · cases hb'
        exact hb
      · exact hold info' (by simp [hpages, hinfo']) b' hb'
  · intro x hx
    exact update_of_ne hx ..

/-- The page of a page information, by its pointer or by loading it. -/
structure PageOpen (env : TableEnv) (f : Key → Option Address)
    (c : Key → Option Data) (a : Address) (front back : List PageInfo)
    (info : PageInfo) (b : Address) (d : Data) (p : Page) : Prop where
  consistent : Consistent env f c
  index : ∃ dm m, MetaAt f c a dm m ∧ m.pages = front ++ info :: back
  page : PageAt f c b info.pageKey d p
  count : info.count = p.validCount.toUInt16
  pointer : info.pageData = some b

/-- A page information that has no pointer yet: load the page and keep the
pointer. -/
theorem openPage_runs (hm : MetaAt f c a d m) (hpages : m.pages = front ++ info :: back)
    {mustExist : Bool} : ∃ b s₁ s' f' c' d' p, Runs (getData env info.pageKey mustExist) s b s₁ ∧
      Runs (setPageData a front.length b) s₁ () s' ∧ Sees ok s' f' c' ∧ Loads env c f' c' ∧
      PageOpen env f' c' a front back { info with pageData := some b } b d' p := by
  have hinfo : info ∈ indexOf env c := by simp [hm.index env, hpages]
  have hkey : info.pageKey ≠ [] := (hc.infos info hinfo).key
  obtain ⟨b, s₁, f₁, c₁, d', p, hrun, hsees, hloads, hpage, hcount, hsame⟩ :=
    getData_page h hc hinfo mustExist
  obtain ⟨hfm, hcm⟩ := hsame tableMetaKey (Ne.symm hkey)
  have hm₁ : MetaAt f₁ c₁ a d m :=
    ⟨hfm.trans hm.address, hcm.trans hm.cached, hm.record⟩
  obtain ⟨s', c', d'', m', hset, hsees', hloads', hm', hpages', hsame'⟩ :=
    setPageData_runs hsees hloads.consistent hm₁ hpages hpage.address
  refine ⟨b, s₁, s', f₁, c', d', p, hrun, hset, hsees', hloads.trans hloads',
    ⟨hloads'.consistent, ⟨d'', m', hm', hpages'⟩,
      ⟨hpage.address, (hsame' _ hkey).trans hpage.cached, hpage.record⟩, hcount, rfl⟩⟩

theorem openPage_pointer (hm : MetaAt f c a d m)
    (hpages : m.pages = front ++ info :: back) (hb : info.pageData = some b) :
    ∃ d' p, PageOpen env f c a front back info b d' p := by
  have hinfo : info ∈ indexOf env c := by simp [hm.index env, hpages]
  obtain ⟨_, ⟨d', p, hrec, hpage, hcount⟩, hptr⟩ := hc.infos info hinfo
  obtain ⟨d'', hd''⟩ := h.exists_record (hptr b hb)
  rw [recordOf_cached hd''] at hrec
  cases hrec
  exact ⟨d', p, hc, ⟨d, m, hm, hpages⟩, ⟨hptr b hb, hd'', hpage⟩, hcount, hb⟩

omit hc h

theorem PageOpen.validCount_eq (hopen : PageOpen env f c a front back info b d p)
    (hfit : CountsFit env c) : p.validCount.toNat = info.count.toNat := by
  obtain ⟨dm, m, hm, hpages⟩ := hopen.index
  exact hfit.validCount_eq (by simp [hm.index env, hpages]) (recordOf_cached hopen.page.cached)
    hopen.page.record hopen.count

/-! ## Reading a row -/

/-- The rows of the page that may hold a key are the rows of the table, as far
as the key is concerned. -/
theorem mem_rowsOf_iff (hc : Consistent env f c)
    (hpos : Position (indexOf env c) key front info back)
    (hrec : recordOf env c info.pageKey = some d) (hd : d.data = .page p)
    (e : Entry) : (key, e) ∈ rowsOf env c ↔ (key, e) ∈ p.entries.toList := by
  have hsegs := hc.ordered
  have hsplit : segmentsOf env c = front.map (segmentOf env c) ++
      segmentOf env c info :: back.map (segmentOf env c) := by
    rw [segmentsOf, hpos.split, map_append, map_cons]
  rw [hsplit] at hsegs
  rw [rowsOf, hsplit, hsegs.mem_flatten_iff ?_ ?_]
  · rw [segmentOf_eq hrec hd]
  · intro t ht
    obtain ⟨i, hi, rfl⟩ := mem_map.mp ht
    exact hpos.above i hi
  · rcases hpos.below with hle | rfl
    · exact .inl hle
    · exact .inr rfl

/-- The key of the page that may hold `key`. -/
def reachedKey (keys : List Key) (key : Key) : Option Key :=
  (keys.find? (key ≤ ·)).or keys.getLast?

/-- What a page answers: the row of the key or, if the storage is read-only, the whole page. -/
def pageAnswer (env : TableEnv) (key : Key) : Option Data → Option Entry
  | some ⟨_, _, e, .page p⟩ =>
    if env.readOnly then
      if 0 < p.size then some ((Entry.default.set (env.archive.write p.save)).setStatus e.status)
      else none
    else p.getEntry key
  | _ => none

/-- The answer to a read of a row. -/
def rowAnswer (env : TableEnv) (c : Key → Option Data) (key : Key) : Option Entry :=
  (reachedKey ((indexOf env c).map PageInfo.pageKey) key).bind fun k =>
    pageAnswer env key (recordOf env c k)

theorem Position.reachedKey {pages : List PageInfo} (h : Position pages key front info back) :
    reachedKey (pages.map PageInfo.pageKey) key = some info.pageKey := by
  have hfront : (front.map PageInfo.pageKey).find? (key ≤ ·) = none := by
    rw [find?_eq_none]
    intro k hk
    obtain ⟨t, ht, rfl⟩ := mem_map.mp hk
    simpa using h.above t ht
  rw [TableM.reachedKey, h.split, map_append, map_cons, find?_append, hfront, Option.none_or,
    find?_cons]
  rcases h.below with hle | rfl
  · simp [hle]
  · by_cases hle : key ≤ info.pageKey <;> simp [hle]

theorem reachedKey_mem {keys : List Key} (h : reachedKey keys key = some k) : k ∈ keys := by
  rcases Option.or_eq_some_iff.mp h with hfind | ⟨-, hlast⟩
  · exact mem_of_find?_eq_some hfind
  · exact mem_of_getLast? hlast

theorem rowAnswer_loads {f' : Key → Option Address} {c' : Key → Option Data}
    (hloads : Loads env c f' c') (key : Key) : rowAnswer env c' key = rowAnswer env c key := by
  rw [rowAnswer, rowAnswer, ← hloads.keys]
  rcases hreached : reachedKey ((indexOf env c').map PageInfo.pageKey) key with - | k
  · rfl
  · obtain ⟨info, hinfo, rfl⟩ := mem_map.mp (reachedKey_mem hreached)
    rw [Option.bind_some, Option.bind_some,
      hloads.records _ (hloads.consistent.infos info hinfo).key]

theorem pageAnswer_eq (hd : d.data = .page p) (hro : env.readOnly = false) (key : Key) :
    pageAnswer env key (some d) = p.getEntry key := by
  rcases d with ⟨k, type, e, data⟩
  cases hd
  simp [pageAnswer, hro]

theorem readPage_runs (h : Sees ok s f c) (info : PageInfo) (hpage : PageAt f c b info.pageKey d p)
    (hcount : ok → p.validCount.toNat = info.count.toNat)
    (hkey : ok → env.readOnly = true → info.pageKey = key) :
    ∃ s', Runs (readPage env info b key) s (pageAnswer env key (some d)) s' ∧ Sees ok s' f c := by
  obtain ⟨s₁, hrun₁, hsees₁⟩ := fatal_guarded_runs h
    (b := p.validCount.toNat ≠ info.count.toNat ∧ ¬ env.ignoreNotExist)
    (fun hok hne => hne.1 (hcount hok)) .pageValidCountMismatch
  by_cases hro : env.readOnly = true
  · obtain ⟨s₂, hrun₂, hsees₂⟩ := fatal_guarded_runs hsees₁ (b := info.pageKey ≠ key)
      (fun hok hne => hne (hkey hok hro)) .readonlyReadEntry
    refine ⟨s₂, ?_, hsees₂⟩
    refine (deref_runs h hpage.address hpage.cached).bind ?_
    rw [if_neg hpage.record.status]
    refine (hpage.runs h).bind (hrun₁.bind ?_)
    rw [if_pos hro]
    refine hrun₂.bind ?_
    have hdata := hpage.record.data
    rcases d with ⟨k, type, e, data⟩
    cases hdata
    rw [pageAnswer, if_pos hro]
    split_ifs <;> exact .of_pure
  · refine ⟨s₁, ?_, hsees₁⟩
    refine (deref_runs h hpage.address hpage.cached).bind ?_
    rw [if_neg hpage.record.status]
    refine (hpage.runs h).bind (hrun₁.bind ?_)
    rw [if_neg hro, pageAnswer_eq hpage.record.data (by simpa using hro)]
    exact .of_pure

theorem getEntry_eq_some : p.getEntry key = some e ↔
      (key, e) ∈ p.entries.toList ∧ e.visible = true := by
  rw [Page.getEntry, Option.filter_eq_some_iff, SortedMap.find?_eq_some]

/-- The search for a key: the index is loaded, and the search in it ends at the page that may
hold the key. -/
theorem search_runs (h : Sees ok s f c) (hc : Consistent env f c) (key : Key) :
    ∃ a position s₁ s' f' c' dm m, Runs (getData env tableMetaKey false) s a s₁ ∧
      Runs (getPageInfoNoLock a key) s₁ position s' ∧ Sees ok s' f' c' ∧ Loads env c f' c' ∧
      MetaAt f' c' a dm m ∧ ((position = none ∧ m.pages = []) ∨
        ∃ front info back, position = some front.length ∧
          Position m.pages key front info back) := by
  obtain ⟨a, s₁, f₁, c₁, d₁, m₁, hrun₁, hsees₁, hloads₁, hm₁⟩ :=
    getData_meta h hc
  obtain ⟨position, s₂, c₂, dm, m, hrun₂, hsees₂, hloads₂, hm, hposition⟩ :=
    getPageInfoNoLock_runs hsees₁ hloads₁.consistent hm₁ key
  exact ⟨a, position, s₁, s₂, f₁, c₂, dm, m, hrun₁, hrun₂, hsees₂, hloads₁.trans hloads₂, hm,
    hposition⟩

/-- In a storage that is not read-only the answer is the row. -/
theorem rowAnswer_eq_some (hc : Consistent env f c) (hro : env.readOnly = false) :
    rowAnswer env c key = some e ↔ (key, e) ∈ rowsOf env c ∧ e.visible = true := by
  by_cases hnil : indexOf env c = []
  · have hrows : rowsOf env c = [] := by
      rw [rowsOf, segmentsOf, hnil]
      rfl
    simp [rowAnswer, reachedKey, hnil, hrows]
  · obtain ⟨front, info, back, hsplit, habove, hbelow⟩ :=
      exists_reaching PageInfo.pageKey hnil key
    have hpos : Position (indexOf env c) key front info back :=
      ⟨hsplit, habove, hbelow.imp_right And.left⟩
    obtain ⟨d, p, hrec, hpage, -⟩ := (hc.infos info (by simp [hsplit])).record
    rw [rowAnswer, hpos.reachedKey, Option.bind_some, hrec, pageAnswer_eq hpage.data hro,
      getEntry_eq_some, mem_rowsOf_iff hc hpos hrec hpage.data]

theorem getEntryFromPage_runs (h : Sees ok s f c) (hc : Consistent env f c)
    (hfit : ok → CountsFit env c) (hpageKey : ok → env.readOnly = true →
      ∀ k, reachedKey ((indexOf env c).map PageInfo.pageKey) key = some k → k = key)
    (hkey : key ≠ []) : ∃ s' f' c', Runs (getEntryFromPage env key) s (rowAnswer env c key) s' ∧
      Sees ok s' f' c' ∧ Loads env c f' c' := by
  obtain ⟨a, r, s₁, s₂, f₂, c₂, dm, m, hrun₁, hrun₂, hsees₂, hloads, hm, hr⟩ := search_runs h hc key
  rcases hr with ⟨rfl, hnil⟩ | ⟨front, info, back, rfl, hpos⟩
  · have hanswer : rowAnswer env c key = none := by
      rw [← rowAnswer_loads hloads, rowAnswer, hm.index env, hnil]
      rfl
    refine ⟨s₂, f₂, c₂, ?_, hsees₂, hloads⟩
    rw [hanswer]
    refine hrun₁.bind ?_
    rw [if_neg hkey]
    exact hrun₂.bind .of_pure
  · have hreached : ok → env.readOnly = true → info.pageKey = key := by
      intro hok hro
      apply hpageKey hok hro
      rw [← hloads.keys, hm.index env]
      exact hpos.reachedKey
    -- the page is at hand or is loaded first
    obtain ⟨b, s₃, f₃, c₃, d, p, info', hrun₃, hsees₃, hloads₃, hkey', hopen⟩ :
        ∃ b s₃ f₃ c₃ d p info', Runs (info.pageData.elim (do
              let pageData ← getData env info.pageKey (0 < info.count)
              setPageData a front.length pageData
              readPage env info pageData key)
            (readPage env info · key)) s₂ (pageAnswer env key (some d)) s₃ ∧ Sees ok s₃ f₃ c₃ ∧
          Loads env c₂ f₃ c₃ ∧ info'.pageKey = info.pageKey ∧
          PageOpen env f₃ c₃ a front back info' b d p := by
      rcases hdata : info.pageData with - | b
      · obtain ⟨b, s₃, s₄, f₄, c₄, d, p, hrun₃, hrun₄, hsees₄, hloads₄, hopen⟩ :=
          openPage_runs hsees₂ hloads.consistent hm hpos.split
        obtain ⟨s₅, hrun₅, hsees₅⟩ := readPage_runs hsees₄ info hopen.page
          (fun hok => hopen.validCount_eq ((hfit hok).loads (hloads.trans hloads₄))) hreached
        exact ⟨b, s₅, f₄, c₄, d, p, { info with pageData := some b },
          hrun₃.bind (hrun₄.bind hrun₅), hsees₅, hloads₄, rfl, hopen⟩
      · obtain ⟨d, p, hopen⟩ := openPage_pointer hsees₂ hloads.consistent hm hpos.split hdata
        obtain ⟨s₃, hrun₃, hsees₃⟩ := readPage_runs hsees₂ info hopen.page
          (fun hok => hopen.validCount_eq ((hfit hok).loads hloads)) hreached
        exact ⟨b, s₃, f₂, c₂, d, p, info, hrun₃, hsees₃, Loads.refl hloads.consistent, rfl, hopen⟩
    have hpos' : Position (indexOf env c₃) key front info' back := by
      obtain ⟨dm, m, hm, hpages⟩ := hopen.index
      rw [hm.index env]
      exact ⟨hpages, hpos.above, hkey' ▸ hpos.below⟩
    have hanswer : rowAnswer env c key = pageAnswer env key (some d) := by
      rw [← rowAnswer_loads (hloads.trans hloads₃), rowAnswer, hpos'.reachedKey,
        Option.bind_some, recordOf_cached hopen.page.cached]
    refine ⟨s₃, f₃, c₃, ?_, hsees₃, hloads.trans hloads₃⟩
    rw [hanswer]
    refine hrun₁.bind ?_
    rw [if_neg hkey]
    refine hrun₂.bind ((hm.infoAt_runs hsees₂ hpos.split).bind ?_)
    rcases hdata : info.pageData with - | pageData <;> rwa [hdata] at hrun₃

end TableM

end FiscoSmart.Storage
