import FiscoSmart.Storage.TableWrite

/-!
# Splitting and merging pages

A write may leave its page too large or too small.  A large page is cut in two,
and the front half becomes a new page in front of it; a small page is emptied
into the page behind it and leaves the index.  Either way the rows of the table
stay what they were.
-/

namespace FiscoSmart.Storage

open Support Function List

namespace TableM

variable {ok : Prop} {env : TableEnv} {s : TableState} {f f' : Key → Option Address}
  {c c' : Key → Option Data}
  {a b : Address} {front back : List PageInfo} {info : PageInfo} {d dm : Data}
  {p q merged new old : Page}

/-! ## The open page and its neighbours -/

namespace PageOpen

variable (hopen : PageOpen env f c a front back info b d p)

include hopen

theorem indexOf_eq : indexOf env c = front ++ info :: back := by
  obtain ⟨dm, m, hm, hpages⟩ := hopen.index
  rw [hm.index env, hpages]

theorem infoOk : InfoOk env f c info :=
  hopen.consistent.infos info (by simp [hopen.indexOf_eq])

theorem segmentsOf_eq : segmentsOf env c = front.map (segmentOf env c) ++
      (info.pageKey, p.entries.toList) :: back.map (segmentOf env c) := by
  rw [segmentsOf, hopen.indexOf_eq, map_append, map_cons]
  rw [segmentOf_eq (recordOf_cached hopen.page.cached) hopen.page.record.data]

theorem ordered : SegmentsOrdered (front.map (segmentOf env c) ++
      (info.pageKey, p.entries.toList) :: back.map (segmentOf env c)) :=
  hopen.segmentsOf_eq ▸ hopen.consistent.ordered

variable {t : PageInfo}

theorem front_lt (ht : t ∈ front) {x : Key} {e : Entry}
    (hx : (x, e) ∈ p.entries.toList) : t.pageKey < x :=
  (hopen.ordered.fits.above _ (mem_map_of_mem ht)).2 (x, e) hx

theorem lt_back (ht : t ∈ back) : info.pageKey < t.pageKey :=
  (hopen.ordered.fits.below _ (mem_map_of_mem ht)).1

theorem neighbour_key (ht : t ∈ front ++ back) : t.pageKey ≠ [] := by
  refine (hopen.consistent.infos t ?_).key
  rw [hopen.indexOf_eq]
  simp only [mem_append, mem_cons] at ht ⊢
  tauto

end PageOpen

/-! ## Splitting a page -/

/-- The record of the page that a split creates. -/
def newPageData (page : Page) : Data :=
  ⟨page.endKey, .page, Entry.default.setStatus .modified, .page page⟩

/-- The information of the page that a split creates at address `n`. -/
def newPageInfo (page : Page) (n : Address) : PageInfo :=
  ⟨page.endKey, page.validCount.toUInt16, page.size.toUInt16, some n⟩

theorem merge_endKey (hrows : merged.entries.toList =
      p.entries.toList ++ q.entries.toList) (hok : q.entries.toList ≠ [])
    (hlt : ∀ x ∈ p.entries.toList, ∀ y ∈ q.entries.toList, x.1 < y.1) :
    merged.endKey = q.endKey := by
  obtain ⟨⟨e, he⟩, hmax⟩ := Page.endKey_mem hok
  refine Page.endKey_eq (e := e) (by simp [hrows, he]) ?_
  rw [hrows]
  exact forall_mem_append.mpr ⟨fun x hx => le_of_lt (hlt x hx _ he), hmax⟩

/-- The front half of a page ends inside the page, and the rest keeps its last
key. -/
theorem split_keys {l r : List (Key × Entry)} (hp : p.entries.toList = l ++ r)
    (hold : old.entries.toList = r)
    (hnew : new.entries.toList = l) (hl : l ≠ []) (hr : r ≠ []) :
    old.endKey = p.endKey ∧ (∃ e, (new.endKey, e) ∈ p.entries.toList) ∧ new.endKey < p.endKey := by
  have hlr : ∀ x ∈ l, ∀ y ∈ r, x.1 < y.1 :=
    (pairwise_append.mp (hp ▸ p.entries.increasing)).2.2
  have hend : p.endKey = old.endKey := by
    refine merge_endKey (p := new) (by rw [hp, hold, hnew]) (hold ▸ hr) ?_
    rwa [hold, hnew]
  obtain ⟨⟨eo, heo⟩, _⟩ := Page.endKey_mem (p := old) (hold ▸ hr)
  obtain ⟨⟨en, hen⟩, _⟩ := Page.endKey_mem (p := new) (hnew ▸ hl)
  rw [hold] at heo
  rw [hnew] at hen
  exact ⟨hend.symm, ⟨en, by simp [hp, hen]⟩, hend ▸ hlr _ hen _ heo⟩

variable {m : TableMeta}

/-- The records after a split of the page of `info`: the page keeps its back
half, the front half is a record of its own at address `n`. -/
theorem PageOpen.split (hopen : PageOpen env f c a front back info b d p)
    (hdirty : d.entry.dirty = true) (hend : p.endKey = info.pageKey) (hlive : 1 < p.validCount)
    (hsplit : p.split env.splitSize = (old, new)) {n : Address}
    (hmeta : c' tableMetaKey = some dm) (hm : MetaRecord dm m) (hmd : dm.entry.dirty = true)
    (hpages : m.pages = front ++ [newPageInfo new n,
      TableMeta.updateInfo old.endKey old.validCount old.size info] ++ back)
    (hcold : c' info.pageKey = some (d.withPage old))
    (hcnew : c' new.endKey = some (newPageData new))
    (hcother : ∀ x, x ≠ [] → x ≠ info.pageKey → x ≠ new.endKey → c' x = c x)
    (hfnew : f' new.endKey = some n) (hfother : ∀ x, x ≠ new.endKey → f' x = f x) :
    Reshapes env c f' c' := by
  have hp := hopen.page.record
  obtain ⟨l, r, hrows, hl, hr, hold, hnew, hcountOld, hcountNew, hret⟩ :=
    Page.split_spec hp.count (Page.two_le_length hp.count hlive)
  rw [hsplit] at hold hnew hcountOld hcountNew hret
  obtain ⟨hendOld, ⟨e, he⟩, hlt⟩ := split_keys hrows hold hnew hl hr
  rw [hend] at hendOld hlt
  have hK := hopen.infoOk.key
  have hN : new.endKey ≠ [] := hp.keys _ he
  have hkeysOf : ∀ q : Page, (∀ row ∈ q.entries.toList, row ∈ p.entries.toList) →
      ∀ row ∈ q.entries.toList, row.1 ≠ [] :=
    fun q hok row hrow => hp.keys row (hok row hrow)
  have hrecOld : PageRecord info.pageKey (d.withPage old) old :=
    pageRecord_of_dirty hp.key hp.type rfl (hold ▸ hr)
      (hkeysOf old (fun row hrow => by simp [hrows, hold ▸ hrow]))
      (fun x hx => hp.retired x ((hret x).mp (.inl hx)).1) hcountOld hdirty hendOld
  have hrecNew : PageRecord new.endKey (newPageData new) new :=
    pageRecord_of_dirty rfl rfl rfl (hnew ▸ hl)
      (hkeysOf new (fun row hrow => by simp [hrows, hnew ▸ hrow]))
      (fun x hx => hp.retired x ((hret x).mp (.inr hx)).1) hcountNew rfl rfl
  set infoOld := TableMeta.updateInfo old.endKey old.validCount old.size info with hinfoOld
  have hkeyOld : infoOld.pageKey = info.pageKey := hendOld
  have hrecordNew : recordOf env c' (newPageInfo new n).pageKey = some (newPageData new) :=
    recordOf_cached hcnew
  have hrecordOld : recordOf env c' infoOld.pageKey = some (d.withPage old) := by
    rw [hkeyOld]
    exact recordOf_cached hcold
  have hsegs : [newPageInfo new n, infoOld].map (segmentOf env c') =
      [(new.endKey, l), (info.pageKey, r)] := by
    rw [map_cons, map_singleton, segmentOf_eq hrecordNew rfl, segmentOf_eq hrecordOld rfl, hnew,
      hold, hkeyOld]
    rfl
  have hordered : SegmentsOrdered (front.map (segmentOf env c) ++
      (new.endKey, l) :: (info.pageKey, r) :: back.map (segmentOf env c)) := by
    have hseg := hopen.ordered
    rw [hrows] at hseg
    refine hseg.split ?_ ?_ ?_ hr
    · rw [← hnew]
      exact (Page.endKey_mem (hnew ▸ hl)).2
    · rw [← hnew]
      exact (Page.endKey_mem (hnew ▸ hl)).1
    · intro x hx
      exact hseg.fits.bounded.2 x (mem_append_right _ hx)
  have hkeys (x : Key) : x ∉ ([info] ++ [newPageInfo new n, infoOld]).map PageInfo.pageKey ↔
      x ≠ info.pageKey ∧ x ≠ new.endKey := by
    simp [hkeyOld, newPageInfo, and_comm]
  have hw : Window env f c f' c' front [info] [newPageInfo new n, infoOld] back := by
    refine ⟨hopen.consistent, by simpa using hopen.indexOf_eq, ⟨dm, m, hmeta, hm, hpages⟩, by simp,
      fun x hx hmem => hcother x hx ((hkeys x).mp hmem).1 ((hkeys x).mp hmem).2,
      fun i _ hmem => hfother _ ((hkeys _).mp hmem).2, fun i hi _ _ => .inl ?_, ?_, ?_⟩
    · simp [mem_singleton.mp hi, hkeyOld]
    · intro i hi
      rcases mem_pair.mp hi with rfl | rfl
      · refine ⟨hN, ⟨_, new, hrecordNew, hrecNew, rfl⟩, ?_⟩
        intro x hx
        cases hx
        exact hfnew
      · refine ⟨hkeyOld ▸ hK, ⟨_, old, hrecordOld, hkeyOld.symm ▸ hrecOld, rfl⟩, ?_⟩
        intro x hx
        have hdata : infoOld.pageData = info.pageData := by
          simp [hinfoOld, TableMeta.updateInfo, hendOld, hK]
        rw [hkeyOld, hfother _ (ne_of_gt hlt)]
        exact hopen.infoOk.pointer x (hdata ▸ hx)
    · rw [hsegs]
      simpa using hordered
  have hrowsOf : rowsOf env c' = rowsOf env c := by
    rw [rowsOf, rowsOf, hw.segments, hsegs, hopen.segmentsOf_eq, hrows]
    simp
  have hmemNew : newPageInfo new n ∈ indexOf env c' := by simp [hw.indexOf_eq]
  have hmemOld : infoOld ∈ indexOf env c' := by simp [hw.indexOf_eq]
  refine ⟨hrowsOf, hw.advances ⟨dm, hmeta, hmd⟩ ?_ ?_, hw.consistent⟩
  · intro i hi
    cases mem_singleton.mp hi
    refine ⟨d, p, recordOf_cached hopen.page.cached, hp.data, ?_,
      .inl (mem_map.mpr ⟨infoOld, hmemOld, hkeyOld⟩), ?_⟩
    · intro row hrow
      rw [hrows] at hrow
      rcases mem_append.mp hrow with hrow | hrow
      · exact ⟨_, hmemNew, _, new, hrecordNew, rfl, rfl, row.2, hnew ▸ hrow⟩
      · exact ⟨_, hmemOld, _, old, hrecordOld, rfl, hdirty, row.2, hold ▸ hrow⟩
    · intro x hx
      by_cases hxN : x = new.endKey
      · exact hxN ▸ .inl (mem_map_of_mem hmemNew)
      · rcases (hret x).mpr ⟨hx, hxN⟩ with hx | hx
        · exact .inr (.inl ⟨_, hmemOld, _, old, hrecordOld, rfl, hdirty, hx⟩)
        · exact .inr (.inl ⟨_, hmemNew, _, new, hrecordNew, rfl, rfl, hx⟩)
  · intro hmarked i hi
    rcases mem_pair.mp hi with rfl | rfl
    · exact ⟨_, new, hrecordNew, rfl, by simp [Marked, newPageData], rfl⟩
    · refine ⟨_, old, hrecordOld, rfl, ?_, hdirty⟩
      intro hdeleted
      have hzero := (hmarked info (by simp [hopen.indexOf_eq]) d p
        (recordOf_cached hopen.page.cached) hp.data).1 hdeleted
      rw [hzero] at hlive
      exact absurd hlive (by decide)

theorem insertPageInfoNoLock_runs (h : Sees ok s f c)
    (hm : MetaAt f c a dm m) (hpages : m.pages = front ++ back)
    (hkey : info.pageKey ≠ []) (hfront : ∀ t ∈ front, t.pageKey < info.pageKey)
    (hback : ∀ t ∈ back, info.pageKey ≤ t.pageKey) :
    ∃ s', Runs (insertPageInfoNoLock a info) s () s' ∧ Sees ok s' f (update c tableMetaKey
        (some (dm.withMeta ⟨front ++ info :: back, m.lastPageInfoIndex⟩))) := by
  have hpoint : m.lowerBound info.pageKey = front.length := by
    rw [TableMeta.lowerBound, hpages]
    refine partitionPoint_append (fun t ht => by simpa using hfront t ht) ?_
    intro t ht
    simpa using hback t ht
  have hinsert : m.insertPageInfoNoLock info =
      (⟨front ++ info :: back, m.lastPageInfoIndex⟩, none) := by
    rw [TableMeta.insertPageInfoNoLock, if_neg hkey, hpoint, hpages, insertIdx_length]
  obtain ⟨s', hrun, hsees⟩ := setMeta_runs h hm.address hm.cached
    ⟨front ++ info :: back, m.lastPageInfoIndex⟩
  refine ⟨s', ?_, hsees⟩
  refine (hm.runs h).bind ?_
  rw [hinsert]
  exact hrun.bind .of_pure

theorem splitPage_runs (h : Sees ok s f c) (hopen : PageOpen env f c a front back info b d p)
    (hdirty : d.entry.dirty = true) (hend : p.endKey = info.pageKey) (hlive : 1 < p.validCount) :
    ∃ s' f' c', Runs (splitPage env a (some front.length) b) s () s' ∧
      Sees ok s' f' c' ∧ Reshapes env c f' c' := by
  have hp := hopen.page.record
  have hK := hopen.infoOk.key
  obtain ⟨dm, m, hm, hpages⟩ := hopen.index
  obtain ⟨l, r, hrows, hl, hr, hold, hnew, _⟩ :=
    Page.split_spec hp.count (Page.two_le_length hp.count hlive)
  obtain ⟨hendOld, ⟨e, he⟩, hlt⟩ := split_keys hrows hold hnew hl hr
  obtain ⟨old, new, hsplit⟩ : ∃ old new, p.split env.splitSize = (old, new) :=
    ⟨_, _, rfl⟩
  rw [hsplit] at hendOld he hlt
  rw [hend] at hendOld hlt
  have hN : new.endKey ≠ [] := hp.keys _ he
  have hNK : new.endKey ≠ info.pageKey := ne_of_lt hlt
  obtain ⟨s₁, hrun₁, hsees₁⟩ := setPage_runs h hopen.page.address hopen.page.cached old
  obtain ⟨s₂, hrun₂, hsees₂⟩ := updatePageInfoNoLock_runs hsees₁ (hm.update hK _)
    hpages p.endKey old
  rw [if_neg (by simp [hendOld])] at hrun₂
  have hsees₃ := TableState.sees_insertOrAssign hsees₂ new.endKey (newPageData new)
  have hm₃ : MetaAt (update f new.endKey (some s₂.next)) (update (update (update c info.pageKey
        (some (d.withPage old))) tableMetaKey
          (some (dm.withMeta (updatedMeta m front back info old)))) new.endKey
            (some (newPageData new))) a (dm.withMeta (updatedMeta m front back info old))
      (updatedMeta m front back info old) :=
    ⟨(update_of_ne (Ne.symm hN) ..).trans hm.address,
      (update_of_ne (Ne.symm hN) ..).trans (update_self ..), hm.record.withMeta _⟩
  have hinfo : (newPageInfo new s₂.next).pageKey ≠ [] := hN
  have hpages : (updatedMeta m front back info old).pages = front ++ _ := rfl
  obtain ⟨s₄, hrun₄, hsees₄⟩ := insertPageInfoNoLock_runs hsees₃ hm₃ hpages hinfo
    (fun t ht => hopen.front_lt ht he) (forall_mem_cons.mpr
      ⟨le_of_lt (hendOld.symm ▸ hlt), fun t ht => le_of_lt (lt_trans hlt (hopen.lt_back ht))⟩)
  obtain ⟨s₅, hrun₅, hsees₅⟩ := setStatus_runs hsees₄ hm₃.address (update_self ..) .modified
  have hinsert : Runs (insertNewPage a new) s₂ () s₄ :=
    Runs.get_bind (Runs.of_set.bind hrun₄)
  refine ⟨s₅, _, _, ?_, hsees₅, ?_⟩
  · refine (hopen.page.runs h).bind ?_
    rw [hsplit]
    exact hrun₁.bind (hrun₂.bind (Runs.of_pure.bind
      ((guarded_false (by simp) _ _).bind (hinsert.bind hrun₅))))
  · refine hopen.split hdirty hend hlive hsplit (update_self ..)
      ⟨hm.record.key, hm.record.type, rfl⟩ (by simp [Entry.dirty]) ?_ ?_ ?_ ?_
      (update_self ..) (fun x hx => update_of_ne hx ..)
    · simp
    · rw [update_of_ne hK, update_of_ne hK,
        update_of_ne (Ne.symm hNK), update_of_ne hK, update_self]
    · rw [update_of_ne hN, update_of_ne hN, update_self]
    · intro x hx hxK hxN
      rw [update_of_ne hx, update_of_ne hx, update_of_ne hxN, update_of_ne hx, update_of_ne hxK]

/-! ## Merging a page into the next one -/

section Merge

variable {next : PageInfo} {nb : Address} {dn : Data} {left : Page}
  (hopen : PageOpen env f c a front (next :: back) info b d p)

include hopen

theorem PageOpen.next_rows (hnext : PageAt f c nb next.pageKey dn q) :
    segmentOf env c next = (next.pageKey, q.entries.toList) ∧
      (∀ y ∈ q.entries.toList, info.pageKey < y.1) ∧
      (∀ x ∈ p.entries.toList, ∀ y ∈ q.entries.toList, x.1 < y.1) ∧
      ∀ y ∈ q.entries.toList, y.1 ≤ next.pageKey := by
  have hseg : segmentOf env c next = (next.pageKey, q.entries.toList) := by
    rw [segmentOf_eq (recordOf_cached hnext.cached) hnext.record.data]
  have hfits := hopen.ordered.fits
  have habove : ∀ y ∈ q.entries.toList, info.pageKey < y.1 := by
    have hbelow := hfits.below (segmentOf env c next) (by simp)
    rw [hseg] at hbelow
    exact hbelow.2
  refine ⟨hseg, habove, ?_, ?_⟩
  · intro x hx y hy
    exact lt_of_le_of_lt (hfits.bounded.2 x hx) (habove y hy)
  · have hbounded := hopen.ordered.bounded (segmentOf env c next) (by simp)
    rw [hseg] at hbounded
    exact hbounded.2

theorem PageOpen.merge (hnext : PageAt f c nb next.pageKey dn q)
    (hmerge : q.merge p = (left, merged))
    (hmeta : c' tableMetaKey = some dm) (hm : MetaRecord dm m) (hmd : dm.entry.dirty = true)
    (hpages : m.pages = front ++
      [TableMeta.updateInfo merged.endKey merged.validCount merged.size next] ++ back)
    (hcleft : c' info.pageKey = some ((d.withPage left).withStatus .deleted))
    (hcnew : c' merged.endKey =
      some (((dn.withPage merged).withStatus .modified).withKey merged.endKey))
    (hcold : next.pageKey ≠ merged.endKey → c' next.pageKey = none)
    (hcother : ∀ x, x ≠ [] → x ≠ info.pageKey → x ≠ next.pageKey → x ≠ merged.endKey → c' x = c x)
    (hfnew : f' merged.endKey = some nb)
    (hfother : ∀ x, x ≠ next.pageKey → x ≠ merged.endKey → f' x = f x) : Reshapes env c f' c' := by
  have hp := hopen.page.record
  have hok := hnext.record
  obtain ⟨hsegNext, habove, hdisj, hle⟩ := hopen.next_rows hnext
  obtain ⟨hleft, hcountLeft, hcountMerged, hrows, hretLeft, hret⟩ :=
    Page.merge_spec hok.count hp.count hdisj
  rw [hmerge] at hleft hcountLeft hcountMerged hrows hretLeft hret
  dsimp only at hleft hcountLeft hcountMerged hrows hretLeft hret
  have hE := merge_endKey hrows hok.nonempty hdisj
  obtain ⟨⟨e, he⟩, hmax⟩ := Page.endKey_mem hok.nonempty
  rw [← hE] at he hmax
  have hKE : info.pageKey < merged.endKey := habove _ he
  have hEP : merged.endKey ≤ next.pageKey := hle _ he
  have hEne : merged.endKey ≠ [] := hok.keys _ he
  set next' := TableMeta.updateInfo merged.endKey merged.validCount merged.size next
  set d' := ((dn.withPage merged).withStatus .modified).withKey merged.endKey
  have hrec : PageRecord merged.endKey d' merged := by
    refine pageRecord_of_dirty rfl hok.type rfl (by simp [hrows, hp.nonempty]) ?_ ?_
      hcountMerged rfl rfl
    · rw [hrows]
      exact forall_mem_append.mpr ⟨hp.keys, hok.keys⟩
    · intro x hx
      rcases (hret x).mp hx with hx | hx
      · exact hp.retired x hx
      · exact hok.retired x hx
  have horphan : Orphan info.pageKey ((d.withPage left).withStatus .deleted) left :=
    ⟨hp.key, hp.type, rfl, hleft, fun x hx => hp.retired x (hretLeft x hx), hcountLeft⟩
  have hrecord : recordOf env c' next'.pageKey = some d' := recordOf_cached hcnew
  have hsegs : [next'].map (segmentOf env c') =
      [(merged.endKey, p.entries.toList ++ q.entries.toList)] := by
    rw [map_singleton, segmentOf_eq hrecord rfl, hrows]
    rfl
  have hordered : SegmentsOrdered (front.map (segmentOf env c) ++
      (merged.endKey, p.entries.toList ++ q.entries.toList) :: back.map (segmentOf env c)) := by
    have hseg := hopen.ordered
    rw [map_cons, hsegNext] at hseg
    refine hseg.merge.tighten ⟨e, mem_append_right _ he⟩ ?_
    exact forall_mem_append.mpr ⟨fun x hx => le_of_lt (hdisj x hx _ he), hmax⟩
  have hkeys (x : Key) : x ∉ ([info, next] ++ [next']).map PageInfo.pageKey ↔
      x ≠ info.pageKey ∧ x ≠ next.pageKey ∧ x ≠ merged.endKey := by
    simp [next', TableMeta.updateInfo]
  have hw : Window env f c f' c' front [info, next] [next'] back := by
    refine ⟨hopen.consistent, by simpa using hopen.indexOf_eq, ⟨dm, m, hmeta, hm, hpages⟩, by simp,
      ?_, ?_, ?_, ?_, ?_⟩
    · intro x hx hmem
      obtain ⟨hK, hP, hE⟩ := (hkeys x).mp hmem
      exact hcother x hx hK hP hE
    · intro i _ hmem
      obtain ⟨-, hP, hE⟩ := (hkeys _).mp hmem
      exact hfother _ hP hE
    · intro i hi dk hdk
      rcases mem_pair.mp hi with rfl | rfl
      · cases hcleft.symm.trans hdk
        exact .inr ⟨left, horphan⟩
      · by_cases hPE : i.pageKey = merged.endKey
        · exact .inl (by simp [hPE, next', TableMeta.updateInfo])
        · cases (hcold hPE).symm.trans hdk
    · intro i hi
      cases mem_singleton.mp hi
      refine ⟨hEne, ⟨d', merged, hrecord, hrec, rfl⟩, ?_⟩
      intro x hx
      have hdata : next.pageData = some x := by
        simpa [next', TableMeta.updateInfo, hEne] using hx
      have hmem : next ∈ indexOf env c := by simp [hopen.indexOf_eq]
      have hpointer := (hopen.consistent.infos next hmem).pointer x hdata
      exact hfnew.trans (hnext.address.symm.trans hpointer)
    · rw [hsegs]
      simpa using hordered
  have hrowsOf : rowsOf env c' = rowsOf env c := by
    rw [rowsOf, rowsOf, hw.segments, hsegs, hopen.segmentsOf_eq, map_cons, hsegNext]
    simp
  have hmem : next' ∈ indexOf env c' := by simp [hw.indexOf_eq]
  have hdirtyRow (row : Key × Entry) (hrow : row ∈ p.entries.toList ++ q.entries.toList) :
      DirtyRow env c' row.1 :=
    ⟨next', hmem, d', merged, hrecord, rfl, rfl, row.2, hrows ▸ hrow⟩
  have haccRet : ∀ x, p.Retired x ∨ q.Retired x → Accounted env c' x := by
    intro x hx
    exact .inr (.inl ⟨next', hmem, d', merged, hrecord, rfl, rfl, (hret x).mpr hx⟩)
  refine ⟨hrowsOf, hw.advances ⟨dm, hmeta, hmd⟩ ?_ ?_, hw.consistent⟩
  · intro i hi
    rcases mem_pair.mp hi with rfl | rfl
    · exact ⟨d, p, recordOf_cached hopen.page.cached, hp.data,
        fun row hrow => hdirtyRow row (mem_append_left _ hrow),
        .inr (.inr ⟨_, left, hcleft, rfl, horphan⟩), fun x hx => haccRet x (.inl hx)⟩
    · refine ⟨dn, q, recordOf_cached hnext.cached, hok.data,
        fun row hrow => hdirtyRow row (mem_append_right _ hrow), ?_, fun x hx =>
          haccRet x (.inr hx)⟩
      rcases hok.endKey with hEq | ⟨_, hinvalid⟩
      · exact .inl (mem_map.mpr ⟨next', hmem, hE.trans hEq⟩)
      · exact haccRet _ (.inr (by simp [Page.Retired, hinvalid]))
  · intro _ i hi
    cases mem_singleton.mp hi
    exact ⟨d', merged, hrecord, rfl, by simp [Marked, d'], rfl⟩

theorem PageOpen.load_next (hloads : Loads env c f' c')
    (hsame : ∀ x, x ≠ next.pageKey → f' x = f x ∧ c' x = c x) :
    PageOpen env f' c' a front (next :: back) info b d p := by
  obtain ⟨dm, m, hm, hpages⟩ := hopen.index
  have hmeta := hsame tableMetaKey (Ne.symm (hopen.neighbour_key (t := next) (by simp)))
  have hpage := hsame info.pageKey (ne_of_lt (hopen.lt_back (mem_cons_self ..)))
  exact ⟨hloads.consistent, ⟨dm, m, ⟨hmeta.1.trans hm.address, hmeta.2.trans hm.cached, hm.record⟩,
      hpages⟩, ⟨hpage.1.trans hopen.page.address, hpage.2.trans hopen.page.cached,
      hopen.page.record⟩, hopen.count, hopen.pointer⟩

theorem mergeInto_runs (h : Sees ok s f c) (hend : p.endKey = info.pageKey)
    (hnext : PageAt f c nb next.pageKey dn q) :
    ∃ s' f' c', Runs (mergeInto a (some front.length) b nb) s () s' ∧
      Sees ok s' f' c' ∧ Reshapes env c f' c' := by
  have hp := hopen.page.record
  have hok := hnext.record
  have hK := hopen.infoOk.key
  have hP : next.pageKey ≠ [] := hopen.neighbour_key (t := next) (by simp)
  have hKP : info.pageKey ≠ next.pageKey :=
    ne_of_lt (hopen.lt_back (mem_cons_self ..))
  obtain ⟨dm, m, hm, hpages⟩ := hopen.index
  obtain ⟨_, habove, hdisj, _⟩ := hopen.next_rows hnext
  obtain ⟨_, _, _, hrows, _⟩ := Page.merge_spec hok.count hp.count hdisj
  have hE := merge_endKey hrows hok.nonempty hdisj
  obtain ⟨left, merged, hmerge⟩ : ∃ left merged, q.merge p = (left, merged) :=
    ⟨_, _, rfl⟩
  rw [hmerge] at hE
  obtain ⟨⟨e, he⟩, _⟩ := Page.endKey_mem hok.nonempty
  rw [← hE] at he
  have hKE : info.pageKey ≠ merged.endKey := ne_of_lt (habove _ he)
  have hEne : merged.endKey ≠ [] := hok.keys _ he
  obtain ⟨s₁, hrun₁, hsees₁⟩ := setPage_runs h hopen.page.address hopen.page.cached left
  obtain ⟨s₂, hrun₂, hsees₂⟩ := setPage_runs hsees₁ hnext.address
    ((update_of_ne (Ne.symm hKP) ..).trans hnext.cached) merged
  have hmcached : update (update c info.pageKey
      (some (d.withPage left))) next.pageKey (some (dn.withPage merged))
        tableMetaKey = some dm := by
    rw [update_of_ne (Ne.symm hP), update_of_ne (Ne.symm hK), hm.cached]
  have hdelete : m.deletePageInfoNoLock p.endKey (some front.length) =
      (⟨front ++ next :: back, m.lastPageInfoIndex⟩, some front.length) := by
    simp [TableMeta.deletePageInfoNoLock, hpages, hend, eraseIdx_append_of_length_le]
  obtain ⟨s₃, hrun₃, hsees₃⟩ := setMeta_runs hsees₂ hm.address hmcached
    ⟨front ++ next :: back, m.lastPageInfoIndex⟩
  obtain ⟨s₄, hrun₄, hsees₄⟩ := updatePageInfoNoLock_runs hsees₃
    ⟨hm.address, update_self .., hm.record.withMeta _⟩
    rfl q.endKey merged
  obtain ⟨s₅, hrun₅, hsees₅⟩ := setStatus_runs (d := dn.withPage merged) hsees₄ hnext.address (by
      rw [update_of_ne hP, update_of_ne hP, update_self]) .modified
  obtain ⟨s₆, hrun₆, hsees₆⟩ := setStatus_runs (d := d.withPage left) hsees₅ hopen.page.address (by
      rw [update_of_ne hKP, update_of_ne hK,
        update_of_ne hK, update_of_ne hKP, update_self]) .deleted
  obtain ⟨s₇, hrun₇, hsees₇⟩ := rekey_runs hsees₆ hEne hnext.address
    ((update_of_ne (Ne.symm hKP) ..).trans (update_self ..)) hok.key rfl false
  obtain ⟨s₈, hrun₈, hsees₈⟩ := setStatus_runs hsees₇
    (by rw [moveKey_other (Ne.symm hP) (Ne.symm hEne), hm.address]) (by
      rw [moveKey_other (Ne.symm hP) (Ne.symm hEne),
        update_of_ne (Ne.symm hK), update_of_ne (Ne.symm hP), update_self]) .modified
  refine ⟨s₈, _, _, ?_, hsees₈, ?_⟩
  · refine (hopen.page.runs h).bind ((hnext.runs h).bind ?_)
    rw [hmerge]
    refine hrun₁.bind (hrun₂.bind ((metaAt_runs hsees₂ hm.address hmcached hm.record.data).bind ?_))
    rw [hdelete]
    exact hrun₃.bind (hrun₄.bind (hrun₅.bind (hrun₆.bind (hrun₇.bind hrun₈))))
  · refine hopen.merge hnext hmerge (update_self ..)
      ⟨hm.record.key, hm.record.type, rfl⟩ (by simp [Entry.dirty]) (by simp [updatedMeta])
      ?_ ?_ ?_ ?_ moveKey_new (fun x hxP hxE => moveKey_other hxP hxE)
    · rw [update_of_ne hK, moveKey_other hKP hKE, update_self]
    · rw [update_of_ne hEne, moveKey_new]
    · intro hPE
      rw [update_of_ne hP, moveKey_old hPE]
    · intro x hx hxK hxP hxE
      rw [update_of_ne hx, moveKey_other hxP hxE, update_of_ne hxK, update_of_ne hxP,
        update_of_ne hx, update_of_ne hx, update_of_ne hxP, update_of_ne hxK]

end Merge

theorem PageOpen.getNextPageKeyNoLock_eq (hopen : PageOpen env f c a front back info b d p)
    (hpages : m.pages = front ++ info :: back) :
    m.getNextPageKeyNoLock info.pageKey = back.head?.map PageInfo.pageKey := by
  obtain ⟨⟨e, he⟩, _⟩ := Page.endKey_mem hopen.page.record.nonempty
  have hle := hopen.ordered.fits.bounded.2 _ he
  have hpoint : m.upperBound info.pageKey = (front ++ [info]).length := by
    rw [TableMeta.upperBound, hpages, append_cons]
    refine partitionPoint_append ?_ ?_
    · intro t ht
      rcases mem_append.mp ht with ht | ht
      · have hlt := lt_of_lt_of_le (hopen.front_lt ht he) hle
        simpa using le_of_lt hlt
      · cases mem_singleton.mp ht
        simp
    · intro t ht
      simpa using hopen.lt_back ht
  rw [TableMeta.getNextPageKeyNoLock, if_neg hopen.infoOk.key, hpoint, hpages,
    append_cons, getElem?_append_right (Nat.le_refl _)]
  simp [head?_eq_getElem?]

theorem mergePage_last (h : Sees ok s f c) (hopen : PageOpen env f c a front [] info b d p)
    (hend : p.endKey = info.pageKey) {position : Option ℕ} :
    Runs (mergePage env a position b) s () s := by
  obtain ⟨dm, m, hm, hpages⟩ := hopen.index
  refine (hopen.page.runs h).bind ((hm.runs h).bind ?_)
  rw [hend, hopen.getNextPageKeyNoLock_eq hpages]
  exact .of_pure

theorem mergePage_runs (h : Sees ok s f c) (hopen : PageOpen env f c a front back info b d p)
    (hend : p.endKey = info.pageKey) :
    ∃ s' f' c', Runs (mergePage env a (some front.length) b) s () s' ∧
      Sees ok s' f' c' ∧ Reshapes env c f' c' := by
  obtain ⟨dm, m, hm, hpages⟩ := hopen.index
  have hpageRun := hopen.page.runs h
  have hmetaRun := hm.runs h
  have hnextKey := hopen.getNextPageKeyNoLock_eq hpages
  rw [← hend] at hnextKey
  rcases back with - | ⟨next, back⟩
  · exact ⟨s, f, c, mergePage_last h hopen hend, h, (Loads.refl hopen.consistent).reshapes⟩
  · have hmem : next ∈ indexOf env c := by simp [hopen.indexOf_eq]
    obtain ⟨nb, s₁, f₁, c₁, dn, q, hrun₁, hsees₁, hloads, hnext, _, hsame⟩ :=
      getData_page h hopen.consistent hmem false
    have hopen₁ := hopen.load_next hloads hsame
    have hnextRun := hnext.runs hsees₁
    by_cases hguard : q.size.toNat < env.splitSize ∧ nb ≠ b
    · obtain ⟨s₂, f₂, c₂, hrun₂, hsees₂, hreshapes⟩ :=
        mergeInto_runs hopen₁ hsees₁ hend hnext
      refine ⟨s₂, f₂, c₂, hpageRun.bind (hmetaRun.bind ?_), hsees₂, hloads.reshapes.trans hreshapes⟩
      rw [hnextKey]
      exact (Runs.tryCatch_of_ok hrun₁).bind (hnextRun.bind (guarded_true hguard hrun₂))
    · refine ⟨s₁, f₁, c₁, hpageRun.bind (hmetaRun.bind ?_), hsees₁, hloads.reshapes⟩
      rw [hnextKey]
      exact (Runs.tryCatch_of_ok hrun₁).bind (hnextRun.bind (guarded_false hguard _ _))

theorem rebalance_runs (h : Sees ok s f c) (hopen : PageOpen env f c a front back info b d p)
    (hdirty : d.entry.dirty = true) (hend : p.endKey = info.pageKey) :
    ∃ s' f' c', Runs (rebalance env a (some front.length) b) s () s' ∧
      Sees ok s' f' c' ∧ Reshapes env c f' c' := by
  have hpageRun := hopen.page.runs h
  by_cases hlarge : env.pageSize < p.size.toNat ∧ 1 < p.validCount
  · obtain ⟨s', f', c', hrun, hsees, hreshapes⟩ := splitPage_runs h hopen hdirty hend hlarge.2
    refine ⟨s', f', c', hpageRun.bind ?_, hsees, hreshapes⟩
    rw [if_pos hlarge]
    exact hrun
  · by_cases hsmall : p.size.toNat < env.mergeSize
    · obtain ⟨s', f', c', hrun, hsees, hreshapes⟩ := mergePage_runs h hopen hend
      refine ⟨s', f', c', hpageRun.bind ?_, hsees, hreshapes⟩
      rw [if_neg hlarge]
      exact guarded_true hsmall hrun
    · refine ⟨s, f, c, hpageRun.bind ?_, h, (Loads.refl hopen.consistent).reshapes⟩
      rw [if_neg hlarge]
      exact guarded_false hsmall _ _

end TableM

end FiscoSmart.Storage
