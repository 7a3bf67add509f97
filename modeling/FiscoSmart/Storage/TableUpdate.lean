import FiscoSmart.Storage.TableRebalance

/-!
# The update of a table

`setEntryToPage` replaces exactly the row of its key.  The splits, merges and
page-key changes on the way leave every other row alone, and the written row
ends up in a dirty page.  The only write that needs a hypothesis is the first
one to a table without pages: the previous storage must not have a page record
under the written key.
-/

namespace FiscoSmart.Storage

open Support Function

variable {env : TableEnv} {f f' : Key → Option Address} {c c' : Key → Option Data} {key : Key}
  {entry : Entry}

/-- What a write of `entry` under `key` does to the records of a table. -/
structure Writes (env : TableEnv) (c : Key → Option Data) (key : Key)
    (entry : Entry) (f' : Key → Option Address) (c' : Key → Option Data) :
    Prop where
  rows : ∀ x e, (x, e) ∈ rowsOf env c' ↔ (x = key ∧ e = entry) ∨ (x ≠ key ∧ (x, e) ∈ rowsOf env c)
  advances : Advances env c c'
  consistent : Consistent env f' c'
  dirtyRow : DirtyRow env c' key
  metaDirty : MetaDirty c'

section Writes

variable {f₂ : Key → Option Address} {c₂ : Key → Option Data}

theorem Writes.after (h : Loads env c f' c') (hw : Writes env c' key entry f₂ c₂) :
    Writes env c key entry f₂ c₂ := by
  refine { hw with rows := ?_, advances := h.advances.trans hw.advances }
  intro x e
  rw [hw.rows, h.rows]

theorem Writes.before (hw : Writes env c key entry f' c')
    (h : Reshapes env c' f₂ c₂) : Writes env c key entry f₂ c₂ := by
  refine ⟨?_, hw.advances.trans h.advances, h.consistent,
    h.advances.dirtyRow key hw.dirtyRow, h.advances.metaDirty hw.metaDirty⟩
  intro x e
  rw [h.rows, hw.rows]

/-- Replacing the row of `key` in one segment replaces it in the table. -/
theorem mem_flatten_insert {front back : List (Segment Key Entry)} {k k' : Key}
    {rows : SortedMap Key Entry}
    (hinc : KeysIncreasing (flatten (front ++ (k', (rows.insert key entry).toList) :: back)))
    {x : Key} {e : Entry} :
    (x, e) ∈ flatten (front ++ (k', (rows.insert key entry).toList) :: back) ↔
      (x = key ∧ e = entry) ∨ (x ≠ key ∧ (x, e) ∈ flatten (front ++ (k, rows.toList) :: back)) := by
  have hnew : (key, entry) ∈ flatten (front ++ (k', (rows.insert key entry).toList) :: back) := by
    have : (key, entry) ∈ (rows.insert key entry).toList :=
      SortedMap.mem_insert.mpr (.inl ⟨rfl, rfl⟩)
    simp [this]
  by_cases hx : x = key
  · subst hx
    constructor
    · intro he
      exact .inl ⟨rfl, hinc.value_unique he hnew⟩
    · rintro (⟨_, rfl⟩ | ⟨hne, _⟩)
      · exact hnew
      · exact absurd rfl hne
  · have hrow : (x, e) ∈ (rows.insert key entry).toList ↔ (x, e) ∈ rows.toList := by
      rw [SortedMap.mem_insert]
      simp [hx]
    simp [hx, hrow]

end Writes

namespace TableM

variable {ok : Prop} {s : TableState}

/-! ## Writing to an indexed page -/

variable {a : Address} {dm : Data} {m : TableMeta} {front back : List PageInfo} {info : PageInfo}

theorem locatePage_runs (h : Sees ok s f c) (hc : Consistent env f c)
    (hfit : ok → CountsFit env c) (hm : MetaAt f c a dm m)
    (hpages : m.pages = front ++ info :: back) : ∃ b s' f' c' d p info',
      Runs (locatePage env a (some front.length) key) s (info.pageKey, b) s' ∧
      Sees ok s' f' c' ∧ Loads env c f' c' ∧ info'.pageKey = info.pageKey ∧
      PageOpen env f' c' a front back info' b d p := by
  have hinfoRun := hm.infoAt_runs h hpages
  rcases hdata : info.pageData with - | b
  · obtain ⟨b, s₁, s₂, f₂, c₂, d, p, hrun₁, hrun₂, hsees₂, hloads, hopen⟩ :=
      openPage_runs h hc hm hpages
    obtain ⟨s₃, hrun₃, hsees₃⟩ := fatal_guarded_runs hsees₂
      (b := 0 < info.count ∧ p.validCount.toNat ≠ info.count.toNat)
      (fun hok hne => hne.2 (hopen.validCount_eq ((hfit hok).loads hloads))) .pageValidCountMismatch
    refine ⟨b, s₃, f₂, c₂, d, p, { info with pageData := some b },
      hinfoRun.bind ?_, hsees₃, hloads, rfl, hopen⟩
    rw [hdata]
    exact hrun₁.bind (hrun₂.bind ((hopen.page.runs hsees₂).bind (hrun₃.bind .of_pure)))
  · obtain ⟨d, p, hopen⟩ := openPage_pointer h hc hm hpages hdata
    refine ⟨b, s, f, c, d, p, info, hinfoRun.bind ?_, h, Loads.refl hc, rfl, hopen⟩
    rw [hdata]
    exact .of_pure

variable {b : Address} {d : Data} {p : Page}

theorem writes_of_segments
    {info' : PageInfo} {d' : Data} (hopen : PageOpen env f c a front back info b d p)
    (hopen' : PageOpen env f' c' a front back info' b d' (p.setEntry key entry).1)
    (hdirty : d'.entry.dirty = true) (hmeta : MetaDirty c')
    (hsegs : segmentsOf env c' = front.map (segmentOf env c) ++ ((p.setEntry key entry).1.endKey,
        (p.setEntry key entry).1.entries.toList) ::
        back.map (segmentOf env c)) (hadvances : Advances env c c') :
    Writes env c key entry f' c' := by
  refine ⟨?_, hadvances, hopen'.consistent, ?_, hmeta⟩
  · intro x e
    have hinc := hopen'.consistent.rows_increasing
    rw [rowsOf, hsegs, Page.setEntry_entries] at hinc
    rw [rowsOf, rowsOf, hsegs, hopen.segmentsOf_eq, Page.setEntry_entries]
    exact mem_flatten_insert hinc
  · exact ⟨info', by simp [hopen'.indexOf_eq], d', _, recordOf_cached hopen'.page.cached,
      hopen'.page.record.data, hdirty, entry, Page.mem_setEntry.mpr (.inl ⟨rfl, rfl⟩)⟩

theorem updatePage_indexed (h : Sees ok s f c) (hc : Consistent env f c)
    (hfit : ok → CountsFit env c) (hm : MetaAt f c a dm m) (hkey : key ≠ [])
    (hpos : Position m.pages key front info back) :
    ∃ r s' f' c', Runs (updatePage env a (some front.length) key entry) s r s' ∧
      Sees ok s' f' c' ∧ Writes env c key entry f' c' ∧
      ∀ e, r = some e ↔ (key, e) ∈ rowsOf env c := by
  obtain ⟨b, s₁, f₁, c₁, d, p, info₁, hrun₁, hsees₁, hloads, hinfo₁, hopen⟩ :=
    locatePage_runs h hc hfit hm hpos.split
  have hpos₁ : Position (indexOf env c₁) key front info₁ back :=
    ⟨hopen.indexOf_eq, hpos.above, by
      rw [hinfo₁]
      exact hpos.below⟩
  obtain ⟨s₂, f₂, c₂, info₂, d₂, hrun₂, hsees₂, hopen₂, hdirty₂, hkey₂, hmeta₂,
      hsegs₂, hadvances₂⟩ := writeEntry_runs hsees₁ hopen hkey hpos₁ entry
  obtain ⟨s₃, f₃, c₃, hrun₃, hsees₃, hreshapes₃⟩ :=
    rebalance_runs hsees₂ hopen₂ hdirty₂ hkey₂.symm
  refine ⟨p.entries.find? key, s₃, f₃, c₃,
    hrun₁.bind (hrun₂.bind (hrun₃.bind .of_pure)), hsees₃, ?_, ?_⟩
  · exact ((writes_of_segments hopen hopen₂ hdirty₂ hmeta₂ hsegs₂
      hadvances₂).before hreshapes₃).after hloads
  · intro e
    rw [SortedMap.find?_eq_some, ← hloads.rows,
      mem_rowsOf_iff hopen.consistent hpos₁ (recordOf_cached hopen.page.cached)
        hopen.page.record.data]

/-! ## The first row of a table -/

theorem setEntry_empty : ((Page.empty.setEntry key entry).1.entries.toList = [(key, entry)]) ∧
      (∀ x, ¬ (Page.empty.setEntry key entry).1.Retired x) ∧
      (Page.empty.setEntry key entry).1.CountOk ∧ (Page.empty.setEntry key entry).1.endKey = key ∧
      (Page.empty.setEntry key entry).2 = (none, true) := by
  have hnone : Page.empty.entries.find? key = none := rfl
  refine ⟨?_, ?_, Page.setEntry_countOk Page.countOk_empty key entry,
    Page.setEntry_endKey_gt entry (by simp [Page.empty, SortedMap.empty]), Prod.ext ?_ ?_⟩
  · rw [Page.setEntry_entries]
    rfl
  · intro x hx
    rcases Page.setEntry_retired_sub hx with hx | ⟨_, hx⟩
    · simp [Page.Retired, Page.empty, SortedMap.empty] at hx
    · simp [Page.empty, SortedMap.empty] at hx
  · rw [Page.setEntry_old, hnone]
  · rcases hflag : (Page.empty.setEntry key entry).2.2 with - | -
    · obtain ⟨⟨old, hold⟩, _⟩ := Page.setEntry_unchanged hflag
      cases hold
    · rfl

theorem PageOpen.first (hc : Consistent env f c) (hindex : indexOf env c = []) (hkey : key ≠ [])
    (hm : MetaAt f' c' a dm m) (hmd : dm.entry.dirty = true) (hend : p.endKey = key)
    (hpages : m.pages = [newPageInfo p b]) (hfk : f' key = some b)
    (hck : c' key = some d) (hrec : PageRecord key d p)
    (hdirty : d.entry.dirty = true) (hmarked : Marked d p)
    (hrows : p.entries.toList = [(key, entry)]) (hother : ∀ x, x ≠ [] → x ≠ key → c' x = c x) :
    PageOpen env f' c' a [] [] (newPageInfo p b) b d p ∧ Writes env c key entry f' c' := by
  subst hend
  have hrecord : recordOf env c' (newPageInfo p b).pageKey = some d := recordOf_cached hck
  have hsegment : segmentOf env c' (newPageInfo p b) = (p.endKey, [(p.endKey, entry)]) := by
    rw [segmentOf_eq hrecord hrec.data, hrows]
    rfl
  have hordered : SegmentsOrdered [(p.endKey, [(p.endKey, entry)])] := by
    refine ⟨List.pairwise_singleton .., ?_⟩
    intro t ht
    cases List.mem_singleton.mp ht
    exact ⟨List.pairwise_singleton .., by simp⟩
  have hw : Window env f c f' c' [] [] [newPageInfo p b] [] := by
    refine ⟨hc, by simpa using hindex, ⟨dm, m, hm.cached, hm.record, by simpa using hpages⟩,
      by simp, ?_, by simp, by simp, ?_, by simpa [hsegment] using hordered⟩
    · intro x hx hmem
      exact hother x hx (by simpa [newPageInfo] using hmem)
    · intro i hi
      cases List.mem_singleton.mp hi
      refine ⟨hkey, ⟨d, p, hrecord, hrec, rfl⟩, ?_⟩
      intro x hx
      cases hx
      exact hfk
  have hindex' : indexOf env c' = [newPageInfo p b] := by simpa using hw.indexOf_eq
  have hrowsOf : rowsOf env c = [] := by
    rw [rowsOf, segmentsOf, hindex]
    rfl
  have hrowsOf' : rowsOf env c' = [(p.endKey, entry)] := by
    rw [rowsOf, segmentsOf, hindex', List.map_singleton, hsegment]
    rfl
  have hdirtyRow : DirtyRow env c' p.endKey :=
    ⟨newPageInfo p b, by simp [hindex'], d, p, hrecord, hrec.data, hdirty, entry, by simp [hrows]⟩
  refine ⟨⟨hw.consistent, ⟨dm, m, hm, hpages⟩, ⟨hfk, hck, hrec⟩, rfl, rfl⟩, ⟨?_,
    hw.advances ⟨dm, hm.cached, hmd⟩ (by simp) ?_, hw.consistent, hdirtyRow,
    ⟨dm, hm.cached, hmd⟩⟩⟩
  · intro x e
    simp [hrowsOf, hrowsOf']
  · intro _ i hi
    cases List.mem_singleton.mp hi
    exact ⟨d, p, hrecord, hrec.data, hmarked, hdirty⟩

variable (h : Sees ok s f c)

include h

theorem writeFirst_runs (hm : MetaAt f c a dm m) (hnil : m.pages = [])
    (hkey : key ≠ []) (hfb : f key = some b) (hd : c key = some d)
    (hdata : d.data = .page Page.empty) (hstat : d.entry.status = .empty) {page : Page}
    (hset : Page.empty.setEntry key entry = (page, none, true)) (hend : page.endKey = key) :
    ∃ s' c' dm' m' d', Runs (writeEntry a none key b key entry) s (b, none) s' ∧
      Sees ok s' f c' ∧ MetaAt f c' a dm' m' ∧ dm'.entry.dirty = true ∧
      m'.pages = [newPageInfo page b] ∧ c' key = some d' ∧ d'.key = d.key ∧
      d'.type = d.type ∧ d'.data = .page page ∧ d'.entry.dirty = true ∧
      Marked d' page ∧ ∀ x, x ≠ [] → x ≠ key → c' x = c x := by
  obtain ⟨s₁, hrun₁, hsees₁⟩ := setPage_runs h hfb hd page
  have hempty : m.pages = [] ++ [] := by
    simpa using hnil
  have hinfo : (newPageInfo page b).pageKey ≠ [] := hend.trans_ne hkey
  obtain ⟨s₂, hrun₂, hsees₂⟩ := insertPageInfoNoLock_runs hsees₁ (hm.update hkey _) hempty
    hinfo (by simp) (by simp)
  obtain ⟨s₃, hrun₃, hsees₃⟩ := setStatus_runs hsees₂ hfb
    ((update_of_ne hkey ..).trans (update_self ..)) .modified
  obtain ⟨s₄, hrun₄, hsees₄⟩ := setStatus_runs hsees₃ hm.address
    ((update_of_ne (Ne.symm hkey) ..).trans (update_self ..)) .modified
  have hrecord : Runs (recordWrite a none key b page true) s₁ b s₃ := by
    refine (deref_runs hsees₁ hfb (update_self ..)).bind ?_
    rw [if_pos rfl, Data.withPage_entry, if_pos hstat]
    exact hrun₂.bind (hrun₃.bind .of_pure)
  refine ⟨s₄, _, _, _, _, ?_, hsees₄, ⟨hm.address, update_self ..,
    ⟨hm.record.key, hm.record.type, rfl⟩⟩, by simp [Entry.dirty], rfl,
    (update_of_ne hkey ..).trans (update_self ..), rfl, rfl,
    rfl, by simp [Entry.dirty], by simp [Marked], ?_⟩
  · refine (pageAt_runs h hfb hd hdata).bind ?_
    rw [hset]
    exact hrun₁.bind (hrecord.bind (hrun₄.bind .of_pure))
  · intro x hx hxk
    simp [update_of_ne hx, update_of_ne hxk]

theorem rebalance_single (hopen : PageOpen env f c a [] [] info b d p)
    (hend : p.endKey = info.pageKey) {row : Key × Entry} (hrows : p.entries.toList = [row])
    {position : Option ℕ} : Runs (rebalance env a position b) s () s := by
  refine (hopen.page.runs h).bind ?_
  have hsingle : ¬ 1 < p.validCount := by
    intro hlt
    have := Page.two_le_length hopen.page.record.count hlt
    simp [hrows] at this
  rw [if_neg (fun hlarge => hsingle hlarge.2)]
  by_cases hsmall : p.size.toNat < env.mergeSize
  · exact guarded_true hsmall (mergePage_last h hopen hend)
  · exact guarded_false hsmall _ _

theorem updatePage_first (hc : Consistent env f c) (hm : MetaAt f c a dm m) (hnil : m.pages = [])
    (hkey : key ≠ []) (hfetch : env.fetch key = .ok none) :
    ∃ r s' f' c', Runs (updatePage env a none key entry) s r s' ∧
      Sees ok s' f' c' ∧ Writes env c key entry f' c' ∧
      ∀ e, r = some e ↔ (key, e) ∈ rowsOf env c := by
  have hindex : indexOf env c = [] := (hm.index env).trans hnil
  have hck := hc.unindexed hindex key hkey
  have hfk : f key = none := (h.find_eq_none key).mpr hck
  obtain ⟨hrows, hretired, hcount, hend, hres⟩ := setEntry_empty
  obtain ⟨page, hpage⟩ : ∃ page, (Page.empty.setEntry key entry).1 = page :=
    ⟨_, rfl⟩
  rw [hpage] at hrows hretired hcount hend
  have hset : Page.empty.setEntry key entry = (page, none, true) :=
    Prod.ext hpage hres
  have hcreated : Data.created key = ⟨key, .page, Entry.default, .page Page.empty⟩ := by
    rw [Data.created, if_neg hkey]
  obtain ⟨b, s₁, hrun₁, hsees₁⟩ := getData_created h hfk hfetch
  rw [hcreated] at hsees₁
  have hfb : update f key (some b) key = some b :=
    update_self ..
  have hm₁ : MetaAt (update f key (some b)) (update c key
      (some ⟨key, .page, Entry.default, .page Page.empty⟩)) a dm m :=
    ⟨(update_of_ne (Ne.symm hkey) ..).trans hm.address,
      (update_of_ne (Ne.symm hkey) ..).trans hm.cached, hm.record⟩
  have hlocate : Runs (locatePage env a none key) s (key, b) s₁ :=
    hrun₁.bind ((pageAt_runs hsees₁ hfb (update_self ..) rfl).bind .of_pure)
  obtain ⟨s₂, c₂, dm₂, m₂, d₂, hrun₂, hsees₂, hm₂, hmd, hpages, hck₂, hdkey,
      hdtype, hdpage, hdirty, hmarked, hother⟩ := writeFirst_runs hsees₁
    hm₁ hnil hkey hfb (update_self ..) rfl rfl hset hend
  obtain ⟨hopen, hwrites⟩ := PageOpen.first hc hindex hkey hm₂
    hmd hend hpages hfb hck₂ (pageRecord_of_dirty hdkey hdtype hdpage
      (by simp [hrows]) (by simp [hrows, hkey])
      (fun x hx => absurd hx (hretired x)) hcount hdirty hend) hdirty hmarked hrows (by
      intro x hx hxk
      rw [hother x hx hxk, update_of_ne hxk])
  refine ⟨none, s₂, _, _, hlocate.bind (hrun₂.bind
    ((rebalance_single hsees₂ hopen rfl hrows).bind .of_pure)), hsees₂, hwrites, ?_⟩
  simp [rowsOf, segmentsOf, hindex, flatten]

/-! ## The whole update -/

/-- `setEntryToPage` replaces the row of its key and returns the replaced one. -/
theorem setEntryToPage_runs (hc : Consistent env f c) (hfit : ok → CountsFit env c)
    (hkey : key ≠ []) (hfirst : indexOf env c = [] → env.fetch key = .ok none) :
    ∃ r s' f' c', Runs (setEntryToPage env key entry) s r s' ∧ Sees ok s' f' c' ∧
      Writes env c key entry f' c' ∧ ∀ e, r = some e ↔ (key, e) ∈ rowsOf env c := by
  obtain ⟨a, position, s₁, s₂, f₂, c₂, d₂, m₂, hrun₁, hrun₂, hsees₂, hloads, hm₂, hposition⟩ :=
    search_runs h hc key
  have hupdate : ∃ r s' f' c', Runs (updatePage env a position key entry) s₂ r s' ∧
        Sees ok s' f' c' ∧ Writes env c₂ key entry f' c' ∧
        ∀ e, r = some e ↔ (key, e) ∈ rowsOf env c₂ := by
    rcases hposition with ⟨rfl, hnil⟩ | ⟨front, info, back, rfl, hpos⟩
    · refine updatePage_first hsees₂ hloads.consistent hm₂ hnil hkey (hfirst ?_)
      rw [← hloads.index_eq_nil, hm₂.index env, hnil]
    · exact updatePage_indexed hsees₂ hloads.consistent (fun hok => (hfit hok).loads hloads)
        hm₂ hkey hpos
  obtain ⟨r, s', f', c', hrun₃, hsees, hwrites, hr⟩ := hupdate
  refine ⟨r, s', f', c', hrun₁.bind (hrun₂.bind hrun₃), hsees, hwrites.after hloads, ?_⟩
  intro e
  rw [hr, hloads.rows]

end TableM

end FiscoSmart.Storage
