import FiscoSmart.Storage.TableRewrite

/-!
# Writing a row

The write of a row locates the page that may hold its key, replaces the row
there, and brings the page information and the page key up to date.  The page
then holds the written row, stays in its place in the index, and its record and
the record of the index are dirty.
-/

namespace FiscoSmart.Storage

open Support Function SortedMap

namespace TableM

variable {ok : Prop} {env : TableEnv} {s : TableState} {f : Key → Option Address}
  {c : Key → Option Data}
  {entry : Entry} {new old x : Key}

/-! ## Bookkeeping -/

/-- The index after the page information behind `front` was updated. -/
def updatedMeta (m : TableMeta) (front back : List PageInfo) (info : PageInfo)
    (page : Page) : TableMeta :=
  ⟨front ++ TableMeta.updateInfo page.endKey page.validCount page.size info :: back,
    m.lastPageInfoIndex⟩

variable {a : Address} {d : Data} {m : TableMeta} {front back : List PageInfo} {info : PageInfo}

theorem updatePageInfoNoLock_runs (h : Sees ok s f c) (hm : MetaAt f c a d m)
    (hpages : m.pages = front ++ info :: back) (oldEndKey : Key) (page : Page) :
    ∃ s', Runs (updatePageInfoNoLock a oldEndKey page (some front.length)) s
        (if info.pageKey ≠ page.endKey then some info.pageKey else none) s' ∧
      Sees ok s' f (update c tableMetaKey
        (some (d.withMeta (updatedMeta m front back info page)))) := by
  have hupdate : m.updatePageInfoNoLock oldEndKey page.endKey page.validCount
      page.size (some front.length) = (updatedMeta m front back info page,
          if info.pageKey ≠ page.endKey then some info.pageKey else none, none) := by
    simp [TableMeta.updatePageInfoNoLock, hpages, updatedMeta]
  obtain ⟨s', hset, hsees⟩ := setMeta_runs h hm.address hm.cached
    (updatedMeta m front back info page)
  refine ⟨s', ?_, hsees⟩
  refine (hm.runs h).bind ?_
  rw [hupdate]
  exact hset.bind (Runs.of_pure.bind Runs.of_pure)

variable {b : Address} {p : Page}

theorem rekey_runs (h : Sees ok s f c) (hnew : new ≠ []) (hf : f old = some b) (hc : c old = some d)
    (hkey : d.key = old) (hd : d.data = .page p) (isRevert : Bool) :
    ∃ s', Runs (rekey (if old ≠ new then some old else none) new isRevert) s
        (if old ≠ new then some b else none) s' ∧
      Sees ok s' (moveKey f old new b) (moveKey c old new (d.withKey new)) := by
  by_cases hEq : old = new
  · subst hEq
    have hd' : d.withKey old = d := by
      cases hkey
      rfl
    refine ⟨s, ?_, h.congr ?_ ?_⟩
    · simpa [rekey] using .of_pure
    · intro x
      rw [moveKey_same, ← hf, update_eq_self]
    · intro x
      rw [moveKey_same, hd', ← hc, update_eq_self]
  · obtain ⟨s', hrun, hsees⟩ := changePageKey_runs h hEq hnew hf hc hd isRevert
    refine ⟨s', ?_, hsees⟩
    simpa [hEq, rekey] using hrun

variable {key : Key}

theorem unchanged_endKey {k : Key} (h : PageRecord k d p)
    (hflag : (p.setEntry key entry).2.2 = false) :
    (p.setEntry key entry).1.endKey = k := by
  obtain ⟨⟨old, hold⟩, _, _, hsize⟩ := Page.setEntry_unchanged hflag
  have hend : p.endKey = k := by
    rcases h.endKey with hend | ⟨_, hinvalid⟩
    · exact hend
    · exact absurd (by simp [SortedMap.size, hinvalid]) hsize
  have hle : key ≤ p.endKey :=
    (Page.endKey_mem h.nonempty).2 _ (find?_eq_some.mp hold)
  rw [Page.setEntry_endKey_le h.nonempty hle, hend]

variable {α : Type}

theorem moveKey_update (g : Key → Option α) (old new : Key) (u : Option α) (v : α) :
    moveKey (update g old u) old new v = moveKey g old new v := by
  rw [moveKey, moveKey, update_idem]

theorem moveKey_update_comm {g : Key → Option α}
    (hold : x ≠ old) (hnew : x ≠ new) (u : Option α) (v : α) :
    moveKey (update g x u) old new v = update (moveKey g old new v) x u := by
  rw [moveKey, moveKey, update_comm hold, update_comm hnew]

theorem moveKey_replace {g : Key → Option α} {u v : α} :
    update (moveKey g old new u) new (some v) = moveKey g old new v := by
  rw [moveKey, moveKey, update_idem]

section

variable (h : Sees ok s f c) {dm : Data} (hm : MetaAt f c a dm m)
  (hpages : m.pages = front ++ info :: back) (hkey : info.pageKey ≠ [])
  (hb : f info.pageKey = some b) (hd : c info.pageKey = some d) (hdkey : d.key = info.pageKey)
  {page : Page} (hdata : d.data = .page page) (hend : page.endKey ≠ [])

include h hm hpages hkey hb hd hdkey hdata hend

/-- The index update after a write stores the page under its last key. -/
theorem rekeyPage_runs : ∃ s' d',
      Runs (rekeyPage a (some front.length) info.pageKey b page) s b s' ∧
      Sees ok s' (moveKey f info.pageKey page.endKey b)
        (update (moveKey c info.pageKey page.endKey d') tableMetaKey
          (some (dm.withMeta (updatedMeta m front back info page)))) ∧
      d'.key = page.endKey ∧ d'.type = d.type ∧ d'.data = .page page ∧
      d'.entry.dirty = true ∧ Marked d' page := by
  obtain ⟨s₁, hrun₁, hsees₁⟩ :=
    updatePageInfoNoLock_runs h hm hpages info.pageKey page
  have hd₁ :=
    (update_of_ne hkey (some (dm.withMeta (updatedMeta m front back info page))) c).trans hd
  obtain ⟨s₂, hrun₂, hsees₂⟩ := setStatus_runs hsees₁ hb hd₁ .modified
  by_cases hEq : info.pageKey = page.endKey
  · refine ⟨s₂, (d.withStatus .modified), ?_,
      hsees₂.congr ?_ ?_, hdkey.trans hEq, rfl, hdata, by simp [Entry.dirty], by simp [Marked]⟩
    · rw [if_neg (not_not.mpr hEq)] at hrun₁
      exact hrun₁.bind (hrun₂.bind .of_pure)
    · intro x
      rw [← hEq, moveKey_same, ← hb, update_eq_self]
    · intro x
      rw [← hEq, moveKey_same, update_comm (Ne.symm hkey)]
  · rw [if_pos hEq] at hrun₁
    obtain ⟨s₃, hrun₃, hsees₃⟩ := changePageKey_runs hsees₂ hEq hend hb (update_self ..) hdata false
    change Sees ok s₃ (moveKey f info.pageKey page.endKey b)
      (moveKey _ info.pageKey page.endKey _) at hsees₃
    rw [moveKey_update, moveKey_update_comm (Ne.symm hkey) (Ne.symm hend)] at hsees₃
    by_cases hvalid : page.validCount = 0
    · obtain ⟨s₄, hrun₄, hsees₄⟩ := setStatus_runs (k := page.endKey) hsees₃
        moveKey_new ((update_of_ne hend ..).trans moveKey_new) .deleted
      refine ⟨s₄, ((d.withStatus .modified).withKey page.endKey).withStatus
        .deleted, ?_, hsees₄.congr (fun _ => rfl) ?_, rfl, rfl, hdata, ?_,
        fun _ => hvalid⟩
      · exact hrun₁.bind (hrun₂.bind (hrun₃.bind ((guarded_true hvalid hrun₄).bind .of_pure)))
      · intro x
        rw [update_comm (Ne.symm hend), moveKey_replace]
      · simp [Entry.dirty]
    · refine ⟨s₃, _, ?_, hsees₃, rfl, rfl, hdata, by simp [Entry.dirty], by simp [Marked]⟩
      exact hrun₁.bind (hrun₂.bind (hrun₃.bind ((guarded_false hvalid _ _).bind .of_pure)))

/-- The bookkeeping after a write to an indexed page stores the page under its
last key and marks it dirty. -/
theorem recordWrite_runs (hstat : d.entry.status ≠ .empty) {flag : Bool} (hflag : flag = false →
      page.endKey = info.pageKey ∧ info.count = page.validCount.toUInt16) : ∃ s' info' d' m',
      Runs (recordWrite a (some front.length) info.pageKey b page flag) s b s' ∧
      Sees ok s' (moveKey f info.pageKey page.endKey b)
        (update (moveKey c info.pageKey page.endKey d') tableMetaKey (some (dm.withMeta m'))) ∧
      m'.pages = front ++ info' :: back ∧ info'.pageKey = page.endKey ∧
      info'.count = page.validCount.toUInt16 ∧ info'.pageData = info.pageData ∧
      d'.key = page.endKey ∧ d'.type = d.type ∧ d'.data = .page page ∧
      d'.entry.dirty = true ∧ Marked d' page := by
  have hderef := deref_runs h hb hd
  rcases flag with - | -
  · obtain ⟨hsame, hcount⟩ := hflag rfl
    obtain ⟨s', hrun, hsees⟩ := setStatus_runs h hb hd .modified
    have hdm : dm.withMeta m = dm := by
      cases dm
      cases hm.record.data
      rfl
    refine ⟨s', info, (d.withStatus .modified), m,
      ?_, hsees.congr ?_ ?_, hpages, hsame.symm, hcount, rfl,
      hdkey.trans hsame.symm, rfl, hdata, by simp [Entry.dirty], by simp [Marked]⟩
    · refine hderef.bind ?_
      exact hrun.bind .of_pure
    · intro x
      rw [hsame, moveKey_same, ← hb, update_eq_self]
    · intro x
      rw [hsame, moveKey_same, hdm]
      by_cases hx : x = []
      · subst hx
        rw [update_of_ne (Ne.symm hkey), update_self, hm.cached]
      · rw [update_of_ne hx]
  · obtain ⟨s', d', hrun, hsees, hrest⟩ := rekeyPage_runs h hm hpages hkey hb hd hdkey hdata hend
    refine ⟨s', TableMeta.updateInfo page.endKey page.validCount page.size info,
      d', updatedMeta m front back info page, ?_, hsees, rfl, rfl, rfl, ?_, hrest⟩
    · refine hderef.bind ?_
      rw [if_pos rfl, if_neg hstat]
      exact hrun
    · simp [TableMeta.updateInfo, hend]

end

/-! ## The write of the row -/

theorem ne_nil_of_le {y : Key} (h : x ≤ y) (hx : x ≠ []) : y ≠ [] := by
  rintro rfl
  rcases x with - | ⟨a, l⟩
  · exact hx rfl
  · exact absurd (List.nil_lt_cons a l) (not_lt_of_ge h)

/-- A row written to the page that may hold its key leaves the page in its
place. -/
theorem fits_setEntry (hc : Consistent env f c)
    (hpos : Position (indexOf env c) key front info back)
    (hrec : recordOf env c info.pageKey = some d) (hp : PageRecord info.pageKey d p) :
    SegmentsOrdered.Fits (front.map (segmentOf env c))
      (back.map (segmentOf env c)) ((p.setEntry key entry).1.endKey,
        (p.setEntry key entry).1.entries.toList) := by
  refine fits_of_between hc hpos.split
    (List.ne_nil_of_mem (Page.mem_setEntry.mpr (.inl ⟨rfl, rfl⟩))) ?_
  rintro ⟨x, e⟩ hx
  rcases Page.mem_setEntry.mp hx with ⟨rfl, _⟩ | ⟨_, hx⟩
  · exact ⟨hpos.above, hpos.below⟩
  · exact (row_between hc hpos.split hrec hp.data hx).imp_right .inl

theorem writeEntry_runs (h : Sees ok s f c) (hopen : PageOpen env f c a front back info b d p)
    (hkey : key ≠ []) (hpos : Position (indexOf env c) key front info back) (entry : Entry) :
    ∃ s' f' c' info' d', Runs (writeEntry a (some front.length) info.pageKey b key entry) s
        (b, p.entries.find? key) s' ∧ Sees ok s' f' c' ∧
      PageOpen env f' c' a front back info' b d' (p.setEntry key entry).1 ∧ d'.entry.dirty = true ∧
      info'.pageKey = (p.setEntry key entry).1.endKey ∧ MetaDirty c' ∧
      segmentsOf env c' = front.map (segmentOf env c) ++ ((p.setEntry key entry).1.endKey,
          (p.setEntry key entry).1.entries.toList) :: back.map (segmentOf env c) ∧
      Advances env c c' := by
  have hc := hopen.consistent
  have hp := hopen.page.record
  obtain ⟨dm, m, hm, hpages⟩ := hopen.index
  have hinfo : info ∈ indexOf env c := by simp [hm.index env, hpages]
  have hK : info.pageKey ≠ [] := (hc.infos info hinfo).key
  have hrec : recordOf env c info.pageKey = some d :=
    recordOf_cached hopen.page.cached
  have hmem : (key, entry) ∈ (p.setEntry key entry).1.entries.toList :=
    Page.mem_setEntry.mpr (.inl ⟨rfl, rfl⟩)
  have hend : (p.setEntry key entry).1.endKey ≠ [] :=
    ne_nil_of_le ((Page.endKey_mem (List.ne_nil_of_mem hmem)).2 _ hmem) hkey
  obtain ⟨s₁, hrun₁, hsees₁⟩ := setPage_runs h hopen.page.address
    hopen.page.cached (p.setEntry key entry).1
  have hflag : (p.setEntry key entry).2.2 = false → (p.setEntry key entry).1.endKey = info.pageKey ∧
        info.count = (p.setEntry key entry).1.validCount.toUInt16 := by
    intro hflag
    obtain ⟨_, hvalid, _⟩ := Page.setEntry_unchanged hflag
    exact ⟨unchanged_endKey hp hflag, by rw [hvalid, hopen.count]⟩
  obtain ⟨s₂, info', d', m', hrun₂, hsees₂, hpages', hkey', hcount', hdata',
      hdkey, hdtype, hdpage, hdirty, hmarked⟩ :=
    recordWrite_runs hsees₁ (hm.update hK _) hpages hK hopen.page.address
      (update_self ..) hp.key rfl hend hp.status hflag
  have haddr : moveKey f info.pageKey (p.setEntry key entry).1.endKey b tableMetaKey = some a := by
    rw [moveKey_other (Ne.symm hK) (Ne.symm hend), hm.address]
  obtain ⟨s₃, hrun₃, hsees₃⟩ := setStatus_runs hsees₂ haddr (update_self ..) .modified
  rw [update_idem, moveKey_update, ← hkey'] at hsees₃
  change Sees ok s₃ _ (rewritten c info info' d' _) at hsees₃
  have hr : Rewrite env c front back info info' b d' (p.setEntry key entry).1
      ((dm.withMeta m').withStatus .modified) m' := by
    refine ⟨by rw [hm.index env, hpages], hkey'.trans_ne hend, ?_, hcount', ?_,
      ⟨hm.record.key, hm.record.type, rfl⟩, hpages', ?_⟩
    · refine pageRecord_of_dirty (hdkey.trans hkey'.symm) (hdtype.trans hp.type) hdpage
        (List.ne_nil_of_mem hmem) ?_ ?_ (Page.setEntry_countOk hp.count key entry) hdirty hkey'.symm
      · rintro ⟨x, e⟩ hx
        rcases Page.mem_setEntry.mp hx with ⟨rfl, _⟩ | ⟨_, hx⟩
        · exact hkey
        · exact hp.keys _ hx
      · intro x hx
        rcases Page.setEntry_retired_sub hx with hx | ⟨e, he⟩
        · exact hp.retired x hx
        · exact hp.keys _ he
    · intro x hx
      rw [hdata', hopen.pointer] at hx
      cases hx
      rfl
    · rw [hkey']
      exact fits_setEntry hc hpos hrec hp
  obtain ⟨hcons, hindex', hsegments⟩ := hr.consistent hc
  have hretired : ∀ x, p.Retired x → (p.setEntry key entry).1.Retired x ∨ x = info'.pageKey := by
    intro x hx
    rw [hkey']
    exact Page.setEntry_retired hx
  refine ⟨s₃, _, _, info', d', ?_, hsees₃, ⟨hcons,
    ⟨_, m', ⟨?_, Rewrite.rewritten_meta, hr.metaRecord⟩, hpages'⟩,
    ⟨moveKey_new, hr.rewritten_new, hr.record⟩, hcount', hdata'.trans hopen.pointer⟩, hdirty, hkey',
    ⟨_, Rewrite.rewritten_meta, by simp [Entry.dirty]⟩, ?_, ?_⟩
  · have hreturn : Runs (pure (b, (p.setEntry key entry).2.1) : TableM _) s₃
        (b, p.entries.find? key) s₃ := by
      rw [Page.setEntry_old]
      exact .of_pure
    exact (hopen.page.runs h).bind (hrun₁.bind (hrun₂.bind (hrun₃.bind hreturn)))
  · rw [hkey']
    exact haddr
  · rw [hsegments, hkey']
  · refine hr.advances hc hrec hp.data hdirty (by simp [Entry.dirty]) ?_ ?_ hretired hmarked
    · intro x e hx
      by_cases hxk : x = key
      · exact ⟨entry, Page.mem_setEntry.mpr (.inl ⟨hxk, rfl⟩)⟩
      · exact ⟨e, Page.mem_setEntry.mpr (.inr ⟨hxk, hx⟩)⟩
    · rcases hp.endKey with hEq | ⟨_, hinvalid⟩
      · rw [← hEq, hkey']
        exact Page.setEntry_retires_endKey hp.nonempty
      · exact hretired _ (by simp [Page.Retired, hinvalid])

end TableM

end FiscoSmart.Storage
