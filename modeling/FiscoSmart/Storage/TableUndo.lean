import FiscoSmart.Storage.TableUpdate

/-!
# Undoing a recorded change

`rollback` undoes one change in the page that holds its key.  Undoing a change
restores the row the write had replaced, as long as the page keeps a row; a page
that loses its last row is re-keyed to the empty string in place, which the
invariant of the index excludes.
-/

namespace FiscoSmart.Storage

open Support Function List

variable {p' : Page}

/-- What the undo of `change` does to the records of a table. -/
structure Undoes (env : TableEnv) (c : Key → Option Data) (change : Change)
    (f' : Key → Option Address) (c' : Key → Option Data) : Prop where
  rows : ∀ x e, (x, e) ∈ rowsOf env c' ↔ (x = change.key ∧ change.entry = some e) ∨
      (x ≠ change.key ∧ (x, e) ∈ rowsOf env c)
  consistent : Consistent env f' c'
  dirtyRow : ∀ x, DirtyRow env c x → (x = change.key → change.entry ≠ none) → DirtyRow env c' x

/-- The page that holds the row of `change` keeps a row when the change is
undone. -/
def KeepsRow (env : TableEnv) (c : Key → Option Data) (change : Change) : Prop :=
  change.entry = none → ∀ t ∈ segmentsOf env c,
    (∃ row ∈ t.2, row.1 = change.key) → ∃ row ∈ t.2, row.1 ≠ change.key

instance (env : TableEnv) (c : Key → Option Data) (change : Change) :
    Decidable (KeepsRow env c change) := by
  unfold KeepsRow
  infer_instance

namespace TableM

variable {ok : Prop} {env : TableEnv} {s : TableState} {f : Key → Option Address}
  {c : Key → Option Data} {key : Key} {front back : List PageInfo}
  {info : PageInfo} {d : Data} {p : Page} {change : Change}

/-- A dirty row is in the page the index search finds, so that page is dirty. -/
theorem dirty_of_dirtyRow (hc : Consistent env f c)
    (hpos : Position (indexOf env c) key front info back)
    (hrec : recordOf env c info.pageKey = some d) (hd : d.data = .page p) (h : DirtyRow env c key) :
    d.entry.dirty = true ∧ ∃ e, (key, e) ∈ p.entries.toList := by
  obtain ⟨i, hi, d', p', hrec', hd', hdirty, e, he⟩ := h
  have hsegs := hc.ordered
  rw [segmentsOf, hpos.split, map_append, map_cons] at hsegs
  have hrows : (segmentOf env c i).2 = p'.entries.toList := by
    rw [segmentOf_eq hrec' hd']
  rw [hpos.split] at hi
  rcases mem_append.mp hi with hi | hi
  · have hle : key ≤ i.pageKey :=
      (hsegs.bounded _ (mem_append_left _ (mem_map_of_mem hi))).2 (key, e) (hrows ▸ he)
    exact absurd (hpos.above i hi) (not_lt_of_ge hle)
  · rcases mem_cons.mp hi with rfl | hi
    · cases hrec.symm.trans hrec'
      cases hd.symm.trans hd'
      exact ⟨hdirty, e, he⟩
    · rcases hpos.below with hle | rfl
      · have hlt : info.pageKey < key :=
          (hsegs.fits.below _ (mem_map_of_mem hi)).2 (key, e) (hrows ▸ he)
        exact absurd hle (not_le_of_gt hlt)
      · simp at hi

/-- A page whose keys are among the keys of the page it replaces fits in its
place. -/
theorem fits_of_keys (hc : Consistent env f c) (hindex : indexOf env c = front ++ info :: back)
    (hrec : recordOf env c info.pageKey = some d) (hd : d.data = .page p)
    (hne : p'.entries.toList ≠ [])
    (hkeys : ∀ row ∈ p'.entries.toList, ∃ e, (row.1, e) ∈ p.entries.toList) :
    SegmentsOrdered.Fits (front.map (segmentOf env c))
      (back.map (segmentOf env c)) (p'.endKey, p'.entries.toList) := by
  refine fits_of_between hc hindex hne fun row hrow => ?_
  obtain ⟨e, he⟩ := hkeys row hrow
  exact (row_between hc hindex hrec hd he).imp_right .inl

theorem rollbackPageData_runs (h : Sees ok s f c) (hc : Consistent env f c)
    (hinfo : info ∈ indexOf env c) :
    ∃ b s' f' c' d p, Runs (rollbackPageData env info) s b s' ∧ Sees ok s' f' c' ∧
      Loads env c f' c' ∧ PageAt f' c' b info.pageKey d p ∧ info.count = p.validCount.toUInt16 ∧
      f' tableMetaKey = f tableMetaKey ∧ c' tableMetaKey = c tableMetaKey := by
  obtain ⟨hkey, ⟨d, p, hrec, hpage, hcount⟩, hptr⟩ := hc.infos info hinfo
  rcases hdata : info.pageData with - | b
  · obtain ⟨b, s', f', c', d, p, hrun, hsees, hloads, hpageAt, hcount, hsame⟩ :=
      getData_page h hc hinfo true
    obtain ⟨hf, hcm⟩ := hsame tableMetaKey (Ne.symm hkey)
    refine ⟨b, s', f', c', d, p, ?_, hsees, hloads, hpageAt, hcount, hf, hcm⟩
    rw [rollbackPageData, hdata]
    exact Runs.tryCatch_of_ok hrun
  · obtain ⟨d', hd'⟩ := h.exists_record (hptr b hdata)
    cases (recordOf_cached hd').symm.trans hrec
    refine ⟨b, s, f, c, d, p, ?_, h, Loads.refl hc, ⟨hptr b hdata, hd', hpage⟩, hcount, rfl, rfl⟩
    rw [rollbackPageData, hdata]
    exact .of_pure

/-- The records after the page of `info` was replaced by the page `p'` with the
change undone. -/
theorem undoes_of_rewrite {f' : Key → Option Address}
    (hc : Consistent env f c) (hpos : Position (indexOf env c) change.key front
      info back) (hrec : recordOf env c info.pageKey = some d)
    (hd : d.data = .page p) {info' : PageInfo} {b : Address} {d' dm' : Data} {m' : TableMeta}
    (hr : Rewrite env c front back info info' b d' p' dm' m')
    (hdirty : d'.entry.dirty = true) (hrows : ∀ k e, (k, e) ∈ p'.entries.toList ↔
      (k = change.key ∧ change.entry = some e) ∨ (k ≠ change.key ∧ (k, e) ∈ p.entries.toList))
    (hf' : f' = moveKey f info.pageKey info'.pageKey b) :
    Undoes env c change f' (rewritten c info info' d' dm') := by
  obtain ⟨hcons, hindex, hsegs⟩ := hr.consistent hc
  have hsegs₀ : segmentsOf env c = front.map (segmentOf env c) ++
      (info.pageKey, p.entries.toList) :: back.map (segmentOf env c) := by
    rw [segmentsOf, hpos.split, map_append, map_cons]
    rw [segmentOf_eq hrec hd]
  have haround : ∀ e, (change.key, e) ∉ flatten (front.map (segmentOf env c)) ∧
        (change.key, e) ∉ flatten (back.map (segmentOf env c)) := by
    have hordered := hc.ordered
    rw [hsegs₀] at hordered
    refine hordered.not_mem_around ?_ ?_
    · intro t ht
      obtain ⟨i, hi, rfl⟩ := mem_map.mp ht
      exact hpos.above i hi
    · rcases hpos.below with hle | rfl
      · exact .inl hle
      · exact .inr rfl
  have hnew : info' ∈ indexOf env (rewritten c info info' d' dm') := by
    simp [hindex]
  have hrec' : recordOf env (rewritten c info info' d' dm') info'.pageKey =
      some d' := recordOf_cached hr.rewritten_new
  refine ⟨?_, hf' ▸ hcons, ?_⟩
  · intro x e
    rw [rowsOf, rowsOf, hsegs, hsegs₀]
    by_cases hx : x = change.key
    · subst hx
      simp [haround e, hrows]
    · have hrow : (x, e) ∈ p'.entries.toList ↔ (x, e) ∈ p.entries.toList := by
        rw [hrows]
        simp [hx]
      simp [hx, hrow]
  · rintro x ⟨i, hi, d₁, p₁, hrec₁, hd₁, hdirty₁, e, he⟩ hx
    by_cases hinfo : i = info
    · subst hinfo
      cases hrec.symm.trans hrec₁
      cases hd.symm.trans hd₁
      refine ⟨info', hnew, d', p', hrec', hr.record.data, hdirty, ?_⟩
      by_cases hxk : x = change.key
      · obtain ⟨e', he'⟩ := Option.ne_none_iff_exists'.mp (hx hxk)
        exact ⟨e', (hrows x e').mpr (.inl ⟨hxk, he'⟩)⟩
      · exact ⟨e, (hrows x e).mpr (.inr ⟨hxk, he⟩)⟩
    · have hw := hr.window hc
      have hi' : i ∈ front ++ back :=
        (mem_window.mp (hw.index ▸ hi)).resolve_left (mt mem_singleton.mp hinfo)
      exact ⟨i, hw.indexOf_eq ▸ mem_window.mpr (.inr hi'), d₁, p₁,
        (hw.recordOf_eq hi').trans hrec₁, hd₁, hdirty₁, e, he⟩

/-- Undoing a change of a dirty row whose page keeps a row. -/
theorem rollbackChange_runs (h : Sees ok s f c) (hc : Consistent env f c)
    (hfit : ok → CountsFit env c) (hdirty : DirtyRow env c change.key)
    (hkeeps : KeepsRow env c change) :
    ∃ s' f' c', Runs (rollbackChange env change) s () s' ∧ Sees ok s' f' c' ∧
      Undoes env c change f' c' := by
  obtain ⟨a, position, s₁, s₂, f₂, c₂, d₂, m₂, hrun₁, hrun₂, hsees₂, hloads, hm₂, hposition⟩ :=
    search_runs h hc change.key
  have hdirty₂ := hloads.advances.dirtyRow _ hdirty
  rcases hposition with ⟨_, hnil⟩ | ⟨front, info, back, rfl, hpos⟩
  · obtain ⟨i, hi, _⟩ := hdirty₂
    rw [hm₂.index env, hnil] at hi
    exact absurd hi not_mem_nil
  have hinfoRun := hm₂.infoAt_runs hsees₂ hpos.split
  have hmem₂ : info ∈ indexOf env c₂ := by simp [hm₂.index env, hpos.split]
  obtain ⟨b, s₃, f₃, c₃, d, p, hrun₃, hsees₃, hloads₃, hpage, hcount, hfm, hcm⟩ :=
    rollbackPageData_runs hsees₂ hloads.consistent hmem₂
  have hm₃ : MetaAt f₃ c₃ a d₂ m₂ :=
    ⟨hfm.trans hm₂.address, hcm.trans hm₂.cached, hm₂.record⟩
  have hall := hloads.trans hloads₃
  have hp := hpage.record
  have hrec : recordOf env c₃ info.pageKey = some d :=
    recordOf_cached hpage.cached
  have hpos₃ : Position (indexOf env c₃) change.key front info back := by
    rw [hm₃.index env]
    exact hpos
  obtain ⟨hdd, cur, hcur⟩ := dirty_of_dirtyRow hall.consistent hpos₃ hrec hp.data
    (hall.advances.dirtyRow _ hdirty)
  obtain ⟨p', hrollback, hcount', hretired', hrows'⟩ := Page.rollback_spec hp.count hcur
  have hsegment : (info.pageKey, p.entries.toList) ∈ segmentsOf env c := by
    rw [← hall.segments, segmentsOf, hpos₃.split]
    refine mem_map.mpr ⟨info, by simp, ?_⟩
    rw [segmentOf_eq hrec hp.data]
  have hne' : p'.entries.toList ≠ [] := by
    rcases hentry : change.entry with - | old
    · obtain ⟨⟨k, e⟩, hrow, hk⟩ := hkeeps hentry _ hsegment ⟨_, hcur, rfl⟩
      exact ne_nil_of_mem ((hrows' k e).mpr (.inr ⟨hk, hrow⟩))
    · exact ne_nil_of_mem ((hrows' _ old).mpr (.inl ⟨rfl, hentry⟩))
  have hkeys' : ∀ row ∈ p'.entries.toList, ∃ e, (row.1, e) ∈ p.entries.toList := by
    rintro ⟨k, e⟩ hrow
    rcases (hrows' k e).mp hrow with ⟨rfl, _⟩ | ⟨_, hrow⟩
    · exact ⟨cur, hcur⟩
    · exact ⟨e, hrow⟩
  have hnil' : ∀ row ∈ p'.entries.toList, row.1 ≠ [] := by
    intro row hrow
    obtain ⟨e, he⟩ := hkeys' row hrow
    exact hp.keys (row.1, e) he
  obtain ⟨⟨ee, hee⟩, _⟩ := Page.endKey_mem hne'
  have hend' : p'.endKey ≠ [] := hnil' _ hee
  have hK : info.pageKey ≠ [] :=
    (hall.consistent.infos info (by simp [hpos₃.split])).key
  have hcounted : ok → ¬ p.validCount.toNat ≠ info.count.toNat := by
    intro hok hne
    exact hne (((hfit hok).loads hall).validCount_eq (by simp [hpos₃.split]) hrec hp hcount)
  obtain ⟨s₄, hrun₄, hsees₄⟩ := fatal_guarded_runs hsees₃ hcounted .pageValidCountMismatch
  obtain ⟨s₅, hrun₅, hsees₅⟩ := setPage_runs hsees₄ hpage.address hpage.cached p'
  obtain ⟨s₆, hrun₆, hsees₆⟩ := updatePageInfoNoLock_runs hsees₅ (hm₃.update hK _) hpos.split
    info.pageKey p'
  obtain ⟨s₇, hrun₇, hsees₇⟩ := rekey_runs hsees₆ hend' hpage.address
    ((update_of_ne hK ..).trans (update_self ..)) hp.key rfl true
  rw [moveKey_update_comm (Ne.symm hK) (Ne.symm hend'), moveKey_update] at hsees₇
  have hr : Rewrite env c₃ front back info
      (TableMeta.updateInfo p'.endKey p'.validCount p'.size info) b
      ((d.withPage p').withKey p'.endKey) p' (d₂.withMeta (updatedMeta m₂ front back info p'))
      (updatedMeta m₂ front back info p') := by
    refine ⟨hpos₃.split, hend', ?_, rfl, ?_, hm₃.record.withMeta _, rfl,
      fits_of_keys hall.consistent hpos₃.split hrec hp.data hne' hkeys'⟩
    · exact pageRecord_of_dirty rfl hp.type rfl hne' hnil'
        (fun x hx => hp.retired x (hretired' x hx)) hcount' hdd rfl
    · intro x hx
      have hdata : info.pageData = some x := by
        simpa [TableMeta.updateInfo, hend'] using hx
      have hptr := (hall.consistent.infos info (by simp [hpos₃.split])).pointer x hdata
      cases hpage.address.symm.trans hptr
      rfl
  have hundoes := undoes_of_rewrite hall.consistent hpos₃ hrec hp.data hr hdd hrows' rfl
  refine ⟨s₇, _, _, ?_, hsees₇, ?_⟩
  · refine (Runs.tryCatch_of_ok hrun₁).bind (hrun₂.bind (hinfoRun.bind
      (hrun₃.bind ((hpage.runs hsees₃).bind (hrun₄.bind ?_)))))
    rw [hrollback]
    have hguard : ¬ p'.count = 0 := by
      simpa [Page.count, SortedMap.size] using hne'
    exact hrun₅.bind ((guarded_false hguard _ _).bind (hrun₆.bind (hrun₇.bind .of_pure)))
  · refine ⟨?_, hundoes.consistent, ?_⟩
    · intro x e
      rw [← hall.rows]
      exact hundoes.rows x e
    · intro x hx
      exact hundoes.dirtyRow x (hall.advances.dirtyRow x hx)

end TableM

end FiscoSmart.Storage
