import FiscoSmart.Storage.TableRead

/-!
# Rewriting one page

The writes and the undo of a write exchange the page of one page information
for another page, possibly under another page key.  This module describes the
records after such an exchange and shows that it keeps the table consistent.
-/

namespace FiscoSmart.Storage

open Support Function List

/-- The map `g` after its value under `old` was replaced by `v` under `new`. -/
def moveKey {α : Type} (g : Key → Option α) (old new : Key) (v : α) : Key → Option α :=
  update (update g old none) new (some v)

section MoveKey

variable {α : Type} {g : Key → Option α} {old new x : Key} {v : α}

@[simp]
theorem moveKey_new : moveKey g old new v new = some v :=
  update_self ..

theorem moveKey_other (hold : x ≠ old) (hnew : x ≠ new) : moveKey g old new v x = g x := by
  rw [moveKey, update_of_ne hnew, update_of_ne hold]

theorem moveKey_old (h : old ≠ new) : moveKey g old new v old = none := by
  rw [moveKey, update_of_ne h, update_self]

theorem moveKey_eq_some {w : α} (h : moveKey g old new v x = some w) :
    x = new ∨ (x ≠ old ∧ g x = some w) := by
  by_cases hnew : x = new
  · exact .inl hnew
  · rw [moveKey, update_of_ne hnew] at h
    by_cases hold : x = old
    · subst hold
      rw [update_self] at h
      cases h
    · rw [update_of_ne hold] at h
      exact .inr ⟨hold, h⟩

theorem moveKey_same (g : Key → Option α) (k : Key) (v : α) :
    moveKey g k k v = update g k (some v) :=
  update_idem ..

end MoveKey

section Rewrite

variable {env : TableEnv} {f : Key → Option Address} {c : Key → Option Data}
  {front back : List PageInfo} {info info' : PageInfo} {b : Address}
  {d' dm' : Data} {p' : Page} {m' : TableMeta}

/-- The records after the page of `info` was replaced by `d'`, and the record
of the index by `dm'`. -/
def rewritten (c : Key → Option Data) (info info' : PageInfo) (d' dm' : Data) : Key → Option Data :=
  update (moveKey c info.pageKey info'.pageKey d') tableMetaKey (some dm')

/-- What a rewrite of the page of `info` puts into the table. -/
structure Rewrite (env : TableEnv) (c : Key → Option Data)
    (front back : List PageInfo) (info info' : PageInfo) (b : Address)
    (d' : Data) (p' : Page) (dm' : Data) (m' : TableMeta) : Prop where
  index : indexOf env c = front ++ info :: back
  key : info'.pageKey ≠ []
  record : PageRecord info'.pageKey d' p'
  count : info'.count = p'.validCount.toUInt16
  pointer : ∀ x, info'.pageData = some x → x = b
  metaRecord : MetaRecord dm' m'
  pages : m'.pages = front ++ info' :: back
  fits : SegmentsOrdered.Fits (front.map (segmentOf env c))
    (back.map (segmentOf env c)) (info'.pageKey, p'.entries.toList)

namespace Rewrite

variable (hr : Rewrite env c front back info info' b d' p' dm' m')

include hr

theorem rewritten_new : rewritten c info info' d' dm' info'.pageKey = some d' := by
  rw [rewritten, update_of_ne hr.key, moveKey_new]

omit hr in
theorem rewritten_meta : rewritten c info info' d' dm' tableMetaKey = some dm' :=
  update_self ..

variable (h : Consistent env f c)

include h

theorem window : Window env f c (moveKey f info.pageKey info'.pageKey b)
    (rewritten c info info' d' dm') front [info] [info'] back := by
  have hrec : recordOf env (rewritten c info info' d' dm') info'.pageKey = some d' :=
    recordOf_cached hr.rewritten_new
  refine ⟨h, by simpa using hr.index, ⟨dm', m', rewritten_meta, hr.metaRecord,
    by simpa using hr.pages⟩, by simp, ?_, ?_, ?_, ?_, ?_⟩
  · intro x hx hmem
    simp only [cons_append, nil_append, map_cons, map_nil, mem_pair, not_or] at hmem
    rw [rewritten, update_of_ne hx, moveKey_other hmem.1 hmem.2]
  · intro i hi hmem
    simp only [cons_append, nil_append, map_cons, map_nil, mem_pair, not_or] at hmem
    exact moveKey_other hmem.1 hmem.2
  · intro i hi d hd
    cases mem_singleton.mp hi
    have hK : info.pageKey ≠ [] := (h.infos info (by simp [hr.index])).key
    rw [rewritten, update_of_ne hK] at hd
    rcases moveKey_eq_some hd with heq | ⟨hne, -⟩
    · exact .inl (by simp [heq])
    · exact absurd rfl hne
  · intro i hi
    cases mem_singleton.mp hi
    refine ⟨hr.key, ⟨d', p', hrec, hr.record, hr.count⟩, ?_⟩
    intro x hx
    rw [moveKey_new, hr.pointer x hx]
  · have hsegs := h.ordered
    rw [segmentsOf, hr.index, map_append, map_cons] at hsegs
    simpa [segmentOf_eq hrec hr.record.data] using hsegs.replace hr.fits

theorem consistent :
    Consistent env (moveKey f info.pageKey info'.pageKey b) (rewritten c info info' d' dm') ∧
      indexOf env (rewritten c info info' d' dm') = front ++ info' :: back ∧
      segmentsOf env (rewritten c info info' d' dm') = front.map (segmentOf env c) ++
          (info'.pageKey, p'.entries.toList) :: back.map (segmentOf env c) := by
  have hw := hr.window h
  refine ⟨hw.consistent, by simpa using hw.indexOf_eq, ?_⟩
  rw [hw.segments, map_singleton,
    segmentOf_eq (recordOf_cached hr.rewritten_new) hr.record.data]
  simp

/-- A rewrite that keeps the rows of a dirty page in a dirty page, retires or
keeps the page key, and keeps the retired keys. -/
theorem advances {d : Data} {p : Page}
    (hrec : recordOf env c info.pageKey = some d) (hd : d.data = .page p)
    (hdirty : d'.entry.dirty = true) (hmeta : dm'.entry.dirty = true)
    (hrows : ∀ x e, (x, e) ∈ p.entries.toList → ∃ e', (x, e') ∈ p'.entries.toList)
    (hkey : p'.Retired info.pageKey ∨ info.pageKey = info'.pageKey)
    (hretired : ∀ x, p.Retired x → p'.Retired x ∨ x = info'.pageKey) (hmarked : Marked d' p') :
    Advances env c (rewritten c info info' d' dm') := by
  obtain ⟨_, hindex, _⟩ := hr.consistent h
  have hnew : info' ∈ indexOf env (rewritten c info info' d' dm') := by
    simp [hindex]
  have hrec' : recordOf env (rewritten c info info' d' dm') info'.pageKey =
      some d' := recordOf_cached hr.rewritten_new
  have hretiredNew : ∀ x, p'.Retired x ∨ x = info'.pageKey →
      Accounted env (rewritten c info info' d' dm') x := by
    rintro x (hx | rfl)
    · exact .inr (.inl ⟨info', hnew, d', p', hrec', hr.record.data, hdirty, hx⟩)
    · exact .inl (mem_map_of_mem hnew)
  refine (hr.window h).advances ⟨dm', rewritten_meta, hmeta⟩ ?_ ?_
  · intro i hi
    cases mem_singleton.mp hi
    refine ⟨d, p, hrec, hd, fun row hrow => ?_, hretiredNew _ hkey, fun x hx =>
      hretiredNew x (hretired x hx)⟩
    exact ⟨info', hnew, d', p', hrec', hr.record.data, hdirty, hrows row.1 row.2 hrow⟩
  · intro _ i hi
    cases mem_singleton.mp hi
    exact ⟨d', p', hrec', hr.record.data, hmarked, hdirty⟩

end Rewrite

end Rewrite

end FiscoSmart.Storage
