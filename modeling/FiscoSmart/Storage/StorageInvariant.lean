import FiscoSmart.Storage.KeyPageStorage
import FiscoSmart.Storage.TableLayer

/-!
# The invariant of the storage

The invariant of the storage is the invariant of each of its paged tables,
together with what it needs to know of the previous storage.  The rows of a
table are those of its records; every call of the storage is described by what
it does to these rows.
-/

namespace FiscoSmart.Storage

open Support

/-- A previous storage shows clean records, and hands out copies that look the
same when they are imported. -/
structure Prev.Ok (prev : Prev) : Prop where
  clean : ∀ t k d, prev.getData t k = .ok (some d) → d.entry.dirty = false
  copyNone : ∀ t k, prev.getData t k = .ok none → prev.copyData t k = .ok none
  copySome : ∀ t k d, prev.getData t k = .ok (some d) →
    ∃ d', prev.copyData t k = .ok (some d') ∧ d'.imported = d.imported

namespace KeyPageStorage

def index (s : KeyPageStorage) (t : Table) : List PageInfo :=
  indexOf (s.env t) (s.table t).cached

def rows (s : KeyPageStorage) (t : Table) : List (Key × Entry) :=
  rowsOf (s.env t) (s.table t).cached

/-- The invariant of one paged table. -/
structure TableOk (s : KeyPageStorage) (t : Table) : Prop where
  heap : HeapOk (s.table t)
  consistent : Consistent (s.env t) (s.table t).find (s.table t).cached

/-- The invariant of the storage: every row is either in a paged table or in
the rows cached one by one, as `ignoreTables` says. -/
structure Ok (s : KeyPageStorage) : Prop where
  writable : s.readOnly = false
  prev : s.prev.Ok
  paged : ∀ t ∈ s.tables, t ∉ s.ignoreTables
  unpaged : ∀ t ∉ s.ignoreTables, ∀ key, s.entries.find t key = none
  table : ∀ t, t ∉ s.ignoreTables → s.TableOk t

/-- What no call changes. -/
structure SameConfig (s s' : KeyPageStorage) : Prop where
  prev : s'.prev = s.prev
  pageSize : s'.pageSize = s.pageSize
  ignoreTables : s'.ignoreTables = s.ignoreTables
  ignoreNotExist : s'.ignoreNotExist = s.ignoreNotExist
  readOnly : s'.readOnly = s.readOnly
  archive : s'.archive = s.archive

def logged (s : KeyPageStorage) (change : Change) : KeyPageStorage :=
  { s with recoder := s.recoder.map (change :: ·) }

section Frame

variable {s s' s₂ : KeyPageStorage} {t t' : Table} {state : TableState}

theorem SameConfig.refl (s : KeyPageStorage) : SameConfig s s :=
  ⟨rfl, rfl, rfl, rfl, rfl, rfl⟩

theorem SameConfig.trans (h : SameConfig s s') (h' : SameConfig s' s₂) : SameConfig s s₂ :=
  ⟨h'.prev.trans h.prev, h'.pageSize.trans h.pageSize, h'.ignoreTables.trans h.ignoreTables,
    h'.ignoreNotExist.trans h.ignoreNotExist, h'.readOnly.trans h.readOnly,
    h'.archive.trans h.archive⟩

theorem SameConfig.withEntries (h : SameConfig s s') (entries : RowCache) :
    SameConfig s { s' with entries } :=
  { h with }

theorem SameConfig.withRecoder (h : SameConfig s s') (recoder : Option Recoder) :
    SameConfig s { s' with recoder } :=
  { h with }

@[simp]
theorem setTable_table : (s.setTable t state).table t = state := by
  simp [setTable, table]

theorem setTable_other (h : t' ≠ t) : (s.setTable t state).table t' = s.table t' := by
  simp [setTable, table, AList.lookup_insert_ne h]

@[simp]
theorem setTable_env : (s.setTable t state).env t' = s.env t' := rfl

theorem setTable_config : SameConfig s (s.setTable t state) :=
  ⟨rfl, rfl, rfl, rfl, rfl, rfl⟩

theorem onTable_runs {α : Type} {x : TableEnv → TableM α} {a : α}
    (h : Runs (x (s.env t)) (s.table t) a state) : Runs (onTable t x) s a (s.setTable t state) := by
  rw [Runs, onTable, h]

theorem Ok.setTable (h : s.Ok) (ht : t ∉ s.ignoreTables) (hheap : HeapOk state)
    (hcons : Consistent (s.env t) state.find state.cached) : (s.setTable t state).Ok := by
  refine ⟨h.writable, h.prev, ?_, h.unpaged, ?_⟩
  · intro t' ht'
    rcases (AList.mem_insert s.tables).mp ht' with rfl | hmem
    · exact ht
    · exact h.paged t' hmem
  intro t' ht'
  by_cases hEq : t' = t
  · subst hEq
    exact ⟨by rwa [setTable_table], by rwa [setTable_table]⟩
  · obtain ⟨hheap, hcons⟩ := h.table t' ht'
    exact ⟨by rwa [setTable_other hEq], by rwa [setTable_other hEq]⟩

theorem setTable_rows_other (h : t' ≠ t) : (s.setTable t state).rows t' = s.rows t' := by
  rw [rows, rows, setTable_env, setTable_other h]

/-- The counts of the page index of the table are exact, and no fatal error is logged. -/
def Sound (s : KeyPageStorage) (t : Table) : Prop :=
  CountsFit (s.env t) (s.table t).cached ∧ (s.table t).fatals = []

theorem Ok.sees (h : s.Ok) (ht : t ∉ s.ignoreTables) :
    Sees (s.Sound t) (s.table t) (s.table t).find (s.table t).cached :=
  Sees.self (h.table t ht).heap And.right

end Frame

/-! ## Calls on paged tables -/

section Calls

variable {s : KeyPageStorage} {t : Table} {key : Key}

/-- The page in which a row of the table is sought has the key of the row. -/
def ReachesPage (s : KeyPageStorage) (t : Table) (key : Key) : Prop :=
  ∀ k ∈ TableM.reachedKey ((s.index t).map PageInfo.pageKey) key, k = key

instance : Decidable (s.ReachesPage t key) :=
  inferInstanceAs (Decidable (∀ k ∈ TableM.reachedKey _ key, k = key))

/-- A read of a paged table loads records; a read-only storage answers with whole pages, and is
only asked for these. -/
theorem asyncGetRow_answers (h : s.TableOk t) (ht : t ∉ s.ignoreTables) (hkey : key ≠ []) :
    ∃ state, Runs (asyncGetRow t key) s (TableM.rowAnswer (s.env t) (s.table t).cached key)
        (s.setTable t state) ∧ HeapOk state ∧
      (s.Sound t → (s.readOnly = true → s.ReachesPage t key) → state.fatals = []) ∧
      Loads (s.env t) (s.table t).cached state.find state.cached := by
  have hsees : Sees (s.Sound t ∧ (s.readOnly = true → s.ReachesPage t key)) (s.table t)
      (s.table t).find (s.table t).cached := Sees.self h.heap fun hok => hok.1.2
  obtain ⟨state, f', c', hrun, hsees, hloads⟩ := TableM.getEntryFromPage_runs hsees h.consistent
    (fun hok => hok.1.1) (fun hok => hok.2) hkey
  obtain ⟨rfl, rfl⟩ := hsees.functions
  refine ⟨state, ?_, hsees.heapOk, fun hsound hpage => hsees.quiet ⟨hsound, hpage⟩, hloads⟩
  refine Runs.get_bind ?_
  rw [if_neg ht]
  exact onTable_runs hrun

theorem asyncGetRow_runs (h : s.Ok) (ht : t ∉ s.ignoreTables) (hkey : key ≠ []) :
    ∃ r state, Runs (asyncGetRow t key) s r (s.setTable t state) ∧ HeapOk state ∧
      (s.Sound t → state.fatals = []) ∧
      Loads (s.env t) (s.table t).cached state.find state.cached ∧
      ∀ e, r = some e ↔ (key, e) ∈ s.rows t ∧ e.visible = true := by
  obtain ⟨state, hrun, hheap, hquiet, hloads⟩ := asyncGetRow_answers (h.table t ht) ht hkey
  refine ⟨_, state, hrun, hheap, fun hsound => hquiet hsound ?_, hloads, fun e => ?_⟩
  · intro hro
    rw [h.writable] at hro
    cases hro
  · exact TableM.rowAnswer_eq_some (h.table t ht).consistent h.writable

theorem asyncSetRow_runs (h : s.Ok) (ht : t ∉ s.ignoreTables) (hkey : key ≠ [])
    (hfirst : s.index t = [] → s.prev.getData t key = .ok none) (entry : Entry) :
    ∃ r state, Runs (asyncSetRow t key entry) s () ((s.setTable t state).logged ⟨t, key, r⟩) ∧
      HeapOk state ∧ (s.Sound t → state.fatals = []) ∧
      Writes (s.env t) (s.table t).cached key entry state.find state.cached ∧
      ∀ e, r = some e ↔ (key, e) ∈ s.rows t := by
  obtain ⟨r, state, f', c', hrun, hsees, hwrites, hr⟩ :=
    TableM.setEntryToPage_runs (h.sees ht) (h.table t ht).consistent And.left hkey hfirst
  obtain ⟨rfl, rfl⟩ := hsees.functions
  refine ⟨r, state, ?_, hsees.heapOk, hsees.quiet, hwrites, hr⟩
  refine Runs.get_bind ?_
  rw [if_neg (by simp [h.writable]), if_neg ht]
  exact (onTable_runs hrun).bind .of_modify

/-- A scan of a paged table loads records and returns the window of its keys. -/
theorem asyncGetPrimaryKeys_runs (h : s.Ok) (ht : t ∉ s.ignoreTables)
    (hlen : (s.rows t).length < 2 ^ 64) {condition : Condition}
    (htotal : condition.limit.2.toNat ≤ TableM.maxKeys) :
    ∃ state, Runs (asyncGetPrimaryKeys t (some condition)) s
        (limitWindow condition.limit (matchingKeys condition (s.rows t))) (s.setTable t state) ∧
      HeapOk state ∧ (s.Sound t → state.fatals = []) ∧
      Loads (s.env t) (s.table t).cached state.find state.cached := by
  obtain ⟨state, f', c', hrun, hsees, hloads⟩ :=
    TableM.getPrimaryKeys_runs (h.sees ht) (h.table t ht).consistent hlen htotal
  obtain ⟨rfl, rfl⟩ := hsees.functions
  refine ⟨state, ?_, hsees.heapOk, hsees.quiet, hloads⟩
  refine Runs.get_bind ?_
  rw [if_neg ht]
  exact onTable_runs hrun

theorem undo_runs (h : s.Ok) {change : Change} (ht : change.table ∉ s.ignoreTables)
    (hdirty : DirtyRow (s.env change.table) (s.table change.table).cached
      change.key) (hkeeps : KeepsRow (s.env change.table) (s.table change.table).cached
      change) : ∃ state, Runs (undo change) s () (s.setTable change.table state) ∧
      HeapOk state ∧ (s.Sound change.table → state.fatals = []) ∧
      Undoes (s.env change.table) (s.table change.table).cached change state.find
        state.cached := by
  obtain ⟨state, f', c', hrun, hsees, hundoes⟩ :=
    TableM.rollbackChange_runs (h.sees ht) (h.table _ ht).consistent And.left hdirty hkeeps
  obtain ⟨rfl, rfl⟩ := hsees.functions
  refine ⟨state, ?_, hsees.heapOk, hsees.quiet, hundoes⟩
  refine Runs.get_bind ?_
  rw [if_neg ht]
  exact onTable_runs hrun

end Calls

end KeyPageStorage

end FiscoSmart.Storage
