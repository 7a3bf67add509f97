import FiscoSmart.Storage.StorageRun

/-!
# The storage as a plain map

What a paged table is for: a map from keys to entries in which a write replaces
one entry, and of which a storage on top sees the entries that are not deleted.
The main theorem says that every run of admitted steps behaves as this map
does, whatever the page size and whatever pages were split, merged or renamed.
-/

namespace FiscoSmart.Storage

open Support Function

variable {s : KeyPageStorage} {t : Table} {key : Key} {entry : Entry} {ignored : List Table}

/-- The rows of all tables as a map. -/
abbrev PlainStore := Table → Key → Option Entry

namespace PlainStore

def write (m : PlainStore) (t : Table) (key : Key) (entry : Entry) :
    PlainStore :=
  update m t (update (m t) key (some entry))

def read (m : PlainStore) (t : Table) (key : Key) : Option Entry :=
  (m t key).filter Entry.visible

/-- What a storage on top starts from. -/
def layer (m : PlainStore) : PlainStore :=
  fun t key => (m t key).bind Page.cleanEntry

end PlainStore

namespace KeyPageStorage

/-- The effect of a step on the map. -/
def Step.plain : Step → PlainStore → PlainStore
  | write t key entry, m => m.write t key entry
  | read _ _, m => m
  | layer _ _, m => m.layer

/-- The rows of the storage as a map. -/
def contents (s : KeyPageStorage) : PlainStore :=
  fun t key =>
    if t ∈ s.ignoreTables then s.entries.find t key
    else valueOf (s.rows t) key

/-- The rows of the storage by table and key. -/
def cells (s : KeyPageStorage) : Table × Key → Option Entry :=
  fun x => s.contents x.1 x.2

theorem Ok.rows_increasing (h : s.Ok) (ht : t ∉ s.ignoreTables) : KeysIncreasing (s.rows t) :=
  (h.table t ht).consistent.rows_increasing

theorem Ok.contents_eq_some (h : s.Ok) (ht : t ∉ s.ignoreTables) {e : Entry} :
    s.contents t key = some e ↔ (key, e) ∈ s.rows t := by
  rw [contents, if_neg ht]
  exact valueOf_eq_some (h.rows_increasing ht)

section Cells

variable {state : TableState} {v : Option Entry}

theorem Ok.cells_setTable (h : s.Ok) (ht : t ∉ s.ignoreTables) (hheap : HeapOk state)
    (hcons : Consistent (s.env t) state.find state.cached)
    (hrows : ∀ x e, (x, e) ∈ rowsOf (s.env t) state.cached ↔
      (x = key ∧ v = some e) ∨ (x ≠ key ∧ (x, e) ∈ s.rows t)) :
    (s.setTable t state).cells = update s.cells (t, key) v := by
  have h' := h.setTable ht hheap hcons
  have hnew : ∀ x e, (s.setTable t state).contents t x = some e ↔
      (x = key ∧ v = some e) ∨ (x ≠ key ∧ s.contents t x = some e) := by
    intro x e
    rw [h'.contents_eq_some ht, h.contents_eq_some ht, ← hrows, rows, setTable_env, setTable_table]
  funext x
  obtain ⟨t', x⟩ := x
  by_cases hEq : (t', x) = (t, key)
  · cases hEq
    apply Option.ext
    intro e
    simpa [cells] using hnew key e
  · rw [update_of_ne hEq]
    by_cases htable : t' = t
    · subst htable
      have hx : x ≠ key := by
        rintro rfl
        exact hEq rfl
      apply Option.ext
      intro e
      simpa [cells, hx] using hnew x e
    · simp only [cells, contents, setTable_rows_other htable]
      rfl

theorem cells_withEntries (ht : t ∈ s.ignoreTables) {entries : RowCache}
    (h : (fun x => entries.lookup x) = update (fun x => s.entries.lookup x) (t, key) v) :
    ({ s with entries } : KeyPageStorage).cells = update s.cells (t, key) v := by
  funext x
  have hcell : entries.find x.1 x.2 = _ := congrFun h x
  by_cases hEq : x = (t, key)
  · rw [hEq, update_self] at hcell ⊢
    rw [cells, contents, if_pos ht, hcell]
  · rw [update_of_ne hEq] at hcell ⊢
    simp only [cells, contents, hcell]
    rfl

theorem cells_setEntry (ht : t ∈ s.ignoreTables) (entry : Entry) :
    ({ s with entries := s.entries.set t key entry } : KeyPageStorage).cells =
      update s.cells (t, key) (some entry) :=
  cells_withEntries ht (s.entries.lookup_insert ..)

theorem Ok.cells_writes (h : s.Ok) (ht : t ∉ s.ignoreTables) (hheap : HeapOk state)
    (hwrites : Writes (s.env t) (s.table t).cached key entry state.find state.cached) :
    (s.setTable t state).cells = update s.cells (t, key) (some entry) := by
  apply h.cells_setTable ht hheap hwrites.consistent
  intro x e
  rw [hwrites.rows, Option.some.injEq, eq_comm (a := e)]
  rfl

end Cells

/-! ## The calls as changes of the map -/

theorem contents_loads {state : TableState}
    (hloads : Loads (s.env t) (s.table t).cached state.find state.cached) :
    (s.setTable t state).contents = s.contents := by
  funext t' key'
  have hrows : (s.setTable t state).rows t' = s.rows t' := by
    by_cases hEq : t' = t
    · rw [hEq, rows, rows, setTable_env, setTable_table, hloads.rows]
    · exact setTable_rows_other hEq
  simp only [contents, hrows]
  rfl

theorem Ok.read_runs (h : s.Ok) (ht : t ∉ s.ignoreTables) (hkey : key ≠ []) :
    ∃ s', Runs (asyncGetRow t key) s (s.contents.read t key) s' ∧ s'.Ok ∧
      SameConfig s s' ∧ s'.contents = s.contents := by
  obtain ⟨r, state, hrun, hheap, -, hloads, hr⟩ := asyncGetRow_runs h ht hkey
  have hread : r = s.contents.read t key := by
    apply Option.ext
    intro e
    rw [hr, PlainStore.read, Option.filter_eq_some_iff, h.contents_eq_some ht]
  exact ⟨s.setTable t state, hread ▸ hrun, h.setTable ht hheap hloads.consistent,
    setTable_config, contents_loads hloads⟩

theorem Ok.read_ignored_runs (h : s.Ok) (ht : t ∈ s.ignoreTables)
    (hprev : ∃ r, s.prev.asyncGetRow t key = .ok r) :
    ∃ r s', Runs (asyncGetRow t key) s r s' ∧ s'.Ok ∧ SameConfig s s' ∧
      (s'.cells = s.cells ∨ ∃ e : Entry, s.cells (t, key) = none ∧ s'.cells =
        update s.cells (t, key) (some (e.setStatus .normal))) := by
  obtain ⟨found, hfound⟩ := hprev
  refine ⟨_, _, asyncGetRow_ignored h ht hfound, h.lookThrough ht found,
    (SameConfig.refl s).withEntries _, ?_⟩
  rcases lookThrough_cases with hEq | ⟨e, hnone, hEq⟩
  · left
    rw [hEq]
  · right
    refine ⟨e, ?_, ?_⟩
    · rw [cells, contents, if_pos ht, hnone]
    · rw [hEq, cells_setEntry ht]

theorem Ok.write_runs (h : s.Ok) (ht : t ∉ s.ignoreTables) (hkey : key ≠ [])
    (hfirst : s.index t = [] → s.prev.getData t key = .ok none) :
    ∃ s', Runs (asyncSetRow t key entry) s () s' ∧ s'.Ok ∧ SameConfig s s' ∧
      s'.cells = update s.cells (t, key) (some entry) := by
  obtain ⟨r, state, hrun, hheap, -, hwrites, -⟩ :=
    asyncSetRow_runs h ht hkey hfirst entry
  exact ⟨_, hrun, (h.setTable ht hheap hwrites.consistent).logged _,
    setTable_config.withRecoder _, h.cells_writes ht hheap hwrites⟩

theorem Ok.write_ignored_runs (h : s.Ok) (ht : t ∈ s.ignoreTables) :
    ∃ s', Runs (asyncSetRow t key entry) s () s' ∧ s'.Ok ∧ SameConfig s s' ∧
      s'.cells = update s.cells (t, key) (some (entry.setStatus .modified)) :=
  ⟨_, asyncSetRow_ignored h ht, (h.setEntry ht _).logged _,
    ((SameConfig.refl s).withEntries _).withRecoder _, cells_setEntry ht _⟩

/-! ## Refinement -/

/-- The tables outside `ignored` are paged and hold the rows of the map. -/
structure Holds (ignored : List Table) (s : KeyPageStorage) (m : PlainStore) :
    Prop where
  ok : s.Ok
  ignoreTables : s.ignoreTables = ignored
  contents : ∀ t ∉ ignored, ∀ key, s.contents t key = m t key

theorem Ok.holds_contents (h : s.Ok) : Holds s.ignoreTables s s.contents :=
  ⟨h, rfl, fun _ _ _ => rfl⟩

namespace Holds

variable {s' : KeyPageStorage} {m : PlainStore} (h : Holds ignored s m)

include h

theorem paged (ht : t ∉ ignored) : t ∉ s.ignoreTables :=
  h.ignoreTables ▸ ht

theorem read_eq (ht : t ∉ ignored) : s.contents.read t key = m.read t key := by
  rw [PlainStore.read, PlainStore.read, h.contents t ht]

theorem put (hok : s'.Ok) (hconfig : SameConfig s s') {v v' : Option Entry}
    (hcells : s'.cells = update s.cells (t, key) v') (hv : t ∉ ignored → v' = v) :
    Holds ignored s' (update m t (update (m t) key v)) := by
  refine ⟨hok, hconfig.ignoreTables.trans h.ignoreTables, ?_⟩
  intro t' ht' key'
  have hcell : s'.contents t' key' = update s.cells (t, key) v' (t', key') :=
    congrFun hcells (t', key')
  rw [hcell]
  by_cases htable : t' = t
  · subst htable
    rw [update_self]
    by_cases hkey : key' = key
    · rw [hkey, update_self, update_self, hv ht']
    · have hne : (t', key') ≠ (t', key) := fun hEq => hkey (Prod.mk.inj hEq).2
      rw [update_of_ne hkey, update_of_ne hne]
      exact h.contents t' ht' key'
  · have hne : (t', key') ≠ (t, key) := fun hEq => htable (Prod.mk.inj hEq).1
    rw [update_of_ne htable, update_of_ne hne]
    exact h.contents t' ht' key'

theorem layer (hfit : ∀ t ∉ s.ignoreTables, CountsFit (s.env t) (s.table t).cached)
    (pageSize : ℕ) (ignoreNotExist : Bool) :
    Holds ignored (s.layer pageSize ignoreNotExist) m.layer := by
  have hok := layer_ok h.ok pageSize ignoreNotExist
  refine ⟨hok, h.ignoreTables, ?_⟩
  intro t ht key
  apply Option.ext
  intro e
  rw [hok.contents_eq_some (h.paged ht), layer_rows h.ok (h.paged ht)
    (hfit t (h.paged ht)), mem_filterValues, PlainStore.layer, Option.bind_eq_some_iff]
  simp [← h.contents t ht, h.ok.contents_eq_some (h.paged ht)]

end Holds

/-- Every admitted step does to the storage what it does to the map. -/
theorem step_simulates : Simulates Step.run Step.Admits (Holds ignored) Step.plain := by
  rintro s m (⟨t, key, entry⟩ | ⟨t, key⟩ | ⟨pageSize, ignoreNotExist⟩) h hadmits
  · by_cases ht : t ∈ s.ignoreTables
    · obtain ⟨s', hrun, hok, hconfig, hcells⟩ :=
        h.ok.write_ignored_runs ht
      refine ⟨s', hrun, h.put hok hconfig hcells ?_⟩
      intro hpaged
      exact absurd ht (h.paged hpaged)
    · obtain ⟨hkey, hfirst⟩ := hadmits ht
      obtain ⟨s', hrun, hok, hconfig, hcells⟩ :=
        h.ok.write_runs ht hkey hfirst
      exact ⟨s', hrun, h.put hok hconfig hcells (fun _ => rfl)⟩
  · by_cases ht : t ∈ s.ignoreTables
    · obtain ⟨r, s', hrun, hok, hconfig, hcells⟩ :=
        h.ok.read_ignored_runs ht (hadmits.2 ht)
      refine ⟨s', hrun.bind .of_pure, hok, hconfig.ignoreTables.trans h.ignoreTables, ?_⟩
      intro t' ht' key'
      rw [Step.plain, ← h.contents t' ht']
      rcases hcells with hcells | ⟨e, _, hcells⟩
      · exact congrFun hcells (t', key')
      · have hne : (t', key') ≠ (t, key) := by
          intro hEq
          exact h.paged ht' ((Prod.mk.inj hEq).1 ▸ ht)
        have hcell := congrFun hcells (t', key')
        rw [update_of_ne hne] at hcell
        exact hcell
    · obtain ⟨s', hrun, hok, hconfig, hcont⟩ :=
        h.ok.read_runs ht (hadmits.1 ht)
      refine ⟨s', hrun.bind .of_pure, hok, hconfig.ignoreTables.trans h.ignoreTables, ?_⟩
      rw [hcont]
      exact h.contents
  · exact ⟨_, .of_modify, h.layer hadmits pageSize ignoreNotExist⟩

theorem safe_simulates : Simulates Step.run Step.Safe
    (fun s m => Holds ignored s m ∧ s.Quiet) Step.plain := by
  intro s m i h hsafe
  obtain ⟨s', hrun, hholds⟩ := step_simulates s m i h.1 hsafe.1
  exact ⟨s', hrun, hholds, hsafe.quiet h.1.ok h.2 hrun⟩

/-- A read after any run of safe steps returns what the map holds: the last
entry written, nothing if that was a deletion, and otherwise what the previous
storage shows.  No fatal error is logged in the run, nor by the read. -/
theorem asyncGetRow_eq_plain {archive : Archive} {prev : Prev} {pageSize : ℕ}
    {ignoreTables : Option (List Table)} {ignoreNotExist : Bool}
    (hok : (create archive prev pageSize ignoreTables ignoreNotExist).Ok) {steps : List Step}
    (hsteps : Admitted Step.run Step.Safe
      (create archive prev pageSize ignoreTables ignoreNotExist) steps)
    {t : Table} (ht : t ∉ ignoreTables.getD [sysTables]) {key : Key} (hkey : key ≠ []) :
    ∃ s, Runs (steps.forM Step.run)
        (create archive prev pageSize ignoreTables ignoreNotExist) () s ∧ s.Quiet ∧
      (s.Fits t → ∃ s', Runs (asyncGetRow t key) s ((specRun Step.plain (create archive prev
          pageSize ignoreTables ignoreNotExist).contents steps).read t key) s' ∧ s'.Quiet) := by
  obtain ⟨s, hrun, hholds, hquiet⟩ :=
    safe_simulates.runs ⟨hok.holds_contents, create_quiet⟩ hsteps
  refine ⟨s, hrun, hquiet, fun hfits => ?_⟩
  obtain ⟨s', hread, -⟩ := hholds.ok.read_runs (hholds.paged ht) hkey
  rw [hholds.read_eq ht] at hread
  exact ⟨s', hread, hholds.ok.read_quiet hquiet (hholds.paged ht) hkey hfits hread⟩

/-- Two keys written on an empty backend. -/
theorem asyncGetRow_eq_plain_two_writes : ∃ s s', Runs ([Step.write [116] [97] ⟨[1], 1, .modified⟩,
        Step.write [116] [98] ⟨[2], 1, .modified⟩].forM Step.run) (onEmpty 2048) () s ∧
      Runs (asyncGetRow [116] [97]) s (some ⟨[1], 1, .modified⟩) s' ∧ s'.Quiet := by
  have hsteps : Admitted Step.run Step.Safe (onEmpty 2048)
      [Step.write [116] [97] ⟨[1], 1, .modified⟩, Step.write [116] [98] ⟨[2], 1, .modified⟩] := by
    refine .cons_final ⟨?_, by decide⟩ (.cons_final ⟨?_, by decide +kernel⟩ trivial)
    · exact fun _ => ⟨by decide, fun _ => rfl⟩
    · exact fun _ => ⟨by decide, fun _ => rfl⟩
  have hkey : ([97] : Key) ≠ [] := by decide
  obtain ⟨s, hrun, -, hread⟩ :=
    asyncGetRow_eq_plain onEmpty_ok hsteps (t := [116]) (by decide) hkey
  obtain ⟨s', hread, hquiet⟩ := hread (by rw [hrun.eq_final]; decide +kernel)
  exact ⟨s, s', hrun, hread, hquiet⟩

/-- A storage on top of one in which the only row of a table was deleted: the
page record below is found under the written key, is not new, and never enters
the index, so the written row is not found. -/
theorem first_write_on_emptied_table_lost : EStateM.run' (do
        [Step.write [116] [97] ⟨[1], 1, .modified⟩, Step.write [116] [97] ⟨[], 0, .deleted⟩,
          Step.layer 2048 false, Step.write [116] [97] ⟨[2], 1, .modified⟩].forM Step.run
        asyncGetRow [116] [97]) (onEmpty 2048) = some none ∧
      (specRun Step.plain (onEmpty 2048).contents [Step.write [116] [97] ⟨[1], 1, .modified⟩,
          Step.write [116] [97] ⟨[], 0, .deleted⟩, Step.layer 2048 false,
          Step.write [116] [97] ⟨[2], 1, .modified⟩]).read [116] [97] =
        some ⟨[2], 1, .modified⟩ := by
  decide +kernel

end KeyPageStorage

end FiscoSmart.Storage
