import FiscoSmart.Storage.StateRollback
import FiscoSmart.Support.Footprint

/-!
# Reading several rows at once

`asyncGetRows` of a `KeyPageStorage` reads one row after the other.  For a table in
`m_ignoreTables` it takes the value out of the optional that it gets without looking
whether there is one.  `asyncGetRows` of a `StateStorage` takes the cached rows first
and asks the previous storage for the others; it leaves out the cached rows of every
status other than `NORMAL` and `MODIFIED`, while `asyncGetRow` leaves out those that
are `DELETED`.
-/

namespace FiscoSmart.Storage

open Support List

variable {keys : List Key} {found : Key → Option Entry} {key : Key}

/-- The batch read returns, and key by key what the single reads return; the states after
them are fine. -/
def ReadsAlike {σ : Type} (fine : σ → Prop)
    (rows : List Key → EStateM Fault σ (List (Option Entry)))
    (row : Key → EStateM Fault σ (Option Entry)) (s : σ) (keys : List Key) : Prop :=
  ∃ results s', Runs (rows keys) s results s' ∧ fine s' ∧
    List.Forall₂ (fun key result => ∃ s', Runs (row key) s result s' ∧ fine s') keys results

theorem ReadsAlike.of_value {σ : Type} {fine : σ → Prop}
    {rows : List Key → EStateM Fault σ (List (Option Entry))}
    {row : Key → EStateM Fault σ (Option Entry)} {s s' : σ} (value : Key → Option Entry)
    (hrun : Runs (rows keys) s (keys.map value) s') (hfine : fine s')
    (hrow : ∀ key ∈ keys, ∃ s', Runs (row key) s (value key) s' ∧ fine s') :
    ReadsAlike fine rows row s keys := by
  refine ⟨keys.map value, s', hrun, hfine, ?_⟩
  rw [forall₂_map_right_iff, forall₂_same]
  exact hrow

/-! ## `KeyPageStorage` -/

namespace KeyPageStorage

/-- The error that `asyncGetRows` makes of the error of a row. -/
def rowFailed (message : String) : Fault → Fault
  | .returned _ => .returned ⟨.readError, message, []⟩
  | e => e

/-- A row of a table in `m_ignoreTables`; the optional that is not looked at may be empty. -/
def getSysTableRow (t : Table) (key : Key) : M (Option Entry) := do
  match ← tryCatch (getSysTableRawEntry t key)
    (fun e => throw (rowFailed "get s_tables rows failed!" e)) with
  | some entry => return some entry
  | none => throw .undefinedBehaviour

def asyncGetRows (t : Table) (keys : List Key) : M (List (Option Entry)) := do
  if t ∈ (← get).ignoreTables then keys.mapM (getSysTableRow t)
  else
    keys.mapM fun key =>
      tryCatch (asyncGetRow t key) (fun e => throw (rowFailed "get rows failed!" e))

section Rows

variable {s u : KeyPageStorage} {t : Table}

/-- What a read of a paged table leaves for the next one. -/
structure Loaded (s : KeyPageStorage) (t : Table) (u : KeyPageStorage) : Prop where
  env : u.env t = s.env t
  ignoreTables : u.ignoreTables = s.ignoreTables
  heap : HeapOk (u.table t)
  loads : Loads (s.env t) (s.table t).cached (u.table t).find (u.table t).cached
  quiet : u.Quiet

theorem Loaded.reachedKey (hu : Loaded s t u) (h : s.ReachesPage t key) : u.ReachesPage t key := by
  intro k hk
  rw [index, hu.env, hu.loads.keys] at hk
  exact h k hk

theorem Loaded.read (hu : Loaded s t u) (ht : t ∉ s.ignoreTables) (hfits : s.Fits t)
    (hkey : key ≠ []) (hpage : s.readOnly = true → s.ReachesPage t key) :
    ∃ u', Runs (asyncGetRow t key) u (TableM.rowAnswer (s.env t) (s.table t).cached key) u' ∧
      Loaded s t u' := by
  have hok : u.TableOk t := ⟨hu.heap, hu.env.symm ▸ hu.loads.consistent⟩
  obtain ⟨state, hrun, hheap, hquiet, hloads⟩ :=
    asyncGetRow_answers hok (hu.ignoreTables.symm ▸ ht) hkey
  rw [hu.env] at hrun hloads
  rw [TableM.rowAnswer_loads hu.loads] at hrun
  have hsound : u.Sound t := ⟨hu.env.symm ▸ (hfits ht).loads hu.loads, hu.quiet t⟩
  have hreadOnly : u.readOnly = s.readOnly := congrArg TableEnv.readOnly hu.env
  have hfatals : state.fatals = [] :=
    hquiet hsound fun hro => hu.reachedKey (hpage (hreadOnly.symm.trans hro))
  refine ⟨u.setTable t state, hrun, hu.env, hu.ignoreTables, ?_, ?_, hu.quiet.setTable hfatals⟩
  · rwa [setTable_table]
  · rw [setTable_table]
    exact hu.loads.trans hloads

/-- The reads of a paged table do not disturb each other. -/
theorem readsAlike_paged (h : s.TableOk t) (hquiet : s.Quiet) (ht : t ∉ s.ignoreTables)
    (hfits : s.Fits t) (hkeys : [] ∉ keys)
    (hpages : s.readOnly = true → ∀ key ∈ keys, s.ReachesPage t key) :
    ReadsAlike Quiet (asyncGetRows t) (asyncGetRow t) s keys := by
  have hs : Loaded s t s := ⟨rfl, rfl, h.heap, Loads.refl h.consistent, hquiet⟩
  have hread (key : Key) (hmem : key ∈ keys) (u : KeyPageStorage) (hu : Loaded s t u) :
      ∃ u', Runs (asyncGetRow t key) u (TableM.rowAnswer (s.env t) (s.table t).cached key) u' ∧
        Loaded s t u' := by
    have hkey : key ≠ [] := by
      rintro rfl
      exact hkeys hmem
    exact hu.read ht hfits hkey fun hro => hpages hro key hmem
  have hcaught (key : Key) (hmem : key ∈ keys) (u : KeyPageStorage) (hu : Loaded s t u) :
      ∃ u', Runs (tryCatch (asyncGetRow t key) fun e => throw (rowFailed "get rows failed!" e)) u
        (TableM.rowAnswer (s.env t) (s.table t).cached key) u' ∧ Loaded s t u' := by
    obtain ⟨u', hrun, hu'⟩ := hread key hmem u hu
    exact ⟨u', Runs.tryCatch_of_ok hrun, hu'⟩
  obtain ⟨s', hrun, hs'⟩ := Runs.mapM _ hs hcaught
  refine .of_value (TableM.rowAnswer (s.env t) (s.table t).cached) ?_ hs'.quiet
    fun key hmem => ?_
  · refine Runs.get_bind ?_
    rw [if_neg ht]
    exact hrun
  · obtain ⟨u', hrun, hu'⟩ := hread key hmem s hs
    exact ⟨u', hrun, hu'.quiet⟩

/-- A row that is not paged, if `found` is what the previous storage answers. -/
def sysRow (s : KeyPageStorage) (t : Table) (found : Key → Option Entry) (key : Key) :
    Option Entry :=
  (s.entries.find t key).or
    ((found key).map fun e => if s.readOnly then e else e.setStatus .normal)

/-- What a read of a row that is not paged leaves for the next one. -/
structure SysRows (s : KeyPageStorage) (t : Table) (found : Key → Option Entry)
    (u : KeyPageStorage) : Prop where
  prev : u.prev = s.prev
  quiet : u.Quiet
  rows : ∀ key, sysRow u t found key = sysRow s t found key

theorem SysRows.read (hu : SysRows s t found u)
    (hfound : s.prev.asyncGetRow t key = .ok (found key)) :
    ∃ u', Runs (getSysTableRawEntry t key) u (sysRow s t found key) u' ∧
      SysRows s t found u' := by
  rw [← hu.prev] at hfound
  rw [← hu.rows key]
  rcases hcache : u.entries.find t key with - | e
  · rcases hrow : found key with - | e
    · refine ⟨u, Runs.get_bind ?_, hu⟩
      rw [hcache, hfound, hrow, sysRow, hcache, hrow]
      exact .of_pure
    · by_cases hro : u.readOnly = true
      · refine ⟨u, Runs.get_bind ?_, hu⟩
        rw [hcache, hfound, hrow, sysRow, hcache, hrow]
        simp only [hro]
        exact .of_pure
      · refine ⟨{ u with entries := u.entries.set t key (e.setStatus .normal) },
          Runs.get_bind ?_, hu.prev, hu.quiet, fun k => ?_⟩
        · rw [hcache, hfound, hrow, sysRow, hcache, hrow]
          simp only [hro]
          exact Runs.of_set.bind .of_pure
        · rw [← hu.rows k, sysRow, sysRow]
          by_cases hk : k = key
          · rw [hk, RowCache.find_set_self, hcache, hrow]
            simp [hro]
          · rw [RowCache.find_set_ne fun heq => hk (Prod.mk.inj heq).2]
  · refine ⟨u, Runs.get_bind ?_, hu⟩
    rw [hcache, sysRow, hcache]
    exact .of_pure

/-- In a table of `m_ignoreTables` the loop gets over a row exactly if there is one. -/
theorem readsAlike_ignored_iff (hquiet : s.Quiet) (ht : t ∈ s.ignoreTables)
    (hprev : ∀ key ∈ keys, ∃ row, s.prev.asyncGetRow t key = .ok row) :
    ReadsAlike Quiet (asyncGetRows t) (asyncGetRow t) s keys ↔
      ∀ key ∈ keys, s.entries.find t key = none → s.prev.asyncGetRow t key ≠ .ok none := by
  choose! found hfound using hprev
  have hs : SysRows s t found s := ⟨rfl, hquiet, fun _ => rfl⟩
  have habsent (key : Key) (hkey : key ∈ keys) : sysRow s t found key = none ↔
      s.entries.find t key = none ∧ s.prev.asyncGetRow t key = .ok none := by
    rw [hfound key hkey]
    simp [sysRow]
  have hraw (key : Key) (hkey : key ∈ keys) (u : KeyPageStorage) (hu : SysRows s t found u) :
      ∃ u', Runs (tryCatch (getSysTableRawEntry t key)
        fun e => throw (rowFailed "get s_tables rows failed!" e)) u (sysRow s t found key) u' ∧
        SysRows s t found u' := by
    obtain ⟨u', hrun, hu'⟩ := hu.read (hfound key hkey)
    exact ⟨u', Runs.tryCatch_of_ok hrun, hu'⟩
  have hpresent (key : Key) (hkey : key ∈ keys) (u : KeyPageStorage) (hu : SysRows s t found u)
      (hsome : sysRow s t found key ≠ none) :
      ∃ u', Runs (getSysTableRow t key) u (sysRow s t found key) u' ∧ SysRows s t found u' := by
    obtain ⟨entry, hentry⟩ := Option.ne_none_iff_exists'.mp hsome
    obtain ⟨u', hrun, hu'⟩ := hraw key hkey u hu
    refine ⟨u', hrun.bind ?_, hu'⟩
    rw [hentry]
    exact .of_pure
  have hrows : Runs (asyncGetRows t keys) s = Runs (keys.mapM (getSysTableRow t)) s := by
    funext results s'
    change ((if t ∈ s.ignoreTables then _ else _ : M (List (Option Entry))) s = _) = _
    rw [if_pos ht]
    rfl
  constructor
  · rintro ⟨results, s', hrun, -⟩ key hkey hnone hmissing
    rw [hrows] at hrun
    refine hrun.of_mapM (P := fun key => sysRow s t found key ≠ none) hs
      (fun key hkey u row u' hu hrow => ?_) key hkey ((habsent key hkey).mpr ⟨hnone, hmissing⟩)
    by_cases hempty : sysRow s t found key = none
    · obtain ⟨_, hlooked, -⟩ := hraw key hkey u hu
      rw [hempty] at hlooked
      exact absurd hrow (Fails.after hlooked .of_throw).not_runs
    · obtain ⟨_, hrun', hu'⟩ := hpresent key hkey u hu hempty
      exact ⟨hempty, (hrow.unique hrun').2 ▸ hu'⟩
  · intro hall
    have hsome (key : Key) (hkey : key ∈ keys) : sysRow s t found key ≠ none := by
      intro hnone
      obtain ⟨hcache, hmissing⟩ := (habsent key hkey).mp hnone
      exact hall key hkey hcache hmissing
    obtain ⟨s', hrun, hs'⟩ := Runs.mapM (sysRow s t found) hs fun key hkey u hu =>
      hpresent key hkey u hu (hsome key hkey)
    refine .of_value (sysRow s t found) (hrows ▸ hrun) hs'.quiet ?_
    intro key hkey
    obtain ⟨u', hrun', hu'⟩ := hs.read (hfound key hkey)
    refine ⟨u', Runs.get_bind ?_, hu'.quiet⟩
    rw [if_pos ht]
    exact Runs.tryCatch_of_ok hrun'

end Rows

end KeyPageStorage

/-! ## `StateStorage` -/

namespace StateStorage

section Rows

variable {s : StateStorage} {table : Table} {previous : Previous}

theorem fill_eq (keys : List Key) (find row : Key → Option Entry) :
    fill (keys.map find) ((keys.filter fun key => (find key).isNone).map row) =
      keys.map fun key => ((find key).map cachedRow).getD (row key) := by
  induction keys with
  | nil => rfl
  | cons key keys ih =>
    rcases hfind : find key with - | entry
    · simp [fill, hfind, ih]
    · simp [fill, hfind, ih]

theorem asyncGetRows_runs (hbatch : ∀ missing, (∀ key ∈ missing, key ∈ keys) →
      previous.getRows table missing = .ok (missing.map found))
    (hprev : ∀ key ∈ keys, s.prev table key = .ok (found key)) :
    ∃ s', Runs (asyncGetRows previous table keys) s
      (keys.map fun key => ((s.cache.find table key).map cachedRow).getD
        ((found key).map (fetched s))) s' := by
  have hmissing : ∀ key ∈ keys.filter (fun key => (s.cache.find table key).isNone),
      key ∈ keys ∧ s.cache.find table key = none := fun key hkey => by
    simpa using mem_filter.mp hkey
  by_cases hnil : keys.filter (fun key => (s.cache.find table key).isNone) = []
  · refine ⟨s, Runs.get_bind ?_⟩
    rw [← fill_eq keys (s.cache.find table) fun key => (found key).map (fetched s)]
    simp only [hnil, if_true, map_nil]
    exact .of_pure
  · have hzip (missing : List Key) : missing.zip (missing.map found) =
        missing.map fun key => (key, found key) := by
      simpa using zip_map' (f := id) (g := found) (l := missing)
    obtain ⟨s', hrun, -⟩ := importRows_runs s table ((keys.filter fun key =>
      (s.cache.find table key).isNone).map fun key => (key, found key)) fun row hrow => by
        obtain ⟨key, hkey, rfl⟩ := mem_map.mp hrow
        exact ⟨(hmissing key hkey).2, fun entry hentry => hentry ▸ hprev key (hmissing key hkey).1⟩
    rw [map_map] at hrun
    refine ⟨s', Runs.get_bind ?_⟩
    rw [← fill_eq keys (s.cache.find table) fun key => (found key).map (fetched s)]
    simp only [if_neg hnil, hbatch _ fun key hkey => (hmissing key hkey).1, hzip]
    exact hrun.bind .of_pure

theorem asyncGetRow_eq (hprev : s.prev table key = .ok (found key)) :
    ∃ s', Runs (asyncGetRow table key) s (((s.cache.find table key).map fun entry =>
        if entry.status = .deleted then none else some entry).getD
          ((found key).map (fetched s))) s' := by
  have hrun := asyncGetRow_run s table key
  rw [hprev] at hrun
  rcases hfind : s.cache.find table key with - | entry
  · rw [hfind] at hrun
    rcases hfound : found key with - | entry <;> exact ⟨_, hfound ▸ hrun⟩
  · rw [hfind] at hrun
    exact ⟨s, hrun⟩

theorem cachedRow_eq_iff {entry : Entry} :
    cachedRow entry = (if entry.status = .deleted then none else some entry) ↔
      entry.status ≠ .empty := by
  rw [cachedRow]
  rcases entry.status <;> simp

/-- The two reads of a `StateStorage` differ in the rows that are cached as `EMPTY`. -/
theorem readsAlike_iff (hsame : s.prev = previous.getRow)
    (hbatch : ∀ missing rows, List.Forall₂ (fun key row => previous.getRow table key = .ok row)
      missing rows → previous.getRows table missing = .ok rows)
    (hprev : ∀ key ∈ keys, ∃ row, s.prev table key = .ok row) :
    ReadsAlike (fun _ => True) (asyncGetRows previous table) (asyncGetRow table) s keys ↔
      ∀ key ∈ keys, ∀ entry, s.cache.find table key = some entry → entry.status ≠ .empty := by
  choose! found hfound using hprev
  have hmissing (missing : List Key) (hmem : ∀ key ∈ missing, key ∈ keys) :
      previous.getRows table missing = .ok (missing.map found) := by
    apply hbatch
    rw [forall₂_map_right_iff, forall₂_same]
    intro key hkey
    rw [← hsame]
    exact hfound key (hmem key hkey)
  obtain ⟨s', hrun⟩ := asyncGetRows_runs hmissing hfound
  have hsingle (key : Key) (hkey : key ∈ keys) : (∃ u, Runs (asyncGetRow table key) s
      (((s.cache.find table key).map cachedRow).getD ((found key).map (fetched s))) u ∧ True) ↔
        ∀ entry, s.cache.find table key = some entry → entry.status ≠ .empty := by
    obtain ⟨u, hu⟩ := asyncGetRow_eq (hfound key hkey)
    rcases hfind : s.cache.find table key with - | cached
    · rw [hfind] at hu
      constructor
      · intro _ entry hentry
        cases hentry
      · exact fun _ => ⟨u, hu, trivial⟩
    · rw [hfind] at hu
      simp only [Option.some.injEq, forall_eq']
      rw [← cachedRow_eq_iff]
      rw [Option.map_some, Option.getD_some] at hu ⊢
      constructor
      · rintro ⟨u', hu', -⟩
        exact (hu'.unique hu).1
      · intro heq
        exact ⟨u, heq ▸ hu, trivial⟩
  constructor
  · rintro ⟨results, s'', hrun', -, hall⟩ key hkey
    rw [(hrun'.unique hrun).1, forall₂_map_right_iff, forall₂_same] at hall
    exact (hsingle key hkey).mp (hall key hkey)
  · intro hall
    refine .of_value _ hrun trivial fun key hkey => ?_
    exact (hsingle key hkey).mpr (hall key hkey)

end Rows

end StateStorage

/-! ## Both storages -/

def Previous.empty : Previous where
  getRow _ _ := .ok none
  getRows _ keys := .ok (List.replicate keys.length none)
  length_eq _ _ _ h := by
    rw [← Except.ok.inj h, List.length_replicate]
  agrees _ _ _ h _ _ hmem := by
    rw [← Except.ok.inj h] at hmem
    cases List.eq_of_mem_replicate (List.of_mem_zip hmem).2

theorem Previous.empty_batch (table : Table) (missing : List Key) (rows : List (Option Entry))
    (hrows : List.Forall₂ (fun key row => Previous.empty.getRow table key = .ok row) missing rows) :
    Previous.empty.getRows table missing = .ok rows := by
  induction hrows with
  | nil => rfl
  | cons hrow _ ih =>
    rw [← Except.ok.inj hrow, ← Except.ok.inj ih]
    rfl

/-- A storage in which a row was written and another one deleted. -/
def oneDeleted : KeyPageStorage :=
  final ([KeyPageStorage.Step.write [116] [97] ⟨[1], 1, .modified⟩,
    .write [116] [98] ⟨[], 0, .deleted⟩].forM KeyPageStorage.Step.run) (.onEmpty 2048)

theorem oneDeleted_sound : oneDeleted.Ok ∧ oneDeleted.Quiet := by
  have hsteps : Admitted KeyPageStorage.Step.run KeyPageStorage.Step.Safe (.onEmpty 2048)
      [.write [116] [97] ⟨[1], 1, .modified⟩, .write [116] [98] ⟨[], 0, .deleted⟩] := by
    refine .cons_final ⟨?_, by decide⟩ (.cons_final ⟨?_, by decide +kernel⟩ trivial)
    · exact fun _ => ⟨by decide, fun _ => rfl⟩
    · exact fun _ => ⟨by decide, fun _ => rfl⟩
  obtain ⟨s, hrun, hholds, hquiet⟩ := KeyPageStorage.safe_simulates.runs
    ⟨KeyPageStorage.onEmpty_ok.holds_contents, KeyPageStorage.create_quiet⟩ hsteps
  obtain rfl : s = oneDeleted := hrun.eq_final
  exact ⟨hholds.ok, hquiet⟩

/-- A `StateStorage` with one row of the given status. -/
def oneCached (status : Status) : StateStorage :=
  ⟨Previous.empty.getRow, false, (∅ : RowCache).set [116] [97] ⟨[], 0, status⟩, none⟩

/-- A storage in which the only row of a table was deleted. -/
def deletedRow : KeyPageStorage :=
  final ([KeyPageStorage.Step.write [116] [97] ⟨[], 0, .deleted⟩].forM KeyPageStorage.Step.run)
    (.onEmpty 2048)

end FiscoSmart.Storage
