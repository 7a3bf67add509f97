import FiscoSmart.Storage.StorageRollback

/-!
# The state hash of a run

Two storages of different page size and a `StateStorage` receive the same calls.
The dirty rows of all three are the rows last written, so their hashes agree.
A `StateStorage` keeps a deletion of any table, whereas `KeyPageStorage` turns it
into a modification for the tables that are not paged; writes to these tables
are therefore assumed to be modifications.
-/

namespace FiscoSmart.Storage

open Support Function

variable {c : RowCache} {t : Table} {key : Key} {entry : Entry}

/-- A call on either kind of storage. -/
inductive Call
  | write (table : Table) (key : Key) (entry : Entry)
  | read (table : Table) (key : Key)

namespace Call

def step : Call → KeyPageStorage.Step
  | write t key entry => .write t key entry
  | read t key => .read t key

def table : Call → Table
  | write t _ _ | read t _ => t

def onState : Call → StateStorage.M Unit
  | write t key entry => StateStorage.asyncSetRow t key entry
  | read t key => discard (StateStorage.asyncGetRow t key)

def written : Call → RowCache → RowCache
  | write t key entry, c => c.set t key entry
  | read _ _, c => c

/-- The calls under consideration, by the rows `m` of the storage before the
call. -/
def Fits (prev : Prev) (ignored : List Table) (m : PlainStore) : Call → Prop
  | write t key entry =>
    (t ∉ ignored → key ≠ [] ∧ ((∀ x, m t x = none) → prev.getData t key = .ok none)) ∧
    (t ∈ ignored → entry.status = .modified)
  | read t key =>
    (t ∉ ignored → key ≠ []) ∧ (t ∈ ignored → ∃ r, prev.asyncGetRow t key = .ok r)

end Call

/-- The same rows are dirty in `m` and in `c`. -/
def DirtyAs (m : PlainStore) (c : RowCache) : Prop :=
  ∀ t key e, e.dirty = true → (m t key = some e ↔ c.find t key = some e)

section Dirty

variable {m m' : PlainStore}

theorem rowHash_clean {hashImpl : Bytes → HashType} {e : Entry}
    (h : ¬ e.dirty = true) : rowHash t hashImpl (key, e) = 0 := by
  simp [rowHash, h]

theorem DirtyAs.cellHash_eq (h : DirtyAs m c) (hashImpl : Bytes → HashType) :
    cellHash hashImpl m = cellHash hashImpl c.find := by
  funext x
  by_cases hdirty : ∃ e : Entry, e.dirty = true ∧ m x.1 x.2 = some e
  · obtain ⟨e, he, hm⟩ := hdirty
    rw [cellHash, cellHash, hm, (h x.1 x.2 e he).mp hm]
  · have hm : cellHash hashImpl m x = 0 := by
      rcases hcell : m x.1 x.2 with - | e
      · simp [cellHash, hcell]
      · rw [cellHash, hcell]
        exact rowHash_clean (fun he => hdirty ⟨e, he, hcell⟩)
    have hc : cellHash hashImpl c.find x = 0 := by
      rcases hcell : c.find x.1 x.2 with - | e
      · simp [cellHash, hcell]
      · rw [cellHash, hcell]
        exact rowHash_clean (fun he => hdirty ⟨e, he, (h x.1 x.2 e he).mpr hcell⟩)
    rw [hm, hc]

theorem DirtyAs.write (h : DirtyAs m c)
    (hm : (fun x => m' x.1 x.2) = update (fun x => m x.1 x.2) (t, key) (some entry)) :
    DirtyAs m' (c.set t key entry) := by
  intro t' key' e he
  have hcell : m' t' key' = _ := congrFun hm (t', key')
  by_cases hEq : (t', key') = (t, key)
  · cases hEq
    rw [hcell, update_self, RowCache.find_set_self]
  · rw [hcell, update_of_ne hEq, RowCache.find_set_ne hEq]
    exact h t' key' e he

theorem DirtyAs.import_row (h : DirtyAs m c) (hnone : m t key = none) (hm : (fun x => m' x.1 x.2) =
      update (fun x => m x.1 x.2) (t, key) (some (entry.setStatus .normal))) : DirtyAs m' c := by
  intro t' key' e he
  have hcell : m' t' key' = _ := congrFun hm (t', key')
  rw [← h t' key' e he, hcell]
  by_cases hEq : (t', key') = (t, key)
  · cases hEq
    rw [update_self, hnone]
    constructor
    · rintro hsome
      cases hsome
      cases he
    · intro hsome
      cases hsome
  · rw [update_of_ne hEq]

theorem entry_setStatus_self {e : Entry} (h : e.status = .modified) :
    e.setStatus .modified = e := by
  obtain ⟨value, size, status⟩ := e
  cases h
  rfl

end Dirty

namespace KeyPageStorage

/-- The storage holds the rows of the map, and its dirty rows are those of the
cache of written rows. -/
structure Tracks (prev : Prev) (ignored : List Table) (s : KeyPageStorage)
    (m : PlainStore × RowCache) : Prop where
  holds : Holds ignored s m.1
  prev : s.prev = prev
  dirty : DirtyAs s.contents m.2

section Tracks

variable {prev : Prev} {ignored : List Table} {s s' : KeyPageStorage} {m : PlainStore × RowCache}

theorem Holds.empty_of_index (h : Holds ignored s m.1) (ht : t ∉ ignored)
    (hindex : s.index t = []) : ∀ x, m.1 t x = none := by
  have hrows : s.rows t = [] := by
    have hnil : indexOf (s.env t) (s.table t).cached = [] := hindex
    rw [rows, rowsOf, segmentsOf, hnil]
    rfl
  intro x
  rw [← h.contents t ht, Option.eq_none_iff_forall_ne_some]
  intro e he
  have hmem := (h.ok.contents_eq_some (h.paged ht)).mp he
  rw [hrows] at hmem
  exact absurd hmem List.not_mem_nil

theorem Tracks.write (h : Tracks prev ignored s m) (hok : s'.Ok) (hconfig : SameConfig s s')
    (hcells : s'.cells = update s.cells (t, key) (some entry)) :
    Tracks prev ignored s' (m.1.write t key entry, m.2.set t key entry) := by
  exact ⟨h.holds.put hok hconfig hcells (fun _ => rfl), hconfig.prev.trans h.prev,
    h.dirty.write hcells⟩

theorem Tracks.admits (h : Tracks prev ignored s m) {call : Call}
    (hfits : call.Fits prev ignored m.1) : call.step.Admits s := by
  rcases call with ⟨t, key, entry⟩ | ⟨t, key⟩
  · intro ht
    have hpaged : t ∉ ignored := h.holds.ignoreTables ▸ ht
    refine ⟨(hfits.1 hpaged).1, fun hindex => ?_⟩
    rw [h.prev]
    exact (hfits.1 hpaged).2 (h.holds.empty_of_index hpaged hindex)
  · constructor
    · intro ht
      exact hfits.1 (h.holds.ignoreTables ▸ ht)
    · intro ht
      rw [h.prev]
      exact hfits.2 (h.holds.ignoreTables ▸ ht)

theorem Tracks.step (h : Tracks prev ignored s m) {call : Call}
    (hfits : call.Fits prev ignored m.1) : ∃ s', Runs call.step.run s () s' ∧
      Tracks prev ignored s' (call.step.plain m.1, call.written m.2) := by
  have hadmits := h.admits hfits
  rcases call with ⟨t, key, entry⟩ | ⟨t, key⟩
  · by_cases ht : t ∈ s.ignoreTables
    · obtain ⟨s', hrun, hok, hconfig, hcells⟩ := h.holds.ok.write_ignored_runs ht
      rw [entry_setStatus_self (hfits.2 (h.holds.ignoreTables ▸ ht))] at hcells
      exact ⟨s', hrun, h.write hok hconfig hcells⟩
    · obtain ⟨hkey, hfirst⟩ := hadmits ht
      obtain ⟨s', hrun, hok, hconfig, hcells⟩ := h.holds.ok.write_runs ht hkey hfirst
      exact ⟨s', hrun, h.write hok hconfig hcells⟩
  · obtain ⟨s', hrun, hholds⟩ :=
      step_simulates s m.1 (.read t key) h.holds hadmits
    by_cases ht : t ∈ s.ignoreTables
    · obtain ⟨r, s₁, hrun₁, _, hconfig, hcells⟩ :=
        h.holds.ok.read_ignored_runs ht (hadmits.2 ht)
      obtain ⟨_, rfl⟩ := (hrun₁.bind (f := fun _ => pure ()) .of_pure).unique hrun
      refine ⟨s₁, hrun, hholds, hconfig.prev.trans h.prev, ?_⟩
      rcases hcells with hcells | ⟨e, hnone, hcells⟩
      · intro t' key' e he
        have hcell : s₁.contents t' key' = s.contents t' key' :=
          congrFun hcells (t', key')
        rw [hcell]
        exact h.dirty t' key' e he
      · exact h.dirty.import_row hnone hcells
    · obtain ⟨s₁, hrun₁, _, hconfig, hcont⟩ :=
        h.holds.ok.read_runs ht (hadmits.1 ht)
      obtain ⟨_, rfl⟩ := (hrun₁.bind (f := fun _ => pure ()) .of_pure).unique hrun
      refine ⟨s₁, hrun, hholds, hconfig.prev.trans h.prev, ?_⟩
      rw [hcont]
      exact h.dirty

theorem Tracks.quiet (h : Tracks prev ignored s m) (hquiet : s.Quiet) {call : Call}
    (hfits : call.Fits prev ignored m.1) (hcount : s.Fits call.table)
    (hrun : Runs call.step.run s () s') : s'.Quiet := by
  have hsafe : call.step.Safe s := by
    refine ⟨h.admits hfits, ?_⟩
    cases call <;> exact hcount
  exact hsafe.quiet h.holds.ok hquiet hrun

end Tracks

end KeyPageStorage

/-! ## The same calls on a `StateStorage` -/

namespace StateStorage

/-- The dirty rows of the storage are those of the cache of written rows. -/
structure Tracks (prev : Table → Key → Except Fault (Option Entry))
    (s : StateStorage) (c : RowCache) : Prop where
  writable : s.readOnly = false
  prev : s.prev = prev
  dirty : DirtyAs s.cache.find c

variable {prev : Table → Key → Except Fault (Option Entry)} {s : StateStorage}

theorem Tracks.step (h : Tracks prev s c)
    (hprev : ∀ t key, ∃ r, prev t key = .ok r) (call : Storage.Call) :
    ∃ s', Runs call.onState s () s' ∧ Tracks prev s' (call.written c) := by
  rcases call with ⟨t, key, entry⟩ | ⟨t, key⟩
  · have hrun : Runs (asyncSetRow t key entry) s () { s with
        cache := s.cache.set t key entry
        recoder := s.recoder.map (⟨t, key, s.cache.find t key⟩ :: ·) } := by
      refine Runs.get_bind ?_
      rw [if_neg (by simp [h.writable])]
      exact Runs.of_set
    exact ⟨_, hrun, h.writable, h.prev, h.dirty.write (s.cache.lookup_insert ..)⟩
  · obtain ⟨found, hfound⟩ := hprev t key
    have hread := asyncGetRow_run s t key
    rw [h.prev, hfound] at hread
    rcases hcache : s.cache.find t key with - | e
    · rw [hcache] at hread
      rcases found with - | e
      · exact ⟨s, Runs.bind hread Runs.of_pure, h⟩
      · simp only [h.writable] at hread
        exact ⟨_, Runs.bind hread Runs.of_pure, h.writable, h.prev,
          h.dirty.import_row hcache (s.cache.lookup_insert ..)⟩
    · rw [hcache] at hread
      exact ⟨s, Runs.bind hread Runs.of_pure, h⟩

theorem tracks_runs (hprev : ∀ t key, ∃ r, prev t key = .ok r) (calls : List Storage.Call) :
    ∃ s, Runs (calls.forM Call.onState) (create prev) () s ∧
      Tracks prev s (specRun Call.written ∅ calls) := by
  have hstart : Tracks prev (create prev) ∅ :=
    ⟨rfl, rfl, fun _ _ _ _ => Iff.rfl⟩
  have hstep : Simulates Call.onState (fun _ _ => True) (Tracks prev) Call.written :=
    fun _ _ call h _ => h.step hprev call
  exact hstep.runs hstart (.of_forall fun _ _ => trivial)

end StateStorage

/-! ## Page sizes do not matter -/

namespace KeyPageStorage

section Create

variable {archive : Archive} {prev : Prev} {pageSize : ℕ}
  {ignoreTables : Option (List Table)} {ignoreNotExist : Bool}

theorem create_ok_congr (h : (create archive prev pageSize ignoreTables ignoreNotExist).Ok)
    (pageSize' : ℕ) : (create archive prev pageSize' ignoreTables ignoreNotExist).Ok := by
  have hprev : prev.Ok := h.prev
  apply create_ok hprev
  intro t ht
  have hc : Consistent ((create archive prev pageSize ignoreTables
      ignoreNotExist).env t) noAddresses noRecords := (h.table t ht).consistent
  exact hc.congr rfl

theorem create_tracks (h : (create archive prev pageSize ignoreTables ignoreNotExist).Ok) :
    Tracks prev (ignoreTables.getD [sysTables])
      (create archive prev pageSize ignoreTables ignoreNotExist)
      ((create archive prev pageSize ignoreTables ignoreNotExist).contents, ∅) := by
  refine ⟨h.holds_contents, rfl, ?_⟩
  intro t key e he
  constructor
  · intro hsome
    by_cases ht : t ∈ ignoreTables.getD [sysTables]
    · have hentry : (create archive prev pageSize ignoreTables
          ignoreNotExist).contents t key = none := if_pos ht
      rw [hentry] at hsome
      cases hsome
    · have hclean := h.untouched_clean ht (AList.notMem_empty t) _
        ((h.contents_eq_some ht).mp hsome)
      rw [hclean] at he
      cases he
  · intro hsome
    cases hsome

/-- Calls under consideration run on a new storage and are tracked. -/
theorem tracks_runs (hok : (create archive prev pageSize ignoreTables ignoreNotExist).Ok)
    {calls : List Call} (hcalls : SpecAdmitted (fun call m => call.step.plain m)
      (fun m call => call.Fits prev (ignoreTables.getD [sysTables]) m)
      (create archive prev pageSize ignoreTables ignoreNotExist).contents calls)
    (hcounts : Admitted (fun call => call.step.run) (fun s call => s.Fits call.table)
      (create archive prev pageSize ignoreTables ignoreNotExist) calls) :
    ∃ s, Runs (calls.forM (fun call => call.step.run))
        (create archive prev pageSize ignoreTables ignoreNotExist) () s ∧
      Tracks prev (ignoreTables.getD [sysTables]) s (specRun (fun call m => call.step.plain m)
          (create archive prev pageSize ignoreTables ignoreNotExist).contents
          calls, specRun Call.written ∅ calls) ∧ s.Quiet := by
  have hstep : ∀ s m call, Tracks prev (ignoreTables.getD [sysTables]) s m ∧ s.Quiet →
      s.Fits call.table → Call.Fits prev (ignoreTables.getD [sysTables]) m.1 call →
      ∃ s', Runs call.step.run s () s' ∧ Tracks prev (ignoreTables.getD [sysTables]) s'
        (pairSpec (fun call m => call.step.plain m) Call.written call m) ∧ s'.Quiet := by
    intro s m call h hcount hfits
    obtain ⟨s', hrun, htracks⟩ := h.1.step hfits
    exact ⟨s', hrun, htracks, h.1.quiet h.2 hfits hcount hrun⟩
  obtain ⟨s, hrun, htracks⟩ := runs_of_specAdmitted hstep ⟨create_tracks hok, create_quiet⟩
    hcounts (SpecAdmitted.pair hcalls)
  rw [specRun_pairSpec] at htracks
  exact ⟨s, hrun, htracks⟩

/-- Storages of any two page sizes and a `StateStorage` have the same hash after
the same calls: the exclusive or over the rows last written.  No fatal error is
logged, if the pages of the table are counted exactly before every call. -/
theorem hash_layout_independent
    (hok : (create archive prev pageSize ignoreTables ignoreNotExist).Ok)
    (pageSize' : ℕ) {rows : Table → Key → Except Fault (Option Entry)}
    (hrows : ∀ t key, ∃ r, rows t key = .ok r) {calls : List Call}
    (hcalls : SpecAdmitted (fun call m => call.step.plain m)
      (fun m call => call.Fits prev (ignoreTables.getD [sysTables]) m)
      (create archive prev pageSize ignoreTables ignoreNotExist).contents calls)
    (hcounts : ∀ size ∈ [pageSize, pageSize'], Admitted (fun call => call.step.run)
      (fun s call => s.Fits call.table)
      (create archive prev size ignoreTables ignoreNotExist) calls)
    (hashImpl : Bytes → HashType) : ∃ s s' state, Runs (calls.forM (fun call => call.step.run))
        (create archive prev pageSize ignoreTables ignoreNotExist) () s ∧ s.Quiet ∧
      Runs (calls.forM (fun call => call.step.run))
        (create archive prev pageSize' ignoreTables ignoreNotExist) () s' ∧ s'.Quiet ∧
      Runs (calls.forM Call.onState) (StateStorage.create rows) () state ∧
      s.hash hashImpl = s'.hash hashImpl ∧ s.hash hashImpl = state.hash hashImpl ∧
      s.hash hashImpl = (specRun Call.written ∅ calls).hash hashImpl ∧
      XorOver (cellHash hashImpl s.contents) (s.hash hashImpl) := by
  obtain ⟨s, hrun, htracks, hquiet⟩ := tracks_runs hok hcalls (hcounts _ (by simp))
  obtain ⟨s', hrun', htracks', hquiet'⟩ :=
    tracks_runs (create_ok_congr hok pageSize') hcalls (hcounts _ (by simp))
  obtain ⟨state, hrunState, htracksState⟩ :=
    StateStorage.tracks_runs hrows calls
  have hhash : XorOver (cellHash hashImpl s.contents) (s.hash hashImpl) :=
    htracks.holds.ok.hash_xorOver
  have hhash' : XorOver (cellHash hashImpl s'.contents) (s'.hash hashImpl) :=
    htracks'.holds.ok.hash_xorOver
  have hhashState : XorOver (cellHash hashImpl state.cache.find)
      (state.hash hashImpl) := state.cache.hash_xorOver
  have hwritten : XorOver (cellHash hashImpl (specRun Call.written ∅ calls).find)
      ((specRun Call.written ∅ calls).hash hashImpl) := RowCache.hash_xorOver _
  have hcells := htracks.dirty.cellHash_eq hashImpl
  have hcells' := htracks'.dirty.cellHash_eq hashImpl
  have hcellsState := htracksState.dirty.cellHash_eq hashImpl
  refine ⟨s, s', state, hrun, hquiet, hrun', hquiet', hrunState, ?_, ?_, ?_, hhash⟩
  · rw [hcells', ← hcells] at hhash'
    exact hhash.unique hhash'
  · rw [hcellsState, ← hcells] at hhashState
    exact hhash.unique hhashState
  · rw [← hcells] at hwritten
    exact hhash.unique hwritten

end Create

/-- A hash function for concrete runs. -/
def digitHash (bytes : Bytes) : HashType :=
  bytes.foldl (fun acc b => acc * 257 + BitVec.ofNat 256 (b.val + 1)) 7

/-- Calls on a paged table and on the table of tables. -/
def fourCalls : List Call :=
  [.write [116] [97] ⟨[1], 1, .modified⟩, .read [116] [98], .write [116] [98] ⟨[], 0, .deleted⟩,
    .write sysTables [99] ⟨[3], 1, .modified⟩]

theorem hash_layout_independent_four_calls :
    ∃ s s', Runs (fourCalls.forM (fun call => call.step.run)) (onEmpty 2048) () s ∧ s.Quiet ∧
      Runs (fourCalls.forM (fun call => call.step.run)) (onEmpty 4096) () s' ∧ s'.Quiet ∧
      s.hash digitHash = s'.hash digitHash := by
  have hrows : ∀ t key : Bytes, ∃ r, (fun _ _ => .ok none :
      Table → Key → Except Fault (Option Entry)) t key = .ok r :=
    fun _ _ => ⟨none, rfl⟩
  have hcalls : SpecAdmitted (fun call m => Call.step call |>.plain m)
      (fun m call => call.Fits (onEmpty 2048).prev [sysTables] m)
      (onEmpty 2048).contents fourCalls := by
    refine ⟨⟨?_, ?_⟩, ⟨?_, ?_⟩, ⟨?_, ?_⟩, ⟨?_, ?_⟩, trivial⟩
    · exact fun _ => ⟨by decide, fun _ => rfl⟩
    · exact fun _ => rfl
    · exact fun _ => by decide
    · exact fun _ => ⟨none, rfl⟩
    · exact fun _ => ⟨by decide, fun _ => rfl⟩
    · exact fun h => absurd h (by decide)
    · exact fun h => absurd (by decide) h
    · exact fun _ => rfl
  have hcounts : ∀ size ∈ [2048, 4096], Admitted (fun call => Call.step call |>.run)
      (fun s call => s.Fits call.table) (onEmpty size) fourCalls := by
    intro size hsize
    rcases List.mem_pair.mp hsize with rfl | rfl
    · exact .cons_final (by decide +kernel) (.cons_final (by decide +kernel)
        (.cons_final (by decide +kernel) (.cons_final (by decide +kernel) trivial)))
    · exact .cons_final (by decide +kernel) (.cons_final (by decide +kernel)
        (.cons_final (by decide +kernel) (.cons_final (by decide +kernel) trivial)))
  obtain ⟨s, s', _, hrun, hquiet, hrun', hquiet', _, hhash, _⟩ :=
    hash_layout_independent onEmpty_ok 4096 hrows hcalls hcounts digitHash
  exact ⟨s, s', hrun, hquiet, hrun', hquiet', hhash⟩

/-- A row of a table whose only row was deleted below is written, then another
row, then the first one again: the first copy stays in a page outside the index
and its hash is counted besides that of the second copy. -/
theorem hash_counts_replaced_row : answer (asyncGetRow [116] [97]) emptied = .ok none ∧
      (final ([Call.write [116] [97] ⟨[2], 1, .modified⟩, Call.write [116] [98] ⟨[2], 1, .modified⟩,
        Call.write [116] [97] ⟨[3], 1, .modified⟩].forM
          (fun call => call.step.run)) emptied).hash digitHash ≠
      (final ([Call.write [116] [97] ⟨[2], 1, .modified⟩, Call.write [116] [98] ⟨[2], 1, .modified⟩,
        Call.write [116] [97] ⟨[3], 1, .modified⟩].forM Call.onState)
          (StateStorage.create (fun _ _ => .ok none))).hash digitHash := by
  decide +kernel

end KeyPageStorage

end FiscoSmart.Storage
