import FiscoSmart.Storage.LayoutIndependence
import FiscoSmart.Storage.TableCommit
import FiscoSmart.Support.Updates

/-!
# Committing blocks to the backend

A block is a `KeyPageStorage` on the backend that receives reads and writes.  Its
dirty records are then written to the backend in any order, and the next block
starts from there.  The main theorem says that a storage opened on the backend
after any number of commits reads what the storage that was written out reads,
as long as no dirty page retires a key that is not the key of one of its rows.
-/

namespace FiscoSmart.Storage

open Support List AList

variable {archive : Archive} {ignored : List Table} {s : KeyPageStorage} {t : Table} {key : Key}
  {e : Entry}

/-- The committed rows by table and key. -/
abbrev Backend := Table × Key → Option Bytes

variable {b : Backend}

namespace Backend

def column (b : Backend) (t : Table) : Key → Option Bytes := fun k => b (t, k)

def asyncGetRow (b : Backend) : Table → Key → Except Fault (Option Entry) :=
  fun t k => .ok ((b.column t k).map storedRow)

def write (b : Backend) (rows : List (Table × Key × Entry)) : Backend :=
  applyUpdates (rows.map (fun r => ((r.1, r.2.1), effect r.2.2))) b

def openStorage (b : Backend) (archive : Archive) (ignored : List Table)
    (pageSize : ℕ) (ignoreNotExist : Bool) : KeyPageStorage :=
  KeyPageStorage.create archive (Prev.ofRows archive b.asyncGetRow) pageSize
    (some ignored) ignoreNotExist

/-- The paged tables of the backend are consistent. -/
def Ok (archive : Archive) (ignored : List Table) (b : Backend) : Prop :=
  ∀ t ∉ ignored, ColumnOk archive (b.column t)

end Backend

/-- The calls of a block: sets and deletes, and reads.  Rows of paged tables have
a non-empty key. -/
def Call.InBlock (ignored : List Table) : Call → Prop
  | write t key entry => (t ∉ ignored → key ≠ []) ∧ entry.dirty = true
  | read t key => t ∉ ignored → key ≠ []

namespace KeyPageStorage

/-! ## The invariant of a block -/

variable {ignoreNotExist : Bool} {pageSize : ℕ}

/-- What holds of a storage on the backend `b` after calls of a block. -/
structure InBlock (archive : Archive) (ignored : List Table) (b : Backend)
    (s : KeyPageStorage) : Prop where
  ok : s.Ok
  ignoreTables : s.ignoreTables = ignored
  prev : s.prev = Prev.ofRows archive b.asyncGetRow
  archive : s.archive = archive
  table : ∀ t ∉ ignored, BlockOk (s.env t) (s.table t).find (s.table t).cached
  written : ∀ t ∉ ignored, ∀ row ∈ s.rows t, row.2.status ≠ .empty
  entries : ∀ t key e, s.entries.find t key = some e →
    e.status = .modified ∨ (e.dirty = false ∧ b (t, key) = some e.get)

theorem InBlock.fetch (h : InBlock archive ignored b s) (t : Table) :
    (s.env t).fetch = columnFetch archive (b.column t) := by
  have hfetch : (s.env t).fetch = s.prev.getData t := rfl
  rw [hfetch, h.prev]
  rfl

theorem InBlock.paged (h : InBlock archive ignored b s) (ht : t ∉ ignored) : t ∉ s.ignoreTables :=
  h.ignoreTables ▸ ht

theorem openStorage_inBlock (hb : b.Ok archive ignored) (pageSize : ℕ) (ignoreNotExist : Bool) :
    InBlock archive ignored b (b.openStorage archive ignored pageSize ignoreNotExist) := by
  constructor
  · exact create_ok (Prev.ofRows_ok _ _) (fun t ht => (hb t ht).consistent _ rfl)
  · rfl
  · rfl
  · rfl
  · intro t ht
    exact (hb t ht).start rfl
  · intro t ht row hrow
    have hstored := (hb t ht).stored ((b.openStorage archive ignored pageSize
      ignoreNotExist).env t) rfl row hrow
    intro hempty
    unfold Page.storedEntry at hstored
    split_ifs at hstored
    rw [← Option.some.inj hstored] at hempty
    cases hempty
  · intro t key e he
    cases he

section

variable (h : InBlock archive ignored b s)

include h

theorem InBlock.setTable (ht : t ∉ ignored)
    {state : TableState} (hheap : HeapOk state) (hblock : BlockOk (s.env t) state.find state.cached)
    (hwritten : ∀ row ∈ rowsOf (s.env t) state.cached, row.2.status ≠ .empty) :
    InBlock archive ignored b (s.setTable t state) := by
  refine ⟨h.ok.setTable (h.paged ht) hheap hblock.consistent, h.ignoreTables,
    h.prev, h.archive, ?_, ?_, h.entries⟩
  · intro t' ht'
    by_cases hEq : t' = t
    · subst hEq
      rwa [setTable_table]
    · rw [setTable_other hEq]
      exact h.table t' ht'
  · intro t' ht'
    by_cases hEq : t' = t
    · subst hEq
      rwa [rows, setTable_env, setTable_table]
    · rw [setTable_rows_other hEq]
      exact h.written t' ht'

theorem InBlock.setEntry (ht : t ∈ ignored)
    (he : e.status = .modified ∨ (e.dirty = false ∧ b (t, key) = some e.get)) :
    InBlock archive ignored b { s with entries := s.entries.set t key e } := by
  refine { h with ok := h.ok.setEntry (h.ignoreTables ▸ ht) e, entries := ?_ }
  intro t' key' e' he'
  by_cases hEq : (t', key') = (t, key)
  · cases hEq
    have hfind := RowCache.find_set_self s.entries t key e
    cases hfind.symm.trans he'
    exact he
  · have hfind : (s.entries.set t key e).find t' key' =
        s.entries.find t' key' := RowCache.find_set_ne hEq
    exact h.entries t' key' e' (hfind.symm.trans he')

theorem InBlock.logged (change : Change) : InBlock archive ignored b (s.logged change) :=
  { h with ok := h.ok.logged change }

end

theorem InBlock.step (hb : b.Ok archive ignored) (h : InBlock archive ignored b s) {call : Call}
    (hcall : call.InBlock ignored) :
    ∃ s', Runs call.step.run s () s' ∧ InBlock archive ignored b s' := by
  rcases call with ⟨t, key, entry⟩ | ⟨t, key⟩
  · by_cases ht : t ∈ ignored
    · refine ⟨_, asyncSetRow_ignored h.ok (h.ignoreTables ▸ ht), ?_⟩
      apply InBlock.logged
      exact h.setEntry ht (.inl (Entry.setStatus_status ..))
    · have hkey := hcall.1 ht
      obtain ⟨r, state, hrun, hheap, _, hwrites, _⟩ :=
        KeyPageStorage.asyncSetRow_runs h.ok (h.paged ht) hkey
          (fun hindex => (h.table t ht).unindexed_fetch (hb t ht) (h.fetch t) hindex hkey) entry
      refine ⟨_, hrun, ?_⟩
      apply InBlock.logged
      apply h.setTable ht hheap ((h.table t ht).writes hwrites)
      rintro ⟨x, e⟩ hrow
      rcases (hwrites.rows x e).mp hrow with ⟨_, rfl⟩ | ⟨_, hold⟩
      · have hdirty : e.dirty = true := hcall.2
        intro hempty
        have hstat : e.status = .empty := hempty
        simp [Entry.dirty, hstat] at hdirty
      · exact h.written t ht _ hold
  · by_cases ht : t ∈ ignored
    · have hprev : s.prev.asyncGetRow t key = .ok ((b (t, key)).map storedRow) := by
        rw [h.prev]
        rfl
      refine ⟨_, (asyncGetRow_ignored h.ok (h.ignoreTables ▸ ht) hprev).bind .of_pure, ?_⟩
      unfold lookThrough
      split
      · exact h
      · exact h
      · next e _ hfound =>
          obtain ⟨value, hvalue, rfl⟩ := Option.map_eq_some_iff.mp hfound
          apply h.setEntry ht
          right
          refine ⟨by simp [Entry.dirty], ?_⟩
          rw [hvalue, Entry.setStatus_get (by decide), storedRow_get]
    · obtain ⟨r, state, hrun, hheap, _, hloads, _⟩ :=
        KeyPageStorage.asyncGetRow_runs h.ok (h.paged ht) (hcall ht)
      refine ⟨_, hrun.bind .of_pure, ?_⟩
      apply h.setTable ht hheap ((h.table t ht).loads (columnFetch_clean (h.fetch t)) hloads)
      rw [hloads.rows]
      exact h.written t ht

theorem block_runs (hb : b.Ok archive ignored) {calls : List Call}
    (hcalls : ∀ call ∈ calls, call.InBlock ignored) :
    ∃ s, Runs (calls.forM (fun call => call.step.run))
        (b.openStorage archive ignored pageSize ignoreNotExist) () s ∧
      InBlock archive ignored b s := by
  have hstep : ∀ (s : KeyPageStorage) (call : Call),
      InBlock archive ignored b s → call.InBlock ignored →
        ∃ s', Runs call.step.run s () s' ∧ InBlock archive ignored b s' :=
    fun _ _ h hcall => h.step hb hcall
  exact runs_of_invariant hstep (openStorage_inBlock hb pageSize ignoreNotExist) hcalls

/-! ## The rows of a commit -/

theorem mem_parallelTraverse : (t, key, e) ∈ s.parallelTraverse true ↔
    Emitted s.archive (s.table t).cached key e ∨
      s.entries.find t key = some e ∧ e.dirty = true := by
  refine mem_append.trans (or_congr ⟨fun hmem => ?_, ?_⟩ ⟨fun hmem => ?_, ?_⟩)
  · obtain ⟨⟨t', state⟩, hstate, hrow⟩ := mem_flatMap.mp hmem
    obtain ⟨row, hrow, hEq⟩ := mem_map.mp hrow
    cases hEq
    have htable : s.table t' = state := by
      rw [table, mem_lookup_iff.mpr hstate]
      rfl
    obtain ⟨⟨k, d⟩, hd, hemitted⟩ := mem_flatMap.mp hrow
    rw [htable]
    exact ⟨k, d, mem_records.mp hd, hemitted⟩
  · rintro ⟨k, d, hd, hemitted⟩
    rcases hlookup : s.tables.lookup t with - | state
    · rw [table, hlookup] at hd
      cases hd
    · rw [table, hlookup] at hd
      refine mem_flatMap.mpr ⟨⟨t, state⟩, mem_lookup_iff.mp hlookup,
        mem_map.mpr ⟨(key, e), ?_, rfl⟩⟩
      exact mem_flatMap.mpr ⟨(k, d), mem_records.mpr hd, hemitted⟩
  · obtain ⟨r, hr, hEq⟩ := mem_map.mp hmem
    cases hEq
    obtain ⟨hr, hdirty⟩ := mem_filter.mp hr
    obtain ⟨entry, hentry, rfl⟩ := mem_map.mp hr
    exact ⟨mem_lookup_iff.mpr hentry, by simpa using hdirty⟩
  · rintro ⟨hfind, hdirty⟩
    refine mem_map.mpr ⟨((t, key), e), mem_filter.mpr
      ⟨mem_map.mpr ⟨⟨(t, key), e⟩, mem_lookup_iff.mp hfind, rfl⟩, by simpa using hdirty⟩, rfl⟩

theorem mem_parallelTraverse_paged (h : s.Ok) (ht : t ∉ s.ignoreTables) :
    (t, key, e) ∈ s.parallelTraverse true ↔ Emitted s.archive (s.table t).cached key e := by
  rw [mem_parallelTraverse, or_iff_left]
  rintro ⟨hfind, -⟩
  exact absurd ((h.unpaged t ht key).symm.trans hfind) (by simp)

theorem mem_parallelTraverse_ignored (h : s.Ok) (ht : t ∈ s.ignoreTables) :
    (t, key, e) ∈ s.parallelTraverse true ↔ s.entries.find t key = some e ∧ e.dirty = true := by
  rw [mem_parallelTraverse, or_iff_right]
  rintro ⟨k, d, hd, -⟩
  rcases hlookup : s.tables.lookup t with - | state
  · rw [table, hlookup] at hd
    cases hd
  · exact h.paged t (lookup_isSome.mp (by rw [hlookup]; rfl)) ht

/-- The dirty pages of the paged tables can be written out. -/
def Committable (s : KeyPageStorage) : Prop :=
  ∀ t ∉ s.ignoreTables, CommitOk (s.env t) (s.table t).cached

section WriteOut

variable {e' : Entry} {rows : List (Table × Key × Entry)}

theorem mem_updates : ((t, key), effect e) ∈ rows.map (fun r => ((r.1, r.2.1), effect r.2.2)) ↔
      ∃ e', (t, key, e') ∈ rows ∧ effect e' = effect e := by
  rw [mem_map]
  constructor
  · rintro ⟨⟨t', key', e'⟩, hmem, hEq⟩
    obtain ⟨hkeys, heffect⟩ := Prod.mk.inj hEq
    cases hkeys
    exact ⟨e', hmem, heffect⟩
  · rintro ⟨e', hmem, heffect⟩
    exact ⟨(t, key, e'), hmem, by rw [heffect]⟩

theorem write_of_mem (hmem : (t, key, e) ∈ rows)
    (hagree : ∀ e', (t, key, e') ∈ rows → effect e' = effect e) :
    b.write rows (t, key) = effect e := by
  apply applyUpdates_of_mem (mem_updates.mpr ⟨e, hmem, rfl⟩)
  intro v hv
  obtain ⟨⟨t', key', e'⟩, hmem', hEq⟩ := mem_map.mp hv
  obtain ⟨hkeys, rfl⟩ := Prod.mk.inj hEq
  cases hkeys
  exact hagree e' hmem'

theorem write_of_not_mem (h : ∀ e, (t, key, e) ∉ rows) : b.write rows (t, key) = b (t, key) := by
  apply applyUpdates_of_not_mem
  intro v hv
  obtain ⟨⟨t', key', e'⟩, hmem, hEq⟩ := mem_map.mp hv
  cases (Prod.mk.inj hEq).1
  exact h e' hmem

variable (h : InBlock archive ignored b s)

include h

theorem InBlock.effect_eq (hcommit : s.Committable) (he : (t, key, e) ∈ s.parallelTraverse true)
    (he' : (t, key, e') ∈ s.parallelTraverse true) : effect e = effect e' := by
  by_cases ht : t ∈ s.ignoreTables
  · rw [mem_parallelTraverse_ignored h.ok ht] at he he'
    cases he.1.symm.trans he'.1
    rfl
  · rw [mem_parallelTraverse_paged h.ok ht] at he he'
    exact (hcommit t ht).emitted_agree (h.ok.table t ht).consistent he he'

variable (hrows : rows.Perm (s.parallelTraverse true))

include hrows

theorem InBlock.writtenOut (ht : t ∉ ignored) :
    WrittenOut archive (s.table t).cached (b.column t) ((b.write rows).column t) := by
  have hmem : ∀ k e, (t, k, e) ∈ rows ↔ Emitted archive (s.table t).cached k e := by
    intro k e
    rw [hrows.mem_iff, mem_parallelTraverse_paged h.ok (h.paged ht), h.archive]
  constructor
  · intro k e he hagree
    apply write_of_mem ((hmem k e).mpr he)
    intro e' he'
    exact hagree e' ((hmem k e').mp he')
  · intro k hnone
    apply write_of_not_mem
    intro e he
    exact hnone e ((hmem k e).mp he)

/-- A row that is not paged is written out or was in the backend. -/
theorem InBlock.write_ignored (ht : t ∈ ignored) (key : Key) :
    (s.entries.find t key = none → b.write rows (t, key) = b (t, key)) ∧
      ∀ e, s.entries.find t key = some e → b.write rows (t, key) = some e.get := by
  have hmem : ∀ e, (t, key, e) ∈ rows ↔ s.entries.find t key = some e ∧ e.dirty = true := by
    intro e
    rw [hrows.mem_iff, mem_parallelTraverse_ignored h.ok (h.ignoreTables ▸ ht)]
  constructor
  · intro hnone
    apply write_of_not_mem
    intro e he
    cases hnone.symm.trans ((hmem e).mp he).1
  · intro e he
    rcases h.entries t key e he with hstat | ⟨hclean, hvalue⟩
    · have heffect : effect e = some e.get := by
        simp [effect, hstat]
      rw [← heffect]
      apply write_of_mem ((hmem e).mpr ⟨he, by simp [Entry.dirty, hstat]⟩)
      intro e' he'
      cases he.symm.trans ((hmem e').mp he').1
      rfl
    · rw [← hvalue]
      apply write_of_not_mem
      intro e' he'
      obtain ⟨hfind, hdirty⟩ := (hmem e').mp he'
      cases he.symm.trans hfind
      rw [hclean] at hdirty
      cases hdirty

variable (hb : b.Ok archive ignored) (hcommit : s.Committable)

include hb hcommit

theorem InBlock.write_ok : (b.write rows).Ok archive ignored := by
  intro t ht
  exact ((h.table t ht).committed (hcommit t (h.paged ht)) (hb t ht) (h.fetch t)
    (h.writtenOut hrows ht)).1

theorem InBlock.contents_write (ht : t ∉ ignored) :
    ((b.write rows).openStorage archive ignored pageSize
      ignoreNotExist).contents t key = (s.contents t key).bind Page.storedEntry := by
  have hopen := openStorage_inBlock (h.write_ok hrows hb hcommit) pageSize ignoreNotExist
  have hread : ((b.write rows).openStorage archive ignored pageSize
      ignoreNotExist).rows t = filterValues Page.storedEntry (s.rows t) :=
    ((h.table t ht).committed (hcommit t (h.paged ht)) (hb t ht) (h.fetch t)
      (h.writtenOut hrows ht)).2 _ (hopen.fetch t)
  apply Option.ext
  intro e
  rw [hopen.ok.contents_eq_some (hopen.paged ht), Option.bind_eq_some_iff, hread, mem_filterValues]
  simp [h.ok.contents_eq_some (h.paged ht)]

theorem InBlock.read_paged (ht : t ∉ ignored) :
    (((b.write rows).openStorage archive ignored pageSize
      ignoreNotExist).contents.read t key).map Entry.get =
        (s.contents.read t key).map Entry.get := by
  rw [PlainStore.read, PlainStore.read, h.contents_write hrows hb hcommit ht]
  rcases hcell : s.contents t key with - | e
  · rfl
  · have hstat := h.written t ht _ ((h.ok.contents_eq_some (h.paged ht)).mp hcell)
    by_cases hdeleted : e.status = .deleted
    · simp [Page.storedEntry, Entry.live, Entry.visible, hdeleted]
    · simp [Page.storedEntry, Entry.live, Entry.visible, hdeleted, hstat, Option.filter, Entry.get]

theorem InBlock.read_ignored (ht : t ∈ ignored) :
    ∃ r s₁ r' s₂, Runs (asyncGetRow t key) s r s₁ ∧
      Runs (asyncGetRow t key) ((b.write rows).openStorage archive ignored pageSize
        ignoreNotExist) r' s₂ ∧ r'.map Entry.get = r.map Entry.get := by
  have hopen := openStorage_inBlock (h.write_ok hrows hb hcommit) pageSize ignoreNotExist
  have hprev : s.prev.asyncGetRow t key = .ok ((b (t, key)).map storedRow) := by
    rw [h.prev]
    rfl
  refine ⟨_, _, _, _, asyncGetRow_ignored h.ok (h.ignoreTables ▸ ht) hprev,
    asyncGetRow_ignored hopen.ok ht rfl, ?_⟩
  have hfresh : ((lookThrough ∅ t key ((b.write rows (t, key)).map
      storedRow)).1).map Entry.get = b.write rows (t, key) := by
    rcases b.write rows (t, key) with - | value
    · rfl
    · exact congrArg some ((Entry.setStatus_get (by decide)).trans storedRow_get)
  obtain ⟨hnone, hsome⟩ := h.write_ignored hrows ht key
  refine hfresh.trans ?_
  unfold lookThrough
  rcases hfind : s.entries.find t key with - | e
  · rw [hnone hfind]
    rcases b (t, key) with - | value
    · rfl
    · exact (congrArg some ((Entry.setStatus_get (by decide)).trans storedRow_get)).symm
  · exact hsome e hfind

theorem InBlock.read_write (hkey : t ∉ ignored → key ≠ []) (pageSize : ℕ) (ignoreNotExist : Bool) :
    ∃ r s₁ r' s₂, Runs (asyncGetRow t key) s r s₁ ∧
      Runs (asyncGetRow t key) ((b.write rows).openStorage archive ignored pageSize
        ignoreNotExist) r' s₂ ∧ r'.map Entry.get = r.map Entry.get := by
  by_cases ht : t ∈ ignored
  · exact h.read_ignored hrows hb hcommit ht
  · have hopen := openStorage_inBlock (h.write_ok hrows hb hcommit) pageSize ignoreNotExist
    obtain ⟨s₁, hrun₁, _⟩ := h.ok.read_runs (h.paged ht) (hkey ht)
    obtain ⟨s₂, hrun₂, _⟩ := hopen.ok.read_runs (hopen.paged ht) (hkey ht)
    exact ⟨_, s₁, _, s₂, hrun₁, hrun₂, h.read_paged hrows hb hcommit ht⟩

end WriteOut

/-! ## Sequences of commits -/

/-- The backends that sequences of blocks leave.  A block may have any page
size; its rows are written in any order. -/
inductive Committed (archive : Archive) (ignored : List Table) : Backend → Prop
  | empty : Committed archive ignored (fun _ => none)
  | commit {b : Backend} {pageSize : ℕ} {ignoreNotExist : Bool}
      {calls : List Call} {s : KeyPageStorage} {rows : List (Table × Key × Entry)} :
      Committed archive ignored b → (∀ call ∈ calls, call.InBlock ignored) →
      Runs (calls.forM (fun call => call.step.run))
        (b.openStorage archive ignored pageSize ignoreNotExist) () s → s.Committable →
      rows.Perm (s.parallelTraverse true) → Committed archive ignored (b.write rows)

theorem Committed.ok (h : Committed archive ignored b) : b.Ok archive ignored := by
  induction h with
  | empty => exact fun t _ => ColumnOk.empty archive
  | commit _ hcalls hrun hcommit hrows ih =>
    obtain ⟨s', hrun', hblock⟩ := block_runs ih hcalls
    obtain ⟨_, rfl⟩ := hrun'.unique hrun
    exact hblock.write_ok hrows ih hcommit

/-- The round trip of a commit.  After any sequence of blocks, the calls of the
next block succeed.  If its pages can be written out, no key is written both as a
row and as a deletion, and a storage opened on the backend after the rows were
written in any order reads what the storage of the block reads. -/
theorem commit_round_trip {archive : Archive} {ignored : List Table}
    {b : Backend} (hb : Committed archive ignored b) {calls : List Call}
    (hcalls : ∀ call ∈ calls, call.InBlock ignored) (pageSize : ℕ) (ignoreNotExist : Bool) :
    ∃ s, Runs (calls.forM (fun call => call.step.run))
        (b.openStorage archive ignored pageSize ignoreNotExist) () s ∧ (s.Committable →
        (∀ t key e e', (t, key, e) ∈ s.parallelTraverse true →
          (t, key, e') ∈ s.parallelTraverse true → (e.status = .deleted ↔ e'.status = .deleted)) ∧
        ∀ rows, rows.Perm (s.parallelTraverse true) →
          ∀ pageSize' ignoreNotExist' t key, (t ∉ ignored → key ≠ []) →
            ∃ r s₁ r' s₂, Runs (asyncGetRow t key) s r s₁ ∧
              Runs (asyncGetRow t key) ((b.write rows).openStorage archive ignored
                pageSize' ignoreNotExist') r' s₂ ∧ r'.map Entry.get = r.map Entry.get) := by
  have hok := hb.ok
  obtain ⟨s, hrun, hblock⟩ := block_runs hok hcalls
  refine ⟨s, hrun, fun hcommit => ⟨?_, ?_⟩⟩
  · intro t key e e' he he'
    have heffect := hblock.effect_eq hcommit he he'
    unfold effect at heffect
    split_ifs at heffect <;> simp_all
  · intro rows hrows pageSize' ignoreNotExist' t key hkey
    exact hblock.read_write hrows hok hcommit hkey pageSize' ignoreNotExist'

/-- The storage of a block, for runs on concrete rows. -/
def afterBlock (b : Backend) (calls : List Call) : KeyPageStorage :=
  final (calls.forM (fun call => call.step.run))
    (b.openStorage PlainArchive.archive [sysTables] 2048 false)

def afterCommit (b : Backend) (calls : List Call) : Backend :=
  b.write ((afterBlock b calls).parallelTraverse true)

theorem afterBlock_one_row_committable : (afterBlock (fun _ => none)
      [.write [116] [97] ⟨[1], 1, .modified⟩]).Committable := by
  intro t ht
  by_cases hEq : t = [116]
  · subst hEq
    apply commitOk_of_check
    · unfold CountsFit
      decide +kernel
    · decide +kernel
  · have hkeys : (afterBlock (fun _ => none)
        [.write [116] [97] ⟨[1], 1, .modified⟩]).tables.keys = [[116]] := rfl
    have hcache : ((afterBlock (fun _ => none)
        [.write [116] [97] ⟨[1], 1, .modified⟩]).table t).cached = noRecords := by
      rw [table, lookup_eq_none.mpr]
      · rfl
      · rw [AList.mem_keys, hkeys]
        simpa using hEq
    rw [hcache]
    exact commitOk_untouched rfl

/-- A block that writes one row, and the row read back. -/
theorem commit_round_trip_one_row : ∃ r s', Runs (asyncGetRow [116] [97]) (afterBlock (afterCommit
        (fun _ => none) [.write [116] [97] ⟨[1], 1, .modified⟩]) []) r s' ∧
      r.map Entry.get = some [1] := by
  have hcalls : ∀ call ∈ [Call.write [116] [97] ⟨[1], 1, .modified⟩], call.InBlock [sysTables] := by
    simp [Call.InBlock, Entry.dirty]
  have hempty : Committed PlainArchive.archive [sysTables] (fun _ => none) :=
    Committed.empty
  obtain ⟨s, hrun, hcommit⟩ := commit_round_trip hempty hcalls 2048 false
  obtain rfl := hrun.eq_final
  obtain ⟨r, s₁, r', s₂, hread, hread', heq⟩ :=
    (hcommit afterBlock_one_row_committable).2 _ (List.Perm.refl _) 2048 false
      [116] [97] (by decide)
  refine ⟨r', s₂, hread', heq.trans ?_⟩
  have hvalue : Runs (asyncGetRow [116] [97]) (afterBlock (fun _ => none)
      [.write [116] [97] ⟨[1], 1, .modified⟩]) (some ⟨[1], 1, .modified⟩) _ := rfl
  rw [(hread.unique hvalue).1]
  rfl

/-- The first block: the row `c` is deleted in the page it ends. -/
def firstBlock : List Call :=
  [.write [116] [97] ⟨[1], 1, .modified⟩, .write [116] [99] ⟨[2], 1, .modified⟩,
    .write [116] [99] ⟨[], 0, .deleted⟩,
    .write [116] [122] ⟨List.replicate 2048 7, 2048, .modified⟩]

/-- The second block: `c` becomes the last row of another page. -/
def secondBlock : List Call :=
  [.write [116] [97] ⟨[3], 1, .modified⟩, .write [116] [99] ⟨[4], 1, .modified⟩]

/-- The page that ends with the deleted row `c` is stored under `c`.  When it is
written again it moves to the key of its last live row and retires `c`, which is
by then the key of the page that holds the new row `c`: the page is deleted, and
the row is lost. -/
theorem page_under_retired_key_lost : ((afterBlock (afterCommit (fun _ => none) firstBlock)
        secondBlock).parallelTraverse true).map (fun r => (r.2.1, r.2.2.status)) =
        [([99], .modified), ([122], .modified), ([97], .modified),
          ([99], .deleted), ([], .modified)] ∧
      EStateM.run' (asyncGetRow [116] [99]) (afterBlock (afterCommit
        (fun _ => none) firstBlock) secondBlock) = some (some ⟨[4], 1, .modified⟩) ∧
      EStateM.run' (asyncGetRow [116] [99]) (afterBlock (afterCommit (afterCommit
        (fun _ => none) firstBlock) secondBlock) []) = some none := by
  decide +kernel

end KeyPageStorage

end FiscoSmart.Storage
