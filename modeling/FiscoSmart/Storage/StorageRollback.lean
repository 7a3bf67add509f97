import FiscoSmart.Storage.StorageHash
import FiscoSmart.Support.UndoLog

/-!
# Rolling recorded writes back

A recoder lists what the recorded writes replaced, so it is an undo log of the
rows of the storage.  Undoing a change restores the row; the splits and merges
of pages are not undone, and need not be, since no answer of the storage depends
on the pages.
-/

namespace FiscoSmart.Storage

open Support List

namespace KeyPageStorage

variable {condition : Condition} {start s s' : KeyPageStorage} {changes : Recoder} {t : Table}
  {key : Key} {ignored : List Table} {change : Change}

theorem Ok.undo_ignored (h : s.Ok) (ht : change.table ∈ s.ignoreTables)
    (hbound : change.entry = none → s.entries.find change.table change.key ≠ none) :
    ∃ entries : RowCache, Runs (undo change) s () { s with entries } ∧
      ({ s with entries } : KeyPageStorage).Ok ∧ (fun x => entries.lookup x) =
        Function.update (fun x => s.entries.lookup x) (change.table, change.key) change.entry := by
  obtain ⟨entries, hundo, hlookup⟩ := RowCache.exists_undo hbound
  refine ⟨entries, Runs.get_bind ?_, h.setCell ht hlookup, hlookup⟩
  rw [if_pos ht, hundo]
  exact .of_set

theorem Ok.rollback_runs (h : s.Ok)
    (hrun : Runs (changes.forM undo) s () s') : Runs (rollback changes) s () s' := by
  refine Runs.get_bind ?_
  rw [if_neg (by simp [h.writable])]
  exact hrun

/-- A change as an item of an undo log. -/
def logItem (change : Change) : (Table × Key) × Option Entry :=
  ((change.table, change.key), change.entry)

/-- `s` was reached from `start` by writes that were recorded as `changes`. -/
structure Recorded (start s : KeyPageStorage) (changes : Recoder) : Prop where
  ok : s.Ok
  config : SameConfig start s
  dirty : ∀ c ∈ changes, c.table ∉ s.ignoreTables →
    DirtyRow (s.env c.table) (s.table c.table).cached c.key
  log : UndoLog start.cells (changes.map logItem) s.cells
  quiet : s.Quiet

namespace Recorded

section

variable (h : Recorded start s changes)

include h

theorem write_paged (ht : t ∉ s.ignoreTables) (hfits : s.Fits t) (hkey : key ≠ [])
    (hfirst : s.index t = [] → s.prev.getData t key = .ok none) (entry : Entry) :
    ∃ s' r, Runs (asyncSetRow t key entry) s () (s'.logged ⟨t, key, r⟩) ∧
      s'.recoder = s.recoder ∧ Recorded start s' (⟨t, key, r⟩ :: changes) := by
  obtain ⟨r, state, hrun, hheap, hquiet, hwrites, hr⟩ :=
    asyncSetRow_runs h.ok ht hkey hfirst entry
  have hold : r = s.cells (t, key) := by
    apply Option.ext
    intro e
    rw [hr, cells, h.ok.contents_eq_some ht]
  refine ⟨s.setTable t state, r, hrun, rfl, h.ok.setTable ht hheap hwrites.consistent,
    h.config.trans setTable_config, ?_, ?_, h.quiet.setTable (hquiet ⟨hfits ht, h.quiet t⟩)⟩
  · intro c hc hpaged
    by_cases htable : c.table = t
    · rw [htable, setTable_table]
      rcases mem_cons.mp hc with rfl | hc
      · exact hwrites.dirtyRow
      · apply hwrites.advances.dirtyRow
        have hdirty := h.dirty c hc hpaged
        rwa [htable] at hdirty
    · rw [setTable_other htable]
      rcases mem_cons.mp hc with rfl | hc
      · exact absurd rfl htable
      · exact h.dirty c hc hpaged
  · rw [h.ok.cells_writes ht hheap hwrites, hold]
    exact h.log.write (t, key) entry

theorem write_ignored (ht : t ∈ s.ignoreTables)
    (key : Key) (entry : Entry) : Recorded start { s with entries := s.entries.set t key entry }
      (⟨t, key, s.entries.find t key⟩ :: changes) := by
  refine ⟨h.ok.setEntry ht entry, h.config.withEntries _, ?_, ?_, h.quiet⟩
  · exact forall_mem_cons.mpr ⟨fun hpaged => absurd ht hpaged, h.dirty⟩
  · have hold : s.entries.find t key = s.cells (t, key) := by
      rw [cells, contents, if_pos ht]
    rw [cells_setEntry ht, hold]
    exact h.log.write (t, key) entry

theorem logged (change : Change) : Recorded start (s.logged change) changes :=
  ⟨h.ok.logged change, h.config.withRecoder _, h.dirty, h.log, h.quiet⟩

theorem write (hrecoder : s.recoder = some changes)
    {entry : Entry} (hsafe : (Step.write t key entry).Safe s) :
    ∃ s' changes', Runs (asyncSetRow t key entry) s () s' ∧
      s'.recoder = some changes' ∧ Recorded start s' changes' := by
  by_cases ht : t ∈ s.ignoreTables
  · refine ⟨_, _, asyncSetRow_ignored h.ok ht, ?_, (h.write_ignored ht key _).logged _⟩
    simp [KeyPageStorage.logged, hrecoder]
  · obtain ⟨hkey, hfirst⟩ := hsafe.1 ht
    obtain ⟨s', r, hrun, hs', hrec⟩ := h.write_paged ht hsafe.2 hkey hfirst entry
    refine ⟨_, _, hrun, ?_, hrec.logged _⟩
    simp [KeyPageStorage.logged, hs', hrecoder]

theorem read (ht : t ∉ s.ignoreTables) (hkey : key ≠ []) (hfits : s.Fits t) :
    ∃ s', Runs (Step.read t key).run s () s' ∧ s'.recoder = s.recoder ∧
      Recorded start s' changes := by
  obtain ⟨r, state, hrun, hheap, hquiet, hloads, -⟩ := asyncGetRow_runs h.ok ht hkey
  refine ⟨s.setTable t state, hrun.bind .of_pure, rfl,
    h.ok.setTable ht hheap hloads.consistent, h.config.trans setTable_config, ?_, ?_,
    h.quiet.setTable (hquiet ⟨hfits ht, h.quiet t⟩)⟩
  · intro c hc hpaged
    have hdirty := h.dirty c hc hpaged
    by_cases htable : c.table = t
    · rw [htable] at hdirty ⊢
      rw [setTable_table]
      exact hloads.advances.dirtyRow _ hdirty
    · rw [setTable_other htable]
      exact hdirty
  · have hcells : (s.setTable t state).cells = s.cells :=
      funext fun x => congrFun (congrFun (contents_loads hloads) x.1) x.2
    rw [hcells]
    exact h.log

end

/-- The changes that can be undone: the page that holds an inserted row holds
another row, and its rows are counted exactly. -/
def Undoable (s : KeyPageStorage) (change : Change) : Prop :=
  s.Fits change.table ∧ (change.table ∉ s.ignoreTables →
    KeepsRow (s.env change.table) (s.table change.table).cached change)

theorem undo_paged (h : Recorded start s (change :: changes))
    (ht : change.table ∉ s.ignoreTables) (hundoable : Undoable s change) :
    ∃ s', Runs (undo change) s () s' ∧ Recorded start s' changes := by
  obtain ⟨state, hrun, hheap, hquiet, hundoes⟩ := undo_runs h.ok ht
    (h.dirty change (mem_cons_self ..) ht) (hundoable.2 ht)
  have hcells : (s.setTable change.table state).cells =
      Function.update s.cells (change.table, change.key) change.entry :=
    h.ok.cells_setTable ht hheap hundoes.consistent hundoes.rows
  refine ⟨s.setTable change.table state, hrun, h.ok.setTable ht hheap hundoes.consistent,
    h.config.trans setTable_config, ?_, ?_,
    h.quiet.setTable (hquiet ⟨hundoable.1 ht, h.quiet _⟩)⟩
  · intro c hc hpaged
    have hdirty := h.dirty c (mem_cons_of_mem _ hc) hpaged
    by_cases htable : c.table = change.table
    · rw [htable] at hdirty
      rw [htable, setTable_table]
      apply hundoes.dirtyRow c.key hdirty
      intro hkey hnone
      have hlog := h.log
      rw [map_cons, logItem, hnone] at hlog
      apply hlog.not_logged (logItem c) (mem_map_of_mem hc)
      rw [logItem, htable, hkey]
    · rw [setTable_other htable]
      exact hdirty
  · rw [hcells]
    exact h.log.undo

theorem undo_ignored (h : Recorded start s (change :: changes))
    (ht : change.table ∈ s.ignoreTables) :
    ∃ s', Runs (undo change) s () s' ∧ Recorded start s' changes := by
  have hbound := h.log.bound (logItem change) (mem_cons_self ..)
  rw [logItem, cells, contents, if_pos ht] at hbound
  obtain ⟨entries, hrun, hok, hlookup⟩ := h.ok.undo_ignored ht (fun _ => hbound)
  refine ⟨{ s with entries }, hrun, hok, h.config.withEntries _,
    fun c hc => h.dirty c (mem_cons_of_mem _ hc), ?_, h.quiet⟩
  rw [cells_withEntries ht hlookup]
  exact h.log.undo

/-- Undoing all recorded changes leads back to the rows at the start. -/
theorem undo_all (h : Recorded start s changes) (hundoable : Admitted undo Undoable s changes) :
    ∃ s', Runs (changes.forM undo) s () s' ∧ Recorded start s' [] := by
  induction changes generalizing s with
  | nil => exact ⟨s, .of_pure, h⟩
  | cons change changes ih =>
    have hstep : ∃ s', Runs (undo change) s () s' ∧
        Recorded start s' changes := by
      by_cases ht : change.table ∈ s.ignoreTables
      · exact h.undo_ignored ht
      · exact h.undo_paged ht hundoable.1
    obtain ⟨s₁, hrun₁, hrec₁⟩ := hstep
    obtain ⟨s₂, hrun₂, hrec₂⟩ := ih hrec₁ (hundoable.2 s₁ hrun₁)
    exact ⟨s₂, hrun₁.bind hrun₂, hrec₂⟩

end Recorded

/-! ## Answers -/

/-- The result of a call, without the state it leaves. -/
def answer {α : Type} (x : M α) (s : KeyPageStorage) : Except Fault α :=
  match x s with
  | .ok a _ => .ok a
  | .error e _ => .error e

/-- `s'` answers every call as `s` does. -/
structure AnswersAs (s s' : KeyPageStorage) : Prop where
  rows : ∀ t key, (t ∉ s.ignoreTables → key ≠ []) → s.Fits t → s'.Fits t →
    answer (asyncGetRow t key) s' = answer (asyncGetRow t key) s
  scans : ∀ t ∉ s.ignoreTables, (s.rows t).length < 2 ^ 64 → ∀ condition,
    answer (asyncGetPrimaryKeys t condition) s' = answer (asyncGetPrimaryKeys t condition) s
  hash : ∀ hashImpl, s'.hash hashImpl = s.hash hashImpl

theorem answer_of_runs {α : Type} {x : M α} {a : α} (h : Runs x s a s') : answer x s = .ok a := by
  rw [answer, h]

theorem answer_of_fails {α : Type} {x : M α} {e : Fault} (h : Fails x s e s') :
    answer x s = .error e := by
  rw [answer, h]

theorem Ok.answer_paged (h : s.Ok) (ht : t ∉ s.ignoreTables) (hkey : key ≠ []) :
    answer (asyncGetRow t key) s = .ok (s.contents.read t key) := by
  obtain ⟨s', hrun, _⟩ := h.read_runs ht hkey
  exact answer_of_runs hrun

/-- The answer to a read of a row that is not paged. -/
def sysAnswer (cached : Option Entry) (found : Except Fault (Option Entry)) :
    Except Fault (Option Entry) :=
  match cached, found with
  | some e, _ => .ok (some e)
  | none, .error e => .error (getRowFailed e)
  | none, .ok none => .ok none
  | none, .ok (some e) => .ok (some (e.setStatus .normal))

theorem Ok.answer_ignored (h : s.Ok) (ht : t ∈ s.ignoreTables) : answer (asyncGetRow t key) s =
      sysAnswer (s.contents t key) (s.prev.asyncGetRow t key) := by
  rw [contents, if_pos ht]
  rcases hfound : s.prev.asyncGetRow t key with e | found
  · rcases hcache : s.entries.find t key with - | e'
    · have hraw : Fails (getSysTableRawEntry t key) s e s := by
        apply Fails.get_bind
        rw [hcache, hfound]
        exact .of_throw
      have hfails : Fails (asyncGetRow t key) s (getRowFailed e) s := by
        apply Fails.get_bind
        rw [if_pos ht]
        exact .of_tryCatch hraw .of_throw
      exact answer_of_fails hfails
    · have hraw : Runs (getSysTableRawEntry t key) s (some e') s := by
        refine Runs.get_bind ?_
        rw [hcache]
        exact .of_pure
      have hrun : Runs (asyncGetRow t key) s (some e') s := by
        refine Runs.get_bind ?_
        rw [if_pos ht]
        exact Runs.tryCatch_of_ok hraw
      exact answer_of_runs hrun
  · have hanswer := answer_of_runs (asyncGetRow_ignored h ht hfound)
    rw [hanswer]
    unfold KeyPageStorage.lookThrough
    cases s.entries.find t key <;> cases found <;> rfl

theorem Ok.answer_scan (h : s.Ok) (ht : t ∉ s.ignoreTables) (hlen : (s.rows t).length < 2 ^ 64) :
    answer (asyncGetPrimaryKeys t (some condition)) s =
      if TableM.maxKeys < condition.limit.2.toNat then .error .lengthError
      else .ok (limitWindow condition.limit (matchingKeys condition (s.rows t))) := by
  split_ifs with htotal
  · obtain ⟨state, hscan⟩ : ∃ state, Fails (TableM.getPrimaryKeys (s.env t) t (some condition))
        (s.table t) .lengthError state :=
      TableM.getPrimaryKeys_fails (h.sees ht) (h.table t ht).consistent htotal
    have hfails : Fails (asyncGetPrimaryKeys t (some condition)) s .lengthError
        (s.setTable t state) := by
      apply Fails.get_bind
      rw [if_neg ht, Fails, onTable, hscan]
    exact answer_of_fails hfails
  · obtain ⟨state, hrun, _⟩ := asyncGetPrimaryKeys_runs h ht hlen (not_lt.mp htotal)
    exact answer_of_runs hrun

theorem answer_scan_none (ht : t ∉ s.ignoreTables) : answer (asyncGetPrimaryKeys t none) s = .error
      (.returned ⟨.readError, "asyncGetPrimaryKeys must have condition", []⟩) := by
  obtain ⟨s', hscan⟩ : ∃ s', Fails (onTable t (fun env => TableM.getPrimaryKeys env t none)) s
      (.returned ⟨.readError, "asyncGetPrimaryKeys must have condition", []⟩) s' := ⟨_, rfl⟩
  have hfails : Fails (asyncGetPrimaryKeys t none) s
      (.returned ⟨.readError, "asyncGetPrimaryKeys must have condition", []⟩) s' := by
    apply Fails.get_bind
    rw [if_neg ht]
    exact hscan
  exact answer_of_fails hfails

theorem Ok.rows_eq_of_contents (h : s.Ok) (h' : s'.Ok) (hconfig : SameConfig s s')
    (hcont : s'.contents = s.contents) (ht : t ∉ s.ignoreTables) : s'.rows t = s.rows t := by
  have ht' : t ∉ s'.ignoreTables := hconfig.ignoreTables ▸ ht
  have hmap : (⟨s'.rows t, h'.rows_increasing ht'⟩ : SortedMap Key Entry) =
      ⟨s.rows t, h.rows_increasing ht⟩ := by
    apply SortedMap.ext_mem
    intro key e
    rw [← h'.contents_eq_some ht', ← h.contents_eq_some ht, hcont]
  exact congrArg SortedMap.toList hmap

theorem Ok.answersAs (h : s.Ok) (h' : s'.Ok) (hconfig : SameConfig s s')
    (hcont : s'.contents = s.contents) : AnswersAs s s' := by
  constructor
  · intro t key hkey _ _
    by_cases ht : t ∈ s.ignoreTables
    · rw [h.answer_ignored ht, h'.answer_ignored (hconfig.ignoreTables ▸ ht), hcont, hconfig.prev]
    · rw [h.answer_paged ht (hkey ht), h'.answer_paged (hconfig.ignoreTables ▸ ht) (hkey ht), hcont]
  · intro t ht hlen condition
    have ht' : t ∉ s'.ignoreTables := hconfig.ignoreTables ▸ ht
    have hrows := h.rows_eq_of_contents h' hconfig hcont ht
    rcases condition with - | condition
    · rw [answer_scan_none ht, answer_scan_none ht']
    · rw [h.answer_scan ht hlen, h'.answer_scan ht' (hrows ▸ hlen), hrows]
  · intro hashImpl
    have hhash : XorOver (cellHash hashImpl s'.contents) (s'.hash hashImpl) :=
      h'.hash_xorOver
    rw [hcont] at hhash
    exact hhash.unique h.hash_xorOver

/-! ## Runs with rollbacks -/

/-- Record the steps with a new recoder and roll them back. -/
def revert (steps : List Step) : M Unit := do
  modify (setRecoder (some []))
  steps.forM Step.run
  rollback ((← get).recoder.getD [])

/-- The steps that may be recorded: writes, and reads of paged tables between them. -/
def Step.Recordable (s : KeyPageStorage) (i : Step) : Prop :=
  i.Safe s ∧ match i with
    | write _ _ _ => True
    | read t _ => t ∉ s.ignoreTables
    | layer _ _ => False

/-- The steps can be recorded one after the other, and each of their changes can be undone. -/
def Revertible (s : KeyPageStorage) (steps : List Step) : Prop :=
  Admitted Step.run Step.Recordable (s.setRecoder (some [])) steps ∧
    ∀ s' changes, Runs (steps.forM Step.run) (s.setRecoder (some [])) () s' →
      s'.recoder = some changes → Admitted undo Recorded.Undoable s' changes

section Revert

variable {steps : List Step}

theorem Recorded.step (h : Recorded start s changes) (hrecoder : s.recoder = some changes)
    {i : Step} (hi : i.Recordable s) : ∃ s' changes', Runs i.run s () s' ∧
      s'.recoder = some changes' ∧ Recorded start s' changes' := by
  cases i with
  | write t key entry => exact h.write hrecoder hi.1
  | read t key =>
    obtain ⟨s', hrun, hs', hrec⟩ := h.read hi.2 (hi.1.1.1 hi.2) hi.1.2
    exact ⟨s', changes, hrun, hs'.trans hrecoder, hrec⟩
  | layer pageSize ignoreNotExist => exact hi.2.elim

theorem Recorded.step_all (h : Recorded start s changes) (hrecoder : s.recoder = some changes)
    (hsteps : Admitted Step.run Step.Recordable s steps) :
    ∃ s' changes', Runs (steps.forM Step.run) s () s' ∧
      s'.recoder = some changes' ∧ Recorded start s' changes' := by
  induction steps generalizing s changes with
  | nil => exact ⟨s, changes, .of_pure, hrecoder, h⟩
  | cons i steps ih =>
    obtain ⟨s₁, changes₁, hrun₁, hrecoder₁, hrec₁⟩ := h.step hrecoder hsteps.1
    obtain ⟨s₂, changes₂, hrun₂, hrecoder₂, hrec₂⟩ :=
      ih hrec₁ hrecoder₁ (hsteps.2 s₁ hrun₁)
    exact ⟨s₂, changes₂, hrun₁.bind hrun₂, hrecoder₂, hrec₂⟩

theorem Ok.revert_runs (h : s.Ok) (hquiet : s.Quiet) (hrevertible : s.Revertible steps) :
    ∃ s', Runs (revert steps) s () s' ∧ s'.Quiet ∧ AnswersAs s s' := by
  have hstart : Recorded s (s.setRecoder (some [])) [] :=
    ⟨{ h with table := fun t ht => ⟨(h.table t ht).heap, (h.table t ht).consistent⟩ },
      (SameConfig.refl s).withRecoder _,
      fun _ hc => absurd hc not_mem_nil, .nil, hquiet⟩
  obtain ⟨s₁, changes, hrun₁, hrecoder, hrec₁⟩ :=
    hstart.step_all rfl hrevertible.1
  obtain ⟨s₂, hrun₂, hrec₂⟩ :=
    hrec₁.undo_all (hrevertible.2 s₁ changes hrun₁ hrecoder)
  refine ⟨s₂, ?_, hrec₂.quiet, h.answersAs hrec₂.ok hrec₂.config ?_⟩
  · refine Runs.of_modify.bind (hrun₁.bind (Runs.get_bind ?_))
    rw [hrecoder, Option.getD_some]
    exact hrec₁.ok.rollback_runs hrun₂
  · funext t key
    exact congrFun hrec₂.log.eq_start (t, key)

end Revert

/-- The changes a recoder may hold: of rows that were written, and are still there.  The
page that holds an inserted row holds another row. -/
def Revocable (s : KeyPageStorage) (change : Change) : Prop :=
  (change.table ∈ s.ignoreTables → change.entry = none →
    s.entries.find change.table change.key ≠ none) ∧
  (change.table ∉ s.ignoreTables →
    DirtyRow (s.env change.table) (s.table change.table).cached change.key ∧
      KeepsRow (s.env change.table) (s.table change.table).cached change)

/-- A step, or the rollback of any recoder. -/
inductive Access
  | step (i : Step)
  | rollback (recoder : Recoder)

def Access.run : Access → M Unit
  | step i => i.run
  | rollback recoder => KeyPageStorage.rollback recoder

def Access.Admits (s : KeyPageStorage) : Access → Prop
  | step i => i.Admits s
  | rollback recoder => Admitted undo Revocable s recoder

/-- An admitted access of tables whose pages are counted exactly. -/
def Access.Safe (s : KeyPageStorage) : Access → Prop
  | step i => i.Safe s
  | rollback recoder =>
    Admitted undo (fun s change => Revocable s change ∧ s.Fits change.table) s recoder

/-- The undo of a change puts the replaced entry back. -/
def undone (change : Change) (m : PlainStore) : PlainStore :=
  Function.update m change.table (Function.update (m change.table) change.key change.entry)

/-- The effect of an access on the map of rows. -/
def Access.plain : Access → PlainStore → PlainStore
  | step i, m => i.plain m
  | rollback recoder, m => specRun undone m recoder

theorem undo_simulates : Simulates undo Revocable (Holds ignored) undone := by
  rintro s m change h ⟨hbound, hpaged⟩
  by_cases ht : change.table ∈ s.ignoreTables
  · obtain ⟨entries, hrun, hok, hlookup⟩ := h.ok.undo_ignored ht (hbound ht)
    exact ⟨_, hrun, h.put hok ((SameConfig.refl s).withEntries _) (cells_withEntries ht hlookup)
      fun _ => rfl⟩
  · obtain ⟨hdirty, hkeeps⟩ := hpaged ht
    obtain ⟨state, hrun, hheap, -, hundoes⟩ := undo_runs h.ok ht hdirty hkeeps
    exact ⟨_, hrun, h.put (h.ok.setTable ht hheap hundoes.consistent) setTable_config
      (h.ok.cells_setTable ht hheap hundoes.consistent hundoes.rows) fun _ => rfl⟩

theorem undo_quiet (hok : s.Ok) (h : s.Quiet) (hrevocable : Revocable s change)
    (hfits : s.Fits change.table) (hrun : Runs (undo change) s () s') : s'.Quiet := by
  by_cases ht : change.table ∈ s.ignoreTables
  · obtain ⟨entries, hundo, -⟩ := hok.undo_ignored ht (hrevocable.1 ht)
    rw [(hrun.unique hundo).2]
    exact h
  · obtain ⟨hdirty, hkeeps⟩ := hrevocable.2 ht
    obtain ⟨state, hundo, -, hquiet, -⟩ := undo_runs hok ht hdirty hkeeps
    rw [(hrun.unique hundo).2]
    exact h.setTable (hquiet ⟨hfits ht, h _⟩)

/-- Every admitted access does to the storage what it does to the map. -/
theorem access_simulates : Simulates Access.run Access.Admits (Holds ignored) Access.plain := by
  rintro s m (i | recoder) h hadmits
  · exact step_simulates s m i h hadmits
  · obtain ⟨s', hrun, hholds⟩ := undo_simulates.runs h hadmits
    exact ⟨s', h.ok.rollback_runs hrun, hholds⟩

theorem access_safe_simulates : Simulates Access.run Access.Safe
    (fun s m => Holds ignored s m ∧ s.Quiet) Access.plain := by
  rintro s m (i | recoder) h hsafe
  · exact safe_simulates s m i h hsafe
  · have hundo : Simulates undo (fun s change => Revocable s change ∧ s.Fits change.table)
        (fun s m => Holds ignored s m ∧ s.Quiet) undone := by
      intro s m change h hsafe
      obtain ⟨s', hrun, hholds⟩ := undo_simulates s m change h.1 hsafe.1
      exact ⟨s', hrun, hholds, undo_quiet h.1.ok h.2 hsafe.1 hsafe.2 hrun⟩
    obtain ⟨s', hrun, hs'⟩ := hundo.runs h hsafe
    exact ⟨s', h.1.ok.rollback_runs hrun, hs'⟩

/-- After any run of safe accesses, steps recorded by one recoder are rolled back without a
failure or a fatal error, and the storage answers as it did before them. -/
theorem rollback_exact {archive : Archive} {prev : Prev} {pageSize : ℕ}
    {ignoreTables : Option (List Table)} {ignoreNotExist : Bool}
    (hok : (create archive prev pageSize ignoreTables ignoreNotExist).Ok) {accesses : List Access}
    (haccesses : Admitted Access.run Access.Safe
      (create archive prev pageSize ignoreTables ignoreNotExist) accesses) {steps : List Step}
    (hsteps : ∀ s, Runs (accesses.forM Access.run)
      (create archive prev pageSize ignoreTables ignoreNotExist) () s → s.Revertible steps) :
    ∃ s s', Runs (accesses.forM Access.run)
        (create archive prev pageSize ignoreTables ignoreNotExist) () s ∧
      Runs (revert steps) s () s' ∧ s'.Quiet ∧ AnswersAs s s' := by
  obtain ⟨s, hrun, hholds, hquiet⟩ :=
    access_safe_simulates.runs ⟨hok.holds_contents, create_quiet⟩ haccesses
  obtain ⟨s', hrevert, hs'⟩ := hholds.ok.revert_runs hquiet (hsteps s hrun)
  exact ⟨s, s', hrun, hrevert, hs'⟩

/-- A second row of a table is inserted, the first one is read, and the insertion is rolled
back. -/
theorem rollback_exact_second_row : ∃ s s', Runs ([Access.step
        (.write [116] [97] ⟨[1], 1, .modified⟩)].forM Access.run) (onEmpty 2048) () s ∧
      Runs (revert [.write [116] [98] ⟨[2], 1, .modified⟩, .read [116] [97]]) s () s' ∧
      s'.Quiet ∧ AnswersAs s s' := by
  apply rollback_exact onEmpty_ok
  · exact ⟨⟨fun _ => ⟨by decide, fun _ => rfl⟩, by decide⟩, fun _ _ => trivial⟩
  · intro s hs
    rw [hs.eq_final]
    constructor
    · refine .cons_final ⟨⟨fun _ => ⟨by decide, fun _ => rfl⟩, by decide +kernel⟩, trivial⟩ ?_
      refine ⟨⟨⟨⟨fun _ => by decide, fun ht => absurd ht (by decide)⟩, by decide +kernel⟩,
        by decide⟩, fun _ _ => trivial⟩
    · intro s' changes hs' hchanges
      rw [hs'.eq_final] at hchanges ⊢
      cases hchanges
      refine ⟨⟨by decide +kernel, ?_⟩, fun _ _ => trivial⟩
      decide +kernel

/-- The only row of a table is inserted and rolled back: the page information
stays in the index under the empty key, where a scan finds the index itself in
place of a page. -/
theorem scan_after_rollback_of_first_row_fails : answer (do
        revert [.write [116] [97] ⟨[1], 1, .modified⟩]
        asyncGetPrimaryKeys [116] (some ⟨[], (0, 10)⟩)) (onEmpty 2048) =
        .error .badVariantAccess ∧
      answer (asyncGetPrimaryKeys [116] (some ⟨[], (0, 10)⟩)) (onEmpty 2048) = .ok [] :=
  ⟨rfl, rfl⟩

/-! ## Listings -/

/-- The end of the window is computed in 64 bits: where it wraps around, nothing is
listed. -/
theorem limitWindow_eq_slice_iff {limit : UInt64 × UInt64} {keys : List Key} :
    limitWindow limit keys = (keys.drop limit.1.toNat).take limit.2.toNat ↔
      limit.1.toNat + limit.2.toNat < 2 ^ 64 ∨ keys.length ≤ limit.1.toNat := by
  obtain ⟨offset, total⟩ := limit
  have hoffset := offset.toNat_lt
  have htotal := total.toNat_lt
  simp only [limitWindow, windowFrom, UInt64.toNat_add, Nat.sub_zero]
  by_cases hend : offset.toNat + total.toNat < 2 ^ 64
  · rw [Nat.mod_eq_of_lt hend, drop_take, Nat.add_sub_cancel_left]
    exact iff_of_true rfl (.inl hend)
  · have hempty : drop offset.toNat (take ((offset.toNat + total.toNat) % 2 ^ 64) keys) = [] := by
      apply drop_eq_nil_of_le
      rw [length_take]
      omega
    rw [hempty, eq_comm, take_eq_nil_iff, drop_eq_nil_iff]
    omega

theorem Ok.matchingKeys_increasing (h : s.Ok) (ht : t ∉ s.ignoreTables) :
    (matchingKeys condition (s.rows t)).Pairwise (· < ·) :=
  pairwise_map.mpr ((h.rows_increasing ht).filter _)

theorem Ok.mem_matchingKeys (h : s.Ok) (ht : t ∉ s.ignoreTables) :
    key ∈ matchingKeys condition (s.rows t) ↔
      condition.isValid key ∧ ∃ e, s.contents t key = some e ∧ e.live := by
  constructor
  · intro hkey
    obtain ⟨⟨_, e⟩, hrow, rfl⟩ := mem_map.mp hkey
    obtain ⟨hmem, hmatch⟩ := mem_filter.mp hrow
    obtain ⟨hlive, hvalid⟩ := Bool.and_eq_true_iff.mp hmatch
    exact ⟨hvalid, e, (h.contents_eq_some ht).mpr hmem, hlive⟩
  · rintro ⟨hvalid, e, he, hlive⟩
    exact mem_map.mpr ⟨(key, e), mem_filter.mpr ⟨(h.contents_eq_some ht).mp he,
      Bool.and_eq_true_iff.mpr ⟨hlive, hvalid⟩⟩, rfl⟩

/-- After any run of safe accesses a listing is the requested slice of the sorted keys
that satisfy the condition and have a live entry, unless the space for the slice cannot be
reserved, or its end overflows and it is not empty. -/
theorem listing_slice_iff {archive : Archive} {prev : Prev} {pageSize : ℕ}
    {ignoreTables : Option (List Table)} {ignoreNotExist : Bool}
    (hok : (create archive prev pageSize ignoreTables ignoreNotExist).Ok) {accesses : List Access}
    (haccesses : Admitted Access.run Access.Safe
      (create archive prev pageSize ignoreTables ignoreNotExist) accesses)
    {t : Table} (ht : t ∉ ignoreTables.getD [sysTables]) (condition : Condition) :
    ∃ (s : KeyPageStorage) (keys : List Key), Runs (accesses.forM Access.run)
        (create archive prev pageSize ignoreTables ignoreNotExist) () s ∧ s.Quiet ∧
      keys.Pairwise (· < ·) ∧
      (∀ key, key ∈ keys ↔ condition.isValid key ∧
        ∃ e, specRun Access.plain (create archive prev pageSize ignoreTables
          ignoreNotExist).contents accesses t key = some e ∧ e.live) ∧
      ((s.rows t).length < 2 ^ 64 →
        (answer (asyncGetPrimaryKeys t (some condition)) s =
            .ok ((keys.drop condition.limit.1.toNat).take condition.limit.2.toNat) ↔
          condition.limit.2.toNat ≤ TableM.maxKeys ∧
            (condition.limit.1.toNat + condition.limit.2.toNat < 2 ^ 64 ∨
              keys.length ≤ condition.limit.1.toNat))) := by
  obtain ⟨s, hrun, hholds, hquiet⟩ :=
    access_safe_simulates.runs ⟨hok.holds_contents, create_quiet⟩ haccesses
  have hpaged := hholds.paged ht
  refine ⟨s, matchingKeys condition (s.rows t), hrun, hquiet,
    hholds.ok.matchingKeys_increasing hpaged, fun key => ?_, fun hlen => ?_⟩
  · rw [hholds.ok.mem_matchingKeys hpaged, hholds.contents t ht]
  · rw [hholds.ok.answer_scan hpaged hlen, ← not_lt]
    split_ifs with htotal
    · simp [htotal]
    · rw [Except.ok.injEq, limitWindow_eq_slice_iff, and_iff_right htotal]

/-- Three rows are written and the last one is rolled back; the listing has the keys from the
second on. -/
theorem listing_slice_iff_three_rows : ∃ (s : KeyPageStorage) (keys : List Key), Runs ([
        .step (.write [116] [97] ⟨[1], 1, .modified⟩),
        .step (.write [116] [98] ⟨[2], 1, .modified⟩),
        .step (.write [116] [99] ⟨[3], 1, .modified⟩),
        .rollback [⟨[116], [99], none⟩]].forM Access.run) (onEmpty 2048) () s ∧ s.Quiet ∧
      keys.Pairwise (· < ·) ∧ (keys.drop 1).take 5 = [[98]] ∧
      answer (asyncGetPrimaryKeys [116] (some ⟨[], 1, 5⟩)) s = .ok ((keys.drop 1).take 5) := by
  have haccesses : Admitted Access.run Access.Safe (onEmpty 2048)
      [.step (.write [116] [97] ⟨[1], 1, .modified⟩),
        .step (.write [116] [98] ⟨[2], 1, .modified⟩),
        .step (.write [116] [99] ⟨[3], 1, .modified⟩), .rollback [⟨[116], [99], none⟩]] := by
    refine .cons_final ⟨fun _ => ⟨by decide, fun _ => rfl⟩, by decide⟩ ?_
    refine .cons_final ⟨fun _ => ⟨by decide, fun _ => rfl⟩, by decide +kernel⟩ ?_
    refine .cons_final ⟨fun _ => ⟨by decide, fun _ => rfl⟩, by decide +kernel⟩ ?_
    refine ⟨⟨⟨⟨fun ht => absurd ht (by decide), fun _ => ⟨?_, by decide +kernel⟩⟩,
      by decide +kernel⟩, fun _ _ => trivial⟩, fun _ _ => trivial⟩
    exact ⟨_, mem_cons_self .., _, _, rfl, rfl, rfl, _,
      mem_cons_of_mem _ (mem_cons_of_mem _ (mem_cons_self ..))⟩
  obtain ⟨s, keys, hrun, hquiet, hsorted, -, hlist⟩ :=
    listing_slice_iff onEmpty_ok haccesses (t := [116]) (by decide) ⟨[], 1, 5⟩
  obtain rfl := hrun.eq_final
  have hlisted := (hlist (by decide +kernel)).mpr ⟨by decide, .inl (by decide)⟩
  refine ⟨_, keys, hrun, hquiet, hsorted, ?_, hlisted⟩
  exact Except.ok.inj (hlisted.symm.trans rfl)

/-- Two rows are inserted into an empty table and rolled back: no key has an entry, and
the listing fails where it should be empty. -/
theorem listing_after_rollback_fails : answer (do
        [.step (.write [116] [97] ⟨[1], 1, .modified⟩),
          .step (.write [116] [98] ⟨[2], 1, .modified⟩),
          .rollback [⟨[116], [98], none⟩, ⟨[116], [97], none⟩]].forM Access.run
        asyncGetPrimaryKeys [116] (some ⟨[], (0, 10)⟩)) (onEmpty 2048) =
        .error .badVariantAccess ∧
      ∀ key, specRun Access.plain (onEmpty 2048).contents
        [.step (.write [116] [97] ⟨[1], 1, .modified⟩),
          .step (.write [116] [98] ⟨[2], 1, .modified⟩),
          .rollback [⟨[116], [98], none⟩, ⟨[116], [97], none⟩]] [116] key = none := by
  refine ⟨rfl, fun key => ?_⟩
  have hempty : (onEmpty 2048).contents [116] key = none := rfl
  simp [specRun, Access.plain, Step.plain, PlainStore.write, undone, Function.update_apply, hempty]
  exact fun hne _ => hne

/-! ## The page index -/

/-- The rows of the page an entry of the index stands for. -/
def pageOf (s : KeyPageStorage) (t : Table) (info : PageInfo) : List (Key × Entry) :=
  pageRows (recordOf (s.env t) (s.table t).cached info.pageKey)

/-- The page of an entry of the index ends at or below its key, and its live rows are
counted, unless they are more than 16 bits can count. -/
structure InfoMatches (s : KeyPageStorage) (t : Table) (info : PageInfo) : Prop where
  key : info.pageKey ≠ []
  nonempty : s.pageOf t info ≠ []
  bounded : ∀ row ∈ s.pageOf t info, row.1 ≤ info.pageKey
  count : info.count.toNat = Page.liveCount (s.pageOf t info) ↔
    Page.liveCount (s.pageOf t info) < 2 ^ 16

/-- The pages of a table are in the order of their keys, and every page lies behind the
keys before its own. -/
structure IndexMatches (s : KeyPageStorage) (t : Table) : Prop where
  ordered : (s.index t).Pairwise (fun a b =>
    a.pageKey < b.pageKey ∧ ∀ row ∈ s.pageOf t b, a.pageKey < row.1)
  infos : ∀ info ∈ s.index t, InfoMatches s t info

theorem Ok.indexMatches (h : s.Ok) (ht : t ∉ s.ignoreTables) : IndexMatches s t := by
  have hc := (h.table t ht).consistent
  refine ⟨pairwise_map.mp hc.ordered.pairwise, fun info hinfo => ?_⟩
  obtain ⟨hkey, ⟨d, p, hrec, hpage, hcount⟩, _⟩ := hc.infos info hinfo
  have hrows : s.pageOf t info = p.entries.toList := by
    rw [pageOf, hrec, pageRows_eq hpage.data]
  refine ⟨hkey, hrows ▸ hpage.nonempty, (hc.ordered.bounded _ (mem_map_of_mem hinfo)).2, ?_⟩
  rw [hcount, hpage.count, hrows, UInt32.toNat_toUInt16, UInt32.toNat_ofNat']
  omega

/-- After any run of steps and rollbacks the index of a table matches its pages. -/
theorem page_index_ordered {archive : Archive} {prev : Prev} {pageSize : ℕ}
    {ignoreTables : Option (List Table)} {ignoreNotExist : Bool}
    (hok : (create archive prev pageSize ignoreTables ignoreNotExist).Ok)
    {accesses : List Access} (haccesses : Admitted Access.run Access.Admits
      (create archive prev pageSize ignoreTables ignoreNotExist) accesses)
    {t : Table} (ht : t ∉ ignoreTables.getD [sysTables]) :
    ∃ s, Runs (accesses.forM Access.run)
      (create archive prev pageSize ignoreTables ignoreNotExist) () s ∧ IndexMatches s t := by
  obtain ⟨s, hrun, hholds⟩ := access_simulates.runs hok.holds_contents haccesses
  exact ⟨s, hrun, hholds.ok.indexMatches (hholds.paged ht)⟩

/-- Two rows are inserted, and the second one is rolled back. -/
theorem page_index_ordered_two_rows : ∃ s, Runs ([.step
        (.write [116] [97] ⟨[1], 1, .modified⟩), .step (.write [116] [98] ⟨[2], 1, .modified⟩),
        .rollback [⟨[116], [98], none⟩]].forM Access.run) (onEmpty 4096) () s ∧
      IndexMatches s [116] := by
  refine page_index_ordered (t := [116]) onEmpty_ok ?_ (by decide)
  refine .cons_final (fun _ => ⟨by decide, fun _ => rfl⟩) ?_
  refine .cons_final (fun _ => ⟨by decide, fun _ => rfl⟩) (.cons_final ?_ trivial)
  refine ⟨⟨fun h => absurd h (by decide), fun _ => ⟨?_, by decide +kernel⟩⟩, fun _ _ => trivial⟩
  exact ⟨_, mem_cons_self .., _, _, rfl, rfl, rfl, _, mem_cons_of_mem _ (mem_cons_self ..)⟩

/-- The only row of a table is inserted and rolled back: its page stays in the index,
under the empty key. -/
theorem page_key_empty_after_rollback :
    ((final (revert [.write [116] [97] ⟨[1], 1, .modified⟩]) (onEmpty 4096)).index
      [116]).map PageInfo.pageKey = [[]] :=
  rfl

end KeyPageStorage

end FiscoSmart.Storage
