import FiscoSmart.Executor.TransactionExecutive

/-!
# Reverting frames

While a frame runs, the rows of the block storage are those at its start with the
writes that it and its finished calls have made, and its recoder undoes them as
long as they all went into it.  A frame that reverts after a call has finished,
or that writes after a call has returned, has rows to undo that its recoder does
not know.
-/

namespace FiscoSmart.Executor

open Storage
open Storage.StateStorage
open Support

variable {start : StateStorage} {older : Recoder} {e : Executive} {α : Type} {tableName : Table}
  {code abi : Bytes} {m : CallParameters}

def writeAll (rows : Table × Key → Option Entry)
    (writes : List ((Table × Key) × Entry)) : Table × Key → Option Entry :=
  writes.foldl (fun rows w => Function.update rows w.1 (some w.2)) rows

theorem writeAll_append {rows : Table × Key → Option Entry}
    {ws ws' : List ((Table × Key) × Entry)} :
    writeAll rows (ws ++ ws') = writeAll (writeAll rows ws) ws' :=
  List.foldl_append

/-! ## Frames at work -/

/-- What holds while a frame runs that started on `start`; `older` are the changes
that the frames around it have recorded. -/
structure Running (start : StateStorage) (older : Recoder) (e : Executive) : Prop where
  prev : e.storage.prev = start.prev
  readOnly : e.storage.readOnly = start.readOnly
  cache : start.readOnly = true → e.storage.cache = start.cache
  installed : e.trace.installed = e.parked.isNone
  recoder : e.parked = none → e.storage.recoder = some e.recoder
  logged : e.storage.Logged (e.recoder ++ older)
  kept : e.trace.Orderly → e.storage.view = writeAll start.view e.trace.kept
  recorded : e.trace.Orderly → e.trace.Recorded →
    UndoLog start.view (e.recoder.map (logItem start.prev)) e.storage.view

/-- What holds once a frame has reverted. -/
structure Reverted (start : StateStorage) (older : Recoder) (e : Executive) : Prop where
  prev : e.storage.prev = start.prev
  readOnly : e.storage.readOnly = start.readOnly
  cache : start.readOnly = true → e.storage.cache = start.cache
  recoder : e.recoder = []
  logged : e.storage.Logged older
  view : e.trace.Orderly → e.trace.Recorded → e.storage.view = start.view

/-- What holds when a call of the executive throws. -/
def Failed (start : StateStorage) (older : Recoder) (x : Exception) (e : Executive) :
    Prop :=
  x = .exit ∨ Running start older e

/-- A call that is part of a running frame. -/
def Keeps {α : Type} (previous : Previous) (x : M α) : Prop :=
  ∀ start older, start.prev = previous.getRow →
    Ensures (Running start older) x (fun _ => Running start older)
      (Failed start older)

/-- How a frame ends: its message says whether it has reverted. -/
def Ended (start : StateStorage) (older : Recoder) (m : CallParameters)
    (e : Executive) : Prop :=
  (m.type = .finished ∧ Running start older e) ∨
    (m.type = .revert ∧ Reverted start older e)

/-- A call that ends a running frame. -/
def Ends (previous : Previous) (x : M CallParameters) : Prop :=
  ∀ start older, start.prev = previous.getRow →
    Ensures (Running start older) x (Ended start older) (Failed start older)

section Storage

theorem running_new (storage : StateStorage) (older : Recoder) (seq : ℤ)
    (h : storage.Logged older) : Running storage older (.new storage seq) where
  prev := rfl
  readOnly := rfl
  cache _ := rfl
  installed := rfl
  recoder _ := rfl
  logged := ⟨h.bound, h.inserted⟩
  kept _ := rfl
  recorded _ _ := UndoLog.nil

variable (h : Running start older e) {storage : StateStorage}

include h

theorem Running.imports
    (himp : Imports e.storage storage) :
    Running start older { e with storage } := by
  have hrecoder : Executive.recoder { e with storage } = e.recoder := by
    simp [Executive.recoder, himp.recoder]
  constructor
  · exact himp.prev.trans h.prev
  · exact himp.readOnly.trans h.readOnly
  · intro hro
    exact (himp.cache (h.readOnly.trans hro)).trans (h.cache hro)
  · exact h.installed
  · intro hparked
    rw [hrecoder]
    exact himp.recoder.trans (h.recoder hparked)
  · rw [hrecoder]
    exact himp.logged _ h.logged
  · intro horderly
    exact himp.view.trans (h.kept horderly)
  · intro horderly hrecorded
    rw [hrecoder, himp.view]
    exact h.recorded horderly hrecorded

def Executive.written (e : Executive) (table : Table) (key : Key) (entry : Entry) :
    Executive :=
  { e with
    storage := e.storage.written table key entry
    trace := e.trace.setRow table key entry }

theorem Running.written (hwritable : start.readOnly = false)
    (table : Table) (key : Key) (entry : Entry) :
    Running start older (e.written table key entry) := by
  have hcache : start.readOnly = true → (e.storage.written table key entry).cache =
      start.cache := fun hro => by simp [hwritable] at hro
  have hkept : e.trace.Orderly → (e.storage.written table key entry).view =
      writeAll start.view (e.trace.kept ++ [((table, key), entry)]) := by
    intro horderly
    rw [written_view, writeAll_append, ← h.kept horderly]
    rfl
  rcases hparked : e.parked with - | own
  · have hsome := h.recoder hparked
    have hown : (e.written table key entry).recoder =
        ⟨table, key, e.storage.cache.find table key⟩ :: e.recoder := by
      rw [Executive.recoder, Executive.written, hparked]
      rw [Option.getD_none, written_recoder hsome, Option.getD_some]
    refine ⟨h.prev, h.readOnly, hcache, h.installed, ?_, ?_, hkept, ?_⟩
    · intro _
      rw [hown]
      exact written_recoder hsome
    · rw [hown]
      have hwrite := h.logged.write table key entry
      exact ⟨hwrite.bound, hwrite.inserted⟩
    · intro horderly hrecorded
      have hwrite := (h.recorded horderly hrecorded.1).write (table, key) entry
      rw [← written_view] at hwrite
      rw [hown, ← h.prev]
      rw [← h.prev] at hwrite
      exact hwrite
  · have hown : e.recoder = own := by rw [Executive.recoder, hparked]; rfl
    have hown' : (e.written table key entry).recoder = own := by
      rw [Executive.recoder, Executive.written, hparked]; rfl
    have hinstalled : e.trace.installed = false := by
      rw [h.installed, hparked]; rfl
    refine ⟨h.prev, h.readOnly, hcache, h.installed, ?_, ?_, hkept, ?_⟩
    · intro hnone
      cases hparked.symm.trans hnone
    · rw [hown', ← hown]
      have hinsert := h.logged.insert (table, key) entry
      exact ⟨hinsert.bound, hinsert.inserted⟩
    · intro _ hrecorded
      cases hinstalled.symm.trans hrecorded.2

theorem Running.setRecoder :
    Running start older { e.setRecoder with trace := e.trace.getPrimaryKeys } := { h with
  installed := rfl
  recoder _ := rfl
  logged := ⟨h.logged.bound, h.logged.inserted⟩ }

theorem Running.called {seq : ℤ}
    {returned : Option MessageType} {callee : Trace}
    (hprev : storage.prev = e.storage.prev)
    (hreadOnly : storage.readOnly = e.storage.readOnly)
    (hcache : e.storage.readOnly = true → storage.cache = e.storage.cache)
    (hlogged : storage.Logged (e.recoder ++ older))
    (hkept : (e.trace.externalCall returned callee).Orderly →
      storage.view = writeAll e.storage.view
        (if returned = some .finished then callee.kept else [])) :
    Running start older
      ⟨storage, some e.recoder, seq, e.trace.externalCall returned callee⟩ := by
  refine ⟨hprev.trans h.prev, hreadOnly.trans h.readOnly, ?_, rfl, nofun, hlogged, ?_, ?_⟩
  · intro hro
    exact (hcache (h.readOnly.trans hro)).trans (h.cache hro)
  · intro horderly
    rw [hkept horderly, h.kept horderly.1, ← writeAll_append]
    rcases returned with - | type
    · simp [Trace.kept]
    · cases type <;> simp [Trace.kept]
  · intro horderly hrecorded
    have hview : storage.view = e.storage.view := by
      rw [hkept horderly]
      by_cases hfin : returned = some .finished
      · rw [if_pos hfin, hrecorded.2 hfin]
        rfl
      · rw [if_neg hfin]
        rfl
    rw [hview]
    exact h.recorded horderly.1 hrecorded.1

end Storage

/-! ## The calls of an executive -/

section Calls

variable {previous : Previous} {β : Type} {x : M α} {a : α} {exception : Exception}

theorem Keeps.bind {f : α → M β} (hx : Keeps previous x)
    (hf : ∀ a, Keeps previous (f a)) : Keeps previous (x >>= f) :=
  fun start older hprev =>
    (hx start older hprev).bind (fun a => hf a start older hprev)

theorem Keeps.of_pure : Keeps previous (pure a : M α) :=
  fun _ _ _ => Ensures.of_pure (fun _ h => h)

theorem Keeps.of_throw : Keeps previous (throw exception : M α) :=
  fun _ _ _ => Ensures.of_throw (fun _ h => .inr h)

theorem Keeps.of_ite {c : Prop} [Decidable c] {y : M α} (hx : Keeps previous x)
    (hy : Keeps previous y) : Keeps previous (if c then x else y) :=
  fun start older hprev =>
    Ensures.of_ite (fun _ => hx start older hprev) (fun _ => hy start older hprev)

theorem Keeps.ends {f : α → M CallParameters} (hx : Keeps previous x)
    (hf : ∀ a, Ends previous (f a)) : Ends previous (x >>= f) :=
  fun start older hprev =>
    (hx start older hprev).bind (fun a => hf a start older hprev)

theorem Ends.of_ite {c : Prop} [Decidable c] {x y : M CallParameters}
    (hx : Ends previous x) (hy : Ends previous y) :
    Ends previous (if c then x else y) :=
  fun start older hprev =>
    Ensures.of_ite (fun _ => hx start older hprev) (fun _ => hy start older hprev)

theorem Ends.of_throw : Ends previous (throw exception) :=
  fun _ _ _ => Ensures.of_throw (fun _ h => .inr h)

theorem Ends.of_finished (h : m.type = .finished) : Ends previous (pure m) :=
  fun _ _ _ => Ensures.of_pure (fun _ hrunning => .inl ⟨h, hrunning⟩)

/-- A call of the storage that leaves the frame running whether it fails or not. -/
theorem ofStorage_keeps {x : StateStorage.M α}
    (h : ∀ start older e, start.prev = previous.getRow → Running start older e →
      Running start older { e with storage := final x e.storage }) :
    Keeps previous (ofStorage x) := by
  intro start older hprev e hrunning
  have hfinal := h start older e hprev hrunning
  rw [final] at hfinal
  rw [ofStorage]
  rcases hrun : x e.storage with ⟨a, storage⟩ | ⟨f, storage⟩
  · rw [hrun] at hfinal
    exact hfinal
  · rw [hrun] at hfinal
    exact .inr hfinal

variable {table : Table} {key : Key} {entry : Entry}

theorem getRow_keeps : Keeps previous (getRow table key) := by
  apply ofStorage_keeps
  intro start older e _ hrunning
  exact hrunning.imports (asyncGetRow_imports e.storage table key)

theorem getRows_keeps {keys : List Key} : Keeps previous (getRows previous table keys) := by
  apply ofStorage_keeps
  intro start older e hprev hrunning
  exact hrunning.imports
    (asyncGetRows_imports (hrunning.prev.trans hprev))

theorem setRow_keeps : Keeps previous (setRow table key entry) := by
  intro start older _ e hrunning
  rcases hro : e.storage.readOnly with - | -
  · have hruns : setRow table key entry e = .ok () (e.written table key entry) := by
      have hstep : Runs (ofStorage (asyncSetRow table key entry)) e ()
          { e with storage := e.storage.written table key entry } := by
        rw [Runs, ofStorage, asyncSetRow_runs hro]
      exact hstep.bind Runs.of_modify
    rw [hruns]
    exact hrunning.written (hrunning.readOnly.symm.trans hro) table key entry
  · have hfails : setRow table key entry e = .error
        (thrown (.returned ⟨.readOnly, "Try to operate a read-only storage", []⟩))
        e := by
      have hstep : ofStorage (asyncSetRow table key entry) e = .error
          (thrown (.returned ⟨.readOnly, "Try to operate a read-only storage", []⟩))
          e := by
        rw [ofStorage, asyncSetRow_fails hro]
      exact Fails.bind hstep
    rw [hfails]
    exact .inr hrunning

theorem getPrimaryKeys_keeps : Keeps previous getPrimaryKeys :=
  fun _ _ _ _ hrunning => hrunning.setRecoder

theorem withMessage_keeps {message : Bytes} (hx : Keeps previous x) :
    Keeps previous (withMessage message x) := by
  intro start older hprev
  refine (hx start older hprev).tryCatch ?_
  intro exception
  cases exception with
  | error errorMessage =>
    rintro s (h | h)
    · cases h
    · exact .inr h
  | _ => exact .of_throw (fun _ h => h)

theorem createTable_keeps {valueFields : Bytes} :
    Keeps previous (createTable tableName valueFields) := by
  apply Keeps.bind (withMessage_keeps getRow_keeps)
  intro row
  rcases row with - | -
  · exact withMessage_keeps setRow_keeps
  · exact Keeps.of_throw

theorem openTable_keeps : Keeps previous (openTable tableName) :=
  .of_ite .of_pure (getRow_keeps.bind (fun _ => .of_pure))

variable {ctx : BlockContext}

theorem creatAuthTable_keeps {origin sender : Bytes} :
    Keeps previous (creatAuthTable ctx tableName origin sender) := by
  apply Keeps.of_ite .of_pure
  apply Keeps.bind createTable_keeps
  intro _
  iterate 4
    apply Keeps.bind setRow_keeps
    intro _
  exact setRow_keeps

theorem setCode_keeps : Keeps previous (setCode ctx tableName code) := by
  apply Keeps.bind openTable_keeps
  intro isOpen
  apply Keeps.of_ite _ .of_pure
  apply Keeps.bind setRow_keeps
  intro _
  exact setRow_keeps.bind (fun _ => .of_pure)

theorem setCodeAndAbi_keeps : Keeps previous (setCodeAndAbi ctx tableName code abi) :=
  setCode_keeps.bind (fun _ => .of_ite setRow_keeps .of_pure)

theorem createTables_keeps {callParameters : CallParameters} :
    Keeps previous (createTables ctx tableName callParameters) :=
  createTable_keeps.bind (fun _ => .of_ite creatAuthTable_keeps .of_pure)

theorem writeInternalCode_keeps {newAddress codeString : Bytes} :
    Keeps previous (writeInternalCode ctx newAddress tableName codeString) := by
  apply Keeps.of_ite
  · exact createTable_keeps.bind (fun _ => setRow_keeps)
  · apply Keeps.bind createTable_keeps
    intro _
    apply Keeps.bind createTable_keeps
    intro _
    iterate 2
      apply Keeps.bind setRow_keeps
      intro _
    exact setRow_keeps

end Calls

/-! ## Reverting -/

section Reverting

variable {previous : Previous} {E : Exception → Executive → Prop}

theorem Executive.clear_recoder : e.clear.recoder = [] := by
  rw [clear]
  rcases hparked : e.parked with - | own
  · simp only [recoder, Option.getD_none]; rfl
  · rfl

theorem Executive.clear_storage : ∃ own, e.clear.storage = e.storage.setRecoder own := by
  rw [clear]
  rcases e.parked with - | own
  · exact ⟨some [], rfl⟩
  · exact ⟨e.storage.recoder, rfl⟩

theorem Executive.clear_trace : e.clear.trace = e.trace := by
  rw [clear]
  cases e.parked <;> rfl

theorem revert_runs (hlogged : e.storage.Logged (e.recoder ++ older)) :
    ∃ e', Runs revert e () e' ∧ e'.recoder = [] ∧ e'.trace = e.trace ∧
      e'.storage.prev = e.storage.prev ∧
      e'.storage.readOnly = e.storage.readOnly ∧
      e'.storage.Logged older ∧
      (e.storage.readOnly = true → e'.storage.cache = e.storage.cache) ∧
      (e.storage.readOnly = false → e'.storage.view =
        putBack (e.recoder.map (logItem e.storage.prev)) e.storage.view) := by
  obtain ⟨cache, hrun, hlogged', hcache, hview⟩ := hlogged.rollback
  let undone : Executive := { e with storage := e.storage.withCache cache }
  have hstep : Runs (ofStorage (StateStorage.rollback e.recoder)) e () undone := by
    rw [Runs, ofStorage, hrun]
  obtain ⟨own, hstorage⟩ := undone.clear_storage
  refine ⟨undone.clear, Runs.get_bind (hstep.bind .of_modify),
    undone.clear_recoder, undone.clear_trace, ?_⟩
  rw [hstorage]
  exact ⟨rfl, rfl, ⟨hlogged'.bound, hlogged'.inserted⟩, hcache, hview⟩

theorem revert_running :
    Ensures (Running start older) revert (fun _ => Reverted start older) E := by
  intro e h
  obtain ⟨e', hrun, hrecoder, htrace, hprev, hreadOnly, hlogged, hcache, hview⟩ :=
    revert_runs h.logged
  have hcache' : start.readOnly = true → e'.storage.cache = start.cache := by
    intro hro
    exact (hcache (h.readOnly.trans hro)).trans (h.cache hro)
  rw [hrun]
  refine ⟨hprev.trans h.prev, hreadOnly.trans h.readOnly, hcache', hrecoder, hlogged, ?_⟩
  intro horderly hrecorded
  rw [htrace] at horderly hrecorded
  rcases hro : start.readOnly with - | -
  · have hlog := h.recorded horderly hrecorded
    rw [← h.prev] at hlog
    rw [hview (h.readOnly.trans hro), hlog.putBack_eq]
  · funext x
    simp [view, hcache' hro, hprev, h.prev]

theorem revert_reverted :
    Ensures (Reverted start older) revert (fun _ => Reverted start older) E := by
  intro e h
  have hlogged : e.storage.Logged (e.recoder ++ older) := by
    rw [h.recoder]
    exact h.logged
  obtain ⟨e', hrun, hrecoder, htrace, hprev, hreadOnly, hlogged', hcache, hview⟩ :=
    revert_runs hlogged
  have hview' : e'.storage.view = e.storage.view := by
    rcases hro : e.storage.readOnly with - | -
    · rw [hview hro, h.recoder]
      rfl
    · funext x
      simp [view, hcache hro, hprev]
  rw [hrun]
  refine ⟨hprev.trans h.prev, hreadOnly.trans h.readOnly, ?_, hrecoder, hlogged', ?_⟩
  · intro hro
    exact (hcache (h.readOnly.trans hro)).trans (h.cache hro)
  · intro horderly hrecorded
    rw [htrace] at horderly hrecorded
    exact hview'.trans (h.view horderly hrecorded)

variable {x : M CallParameters}

theorem revertWith_running :
    Ensures (Running start older) (revertWith m)
      (fun m' e => m' = { m with type := .revert } ∧ Reverted start older e) E :=
  revert_running.bind (fun _ => .of_pure (fun _ h => ⟨rfl, h⟩))

theorem revertWith_ends : Ends previous (revertWith m) := by
  intro start older _
  apply revertWith_running.post
  rintro m' e ⟨rfl, h⟩
  exact .inr ⟨rfl, h⟩

theorem buildBfsFailed_ends : Ends previous (buildBfsFailed m) :=
  revertWith_ends

theorem revertWith_failed {x : Exception} (hx : x ≠ .exit) :
    Ensures (Failed start older x) (revertWith m) (Ended start older) E := by
  have hends : Ensures (Running start older) (revertWith m) (Ended start older) E := by
    apply revertWith_running.post
    rintro m' e ⟨rfl, h⟩
    exact .inr ⟨rfl, h⟩
  apply hends.pre
  rintro e (h | h)
  · exact absurd h hx
  · exact h

/-- How a call inside `go` may fail: `InternalVMError` leaves the process. -/
def Halted (start : StateStorage) (older : Recoder) (x : Exception) (e : Executive) :
    Prop :=
  x = .internalVMError ∨ Failed start older x e

theorem caught_ensures (x : Exception) :
    Ensures (Halted start older x) (caught m x) (Ended start older) (Failed start older) := by
  cases x with
  | error errorMessage =>
    have hne : Exception.error errorMessage ≠ .exit := by simp
    apply (revertWith_failed hne).pre
    rintro e (h | h)
    · cases h
    · exact h
  | _ => exact .of_throw (fun _ _ => .inl rfl)

theorem tryCatch_caught_ensures {P : Executive → Prop}
    (hx : Ensures P x (Ended start older) (Halted start older)) :
    Ensures P (tryCatch x (caught m)) (Ended start older) (Failed start older) :=
  hx.tryCatch caught_ensures

theorem Ends.halted (hx : Ends previous x) (hprev : start.prev = previous.getRow) :
    Ensures (Running start older) x (Ended start older) (Halted start older) :=
  (hx start older hprev).fail (fun _ _ h => .inr h)

end Reverting

/-! ## The frames -/

section Frames

variable {previous : Previous} {result : Result}

/-- The status of the message tells whether the result of the machine reverts. -/
theorem parseEVMCResult_ensures : Ensures (Running start older) (parseEVMCResult m result)
      (fun m' e => (m'.status = .none ∧ m'.type = .finished ∧ Running start older e) ∨
        (m'.status ≠ .none ∧ m'.type = .revert ∧ Reverted start older e)) (Halted start older) := by
  have hrevert : ∀ m' : CallParameters, m'.status ≠ .none →
      Ensures (Running start older) (revertWith m')
        (fun m' e => (m'.status = .none ∧ m'.type = .finished ∧ Running start older e) ∨
          (m'.status ≠ .none ∧ m'.type = .revert ∧ Reverted start older e))
        (Halted start older) := by
    intro m' hstat
    apply revertWith_running.post
    rintro m'' e ⟨rfl, h⟩
    exact .inr ⟨hstat, rfl, h⟩
  rw [parseEVMCResult]
  cases result.status with
  | success => exact .of_pure (fun _ h => .inl ⟨rfl, rfl, h⟩)
  | internalError =>
    exact revert_running.bind (fun _ => .of_throw (fun _ _ => .inl rfl))
  | _ => exact hrevert _ (by simp)

theorem parseEVMCResult_ended :
    Ensures (Running start older) (parseEVMCResult m result) (Ended start older)
      (Halted start older) := by
  apply parseEVMCResult_ensures.post
  rintro m' e (⟨-, h⟩ | ⟨-, h⟩)
  · exact .inl h
  · exact .inr h

/-- The contracts that a frame runs are part of it. -/
structure Behaviour.Ok (previous : Previous) (b : Behaviour) : Prop where
  checkContractAvailable : Keeps previous b.checkContractAvailable
  checkAuth : Keeps previous b.checkAuth
  body : Keeps previous b.body
  buildBfsPath : Keeps previous b.buildBfsPath

variable {b : Behaviour} (hb : b.Ok previous) {ctx : BlockContext}

include hb

omit hb in
theorem precompiledFailed_ensures (x : Exception) :
    Ensures (Failed start older x) (precompiledFailed ctx m x) (Ended start older)
      (Failed start older) := by
  cases x with
  | exit => exact .of_throw (fun _ _ => .inl rfl)
  | _ => exact revertWith_failed (by simp)

omit hb in
theorem precompiledAddress_keeps : Keeps previous (precompiledAddress ctx m) := by
  apply Keeps.of_ite _ .of_pure
  rcases ctx.decode m.data with x | contract
  · exact Keeps.of_throw
  · exact Keeps.of_pure

theorem runPrecompiled_ends {address : Bytes} : Ends previous (runPrecompiled ctx b m address) :=
  (Keeps.of_ite hb.body .of_throw).ends
    (fun _ => .of_ite revertWith_ends (.of_finished rfl))

theorem callPrecompiled_ends : Ends previous (callPrecompiled ctx b m) := by
  apply precompiledAddress_keeps.ends
  intro address start older hprev
  exact (runPrecompiled_ends hb start older hprev).tryCatch precompiledFailed_ensures

theorem callDynamicPrecompiled_ends : Ends previous (callDynamicPrecompiled ctx b m code) := by
  rw [callDynamicPrecompiled]
  split
  · intro start older hprev
    apply (callPrecompiled_ends hb start older hprev).bind
    intro m'
    exact Ensures.of_pure (fun _ h => h)
  · exact Ends.of_throw

theorem internalCreate_ends : Ends previous (internalCreate ctx b m) := by
  rw [internalCreate]
  rcases ctx.decode m.data with x | decoded
  · exact Ends.of_throw
  · apply hb.buildBfsPath.ends
    intro built
    apply Ends.of_ite _ buildBfsFailed_ends
    exact writeInternalCode_keeps.ends (fun _ => .of_finished rfl)

omit hb in
theorem deploy_ends (hm : m.type = .finished) {output : Bytes} :
    Ends previous (deploy ctx tableName abi m output) := by
  apply setCodeAndAbi_keeps.ends
  intro _
  refine Ends.of_ite (.of_finished ?_) (.of_ite revertWith_ends
    (setCode_keeps.ends (fun _ => .of_finished ?_)))
  · exact hm
  · exact hm

theorem created_ended (hprev : start.prev = previous.getRow) :
    Ensures (Running start older) (created ctx b tableName abi m result)
      (Ended start older) (Halted start older) := by
  apply parseEVMCResult_ensures.bind
  intro m'
  apply Ensures.of_ite
  · intro hstat
    have hrevert : Ensures (Reverted start older) (revertWith { m' with create := false })
        (Ended start older) (Halted start older) :=
      revert_reverted.bind (fun _ => Ensures.of_pure (fun _ h => .inr ⟨rfl, h⟩))
    apply hrevert.pre
    rintro e (⟨hnone, -⟩ | ⟨-, -, h⟩)
    · exact absurd hnone hstat
    · exact h
  · intro hstat
    have hfin : ∀ e, ((m'.status = .none ∧ m'.type = .finished ∧
        Running start older e) ∨ (m'.status ≠ .none ∧ m'.type = .revert ∧
        Reverted start older e)) → m'.type = .finished ∧ Running start older e := by
      rintro e (⟨-, h⟩ | ⟨hsome, -⟩)
      · exact h
      · exact absurd hsome hstat
    apply Ensures.assume hfin
    intro hm
    refine Ends.halted ?_ hprev
    have hdeploy : Ends previous (deploy ctx tableName abi m' result.output) :=
      deploy_ends hm
    apply Ends.of_ite revertWith_ends
    apply Ends.of_ite revertWith_ends
    apply Ends.of_ite _ hdeploy
    apply hb.buildBfsPath.ends
    intro built
    exact .of_ite hdeploy buildBfsFailed_ends

omit hb in
theorem tryThen_caught_ends {x : M α} {next : α → M CallParameters}
    (hx : Keeps previous x) (hnext : ∀ a, Ends previous (next a)) :
    Ends previous (tryThen x (caught m) next) := by
  intro start older hprev
  apply (hx start older hprev).tryThen
  · intro exception
    exact (caught_ensures exception).pre (fun _ h => .inr h)
  · intro a
    exact hnext a start older hprev

theorem goCreate_ends : Ends previous (goCreate ctx b tableName abi m) := by
  apply tryThen_caught_ends hb.body
  intro result start older hprev
  exact tryCatch_caught_ensures (created_ended hb hprev)

theorem goCode_ends : Ends previous (goCode ctx b m code) := by
  apply Ends.of_ite
  · intro start older hprev
    exact tryCatch_caught_ensures ((callDynamicPrecompiled_ends hb).halted hprev)
  · apply tryThen_caught_ends hb.body
    intro result start older _
    exact tryCatch_caught_ensures parseEVMCResult_ended

theorem goCall_ends : Ends previous (goCall ctx b tableName m) := by
  apply tryThen_caught_ends getRow_keeps
  intro codeEntry
  rcases codeEntry with - | codeEntry
  · intro start older hprev
    exact tryCatch_caught_ensures (revertWith_ends.halted hprev)
  · exact goCode_ends hb

theorem checkAuth_keeps : Keeps previous (checkAuth b m) :=
  .of_ite .of_pure hb.checkAuth

theorem call_ends : Ends previous (call ctx b m) := by
  apply Ends.of_ite (callPrecompiled_ends hb)
  apply Ends.of_ite _ (goCall_ends hb)
  apply hb.checkContractAvailable.ends
  intro available
  apply Ends.of_ite _ revertWith_ends
  apply (checkAuth_keeps hb).ends
  intro allowed
  exact .of_ite (goCall_ends hb) revertWith_ends

theorem createdTables_ends : Ends previous (createdTables ctx b tableName abi m) := by
  apply Ends.of_ite _ (goCreate_ends hb)
  rcases ctx.decode m.data with x | decoded
  · exact Ends.of_throw
  · apply Ends.of_ite _ revertWith_ends
    rcases ctx.injectMeter decoded.1 with - | code
    · exact revertWith_ends
    · exact goCreate_ends hb

omit hb in
theorem createTablesFailed_ensures (x : Exception) :
    Ensures (Failed start older x) (createTablesFailed m x) (Ended start older)
      (Failed start older) := by
  cases x with
  | exit => exact .of_throw (fun _ _ => .inl rfl)
  | _ => exact revertWith_failed (by simp)

theorem createAllowed_ends : Ends previous (createAllowed ctx b m) := by
  intro start older hprev
  apply (createTables_keeps start older hprev).tryThen
  · intro exception
    exact createTablesFailed_ensures exception
  · intro _
    exact createdTables_ends hb start older hprev

theorem create_ends : Ends previous (create ctx b m) := by
  apply Ends.of_ite (internalCreate_ends hb)
  apply Ends.of_ite _ (createAllowed_ends hb)
  apply (checkAuth_keeps hb).ends
  intro allowed
  exact .of_ite (createAllowed_ends hb) revertWith_ends

theorem execute_ends (ctx : BlockContext) (m : CallParameters) : Ends previous (execute ctx b m) :=
  .of_ite (create_ends hb) (call_ends hb)

theorem externalCall_keeps {cid : ℤ} {input : CallParameters} :
    Keeps previous (externalCall ctx cid b input) := by
  intro start older hprev e h
  have hcallee := execute_ends hb ctx (externalInput ctx cid (e.seq + 1) input)
    e.storage (e.recoder ++ older) (h.prev.trans hprev)
    (.new e.storage (e.seq + 1)) (running_new e.storage _ _ h.logged)
  rw [externalCall]
  cases hrun : execute ctx b (externalInput ctx cid (e.seq + 1) input)
      (.new e.storage (e.seq + 1)) with
  | ok output callee =>
    rw [hrun] at hcallee
    rcases hcallee with ⟨htype, hrunning⟩ | ⟨htype, hreverted⟩
    · refine h.called hrunning.prev hrunning.readOnly hrunning.cache
        (hrunning.logged.suffix _) ?_
      intro horderly
      rw [htype, if_pos rfl]
      exact hrunning.kept horderly.2.1
    · refine h.called hreverted.prev hreverted.readOnly hreverted.cache
        hreverted.logged ?_
      intro horderly
      rw [htype] at horderly ⊢
      exact hreverted.view horderly.2.1 (horderly.2.2.1 rfl)
  | error x callee =>
    rw [hrun] at hcallee
    rcases hcallee with rfl | hrunning
    · exact .inl rfl
    · have hcalled : Running start older ⟨callee.storage, some e.recoder, e.seq,
          e.trace.externalCall none callee.trace⟩ := by
        refine h.called hrunning.prev hrunning.readOnly hrunning.cache
          (hrunning.logged.suffix _) ?_
        intro horderly
        rw [if_neg (by simp), hrunning.kept horderly.2.1, horderly.2.2.2 rfl]
      cases x with
      | exit => exact .inl rfl
      | _ => exact hcalled

end Frames

/-! ## Call trees -/

section Trees

variable (previous : Previous) (ctx : BlockContext) (cid : ℤ)

theorem passes_keeps {previous : Previous} {x : M Result} (hx : Keeps previous x) :
    Keeps previous (passes x) :=
  hx.bind (fun _ => .of_pure)

theorem attempt_keeps {previous : Previous} {x : M α}
    (hx : Keeps previous x) : Keeps previous (attempt x) := by
  intro start older hprev e h
  have hres := hx start older hprev e h
  rw [attempt]
  rcases hrun : x e with ⟨a, e'⟩ | ⟨exception, e'⟩
  · rw [hrun] at hres
    exact hres
  · rw [hrun] at hres
    rcases hres with rfl | hrunning
    · exact .inl rfl
    · cases exception with
      | exit => exact .inl rfl
      | _ => exact hrunning

theorem Code.run_keeps {code : Code} : Keeps previous (code.run previous ctx cid) := by
  induction code with
  | done result => exact Keeps.of_pure
  | raise e => exact Keeps.of_throw
  | getRow table key next ih =>
    exact (attempt_keeps getRow_keeps).bind ih
  | getRows table keys next ih =>
    exact (attempt_keeps getRows_keeps).bind ih
  | setRow table key entry next ih =>
    exact (attempt_keeps setRow_keeps).bind ih
  | getPrimaryKeys next ih => exact getPrimaryKeys_keeps.bind (fun _ => ih)
  | externalCall input available auth body bfs next havailable hauth hbody hbfs ih =>
    refine Keeps.bind (externalCall_keeps ⟨?_, ?_, ?_, ?_⟩) ih
    · exact passes_keeps havailable
    · exact passes_keeps hauth
    · exact hbody
    · exact passes_keeps hbfs

/-- A frame that reverts leaves the rows as they were when it started, and one that
finishes keeps its writes and those of its finished calls, if no frame below it
leaves a write behind and everything a reverting frame has to undo is in its
recoder. -/
theorem start_atomic (frame : Frame) (input : CallParameters) (readOnly : Bool)
    (cache : RowCache) (recoder : Option Recoder) {m : CallParameters} {e : Executive}
    (hstart : frame.start previous ctx input
      ⟨previous.getRow, readOnly, cache, recoder⟩ = .ok m e)
    (horderly : e.trace.Orderly)
    (hrecorded : m.type = .revert → e.trace.Recorded) :
    (m.type = .revert ∧
      AnswersAs ⟨previous.getRow, readOnly, cache, recoder⟩ e.storage) ∨
    (m.type = .finished ∧ e.storage.view =
      writeAll (view ⟨previous.getRow, readOnly, cache, recoder⟩) e.trace.kept) := by
  have hlogged : Logged ⟨previous.getRow, readOnly, cache, recoder⟩ [] :=
    ⟨fun _ hc => absurd hc List.not_mem_nil, List.Pairwise.nil⟩
  have hends := execute_ends
    (b := behaviour (frame.checkContractAvailable.run previous ctx input.contextID)
      (frame.checkAuth.run previous ctx input.contextID)
      (frame.body.run previous ctx input.contextID)
      (frame.buildBfsPath.run previous ctx input.contextID))
    ⟨passes_keeps (Code.run_keeps previous ctx _),
      passes_keeps (Code.run_keeps previous ctx _),
      Code.run_keeps previous ctx _,
      passes_keeps (Code.run_keeps previous ctx _)⟩ ctx input
    ⟨previous.getRow, readOnly, cache, recoder⟩ [] rfl
  have hended := hends.ok (running_new _ [] input.seq hlogged) hstart
  rcases hended with ⟨htype, hrunning⟩ | ⟨htype, hreverted⟩
  · exact .inr ⟨htype, hrunning.kept horderly⟩
  · refine .inl ⟨htype, ?_⟩
    exact answersAs_of_view hreverted.prev hreverted.readOnly hreverted.cache
      (hreverted.view horderly (hrecorded htype))

end Trees

/-! ## A frame that cannot undo -/

namespace Example

def previous : Previous where
  getRow _ _ := .ok none
  getRows _ keys := .ok (keys.map (fun _ => none))
  length_eq := by
    rintro table keys entries h
    cases h
    simp
  agrees := by
    rintro table keys entries h key entry hmem
    cases h
    rw [List.zip_map_right] at hmem
    obtain ⟨x, -, hx⟩ := List.mem_map.mp hmem
    cases hx

/-- A block context without permission checks and precompiled contracts. -/
def ctx : BlockContext where
  number := 1
  isWasm := false
  isAuthCheck := false
  maxCodeSize := 0x40000
  createDataGas := 20
  exceptionalFailedCodeDeposit := true
  constantPrecompiled _ := false
  hash code := code
  newEVMAddress _ _ _ := []
  newEVMAddressSalt _ _ _ := []
  encode _ data := data
  decode data := .ok (data, [])
  errorOutput what := what
  injectMeter code := some code

def table : Table := bytes "/apps/"

/-- The block storage: the contract has code. -/
def cache : RowCache := AList.insert (table, accountCode) (importFields [1]) ∅

def input : CallParameters := .new .message

def returns (status : EvmcStatus) : Code := .done ⟨status, 0, []⟩

/-- A call of the contract, whose code is `body`. -/
def calls (body next : Code) : Code :=
  .externalCall input (returns .success) (returns .success) body (returns .success)
    (fun _ => next)

def writes (key : Key) (next : Code) : Code :=
  .setRow table key (importFields [2]) (fun _ => next)

def frame (body : Code) : Frame :=
  ⟨returns .success, returns .success, body, returns .success⟩

/-- The message of a frame and the rows it writes, after it has returned. -/
def outcome (body : Code) : Option (MessageType × List (Option Entry)) :=
  match (frame body).start previous ctx input ⟨previous.getRow, false, cache, none⟩ with
  | .ok m e => some (m.type, [[1], [2], [3]].map (e.storage.cache.find table))
  | .error _ _ => none

/-- The frame writes, calls a contract that writes and finishes, writes again and
reverts. -/
def lossy : Code :=
  writes [1] (calls (writes [2] (returns .success)) (writes [3] (returns .revert)))

/-- The frame writes, calls a contract that only reads, and reverts. -/
def clean : Code :=
  writes [1] (calls (.getRow table [1] (fun _ => returns .success)) (returns .revert))

end Example

/-- The rows written by the callee and after the call survive the revert. -/
theorem revert_keeps_rows_of_callee :
    Example.outcome Example.lossy =
        some (.revert, [none, some (importFields [2]), some (importFields [2])]) ∧
      [[1], [2], [3]].map (Example.cache.find Example.table) = [none, none, none] := by
  decide +kernel

/-- A frame that writes only before it calls is undone. -/
theorem start_atomic_clean :
    ∃ m e, (Example.frame Example.clean).start Example.previous Example.ctx
        Example.input ⟨Example.previous.getRow, false, Example.cache, none⟩ =
          .ok m e ∧
      m.type = .revert ∧
      AnswersAs ⟨Example.previous.getRow, false, Example.cache, none⟩ e.storage := by
  refine ⟨_, _, rfl, rfl, ?_⟩
  rcases start_atomic Example.previous Example.ctx (Example.frame Example.clean)
    Example.input false Example.cache none rfl
    ⟨trivial, trivial, nofun, nofun⟩
    (fun _ => ⟨⟨trivial, rfl⟩, fun _ => rfl⟩) with h | h
  · exact h.2
  · cases h.1

end FiscoSmart.Executor
