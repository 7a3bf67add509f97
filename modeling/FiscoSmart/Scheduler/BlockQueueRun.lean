import FiscoSmart.Scheduler.BlockQueue

/-!
# Runs of the block queue

Two things go wrong in a run of the scheduler.  Block `0` is put into an empty
queue whatever the height of the chain is; this is how the system contracts are
deployed.  And a handler, which runs without the mutex of the queue, may come too
late: it reads the front of the queue when the last block has been popped, or the
iterator of a block that has been popped because its execution failed.

In the runs without these steps the queue holds the blocks that follow the
last committed one, all but the last of them executed; blocks are committed in
order; and every request is answered once.
-/

namespace FiscoSmart.Scheduler.BlockQueue

open List Option

variable {s t : State} {c : Committing} {request : ℕ} {block : Block} {height : ℤ}

/-! ## Requests and their answers -/

section Accounting

def State.answers (s : State) (request : ℕ) : ℕ := (s.callbacks.map Prod.fst).count request

/-- How often a request is at work: as an execution, as a commit, or with a handler. -/
def State.atWork (s : State) (request : ℕ) : ℕ :=
  (s.executing.toList.map Executing.request).count request +
    (s.committing.toList.map Committing.request).count request +
    (s.handlers.map Prod.fst).count request

/-- Every request was either answered once or is at work. -/
def Accounted (s : State) : Prop :=
  ∀ request, s.answers request + s.atWork request = if request < s.nextRequest then 1 else 0

theorem accounted_initial : Accounted (.initial height) := by
  intro request
  simp [State.initial, State.answers, State.atWork]

variable {answer : Answer}

theorem Accounted.of_new (h : Accounted s) (hnext : t.nextRequest = s.nextRequest + 1)
    (hsum : ∀ r, t.answers r + t.atWork r =
      s.answers r + s.atWork r + if s.nextRequest = r then 1 else 0) : Accounted t := by
  intro r
  have hr := h r
  rw [hsum r, hnext]
  split_ifs at hr ⊢ <;> omega

theorem Accounted.of_same (h : Accounted s) (hnext : t.nextRequest = s.nextRequest)
    (hsum : ∀ r, t.answers r + t.atWork r = s.answers r + s.atWork r) : Accounted t := by
  intro r
  rw [hsum r, hnext, h r]

section

variable (h : Accounted s)

include h

theorem Accounted.routed (handler : Handler) : Accounted (s.routed handler) := by
  refine h.of_new rfl fun r => ?_
  simp only [State.answers, State.atWork, State.routed, State.newRequest, map_append, map_cons,
    map_nil, count_append, count_cons, count_nil, beq_iff_eq]
  omega

theorem Accounted.start (hexecuting : s.executing = none) (number : ℤ) :
    Accounted (s.start number) := by
  refine h.of_new rfl fun r => ?_
  simp only [State.answers, State.atWork, State.start, hexecuting, toList_none,
    toList_some, map_nil, map_cons, count_nil, count_cons, beq_iff_eq]
  omega

theorem Accounted.endExecution {e : Executing} (he : s.executing = some e) (ht : t.executing = none)
    (hcommitting : t.committing = s.committing) (hhandlers : t.handlers = s.handlers)
    (hnext : t.nextRequest = s.nextRequest)
    (hcallbacks : t.callbacks = s.callbacks ++ [(e.request, answer)]) : Accounted t := by
  refine h.of_same hnext fun r => ?_
  simp only [State.answers, State.atWork, ht, he, hcommitting, hhandlers, hcallbacks,
    toList_none, toList_some, map_nil, map_cons, map_append,
    count_nil, count_cons, count_append, beq_iff_eq]
  omega

theorem Accounted.endCommit (hc : s.committing = some c)
    (answer : Answer) : Accounted ({ s with committing := none }.callback c.request answer) := by
  refine h.of_same rfl fun r => ?_
  simp only [State.callback, State.answers, State.atWork, hc, toList_none,
    toList_some, map_nil, map_cons, map_append, count_nil, count_cons, count_append, beq_iff_eq]
  omega

theorem Accounted.setCommitting {c' : Committing}
    (hc : s.committing = some c) (ht : t.committing = some c')
    (hreq : c'.request = c.request) (hexecuting : t.executing = s.executing)
    (hhandlers : t.handlers = s.handlers) (hnext : t.nextRequest = s.nextRequest)
    (hcallbacks : t.callbacks = s.callbacks) : Accounted t := by
  refine h.of_same hnext fun r => ?_
  simp [State.answers, State.atWork, hc, ht, hexecuting, hhandlers, hcallbacks, toList_some,
    map_nil, map_cons, hreq]

end

theorem count_erase_handlers {handlers : List (ℕ × Handler)} {handler : Handler}
    (hmem : (request, handler) ∈ handlers) (r : ℕ) :
    ((handlers.erase (request, handler)).map Prod.fst).count r + (if request = r then 1 else 0) =
      (handlers.map Prod.fst).count r := by
  have hperm := (perm_cons_erase hmem).map Prod.fst
  rw [hperm.count_eq r, map_cons, count_cons]
  simp

section Handled

variable {handler : Handler} (h : Accounted s) (hmem : (request, handler) ∈ s.handlers)

include h hmem

theorem Accounted.answerHandler (answer : Answer) :
    Accounted ({ s with handlers := s.handlers.erase (request, handler) }.callback request
      answer) := by
  refine h.of_same rfl fun r => ?_
  have hcount := count_erase_handlers hmem r
  simp only [State.callback, State.answers, State.atWork, map_append, map_cons,
    map_nil, count_append, count_cons, count_nil, beq_iff_eq]
  omega

theorem Accounted.nextHandler (next : Handler) : Accounted { s with
    handlers := s.handlers.erase (request, handler) ++ [(request, next)] } := by
  refine h.of_same rfl fun r => ?_
  have hcount := count_erase_handlers hmem r
  simp only [State.answers, State.atWork, map_append, map_cons, map_nil, count_append, count_cons,
    count_nil, beq_iff_eq]
  omega

theorem Accounted.takeMutex (hcommitting : s.committing = none) : Accounted { s with
    handlers := s.handlers.erase (request, handler)
    committing := some ⟨request, block, .readingFront⟩ } := by
  refine h.of_same rfl fun r => ?_
  have hcount := count_erase_handlers hmem r
  simp only [State.answers, State.atWork, hcommitting, toList_none, toList_some,
    map_cons, map_nil, count_cons, count_nil, beq_iff_eq]
  omega

end Handled

end Accounting

/-! ## Regular steps -/

/-- What a step must meet.  Block `0` does not come to an empty queue, unless it is
the next block; no front of an empty queue is read, and no iterator of a block that
has been popped. -/
def Regular (s : State) : Event → Prop
  | .executeBlock number _ => number ≠ 0 ∨ s.blocks ≠ [] ∨ s.storageNumber = -1
  | .handle _ (.whenNotFrontInQueue block _) => block ∈ s.blocks
  | .handle _ (.whenNotFront block) => block ∈ s.blocks
  | .handle _ (.readFront _) => s.blocks ≠ []
  | .readFront => s.blocks ≠ []
  | _ => True

def AllRegular : State → List Event → Prop
  | _, [] => True
  | s, event :: events => Regular s event ∧ ∀ t, s.step event = some t → AllRegular t events

instance (s : State) (event : Event) : Decidable (Regular s event) := by
  unfold Regular
  split <;> infer_instance

instance AllRegular.decidable :
    (s : State) → (events : List Event) → Decidable (AllRegular s events)
  | _, [] => isTrue trivial
  | s, event :: events =>
    have := fun t => AllRegular.decidable t events
    inferInstanceAs (Decidable (Regular s event ∧ ∀ t ∈ s.step event, AllRegular t events))

section Steps

structure Sound (height : ℤ) (s : State) : Prop where
  inv : Inv height s
  accounted : Accounted s

theorem sound_initial : Sound height (.initial height) :=
  ⟨inv_initial height, accounted_initial⟩

variable (h : Sound height s)

include h

theorem Sound.routed (handler : Handler) : Sound height (s.routed handler) :=
  ⟨h.inv.newRequest.setHandlers _, h.accounted.routed handler⟩

theorem Sound.executeBlock {number : ℤ} {hashDiffers : Bool}
    (hregular : Regular s (.executeBlock number hashDiffers)) :
    Sound height (s.executeBlock number hashDiffers) := by
  unfold State.executeBlock
  cases hroute : handleBlockQueue s.blocks s.storageNumber number with
  | older _ => exact h.routed _
  | front block => exact h.routed _
  | notFront block => exact h.routed _
  | back =>
    rcases hexecuting : s.executing with - | -
    · have hnum := h.inv.number_of_back hregular hroute
      exact ⟨h.inv.start hexecuting hnum, h.accounted.start hexecuting number⟩
    · exact h.routed _
  | newer _ => exact h.routed _
  | notFound => exact absurd hroute h.inv.route_ne_notFound

theorem Sound.commitBlock (number : ℤ) : Sound height (s.commitBlock number) := by
  unfold State.commitBlock
  cases hroute : handleBlockQueue s.blocks s.storageNumber number with
  | older _ => exact h.routed _
  | front block => exact h.routed _
  | notFront block => exact h.routed _
  | back => exact h.routed _
  | newer _ => exact h.routed _
  | notFound => exact absurd hroute h.inv.route_ne_notFound

theorem Sound.executeCompleted {e : Executing} (he : s.executing = some e) :
    Sound height (if e.block ∈ s.results then s.executeSuccess e else s.executeError e) := by
  split_ifs with hres
  · exact ⟨h.inv.executeSuccess he hres, h.accounted.endExecution he rfl rfl rfl rfl rfl⟩
  · exact ⟨h.inv.executeError he hres, h.accounted.endExecution he rfl rfl rfl rfl rfl⟩

theorem Sound.endCommit (hc : s.committing = some c) (answer : Answer) :
    Sound height ({ s with committing := none }.callback c.request answer) :=
  ⟨(h.inv.setCommitting fun _ hnone => by cases hnone).callback _ _,
    h.accounted.endCommit hc answer⟩

/-- The current number that a commit finds is the one in the storage. -/
theorem Sound.checkCommit (hc : s.committing = some c) {current : ℤ}
    (hcurrent : current = s.storageNumber) : Sound height (s.checkCommit current c) := by
  unfold State.checkCommit
  dsimp only
  split_ifs with hnum hres
  · exact h.endCommit hc _
  · refine ⟨h.inv.startCommit ?_ hres, h.accounted.setCommitting hc rfl rfl rfl rfl rfl rfl⟩
    rw [← hcurrent]
    exact (not_not.mp hnum).symm
  · exact h.endCommit hc _

theorem Sound.handle {handler : Handler} (hmem : (request, handler) ∈ s.handlers)
    (hregular : Regular s (.handle request handler)) : Sound height (s.handle request handler) := by
  have hanswer : ∀ answer, Sound height
      ({ s with handlers := s.handlers.erase (request, handler) }.callback request answer) :=
    fun answer => ⟨(h.inv.setHandlers _).callback _ _, h.accounted.answerHandler hmem answer⟩
  have hnext : ∀ next, Sound height { s with
      handlers := s.handlers.erase (request, handler) ++ [(request, next)] } :=
    fun next => ⟨h.inv.setHandlers _, h.accounted.nextHandler hmem next⟩
  unfold State.handle
  cases handler with
  | report answer => exact hanswer _
  | whenInQueue block hashDiffers => exact hanswer _
  | whenNotFrontInQueue block hashDiffers =>
    have hblock : block ∈ s.blocks := hregular
    simp only [hblock]
    exact hanswer _
  | whenNotFront block =>
    have hblock : block ∈ s.blocks := hregular
    simp only [hblock]
    exact hnext _
  | whenAfterFront =>
    dsimp only
    split_ifs
    · exact hanswer _
    · exact hnext _
  | readFront answer =>
    have hblocks : s.blocks ≠ [] := hregular
    simp only [hblocks]
    exact hanswer _
  | whenQueueFront block =>
    rcases hcommitting : s.committing with - | c
    · have hlocked : Sound height { s with
          handlers := s.handlers.erase (request, .whenQueueFront block)
          committing := some ⟨request, block, .readingFront⟩ } := by
        have hinv := h.inv.setHandlers (s.handlers.erase (request, .whenQueueFront block))
        refine ⟨hinv.setCommitting fun c hc hphase => ?_, h.accounted.takeMutex hmem hcommitting⟩
        cases hc
        cases hphase
      simp only [State.whenQueueFront]
      split_ifs
      · exact hlocked.checkCommit rfl rfl
      · exact hlocked
    · simp only [State.whenQueueFront]
      exact hcommitting ▸ hnext _

theorem Sound.readFront (hc : s.committing = some c) (hblocks : s.blocks ≠ []) :
    Sound height (s.readFront c) := by
  unfold State.readFront
  rcases hs : s.blocks with - | ⟨front, rest⟩
  · exact absurd hs hblocks
  · have hfront := h.inv.number_front hs
    exact h.checkCommit hc (by omega)

theorem Sound.commitCompleted (hc : s.committing = some c)
    (hphase : c.phase = .committing) (error : Bool) :
    Sound height (if error then s.commitFailed c else s.commitSuccess c) := by
  split_ifs
  · exact h.endCommit hc _
  · exact ⟨h.inv.commitSuccess hc hphase, h.accounted.setCommitting hc rfl rfl rfl rfl rfl rfl⟩

theorem Sound.gotLedgerConfig (hc : s.committing = some c)
    (error notifies : Bool) : Sound height (s.gotLedgerConfig c error notifies) := by
  unfold State.gotLedgerConfig
  split_ifs
  · exact h.endCommit hc _
  · refine ⟨h.inv.setCommitting fun c' hc' hphase => ?_,
      h.accounted.setCommitting hc rfl rfl rfl rfl rfl rfl⟩
    cases hc'
    cases hphase
  · exact h.endCommit hc _

theorem Sound.step {event : Event} (hregular : Regular s event)
    (hstep : s.step event = some t) : Sound height t := by
  cases event with
  | executeBlock number hashDiffers =>
    cases hstep
    exact h.executeBlock hregular
  | setResult =>
    obtain ⟨e, he, hif⟩ := bind_eq_some_iff.mp hstep
    split_ifs at hif with hres
    cases hif
    exact ⟨h.inv.setResult he hres, h.accounted.of_same rfl fun _ => rfl⟩
  | executeCompleted =>
    obtain ⟨e, he, rfl⟩ := map_eq_some_iff.mp hstep
    exact h.executeCompleted he
  | commitBlock number =>
    cases hstep
    exact h.commitBlock number
  | handle request handler =>
    simp only [State.step] at hstep
    split_ifs at hstep with hmem
    cases hstep
    exact h.handle hmem hregular
  | readFront =>
    obtain ⟨c, hc, hif⟩ := bind_eq_some_iff.mp hstep
    split_ifs at hif
    cases hif
    exact h.readFront hc hregular
  | commitCompleted error =>
    obtain ⟨c, hc, hif⟩ := bind_eq_some_iff.mp hstep
    split_ifs at hif with hphase herror
    all_goals cases hif
    · simpa [herror] using h.commitCompleted hc hphase error
    · simpa [herror] using h.commitCompleted hc hphase error
  | gotLedgerConfig error notifies =>
    obtain ⟨c, hc, hif⟩ := bind_eq_some_iff.mp hstep
    split_ifs at hif
    cases hif
    exact h.gotLedgerConfig hc error notifies
  | notified error =>
    obtain ⟨c, hc, hif⟩ := bind_eq_some_iff.mp hstep
    split_ifs at hif
    cases hif
    exact h.endCommit hc _

theorem Sound.runAll {events : List Event} (hregular : AllRegular s events)
    (hrun : s.runAll events = some t) : Sound height t := by
  induction events generalizing s with
  | nil =>
    cases hrun
    exact h
  | cons event events ih =>
    obtain ⟨s', hstep, hrest⟩ := bind_eq_some_iff.mp hrun
    exact ih (h.step hregular.1 hstep) (hregular.2 s' hstep) hrest

end Steps

/-! ## What holds in every state -/

/-- The order in the scheduler on a chain that had the given height when the
scheduler was started. -/
structure InOrder (height : ℤ) (s : State) : Prop where
  /-- The queue holds the blocks that follow the last committed one. -/
  queue : Consecutive (s.storageNumber + 1) s.blocks
  /-- Only the last block of the queue may have no result. -/
  results : ∀ block ∈ s.blocks.dropLast, block ∈ s.results
  /-- A failed execution has removed its own block. -/
  failures : ∀ x ∈ s.failures, x.2 = some x.1
  /-- The blocks were committed in order. -/
  committed : Consecutive (height + 1) s.committed
  storage : s.storageNumber = height + s.committed.length
  /-- Every committed block was executed. -/
  executed : ∀ block ∈ s.committed, block ∈ s.results
  /-- Every request is answered once or still at work. -/
  answered : ∀ request < s.nextRequest, s.answers request + s.atWork request = 1
  /-- No front of an empty queue is read. -/
  defined : s.undefined = false

theorem Inv.mem_results_of_mem_dropLast (h : Inv height s)
    (hblock : block ∈ s.blocks.dropLast) : block ∈ s.results := by
  obtain ⟨ready, hready, hresults⟩ := h.pipeline
  refine hresults block (mem_append_right _ ?_)
  have hcases : s.unfinished = [] ∨ ∃ b, s.unfinished = [b] := by
    unfold State.unfinished
    split
    · exact .inl rfl
    · split_ifs
      · exact .inl rfl
      · exact .inr ⟨_, rfl⟩
  rcases hcases with hnil | ⟨b, hb⟩
  · rw [hnil, append_nil] at hready
    exact mem_of_mem_dropLast (hready ▸ hblock)
  · rw [hready, hb, dropLast_concat] at hblock
    exact hblock

theorem Sound.inOrder (h : Sound height s) : InOrder height s := by
  obtain ⟨hcommitted, hblocks⟩ := consecutive_append.mp h.inv.consecutive
  obtain ⟨ready, -, hresults⟩ := h.inv.pipeline
  have hstart : height + 1 + (s.committed.length : ℤ) = s.storageNumber + 1 := by
    rw [h.inv.storage]
    omega
  refine ⟨hstart ▸ hblocks, fun _ => h.inv.mem_results_of_mem_dropLast, h.inv.failures,
    hcommitted, h.inv.storage,
    fun block hblock => hresults block (mem_append_left _ hblock),
    fun request hreq => ?_, h.inv.defined⟩
  rw [h.accounted request, if_pos hreq]

/-- Two blocks are executed, the second one fails while the first one is committed, a request
to execute the first one again finds it, and a second request to commit it comes too late. -/
def failedSecond : List Event :=
  [.executeBlock 6 false, .setResult, .executeCompleted, .executeBlock 7 false,
    .executeBlock 6 false, .commitBlock 6, .commitBlock 6, .handle 2 (.whenInQueue ⟨0, 6⟩ false),
    .handle 3 (.whenQueueFront ⟨0, 6⟩), .readFront, .handle 4 (.whenQueueFront ⟨0, 6⟩),
    .handle 4 (.readFront .blockIsCommitting), .executeCompleted, .commitCompleted false,
    .gotLedgerConfig false true, .notified false]

/-- On a chain of height `5` block `0` is executed and committed. -/
def genesisAgain : List Event :=
  [.executeBlock 0 false, .setResult, .executeCompleted, .commitBlock 0,
    .handle 1 (.whenQueueFront ⟨0, 0⟩), .readFront, .commitCompleted false]

/-- The second request to commit block `6` has got its block before the block is popped, and
meets the commit mutex afterwards. -/
def lateCommit : List Event :=
  [.executeBlock 6 false, .setResult, .executeCompleted, .commitBlock 6,
    .handle 1 (.whenQueueFront ⟨0, 6⟩), .readFront, .commitBlock 6, .commitCompleted false,
    .handle 2 (.whenQueueFront ⟨0, 6⟩), .handle 2 (.readFront .blockIsCommitting)]

/-- The execution of block `7` fails while a second request to execute it has an iterator of
it. -/
def poppedIterator : List Event :=
  [.executeBlock 6 false, .setResult, .executeCompleted, .executeBlock 7 false,
    .executeBlock 7 false, .executeCompleted, .handle 2 (.whenNotFrontInQueue ⟨1, 7⟩ false)]

/-- The execution of block `6` fails while a request to commit block `7` looks for the current
number. -/
def emptiedQueue : List Event :=
  [.executeBlock 6 false, .commitBlock 7, .handle 1 .whenAfterFront, .executeCompleted,
    .handle 1 (.readFront .invalidBlockNumber)]

end FiscoSmart.Scheduler.BlockQueue
