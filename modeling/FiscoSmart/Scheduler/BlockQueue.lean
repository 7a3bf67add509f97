import Mathlib.Tactic

/-!
# The block queue of the scheduler

`SchedulerImpl` keeps the blocks between their execution and their commit in the
queue `m_blocks`.  A request to execute or to commit a block is routed by its
number: `handleBlockQueue` compares it with the front and the back of the queue,
or with the number in the storage if the queue is empty.  The mutex of the queue
is released before the handlers run, and two other mutexes, which are only ever
tried, let one block execute and one block commit at a time.

A step of the model is the routing of a request, one access of a handler to what
other threads change, or a completion of an execution or a commit.  A handler runs
after the mutex is released: it may read an iterator of the queue whose block has
been popped, and it looks at the front of the queue after it has seen, in a step of
its own, that the queue is not empty.
Every request has a number of its own, under which its callback is recorded; a
block is identified by the request that put it into the queue.
-/

namespace FiscoSmart.Scheduler.BlockQueue

open List

/-! ## State -/

/-- A `BlockExecutive`. -/
structure Block where
  id : ℕ
  number : ℤ
deriving DecidableEq

variable {front : Block} {number : ℤ}

/-- What a callback reports. -/
inductive Answer
  | ok
  | invalidBlocks
  | invalidStatus
  | invalidBlockNumber
  | blockIsCommitting
  | commitError
  | unknownError
deriving DecidableEq

/-- The execution that holds `m_executeMutex`. -/
structure Executing where
  request : ℕ
  block : Block

/-- What a commit does next, and the callbacks that it waits for, one after the other. -/
inductive CommitPhase
  | readingFront
  | committing
  | gettingConfig
  | notifying
deriving DecidableEq

/-- The commit that holds `m_commitMutex`. -/
structure Committing where
  request : ℕ
  block : Block
  phase : CommitPhase

/-- What a request does after its routing. -/
inductive Handler
  /-- A handler that only reports. -/
  | report (answer : Answer)
  /-- `whenInQueue` of `executeBlock`. -/
  | whenInQueue (block : Block) (hashDiffers : Bool)
  /-- `whenNotFrontInQueue` of `executeBlock`, which gets the block from an iterator. -/
  | whenNotFrontInQueue (block : Block) (hashDiffers : Bool)
  /-- `whenNotFrontInQueue` of `commitBlock`; the iterator is read, the block is not. -/
  | whenNotFront (block : Block)
  /-- `whenAfterFront` of `commitBlock`. -/
  | whenAfterFront
  /-- The front of the queue is read for a message: after `getCurrentBlockNumber` has seen that
  the queue is not empty, or when another block is committing. -/
  | readFront (answer : Answer)
  /-- `whenQueueFront` of `commitBlock`. -/
  | whenQueueFront (block : Block)
deriving DecidableEq

structure State where
  blocks : List Block
  /-- The blocks whose `m_result` is set. -/
  results : Finset Block
  /-- The number of the last block in the storage. -/
  storageNumber : ℤ
  executing : Option Executing
  committing : Option Committing
  /-- The requests that are routed, with the handlers they run next. -/
  handlers : List (ℕ × Handler)
  callbacks : List (ℕ × Answer)
  committed : List Block
  /-- The blocks whose execution failed, each with the block that was popped. -/
  failures : List (Block × Option Block)
  nextRequest : ℕ
  /-- The front of an empty queue or the iterator of a popped block has been read. -/
  undefined : Bool

/-- A scheduler on a chain of the given height. -/
def State.initial (height : ℤ) : State where
  blocks := []
  results := ∅
  storageNumber := height
  executing := none
  committing := none
  handlers := []
  callbacks := []
  committed := []
  failures := []
  nextRequest := 0
  undefined := false

/-! ## Routing -/

/-- The handler that `handleBlockQueue` selects; `notFound` is none of them. -/
inductive Route
  | older (number : ℤ)
  | front (block : Block)
  | notFront (block : Block)
  | back
  | newer (number : ℤ)
  | notFound

/-- `handleBlockQueue`, up to the handlers. -/
def handleBlockQueue (blocks : List Block) (storageNumber request : ℤ) : Route :=
  match blocks with
  | [] =>
    -- block 0 is the deployment of the system contracts
    if request = 0 then .back
    else if request ≤ storageNumber then .older storageNumber
    else if request = storageNumber + 1 then .back
    else .newer storageNumber
  | front :: rest =>
    let backNumber := ((front :: rest).getLast (List.cons_ne_nil _ _)).number
    if request < front.number then .older front.number
    else if request = front.number then .front front
    else if request ≤ backNumber then
      match rest.find? fun block => block.number = request with
      | some block => .notFront block
      | none => .notFound
    else if request = backNumber + 1 then .back
    else .newer backNumber

/-! ## Steps -/

namespace State

def callback (s : State) (request : ℕ) (answer : Answer) : State :=
  { s with callbacks := s.callbacks ++ [(request, answer)] }

def newRequest (s : State) : State := { s with nextRequest := s.nextRequest + 1 }

/-- A new block is put at the end of the queue, and its execution is started. -/
def start (s : State) (number : ℤ) : State :=
  { s with
    blocks := s.blocks ++ [⟨s.nextRequest, number⟩]
    executing := some ⟨s.nextRequest, ⟨s.nextRequest, number⟩⟩
    nextRequest := s.nextRequest + 1 }

/-- A request is routed and goes on with its handler. -/
def routed (s : State) (handler : Handler) : State :=
  { s.newRequest with handlers := s.handlers ++ [(s.nextRequest, handler)] }

/-- The routing of `executeBlock`.  The flag says that the block is to be verified and
the hash in its header is not the one of the block in the queue.  `beforeBack` runs
before the mutex is released. -/
def executeBlock (s : State) (number : ℤ) (hashDiffers : Bool) : State :=
  match handleBlockQueue s.blocks s.storageNumber number with
  | .older _ => s.routed (.report .invalidBlocks)
  | .front block => s.routed (.whenInQueue block hashDiffers)
  | .notFront block => s.routed (.whenNotFrontInQueue block hashDiffers)
  | .back =>
    match s.executing with
    | some _ => s.routed (.report .invalidStatus)
    | none => s.start number
  | .newer _ => s.routed (.report .invalidBlockNumber)
  | .notFound => s.newRequest

def setResult (s : State) (executing : Executing) : State :=
  { s with results := insert executing.block s.results }

/-- The callback of `asyncExecute` without an error. -/
def executeSuccess (s : State) (executing : Executing) : State :=
  { s with executing := none }.callback executing.request .ok

/-- The callback of `asyncExecute` with an error. -/
def executeError (s : State) (executing : Executing) : State :=
  { s with
    blocks := s.blocks.dropLast
    failures := s.failures ++ [(executing.block, s.blocks.getLast?)]
    executing := none }.callback executing.request .unknownError

/-- The routing of `commitBlock`. -/
def commitBlock (s : State) (number : ℤ) : State :=
  match handleBlockQueue s.blocks s.storageNumber number with
  | .older _ => s.routed (.report .invalidBlocks)
  | .front block => s.routed (.whenQueueFront block)
  | .notFront block => s.routed (.whenNotFront block)
  | .back => s.routed .whenAfterFront
  | .newer _ => s.routed .whenAfterFront
  | .notFound => s.newRequest

/-- The answer of `whenInQueue`. -/
def inQueueAnswer (s : State) (block : Block) (hashDiffers : Bool) : Answer :=
  if block ∉ s.results then .invalidStatus
  else if hashDiffers then .invalidBlocks
  else .ok

/-- The checks of `whenQueueFront`, once the current number is known. -/
def checkCommit (s : State) (current : ℤ) (committing : Committing) : State :=
  let s := { s with committing := none }
  if current + 1 ≠ committing.block.number then s.callback committing.request .invalidBlocks
  else if committing.block ∉ s.results then s.callback committing.request .blockIsCommitting
  else { s with committing := some { committing with phase := .committing } }

/-- `whenQueueFront` of `commitBlock`, up to the first look at the queue.  If another block is
committing, the hash of the front block is put into the message without a look at whether
there is one. -/
def whenQueueFront (s : State) (request : ℕ) (block : Block) : State :=
  match s.committing with
  | some _ => { s with handlers := s.handlers ++ [(request, .readFront .blockIsCommitting)] }
  | none =>
    let committing : Committing := ⟨request, block, .readingFront⟩
    let s := { s with committing := some committing }
    if s.blocks = [] then s.checkCommit s.storageNumber committing else s

/-- The next access of a handler. -/
def handle (s : State) (request : ℕ) (handler : Handler) : State :=
  let s := { s with handlers := s.handlers.erase (request, handler) }
  match handler with
  | .report answer => s.callback request answer
  | .whenInQueue block hashDiffers => s.callback request (s.inQueueAnswer block hashDiffers)
  | .whenNotFrontInQueue block hashDiffers =>
    if block ∈ s.blocks then s.callback request (s.inQueueAnswer block hashDiffers)
    else { s with undefined := true }
  | .whenNotFront block =>
    if block ∈ s.blocks then { s with handlers := s.handlers ++ [(request, .whenAfterFront)] }
    else { s with undefined := true }
  | .whenAfterFront =>
    if s.blocks = [] then s.callback request .invalidBlockNumber
    else { s with handlers := s.handlers ++ [(request, .readFront .invalidBlockNumber)] }
  | .readFront answer =>
    if s.blocks = [] then { s with undefined := true } else s.callback request answer
  | .whenQueueFront block => s.whenQueueFront request block

/-- The second half of `getCurrentBlockNumber` in `whenQueueFront`. -/
def readFront (s : State) (committing : Committing) : State :=
  match s.blocks with
  | [] => { s with committing := none, undefined := true }
  | front :: _ => s.checkCommit (front.number - 1) committing

/-- The callback of `asyncCommit` with an error. -/
def commitFailed (s : State) (committing : Committing) : State :=
  { s with committing := none }.callback committing.request .commitError

/-- The callback of `asyncCommit` without an error.  The storage has the new number
already; nobody reads it as long as the block is in the queue. -/
def commitSuccess (s : State) (committing : Committing) : State :=
  { s with
    storageNumber := committing.block.number
    committed := s.committed ++ [committing.block]
    blocks := s.blocks.tail
    committing := some { committing with phase := .gettingConfig } }

/-- The callback of `asyncGetLedgerConfig`, with or without a notifier. -/
def gotLedgerConfig (s : State) (committing : Committing) (error notifies : Bool) : State :=
  if error then { s with committing := none }.callback committing.request .unknownError
  else if notifies ∧ s.storageNumber ≠ 0 then
    { s with committing := some { committing with phase := .notifying } }
  else { s with committing := none }.callback committing.request .ok

/-- The callback of `asyncNotify`. -/
def notified (s : State) (committing : Committing) (error : Bool) : State :=
  { s with committing := none }.callback committing.request (if error then .unknownError else .ok)

end State

inductive Event
  | executeBlock (number : ℤ) (hashDiffers : Bool)
  | setResult
  | executeCompleted
  | commitBlock (number : ℤ)
  | handle (request : ℕ) (handler : Handler)
  | readFront
  | commitCompleted (error : Bool)
  | gotLedgerConfig (error notifies : Bool)
  | notified (error : Bool)

/-- One step; `none` if the event cannot happen.  An execution completes without an
error exactly if the block has got its result. -/
def State.step (s : State) : Event → Option State
  | .executeBlock number hashDiffers => some (s.executeBlock number hashDiffers)
  | .setResult =>
    s.executing.bind fun e => if e.block ∈ s.results then none else some (s.setResult e)
  | .executeCompleted =>
    s.executing.map fun e =>
      if e.block ∈ s.results then s.executeSuccess e else s.executeError e
  | .commitBlock number => some (s.commitBlock number)
  | .handle request handler =>
    if (request, handler) ∈ s.handlers then some (s.handle request handler) else none
  | .readFront =>
    s.committing.bind fun c => if c.phase = .readingFront then some (s.readFront c) else none
  | .commitCompleted error =>
    s.committing.bind fun c =>
      if c.phase = .committing then
        some (if error then s.commitFailed c else s.commitSuccess c)
      else none
  | .gotLedgerConfig error notifies =>
    s.committing.bind fun c =>
      if c.phase = .gettingConfig then some (s.gotLedgerConfig c error notifies) else none
  | .notified error =>
    s.committing.bind fun c =>
      if c.phase = .notifying then some (s.notified c error) else none

def State.runAll (s : State) (events : List Event) : Option State :=
  events.foldlM State.step s

/-! ## Consecutive blocks -/

/-- The blocks have the numbers `n`, `n + 1` and so on. -/
def Consecutive (n : ℤ) : List Block → Prop
  | [] => True
  | block :: blocks => block.number = n ∧ Consecutive (n + 1) blocks

variable {n : ℤ} {blocks : List Block} {block : Block}

theorem consecutive_append {blocks' : List Block} : Consecutive n (blocks ++ blocks') ↔
      Consecutive n blocks ∧ Consecutive (n + blocks.length) blocks' := by
  induction blocks generalizing n with
  | nil => simp [Consecutive]
  | cons block blocks ih =>
    have harith : n + 1 + (blocks.length : ℤ) = n + (blocks.length + 1 : ℕ) := by omega
    simp [cons_append, Consecutive, ih, length_cons, harith, and_assoc]

theorem Consecutive.number_of_getElem? (h : Consecutive n blocks) {i : ℕ}
    (hi : blocks[i]? = some block) : block.number = n + i := by
  induction blocks generalizing n i with
  | nil => simp at hi
  | cons head blocks ih =>
    rcases i with - | i
    · cases hi
      simpa using h.1
    · have hnum := ih h.2 (by simpa using hi)
      omega

theorem Consecutive.exists_mem {m : ℤ} (h : Consecutive n blocks)
    (hle : n ≤ m) (hlt : m < n + blocks.length) : ∃ block ∈ blocks, block.number = m := by
  have hi : (m - n).toNat < blocks.length := by omega
  refine ⟨blocks[(m - n).toNat], getElem_mem hi, ?_⟩
  have hnum := h.number_of_getElem? (getElem?_eq_getElem hi)
  omega

/-! ## The invariant of the queue -/

section Invariant

variable {height : ℤ} {s : State}

/-- The block that is executing and has no result yet. -/
def State.unfinished (s : State) : List Block :=
  match s.executing with
  | none => []
  | some e => if e.block ∈ s.results then [] else [e.block]

/-- The committed blocks and the blocks of the queue follow one another, and all
but the last of the queue have a result. -/
structure Inv (height : ℤ) (s : State) : Prop where
  consecutive : Consecutive (height + 1) (s.committed ++ s.blocks)
  storage : s.storageNumber = height + s.committed.length
  pipeline : ∃ ready, s.blocks = ready ++ s.unfinished ∧ ∀ b ∈ s.committed ++ ready, b ∈ s.results
  known : ∀ b ∈ s.results, b ∈ s.committed ++ s.blocks
  committing : ∀ c, s.committing = some c → c.phase = .committing →
    c.block ∈ s.results ∧ ∃ rest, s.blocks = c.block :: rest
  fresh : ∀ b ∈ s.committed ++ s.blocks, b.id < s.nextRequest
  failures : ∀ x ∈ s.failures, x.2 = some x.1
  defined : s.undefined = false

theorem inv_initial (height : ℤ) : Inv height (.initial height) := by
  refine ⟨trivial, ?_, ⟨[], rfl, ?_⟩, ?_, ?_, ?_, ?_, rfl⟩ <;> simp [State.initial]

theorem Inv.callback (h : Inv height s) (request : ℕ) (answer : Answer) :
    Inv height (s.callback request answer) :=
  { h with }

theorem Inv.newRequest (h : Inv height s) : Inv height s.newRequest :=
  { h with fresh := fun b hb => Nat.lt_succ_of_lt (h.fresh b hb) }

theorem Inv.setHandlers (h : Inv height s) (handlers : List (ℕ × Handler)) :
    Inv height { s with handlers := handlers } :=
  { h with }

theorem Inv.setCommitting (h : Inv height s) {committing : Option Committing}
    (hphase : ∀ c, committing = some c → c.phase ≠ .committing) :
    Inv height { s with committing := committing } :=
  { h with committing := fun c hc hcommitting => absurd hcommitting (hphase c hc) }

variable {e : Executing}

theorem unfinished_of_mem (h : s.executing = some e)
    (hres : e.block ∈ s.results) : s.unfinished = [] := by
  rw [State.unfinished, h]
  exact if_pos hres

theorem unfinished_of_notMem (h : s.executing = some e)
    (hres : e.block ∉ s.results) : s.unfinished = [e.block] := by
  rw [State.unfinished, h]
  exact if_neg hres

variable (h : Inv height s) {rest : List Block}

include h

theorem Inv.start (hexecuting : s.executing = none)
    (hnum : number = s.storageNumber + 1 + s.blocks.length) : Inv height (s.start number) := by
  have hnew : (⟨s.nextRequest, number⟩ : Block) ∉ s.results := fun hmem =>
    absurd (h.fresh _ (h.known _ hmem)) (Nat.lt_irrefl _)
  obtain ⟨ready, hready, hresults⟩ := h.pipeline
  simp only [State.unfinished, hexecuting, append_nil] at hready
  refine ⟨?_, h.storage, ⟨s.blocks, ?_, hready ▸ hresults⟩, fun b hb => ?_,
    fun c hc hphase => ?_, fun b hb => ?_, h.failures, h.defined⟩
  · have hlast : Consecutive (height + 1 + (s.committed ++ s.blocks).length)
        [⟨s.nextRequest, number⟩] := by
      refine ⟨?_, trivial⟩
      have hstorage := h.storage
      simp only [hnum, length_append]
      omega
    have hall := consecutive_append.mpr ⟨h.consecutive, hlast⟩
    rwa [append_assoc] at hall
  · have hunfinished : (s.start number).unfinished = [⟨s.nextRequest, number⟩] :=
      if_neg hnew
    rw [hunfinished]
    rfl
  · rcases mem_append.mp (h.known b hb) with hb | hb
    · exact mem_append_left _ hb
    · exact mem_append_right _ (mem_append_left _ hb)
  · obtain ⟨hres, rest, hrest⟩ := h.committing c hc hphase
    exact ⟨hres, rest ++ [⟨s.nextRequest, number⟩], by rw [State.start, hrest]; rfl⟩
  · have hb' : b ∈ s.committed ++ s.blocks ∨ b = ⟨s.nextRequest, number⟩ := by
      simpa [State.start, or_assoc] using hb
    rcases hb' with hb' | rfl
    · exact Nat.lt_succ_of_lt (h.fresh b hb')
    · exact Nat.lt_succ_self _

theorem Inv.setResult (he : s.executing = some e)
    (hres : e.block ∉ s.results) : Inv height (s.setResult e) := by
  obtain ⟨ready, hready, hresults⟩ := h.pipeline
  rw [unfinished_of_notMem he hres] at hready
  refine ⟨h.consecutive, h.storage, ⟨s.blocks, ?_, fun b hb => ?_⟩, fun b hb => ?_,
    fun c hc hphase => ?_, h.fresh, h.failures, h.defined⟩
  · have hunfinished : (s.setResult e).unfinished = [] :=
      unfinished_of_mem he (Finset.mem_insert_self _ _)
    rw [hunfinished, append_nil]
    rfl
  · have hb' : b ∈ s.committed ++ ready ∨ b = e.block := by
      simpa [hready, State.setResult, or_assoc] using hb
    rcases hb' with hb' | rfl
    · exact Finset.mem_insert_of_mem (hresults b hb')
    · exact Finset.mem_insert_self _ _
  · rcases Finset.mem_insert.mp hb with rfl | hb
    · exact mem_append_right _ (by rw [State.setResult, hready]; simp)
    · exact h.known b hb
  · obtain ⟨hc', hrest⟩ := h.committing c hc hphase
    exact ⟨Finset.mem_insert_of_mem hc', hrest⟩

theorem Inv.executeSuccess (he : s.executing = some e)
    (hres : e.block ∈ s.results) : Inv height (s.executeSuccess e) := by
  refine Inv.callback (s := { s with executing := none }) { h with pipeline := ?_ } _ _
  obtain ⟨ready, hready, hresults⟩ := h.pipeline
  rw [unfinished_of_mem he hres] at hready
  exact ⟨ready, hready, hresults⟩

/-- The block that is popped when an execution fails is the one that was
executed. -/
theorem Inv.executeError (he : s.executing = some e)
    (hres : e.block ∉ s.results) : Inv height (s.executeError e) := by
  obtain ⟨ready, hready, hresults⟩ := h.pipeline
  rw [unfinished_of_notMem he hres] at hready
  have hdrop : s.blocks.dropLast = ready := by rw [hready, dropLast_concat]
  have hlast : s.blocks.getLast? = some e.block := by rw [hready, getLast?_concat]
  have hsub : ∀ b, b ∈ s.committed ++ ready → b ∈ s.committed ++ s.blocks := fun b hb => by
    rw [hready, ← append_assoc]
    exact mem_append_left _ hb
  suffices hpopped : Inv height { s with
      blocks := s.blocks.dropLast
      failures := s.failures ++ [(e.block, s.blocks.getLast?)]
      executing := none } from hpopped.callback _ _
  refine ⟨?_, h.storage, ⟨ready, ?_, hresults⟩, fun b hb => ?_, fun c hc hphase => ?_,
    fun b hb => ?_, fun x hx => ?_, h.defined⟩
  · have hconsecutive := h.consecutive
    rw [hready, ← append_assoc] at hconsecutive
    exact hdrop ▸ (consecutive_append.mp hconsecutive).1
  · exact hdrop.trans (append_nil _).symm
  · have hknown := h.known b hb
    rw [hready, ← append_assoc, mem_append, mem_singleton] at hknown
    have hne : b ≠ e.block := fun heq => hres (heq ▸ hb)
    exact hdrop ▸ hknown.resolve_right hne
  · obtain ⟨hc', rest, hrest⟩ := h.committing c hc hphase
    refine ⟨hc', ?_⟩
    have hne : c.block ≠ e.block := fun heq => hres (heq ▸ hc')
    rcases hready' : ready with - | ⟨head, ready'⟩
    · rw [hrest, hready'] at hready
      exact absurd (List.cons.inj hready).1 hne
    · rw [hrest, hready'] at hready
      cases hready
      exact ⟨ready', hdrop.trans hready'⟩
  · exact h.fresh b (hsub b (hdrop ▸ hb))
  · rcases mem_append.mp hx with hx | hx
    · exact h.failures x hx
    · rw [mem_singleton.mp hx]
      exact hlast

/-- The number of a block that has a result, and where the block is. -/
theorem Inv.number_cases (hres : block ∈ s.results) : block.number ≤ s.storageNumber ∨
      ∃ i : ℕ, s.blocks[i]? = some block ∧ block.number = s.storageNumber + 1 + i := by
  obtain ⟨hcommitted, hblocks⟩ := consecutive_append.mp h.consecutive
  have hstorage := h.storage
  rcases mem_append.mp (h.known block hres) with hmem | hmem
  · obtain ⟨i, hi⟩ := mem_iff_getElem?.mp hmem
    have hnum := hcommitted.number_of_getElem? hi
    have hlt := (List.getElem?_eq_some_iff.mp hi).1
    exact .inl (by omega)
  · obtain ⟨i, hi⟩ := mem_iff_getElem?.mp hmem
    have hnum := hblocks.number_of_getElem? hi
    exact .inr ⟨i, hi, by omega⟩

theorem Inv.number_front
    (hblocks : s.blocks = front :: rest) : front.number = s.storageNumber + 1 := by
  have hconsecutive := (consecutive_append.mp h.consecutive).2
  have hstorage := h.storage
  rw [hblocks] at hconsecutive
  have hnum := hconsecutive.1
  omega

/-- The block of a commit request that passes the checks is at the front of the
queue. -/
theorem Inv.startCommit {request : ℕ} (hnum : block.number = s.storageNumber + 1)
    (hres : block ∈ s.results) :
    Inv height { s with committing := some ⟨request, block, .committing⟩ } := by
  have hfront : s.blocks[0]? = some block := by
    rcases h.number_cases hres with hle | ⟨i, hi, hi'⟩
    · omega
    · obtain rfl : i = 0 := by omega
      exact hi
  refine { h with committing := fun c hc _ => ?_ }
  cases hc
  refine ⟨hres, s.blocks.tail, ?_⟩
  exact (cons_head?_tail (by simpa [head?_eq_getElem?] using hfront)).symm

theorem Inv.commitSuccess {c : Committing} (hc : s.committing = some c)
    (hphase : c.phase = .committing) : Inv height (s.commitSuccess c) := by
  obtain ⟨hres, rest, hrest⟩ := h.committing c hc hphase
  have hnum := h.number_front hrest
  have hsame : s.committed ++ [c.block] ++ s.blocks.tail = s.committed ++ s.blocks := by
    rw [hrest, append_assoc]
    rfl
  obtain ⟨ready, hready, hresults⟩ := h.pipeline
  refine ⟨?_, ?_, ?_, fun b hb => ?_, fun c' hc' hphase' => ?_, fun b hb => ?_, h.failures,
    h.defined⟩
  · exact hsame ▸ h.consecutive
  · have hstorage := h.storage
    simp only [State.commitSuccess, length_append, length_singleton]
    omega
  · rcases hready' : ready with - | ⟨head, ready'⟩
    · -- the block at the front would be the one that is executing
      exfalso
      rw [hrest, hready', nil_append] at hready
      unfold State.unfinished at hready
      split at hready
      · cases hready
      · split at hready
        · cases hready
        · rename_i e _ hnot
          exact hnot ((List.cons.inj hready).1 ▸ hres)
    · rw [hrest, hready'] at hready
      obtain ⟨rfl, hrest'⟩ := List.cons.inj hready
      refine ⟨ready', ?_, fun b hb => hresults b ?_⟩
      · rw [State.commitSuccess, hrest]
        exact hrest'
      · rw [hready']
        simpa [State.commitSuccess] using hb
  · exact hsame ▸ h.known b hb
  · cases hc'
    cases hphase'
  · exact h.fresh b (hsame ▸ hb)

theorem Inv.number_back
    (hblocks : s.blocks = front :: rest) : ((front :: rest).getLast (cons_ne_nil _ _)).number =
      s.storageNumber + s.blocks.length := by
  have hconsecutive := (consecutive_append.mp h.consecutive).2
  have hstorage := h.storage
  have hlast : s.blocks[s.blocks.length - 1]? =
      some ((front :: rest).getLast (cons_ne_nil _ _)) := by
    rw [hblocks, ← getLast?_eq_getElem?, getLast?_eq_getLast_of_ne_nil]
  have hnum := hconsecutive.number_of_getElem? hlast
  have hpos : 0 < s.blocks.length := by simp [hblocks]
  omega

theorem Inv.number_of_back (hregular : number ≠ 0 ∨ s.blocks ≠ [] ∨ s.storageNumber = -1)
    (hroute : handleBlockQueue s.blocks s.storageNumber number = .back) :
    number = s.storageNumber + 1 + s.blocks.length := by
  rcases hblocks : s.blocks with - | ⟨front, rest⟩
  · simp only [handleBlockQueue, hblocks] at hroute
    simp only [hblocks, ne_eq, not_true, false_or] at hregular
    have hlen : (([] : List Block).length : ℤ) = 0 := rfl
    split_ifs at hroute <;> omega
  · have hback := h.number_back hblocks
    simp only [handleBlockQueue, hblocks] at hroute
    split_ifs at hroute with h₁ h₂ h₃ h₄
    · split at hroute <;> cases hroute
    · rw [hblocks] at hback
      omega

theorem Inv.route_ne_notFound : handleBlockQueue s.blocks s.storageNumber number ≠ .notFound := by
  intro hroute
  rcases hblocks : s.blocks with - | ⟨front, rest⟩
  · simp only [handleBlockQueue, hblocks] at hroute
    split_ifs at hroute
  · have hback := h.number_back hblocks
    have hfront := h.number_front hblocks
    simp only [handleBlockQueue, hblocks] at hroute
    split_ifs at hroute with h₁ h₂ h₃
    split at hroute
    · cases hroute
    · rename_i hnone
      have hconsecutive := (consecutive_append.mp h.consecutive).2
      rw [hblocks] at hconsecutive
      have hrest := hconsecutive.2
      rw [← hconsecutive.1] at hrest
      have hlen : (s.blocks.length : ℤ) = rest.length + 1 := by
        rw [hblocks, length_cons]
        rfl
      obtain ⟨block, hmem, hnum⟩ := hrest.exists_mem (m := number) (by omega) (by omega)
      have hnot := find?_eq_none.mp hnone block hmem
      simp [hnum] at hnot

end Invariant

end FiscoSmart.Scheduler.BlockQueue
