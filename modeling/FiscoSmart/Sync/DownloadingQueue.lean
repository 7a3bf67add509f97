import FiscoSmart.Support.PriorityQueue

/-!
# The downloading queue

`DownloadingQueue` takes the blocks that peers send, has them executed by the
scheduler, checked by the consensus and committed by the scheduler again.  A block
moves from the buffer of received packets to the queue `m_blocks`, and after its
execution to `m_commitQueue`; the two queues give out a block of least number.
The calls of the other modules answer later, in any order, and the callbacks put a
block back when something failed.

The state holds the queues, the calls that are not answered yet and the numbers of
`BlockSyncConfig`.  A step is a packet, a notification, one part of the worker's
round or an answer.  The notes tell what happened to each copy of a block.
-/

namespace FiscoSmart.Sync.DownloadingQueue

open Support

/-- What a peer sends: the parts of a block that are looked at. -/
structure BlockData (Hash : Type) where
  number : ℕ
  hash : Hash
  transactionsSize : ℕ
deriving DecidableEq

/-- A decoded block.  `ptr` tells the copies of one block apart. -/
structure Block (Hash : Type) extends BlockData Hash where
  ptr : ℕ
deriving DecidableEq

/-- `std::priority_queue` with `BlockCmp`. -/
abbrev BlockQueue (Hash : Type) := PriorityQueue (Block Hash) fun b => b.number

/-- The calls of other modules that are answered later. -/
inductive Call
  | execute
  | check
  | store
  | commit
deriving DecidableEq

/-- The entries of a packet, `none` where the data cannot be decoded. -/
abbrev BlocksMsg (Hash : Type) := List (Option (BlockData Hash))

inductive Note (Hash : Type)
  /-- The scheduler has executed a block to a header with the given hash, or failed. -/
  | executed (b : Block Hash) (header : Option Hash)
  /-- The consensus has accepted or rejected a block. -/
  | checked (b : Block Hash) (accepted : Bool)
  /-- A block is handed to the scheduler for commit, at the given height. -/
  | handed (b : Block Hash) (blockNumber : ℕ)
deriving DecidableEq

def Note.block {Hash : Type} : Note Hash → Block Hash
  | .executed b _ | .checked b _ | .handed b _ => b

variable {Hash : Type} {Q : BlockQueue Hash}

structure State (Q : BlockQueue Hash) where
  masterNode : Bool
  blockNumber : ℕ
  executedBlock : ℕ
  knownHighestNumber : ℕ
  committedProposalNumber : ℕ
  blockBuffer : List (BlocksMsg Hash)
  blocks : Q.Carrier
  commitQueue : Q.Carrier
  /-- The calls that are not answered yet. -/
  calls : List (Call × Block Hash)
  nextPtr : ℕ
  /-- The latest note comes first. -/
  notes : List (Note Hash)

variable {number : ℕ} {s : State Q}

def State.nextBlock (s : State Q) : ℕ := s.blockNumber + 1

/-- The state after `BlockSync::init` with a ledger of the given height. -/
def start (Q : BlockQueue Hash) (masterNode : Bool) (number : ℕ) : State Q where
  masterNode := masterNode
  blockNumber := number
  executedBlock := number
  knownHighestNumber := number
  committedProposalNumber := 0
  blockBuffer := []
  blocks := Q.empty
  commitQueue := Q.empty
  calls := []
  nextPtr := 0
  notes := []

/-! ## `BlockSyncConfig` -/

def setExecutedBlock (number : ℕ) (s : State Q) : State Q :=
  { s with executedBlock := if s.blockNumber ≤ number then number else s.blockNumber }

def resetBlockInfo (number : ℕ) (s : State Q) : State Q :=
  { s with
    blockNumber := number
    knownHighestNumber := if s.knownHighestNumber < number then number else s.knownHighestNumber
    executedBlock := if number > s.executedBlock then number else s.executedBlock }

def resetConfig (number : ℕ) (s : State Q) : State Q :=
  if number ≤ s.blockNumber ∧ s.blockNumber > 0 then s else resetBlockInfo number s

/-- The number that the ledger returns, `none` when the request fails. -/
def fetchAndUpdatesLedgerConfig (fetched : Option ℕ) (s : State Q) : State Q :=
  match fetched with
  | none => s
  | some number => resetConfig number s

theorem setExecutedBlock_of_le (h : number ≤ s.blockNumber) :
    (setExecutedBlock number s).executedBlock = s.blockNumber := by
  rw [setExecutedBlock]
  split_ifs with hge
  · exact le_antisymm h hge
  · rfl

theorem le_resetConfig : number ≤ (resetConfig number s).blockNumber := by
  rw [resetConfig]
  split_ifs with hold
  · exact hold.1
  · exact le_rfl

theorem blockNumber_le_resetConfig : s.blockNumber ≤ (resetConfig number s).blockNumber := by
  rw [resetConfig]
  split_ifs with hold
  · exact le_rfl
  · exact (show s.blockNumber ≤ number by omega)

theorem resetConfig_notes (number : ℕ) (s : State Q) : (resetConfig number s).notes = s.notes := by
  rw [resetConfig]
  split_ifs <;> rfl

theorem blockNumber_le_fetch (fetched : Option ℕ) (s : State Q) :
    s.blockNumber ≤ (fetchAndUpdatesLedgerConfig fetched s).blockNumber := by
  rcases fetched with - | number
  · exact le_rfl
  · exact blockNumber_le_resetConfig

/-! ## The buffer and the queue of blocks to execute -/

def push (maxSize : ℕ) (blocksData : BlocksMsg Hash) (s : State Q) : State Q :=
  if s.blockBuffer.length ≥ maxSize then s
  else { s with blockBuffer := s.blockBuffer ++ [blocksData] }

def State.size (s : State Q) : ℕ := s.blockBuffer.length + Q.size s.blocks

def clearQueue (s : State Q) : State Q := { s with blocks := Q.empty }

def clear (s : State Q) : State Q := clearQueue { s with blockBuffer := [] }

def isNewerBlock (data : BlockData Hash) (s : State Q) : Bool := !(data.number ≤ s.blockNumber)

/-- One round of the loop over the entries of a packet. -/
def flushBlock (entry : Option (BlockData Hash)) (s : State Q) : State Q :=
  match entry with
  | none => s
  | some data =>
    if isNewerBlock data s then
      { s with blocks := Q.push ⟨data, s.nextPtr⟩ s.blocks, nextPtr := s.nextPtr + 1 }
    else s

def flushEntries (blocksData : BlocksMsg Hash) (s : State Q) : State Q :=
  blocksData.foldl (fun s entry => flushBlock entry s) s

def flushOneShard (maxSize : ℕ) (blocksData : BlocksMsg Hash) (s : State Q) : Bool × State Q :=
  if Q.size s.blocks ≥ maxSize then (false, s)
  else (true, flushEntries blocksData s)

/-- The loop of `flushBufferToQueue`; the packet that it stops at is lost. -/
def flushShards (maxSize : ℕ) : List (BlocksMsg Hash) → State Q → State Q
  | [], s => { s with blockBuffer := [] }
  | blocksShard :: rest, s =>
    let flushed := flushOneShard maxSize blocksShard s
    if flushed.1 then flushShards maxSize rest flushed.2
    else { flushed.2 with blockBuffer := rest }

theorem flushShards_cons (maxSize : ℕ) (blocksShard : BlocksMsg Hash)
    (rest : List (BlocksMsg Hash)) (s : State Q) : flushShards maxSize (blocksShard :: rest) s =
      if Q.size s.blocks ≥ maxSize then { s with blockBuffer := rest }
      else flushShards maxSize rest (flushEntries blocksShard s) := by
  by_cases hfull : Q.size s.blocks ≥ maxSize <;> simp [flushShards, flushOneShard, hfull]

def flushBufferToQueue (maxSize : ℕ) (s : State Q) : State Q :=
  flushShards maxSize s.blockBuffer s

def clearFullQueueIfNotHas (maxSize number : ℕ) (s : State Q) : State Q :=
  match Q.top s.blocks with
  | none => s
  | some b => if Q.size s.blocks = maxSize ∧ b.number > number then clearQueue s else s

def call (c : Call) (b : Block Hash) (s : State Q) : State Q :=
  { s with calls := (c, b) :: s.calls }

/-! ## Commit -/

def checkAndCommitBlock (b : Block Hash) (s : State Q) : State Q :=
  if b.number ≠ s.nextBlock then setExecutedBlock s.blockNumber s
  else call .check b s

def tryToCommitBlockToLedger (s : State Q) : State Q :=
  let commitQueue := Q.dropUpTo s.blockNumber s.commitQueue
  match Q.top commitQueue with
  | none => { s with commitQueue := commitQueue }
  | some b =>
    if b.number = s.nextBlock then
      checkAndCommitBlock b { s with commitQueue := Q.pop commitQueue }
    else { s with commitQueue := commitQueue }

/-- Either a block of the next number goes to the consensus, or there is none in
`m_commitQueue`; the blocks up to the height are dropped. -/
theorem tryToCommitBlockToLedger_cases (s : State Q) :
    (∃ b, Q.top (Q.dropUpTo s.blockNumber s.commitQueue) = some b ∧ b.number = s.nextBlock ∧
      tryToCommitBlockToLedger s =
        call .check b { s with commitQueue := Q.pop (Q.dropUpTo s.blockNumber s.commitQueue) }) ∨
    (∀ b ∈ Q.elems s.commitQueue, b.number ≠ s.nextBlock) ∧ tryToCommitBlockToLedger s =
        { s with commitQueue := Q.dropUpTo s.blockNumber s.commitQueue } := by
  have hleft (b : Block Hash) (hb : b ∈ Q.elems s.commitQueue) (hnext : b.number = s.nextBlock) :
      b ∈ Q.elems (Q.dropUpTo s.blockNumber s.commitQueue) :=
    Q.mem_dropUpTo.mpr ⟨hb, by rw [hnext, State.nextBlock]; omega⟩
  rw [tryToCommitBlockToLedger]
  rcases htop : Q.top (Q.dropUpTo s.blockNumber s.commitQueue) with - | b
  · refine .inr ⟨fun b hb hnext => ?_, rfl⟩
    have hempty := hleft b hb hnext
    rw [Q.elems_of_top_none htop] at hempty
    exact Multiset.notMem_zero b hempty
  · by_cases hnext : b.number = s.nextBlock
    · refine .inl ⟨b, rfl, hnext, ?_⟩
      simp only [hnext, if_true]
      exact if_neg (not_not.mpr hnext)
    · refine .inr ⟨fun c hc hcnext => hnext ?_, by simp only [hnext, if_false]⟩
      -- the top is above the height and not above `c`
      have hle := Q.rank_top_le htop (hleft c hc hcnext)
      have hlt := (Q.mem_dropUpTo.mp (Q.mem_of_top htop)).2
      simp only [State.nextBlock] at hcnext ⊢
      omega

theorem tryToCommitBlockToLedger_blockNumber (s : State Q) :
    (tryToCommitBlockToLedger s).blockNumber = s.blockNumber := by
  rcases tryToCommitBlockToLedger_cases s with ⟨b, -, -, heq⟩ | ⟨-, heq⟩ <;>
    simp [heq, call]

theorem tryToCommitBlockToLedger_notes (s : State Q) :
    (tryToCommitBlockToLedger s).notes = s.notes := by
  rcases tryToCommitBlockToLedger_cases s with ⟨b, -, -, heq⟩ | ⟨-, heq⟩ <;>
    simp [heq, call]

def pushCommit (b : Block Hash) (s : State Q) : State Q :=
  { s with commitQueue := Q.push b s.commitQueue }

def pushBlock (b : Block Hash) (s : State Q) : State Q :=
  { s with blocks := Q.push b s.blocks }

def updateCommitQueue (b : Block Hash) (s : State Q) : State Q :=
  tryToCommitBlockToLedger (pushCommit b s)

def note (n : Note Hash) (s : State Q) : State Q := { s with notes := n :: s.notes }

def commitBlockState (b : Block Hash) (s : State Q) : State Q :=
  call .commit b (note (.handed b s.blockNumber) s)

def commitBlock (b : Block Hash) (s : State Q) : State Q :=
  if b.transactionsSize = 0 then commitBlockState b s
  else call .store b s

def clearExpiredQueueCache (s : State Q) : State Q :=
  { s with
    blocks := Q.dropUpTo s.blockNumber s.blocks
    commitQueue := Q.dropUpTo s.blockNumber s.commitQueue }

def onNewBlock (number : ℕ) (s : State Q) : State Q :=
  clearExpiredQueueCache (resetConfig number s)

def finalizeBlock (number : ℕ) (s : State Q) : State Q :=
  tryToCommitBlockToLedger (onNewBlock number s)

/-- Which blocks of `m_commitQueue` are executed again after a failure: those before
the first one that waits for its execution. -/
def beforeTop (top : Option (Block Hash)) (b : Block Hash) : Bool :=
  match top with
  | none => true
  | some t => !(b.number ≥ t.number)

def rePushBlocks (s : State Q) : State Q :=
  let taken := Q.popWhile (beforeTop (Q.top s.blocks)) s.commitQueue
  { s with
    blocks := taken.1.foldl (fun q b => Q.push b q) s.blocks
    commitQueue := taken.2 }

/-- Why the scheduler or the ledger fails, with what `fetchAndUpdatesLedgerConfig` finds
afterwards. -/
inductive Failure
  | invalidBlocks (fetched : Option ℕ)
  | blockIsCommitting
  | other (fetched : Option ℕ)

def onCommitFailed (error : Failure) (b : Block Hash) (s : State Q) : State Q :=
  match error with
  | .invalidBlocks fetched => fetchAndUpdatesLedgerConfig fetched s
  | .blockIsCommitting =>
    if b.number ≤ s.blockNumber then s
    else tryToCommitBlockToLedger (pushCommit b s)
  | .other fetched =>
    if b.number ≤ s.blockNumber then s
    else
      rePushBlocks (setExecutedBlock (b.number - 1)
        (fetchAndUpdatesLedgerConfig fetched (pushCommit b s)))

/-! ## Execution -/

def applyBlock (b : Block Hash) (s : State Q) : State Q :=
  if b.number ≤ s.blockNumber then setExecutedBlock s.blockNumber s
  else if b.number ≤ s.executedBlock then s
  else call .execute b s

/-- What the scheduler answers to `executeBlock`. -/
inductive ExecuteResult (Hash : Type)
  | header (hash : Hash) (sysBlock : Bool)
  | invalidBlocks (fetched : Option ℕ)
  | error

def verifyExecutedBlock [DecidableEq Hash] (b : Block Hash) (hash : Hash) : Bool := b.hash = hash

/-- The callback of `executeBlock`. -/
def onExecuted [DecidableEq Hash] (b : Block Hash) (result : ExecuteResult Hash)
    (s : State Q) : State Q :=
  match result with
  | .invalidBlocks fetched => fetchAndUpdatesLedgerConfig fetched (note (.executed b none) s)
  | .error =>
    let s := note (.executed b none) s
    if !s.masterNode then s
    else if b.number > s.blockNumber then setExecutedBlock s.blockNumber (pushBlock b s)
    else setExecutedBlock s.blockNumber s
  | .header hash sysBlock =>
    let s := note (.executed b (some hash)) s
    if !verifyExecutedBlock b hash then setExecutedBlock s.blockNumber s
    else if b.number > s.executedBlock + 1 then pushBlock b s
    else if sysBlock then updateCommitQueue b s
    else updateCommitQueue b (setExecutedBlock b.number s)

/-- The callback of `asyncCheckBlock`; an error counts as a rejection. -/
def onChecked (b : Block Hash) (accepted : Bool) (s : State Q) : State Q :=
  let s := note (.checked b accepted) s
  if accepted then commitBlock b s else setExecutedBlock (b.number - 1) s

/-- The callback of `asyncStoreTransactions`. -/
def onStored (b : Block Hash) (error : Option Failure) (s : State Q) : State Q :=
  match error with
  | some error => onCommitFailed error b s
  | none => commitBlockState b s

/-- The callback of the scheduler's `commitBlock`. -/
def onCommitted (b : Block Hash) (error : Option Failure) (s : State Q) : State Q :=
  match error with
  | some error => onCommitFailed error b s
  | none =>
    let s := finalizeBlock b.number s
    if s.executedBlock < b.number then setExecutedBlock b.number s else s

/-! ## `BlockSync` -/

def State.shouldSyncing (s : State Q) : Bool :=
  !(s.blockNumber ≥ s.knownHighestNumber) && (!(s.committedProposalNumber ≥ s.knownHighestNumber) &&
      !(s.executedBlock ≥ s.knownHighestNumber))

def maintainDownloadingBuffer (maxSize : ℕ) (s : State Q) : State Q :=
  if s.size = 0 then s
  else if !s.shouldSyncing then clear s
  else flushBufferToQueue maxSize (clearFullQueueIfNotHas maxSize s.nextBlock s)

def waterMark : ℕ := 10

/-- The part of `maintainDownloadingQueue` after the queue has been cleaned up. -/
def executeTop (s : State Q) : State Q :=
  match Q.top s.blocks with
  | none => s
  | some b =>
    if s.executedBlock ≥ s.blockNumber + waterMark then s
    else if b.number > s.executedBlock + 1 then s
    else if b.number = s.executedBlock + 1 then
      applyBlock b { s with blocks := Q.pop s.blocks }
    else s

/-- Drops the blocks of `m_blocks` that have been executed. -/
def dropExecuted (s : State Q) : State Q :=
  { s with blocks := Q.dropUpTo s.executedBlock s.blocks }

def maintainDownloadingQueue (s : State Q) : State Q :=
  if !s.shouldSyncing then clear s
  else executeTop (dropExecuted (tryToCommitBlockToLedger s))

def asyncNotifyNewBlock (number : ℕ) (s : State Q) : State Q :=
  if number > s.blockNumber then tryToCommitBlockToLedger (onNewBlock number s) else s

def updateKnownMaxBlockInfo (number : ℕ) (s : State Q) : State Q :=
  if number ≤ s.knownHighestNumber then s else { s with knownHighestNumber := number }

def onPeerBlocks (maxSize : ℕ) (blocksData : BlocksMsg Hash) (s : State Q) : State Q :=
  if !s.masterNode then s else push maxSize blocksData s

/-- `number` is the height of the ledger, which `init` reads again. -/
def enableAsMaster (masterNode : Bool) (number : ℕ) (s : State Q) : State Q :=
  if s.masterNode = masterNode then s
  else if !masterNode then { s with masterNode := masterNode }
  else resetConfig number { s with masterNode := masterNode }

/-! ## Runs -/

inductive Input (Hash : Type)
  | peerBlocks (blocksData : BlocksMsg Hash)
  | peerStatus (number : ℕ)
  | newBlock (number : ℕ)
  | committedProposal (number : ℕ)
  | enableAsMaster (masterNode : Bool) (number : ℕ)
  | maintainDownloadingBuffer
  | maintainDownloadingQueue
  | executed (b : Block Hash) (result : ExecuteResult Hash)
  | checked (b : Block Hash) (accepted : Bool)
  | stored (b : Block Hash) (error : Option Failure)
  | committed (b : Block Hash) (error : Option Failure)

section Run

variable [DecidableEq Hash] (maxSize : ℕ)

/-- The callback of a call; an answer to a call that was not made is ignored. -/
def answer (c : Call) (b : Block Hash) (callback : State Q → State Q) (s : State Q) : State Q :=
  if s.calls.contains (c, b) then callback { s with calls := s.calls.erase (c, b) } else s

def step (s : State Q) : Input Hash → State Q
  | .peerBlocks blocksData => onPeerBlocks maxSize blocksData s
  | .peerStatus number => updateKnownMaxBlockInfo number s
  | .newBlock number => asyncNotifyNewBlock number s
  | .committedProposal number => { s with committedProposalNumber := number }
  | .enableAsMaster masterNode number => enableAsMaster masterNode number s
  | .maintainDownloadingBuffer => maintainDownloadingBuffer maxSize s
  | .maintainDownloadingQueue => maintainDownloadingQueue s
  | .executed b result => answer .execute b (onExecuted b result) s
  | .checked b accepted => answer .check b (onChecked b accepted) s
  | .stored b error => answer .store b (onStored b error) s
  | .committed b error => answer .commit b (onCommitted b error) s

def run (s : State Q) (inputs : List (Input Hash)) : State Q := inputs.foldl (step maxSize) s

end Run

end FiscoSmart.Sync.DownloadingQueue
