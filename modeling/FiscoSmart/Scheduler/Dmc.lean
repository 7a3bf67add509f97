import FiscoSmart.Scheduler.DeadLock
import FiscoSmart.Support.Contracts

/-!
# Executing a block over several contracts

Every contract address has a `DmcExecutor` with a pool of the transactions that
are there at the moment.  In each round `serialPrepareExecutor` takes the messages
of the pools in the order of the addresses, moves transactions that have called
another contract and settles the key locks.  Then the executors send what is
ready, and the answers, which come in any order, are put into the pools.

The pools share one `ExecutiveState` for every transaction.  They record what to do
with it in sets that `refresh` cleans up later.
-/

namespace FiscoSmart.Scheduler

open Storage

abbrev Address := Bytes

/-- `ExecutionMessage::Type`. -/
inductive MessageType
  | txHash
  | message
  | finished
  | keyLock
  | sendBack
  | revert
deriving DecidableEq

/-- `ExecutionMessage`, as far as the scheduler reads it. -/
structure ExecutionMessage where
  type : MessageType
  contextID : ContextID
  seq : Seq
  fromAddress : Address
  toAddress : Address
  create : Bool
  createSalt : Option ℕ
  transactionHash : ℕ
  data : Bytes
  keyLocks : List Bytes
  keyLockAcquired : Bytes
deriving DecidableEq

/-- `ExecutiveState`, with the top of the call stack first. -/
structure ExecutiveState where
  callStack : List Seq
  message : Option ExecutionMessage
  currentSeq : Seq
  enableDAG : Bool

/-! ## `ExecutivePool` -/

/-- `ExecutivePool::MessageHint`. -/
inductive MessageHint
  | needPrepare
  | locked
  | needSend
  | needScheduleOut
  | ended
deriving DecidableEq

structure ExecutivePool where
  pendingExecutives : Finset ContextID
  needPrepare : Finset ContextID
  hasLocked : Finset ContextID
  needScheduleOut : Finset ContextID
  needSend : Finset ContextID
  needRemove : Finset ContextID

namespace ExecutivePool

variable (pool : ExecutivePool) (contextID : ContextID)

def add : ExecutivePool :=
  { pool with
    pendingExecutives := insert contextID pool.pendingExecutives
    needPrepare := insert contextID pool.needPrepare }

def markAs : MessageHint → ExecutivePool
  | .needPrepare => { pool with needPrepare := insert contextID pool.needPrepare }
  | .locked => { pool with hasLocked := insert contextID pool.hasLocked }
  | .needSend => { pool with needSend := insert contextID pool.needSend }
  | .needScheduleOut =>
    { pool with needScheduleOut := insert contextID pool.needScheduleOut }
  | .ended => { pool with needRemove := insert contextID pool.needRemove }

def refresh : ExecutivePool :=
  let gone := pool.needRemove ∪ pool.needScheduleOut
  { pool with
    pendingExecutives := pool.pendingExecutives \ gone
    needPrepare := pool.needPrepare \ gone
    hasLocked := (pool.hasLocked \ pool.needSend) \ gone
    needRemove := ∅
    needScheduleOut := ∅ }

/-- `empty`. -/
def isEmpty : Bool := pool.pendingExecutives = ∅ ∧ pool.hasLocked = ∅

end ExecutivePool

/-! ## `BlockExecutive` -/

/-- `BlockExecutive`: the addresses of `m_dmcExecutors` with their pools, the shared
states, the locks, and the outputs given to `onTxFinish`, the latest first. -/
structure BlockExecutive where
  dmcExecutors : Finset Address
  pools : Address → ExecutivePool
  states : ContextID → ExecutiveState
  keyLocks : GraphKeyLocks
  results : List ExecutionMessage

/-- The ways in which the preparation of a round ends early: the two exceptions, and
an access to a message that is not there or to an empty call stack. -/
inductive DmcError
  | unexpectedKeyLock (error : GraphKeyLocks.UnexpectedKeyLockError)
  | noDeadLockDetected
  | nullMessage
  | emptyCallStack
deriving DecidableEq

abbrev DmcM := EStateM DmcError BlockExecutive

/-- The number of the block and `newEVMAddress`, without and with a salt. -/
structure Env where
  number : ℤ
  newEVMAddress : ℤ → ContextID → Seq → Address
  newEVMAddressWithSalt : Address → Bytes → ℕ → Address

namespace BlockExecutive

variable (b : BlockExecutive)

def withPool (address : Address) (f : ExecutivePool → ExecutivePool) : BlockExecutive :=
  { b with pools := Function.update b.pools address (f (b.pools address)) }

def withState (contextID : ContextID) (state : ExecutiveState) : BlockExecutive :=
  { b with states := Function.update b.states contextID state }

def withKeyLocks (keyLocks : GraphKeyLocks) : BlockExecutive :=
  { b with keyLocks }

/-- `registerAndGetDmcExecutor` and `DmcExecutor::scheduleIn`. -/
def scheduleIn (contextID : ContextID) (address : Address) : BlockExecutive :=
  { b with dmcExecutors := insert address b.dmcExecutors }.withPool address (·.add contextID)

def onTxFinish (output : ExecutionMessage) : BlockExecutive :=
  { b with results := output :: b.results }

end BlockExecutive

/-! ## `DmcExecutor` -/

namespace DmcExecutor

variable (env : Env) (address : Address)

def message (contextID : ContextID) : DmcM ExecutionMessage := do
  let b ← get
  match (b.states contextID).message with
  | some message => pure message
  | none => throw .nullMessage

/-- The handler is called for a transaction of the pool. -/
def visit (handler : ContextID → DmcM Bool) (contextID : ContextID) : DmcM Bool := do
  let b ← get
  if contextID ∈ (b.pools address).pendingExecutives then handler contextID else pure true

/-- `ExecutivePool::forEach`, until the handler asks to stop. -/
def forEach (handler : ContextID → DmcM Bool) : List ContextID → DmcM PUnit
  | [] => pure PUnit.unit
  | contextID :: contextIDs => do
    let needContinue ← visit address handler contextID
    if needContinue then forEach handler contextIDs else pure PUnit.unit

/-- The elements of a `concurrent_set`. -/
def elements (contextIDs : Finset ContextID) : List ContextID := contextIDs.sort (· ≤ ·)

/-- The types that push the call stack. -/
def isRequest : MessageType → Bool
  | .txHash => true
  | .message => true
  | _ => false

/-- The first part of `handleCreateMessage`: a transaction that was sent back starts
anew. -/
def restart (state : ExecutiveState) (message : ExecutionMessage) :
    ExecutiveState × ExecutionMessage :=
  if message.type = .sendBack then
    ({ state with callStack := [] },
      { message with type := if message.transactionHash ≠ 0 then .txHash else .message })
  else (state, message)

def newAddress (contextID : ContextID) (state : ExecutiveState)
    (message : ExecutionMessage) : Address :=
  match message.createSalt with
  | some salt => env.newEVMAddressWithSalt message.fromAddress message.data salt
  | none => env.newEVMAddress env.number contextID state.currentSeq

/-- The second part of `handleCreateMessage`: a new contract gets its address. -/
def createAddress (contextID : ContextID) (state : ExecutiveState)
    (message : ExecutionMessage) : ExecutionMessage :=
  if isRequest message.type ∧ message.toAddress = [] then
    { message with toAddress := newAddress env contextID state message }
  else message

def handleCreateMessage (contextID : ContextID) (state : ExecutiveState)
    (message : ExecutionMessage) : ExecutiveState × ExecutionMessage :=
  let (state, message) := restart state message
  (state, createAddress env contextID state message)

/-- `batchAcquireKeyLock` for the locks that a message names. -/
def acquireKeyLocks (message : ExecutionMessage) : DmcM PUnit := do
  let b ← get
  match b.keyLocks.batchAcquireKeyLock message.fromAddress message.keyLocks
      message.contextID message.seq with
  | (.ok _, keyLocks) => set (b.withKeyLocks keyLocks)
  | (.error error, keyLocks) =>
    set (b.withKeyLocks keyLocks)
    throw (.unexpectedKeyLock error)

def pushed (state : ExecutiveState) (message : ExecutionMessage) : ExecutiveState :=
  { state with
    callStack := state.currentSeq :: state.callStack
    currentSeq := state.currentSeq + 1
    message := some { message with seq := state.currentSeq } }

/-- The return of a call: the stack is popped. -/
def handleReturn (contextID : ContextID) (state : ExecutiveState)
    (message : ExecutionMessage) : DmcM MessageHint :=
  match state.callStack with
  | [] => throw .emptyCallStack
  | [_] => do
    modify (fun b => (b.withState contextID
      { state with callStack := [], message := none }).onTxFinish message)
    return .ended
  | _ :: seq :: callStack => do
    modify (·.withState contextID { state with
      callStack := seq :: callStack
      message := some { message with seq, create := false } })
    return .needSend

/-- What `handleExecutiveMessage` does with a message after `handleCreateMessage`. -/
def handleMessage (contextID : ContextID) (state : ExecutiveState)
    (message : ExecutionMessage) : DmcM MessageHint :=
  if message.toAddress ≠ address then do
    modify (·.withState contextID { state with message := some message })
    return .needScheduleOut
  else match message.type with
    | .message | .txHash => do
      acquireKeyLocks message
      modify (·.withState contextID (pushed state message))
      return .needSend
    | .finished | .revert => handleReturn contextID state message
    | .keyLock => do
      acquireKeyLocks message
      modify (·.withState contextID { state with message := some message })
      return .locked
    -- `handleCreateMessage` leaves no such message
    | .sendBack => return .ended

def handleExecutiveMessage (contextID : ContextID) : DmcM MessageHint := do
  let message ← message contextID
  let b ← get
  let (state, message) := handleCreateMessage env contextID (b.states contextID) message
  handleMessage address contextID state message

/-- The loop body of `prepare` for the messages. -/
def prepareMessage (contextID : ContextID) : DmcM Bool := do
  let hint ← handleExecutiveMessage env address contextID
  modify (·.withPool address (·.markAs contextID hint))
  return true

/-- `scheduleOut`, which is `BlockExecutive::scheduleExecutive`. -/
def scheduleOut (contextID : ContextID) : DmcM Bool := do
  let message ← message contextID
  modify (·.scheduleIn contextID message.toAddress)
  return true

/-- `forEachAndClear` for the messages. -/
def prepareMessages : DmcM PUnit := do
  let b ← get
  forEach address (prepareMessage env address) (elements (b.pools address).needPrepare)
  modify (·.withPool address ({ · with needPrepare := ∅ }))

/-- The transactions of `needScheduleOut` are moved; the answer says whether there
are any. -/
def scheduleOuts : DmcM Bool := do
  let b ← get
  forEach address scheduleOut (elements (b.pools address).needScheduleOut)
  return decide ((b.pools address).needScheduleOut ≠ ∅)

/-- `ExecutivePool::refresh` of an executor. -/
def refresh : DmcM PUnit := modify (·.withPool address ExecutivePool.refresh)

def prepare : DmcM Bool := do
  refresh address
  prepareMessages env address
  let hasScheduleOut ← scheduleOuts address
  refresh address
  return hasScheduleOut

/-- The loop body of `releaseOutdatedLock`. -/
def releaseLock (contextID : ContextID) : DmcM Bool := do
  let message ← message contextID
  if message.type = .finished ∨ message.type = .revert then do
    modify (fun b =>
      b.withKeyLocks (b.keyLocks.releaseKeyLocks message.contextID message.seq))
    return true
  else return true

def releaseOutdatedLock : DmcM PUnit := do
  let b ← get
  forEach address releaseLock (elements (b.pools address).needPrepare)

/-- The loop body of `unlockPrepare`.  Its assertion that the message asks for a key lock is left
out: only such messages are marked `LOCKED`. -/
def unlock (contextID : ContextID) : DmcM Bool := do
  let message ← message contextID
  let b ← get
  match b.keyLocks.acquireKeyLock message.fromAddress message.keyLockAcquired contextID
      message.seq with
  | (true, keyLocks) => do
    set ((b.withKeyLocks keyLocks).withPool address (·.markAs contextID .needSend))
    return true
  | (false, keyLocks) => do
    set (b.withKeyLocks keyLocks)
    return true

/-- `unlockPrepare`, which says whether there is nothing to send. -/
def unlockPrepare : DmcM Bool := do
  let b ← get
  forEach address (unlock address) (elements (b.pools address).hasLocked)
  let b ← get
  return decide ((b.pools address).needSend = ∅)

/-- The message that reverts a call. -/
def reverted (message : ExecutionMessage) : ExecutionMessage :=
  { message with type := .revert, create := false, keyLocks := [] }

/-- The loop of `detectLockAndRevert`, which ends with the first deadlock. -/
def detectFirst : List ContextID → DmcM Bool
  | [] => return false
  | contextID :: contextIDs => do
    let b ← get
    if contextID ∈ (b.pools address).pendingExecutives ∧ b.keyLocks.detectDeadLock contextID then do
      let message ← message contextID
      set ((b.withState contextID
          { b.states contextID with message := some (reverted message) }).withPool address
        (·.markAs contextID .needSend))
      return true
    else detectFirst contextIDs

def detectLockAndRevert : DmcM Bool := do
  let b ← get
  detectFirst address (elements (b.pools address).hasLocked)

/-- `DmcExecutor::Status`, as `go` reports it at once, or the messages it sends. -/
inductive Status
  | finished
  | paused
  | sent (messages : List ExecutionMessage)
deriving DecidableEq

/-- The loop body of `go`. -/
def take (contextID : ContextID) : DmcM ExecutionMessage := do
  let message ← message contextID
  let b ← get
  set (b.withState contextID { b.states contextID with message := none })
  return { message with
    keyLocks := b.keyLocks.getKeyLocksNotHoldingByContext message.toAddress contextID }

/-- The messages of `needSend` are taken out. -/
def takeAll : List ContextID → DmcM (List ExecutionMessage)
  | [] => return []
  | contextID :: contextIDs => do
    let b ← get
    if contextID ∈ (b.pools address).pendingExecutives then do
      let message ← take contextID
      let messages ← takeAll contextIDs
      return message :: messages
    else takeAll contextIDs

def go : DmcM Status := do
  let b ← get
  if (b.pools address).isEmpty then return .finished
  else if (b.pools address).needSend = ∅ then return .paused
  else do
    let messages ← takeAll address (elements (b.pools address).needSend)
    modify (·.withPool address ({ · with needSend := ∅ }))
    return .sent messages

/-- One turn of `handleExecutiveOutputs`. -/
def handleExecutiveOutput (output : ExecutionMessage) : DmcM PUnit := do
  let b ← get
  if output.contextID ∉ (b.pools address).pendingExecutives then throw .nullMessage
  else do
    let b := b.withState output.contextID { b.states output.contextID with message := some output }
    if output.toAddress = address then
      set (b.withPool address (·.markAs output.contextID .needPrepare))
    else
      set ((b.withPool address (·.markAs output.contextID .needScheduleOut)).scheduleIn
        output.contextID output.toAddress)

end DmcExecutor

/-! ## Rounds -/

namespace BlockExecutive

variable (env : Env)

/-- The addresses in the order of `m_dmcExecutors`. -/
def addresses (b : BlockExecutive) : List Address := b.dmcExecutors.sort (· ≤ ·)

/-- A call for every executor of a list. -/
def eachExecutor (f : Address → DmcM PUnit) : List Address → DmcM PUnit
  | [] => pure PUnit.unit
  | address :: addresses => do
    f address
    eachExecutor f addresses

/-- A call for every executor of a list; the answers are combined. -/
def anyExecutor (f : Address → DmcM Bool) : List Address → DmcM Bool
  | [] => return false
  | address :: addresses => do
    let answer ← f address
    let answers ← anyExecutor f addresses
    return answer || answers

/-- One turn of the first loop of `serialPrepareExecutor`, which says whether
transactions were moved. -/
def preparePass : DmcM Bool := do
  let b ← get
  eachExecutor DmcExecutor.releaseOutdatedLock b.addresses
  anyExecutor (DmcExecutor.prepare env) b.addresses

/-- The first loop of `serialPrepareExecutor`. -/
inductive PreparePasses : BlockExecutive → BlockExecutive → Prop
  | last {b b' : BlockExecutive} (h : preparePass env b = .ok false b') : PreparePasses b b'
  | again {b b' b'' : BlockExecutive} (h : preparePass env b = .ok true b')
      (hrest : PreparePasses b' b'') : PreparePasses b b''

/-- An executor that has not finished tries to unlock; the answers are whether it
has finished and whether it needs to detect deadlocks. -/
def unlockExecutor (address : Address) : DmcM (Bool × Bool) := do
  let b ← get
  if (b.pools address).isEmpty then return (true, true)
  else do
    let need ← DmcExecutor.unlockPrepare address
    return (false, need)

/-- The second loop of `serialPrepareExecutor`: `allFinished` and
`needDetectDeadlock`. -/
def unlockExecutors : List Address → DmcM (Bool × Bool)
  | [] => return (true, true)
  | address :: addresses => do
    let answer ← unlockExecutor address
    let answers ← unlockExecutors addresses
    return (answer.1 && answers.1, answer.2 && answers.2)

/-- The third loop of `serialPrepareExecutor`, which ends with the first deadlock. -/
def detectExecutors : List Address → DmcM Bool
  | [] => return false
  | address :: addresses => do
    let found ← DmcExecutor.detectLockAndRevert address
    if found then return true else detectExecutors addresses

/-- The part of `serialPrepareExecutor` that handles locked messages. -/
def settleLocks : DmcM PUnit := do
  let b ← get
  let (allFinished, needDetectDeadlock) ← unlockExecutors b.addresses
  if needDetectDeadlock ∧ ¬ allFinished then do
    let needRevert ← detectExecutors b.addresses
    if needRevert then pure PUnit.unit else throw .noDeadLockDetected
  else pure PUnit.unit

/-- `serialPrepareExecutor`, when it returns. -/
def SerialPrepared (b b' : BlockExecutive) : Prop :=
  ∃ b₁, PreparePasses env b b₁ ∧ settleLocks b₁ = .ok PUnit.unit b'

/-- `DAGExecute`, given the answers of the executors. -/
def dagExecute (responses : ContextID → ExecutionMessage) (b : BlockExecutive) :
    BlockExecutive :=
  { b with states := fun contextID =>
      let state := b.states contextID
      if state.enableDAG ∧
          ∃ address ∈ b.dmcExecutors, contextID ∈ (b.pools address).pendingExecutives then
        { state with
          callStack := state.currentSeq :: state.callStack
          currentSeq := state.currentSeq + 1
          message := some (responses contextID) }
      else state }

/-- A transaction as `prepare` reads it, and whether it was fetched from the pool. -/
structure Submission where
  fetched : Bool
  fromAddress : Address
  toAddress : Address
  create : Bool
  transactionHash : ℕ
  data : Bytes
  enableDAG : Bool

def buildMessage (contextID : ContextID) (tx : Submission) : ExecutionMessage where
  type := if tx.fetched then .message else .txHash
  contextID := contextID
  seq := 0
  fromAddress := tx.fromAddress
  toAddress := tx.toAddress
  create := tx.create
  createSalt := none
  transactionHash := tx.transactionHash
  data := tx.data
  keyLocks := []
  keyLockAcquired := []

/-- `saveMessage` and `DmcExecutor::submit`. -/
def submit (b : BlockExecutive) (message : ExecutionMessage) (withDAG : Bool) :
    BlockExecutive :=
  (b.withState message.contextID ⟨[], some message, 0, withDAG⟩).scheduleIn
    message.contextID message.toAddress

def empty : BlockExecutive where
  dmcExecutors := ∅
  pools _ := ⟨∅, ∅, ∅, ∅, ∅, ∅⟩
  states _ := ⟨[], none, 0, false⟩
  keyLocks := .empty
  results := []

/-- The executives built for the transactions, which are numbered from
`startContextID` on. -/
def build (startContextID : ContextID) : List Submission → BlockExecutive
  | [] => empty
  | tx :: txs =>
    (build (startContextID + 1) txs).submit (buildMessage startContextID tx) tx.enableDAG

end BlockExecutive

open BlockExecutive

/-- How far the execution of a block is: before and between the rounds, within a
round, with the executors that have not gone yet, the messages without an answer
and whether an executor has paused, or at its end. -/
inductive Phase
  | built
  | ready
  | sending (toGo : Finset Address) (inFlight : List (Address × ContextID)) (paused : Bool)
  | finished
deriving DecidableEq

structure Execution where
  block : BlockExecutive
  phase : Phase

namespace Execution

/-- The messages that `go` has sent. -/
def sentMessages : DmcExecutor.Status → List ExecutionMessage
  | .sent messages => messages
  | _ => []

/-- The steps of an execution.  Every message that is sent is answered once, with
the same context. -/
inductive Step (env : Env) : Execution → Execution → Prop
  -- `prepare` of a block without transactions for the DAG
  | prepare {b b' : BlockExecutive} (h : SerialPrepared env b b') :
      Step env ⟨b, .built⟩ ⟨b', .ready⟩
  -- a call, which does not go through the DAG
  | call {b : BlockExecutive} : Step env ⟨b, .built⟩ ⟨b, .ready⟩
  | dag {b : BlockExecutive} (responses : ContextID → ExecutionMessage)
      (h : ∀ contextID, (responses contextID).contextID = contextID) :
      Step env ⟨b, .built⟩ ⟨b.dagExecute responses, .ready⟩
  -- `DMCExecute` prepares the executors and lets them go in parallel
  | round {b b' : BlockExecutive} (h : SerialPrepared env b b') :
      Step env ⟨b, .ready⟩ ⟨b', .sending b'.dmcExecutors [] false⟩
  | go {b b' : BlockExecutive} {toGo : Finset Address}
      {inFlight : List (Address × ContextID)} {paused : Bool} (address : Address)
      (status : DmcExecutor.Status) (haddress : address ∈ toGo)
      (h : DmcExecutor.go address b = .ok status b') : Step env ⟨b, .sending toGo inFlight paused⟩
        ⟨b', .sending (toGo.erase address)
          ((sentMessages status).map (fun m => (address, m.contextID)) ++ inFlight)
          (paused || status ≠ .finished)⟩
  | output {b b' : BlockExecutive} {toGo : Finset Address}
      {inFlight : List (Address × ContextID)} {paused : Bool} (address : Address)
      (message : ExecutionMessage) (hsent : (address, message.contextID) ∈ inFlight)
      (h : DmcExecutor.handleExecutiveOutput address message b = .ok PUnit.unit b') :
      Step env ⟨b, .sending toGo inFlight paused⟩
        ⟨b', .sending toGo (inFlight.erase (address, message.contextID)) paused⟩
  -- all executors have reported: an executor that has paused makes another round
  | next {b : BlockExecutive} : Step env ⟨b, .sending ∅ [] true⟩ ⟨b, .ready⟩
  | finish {b : BlockExecutive} : Step env ⟨b, .sending ∅ [] false⟩ ⟨b, .finished⟩

def start (startContextID : ContextID) (txs : List Submission) : Execution :=
  ⟨build startContextID txs, .built⟩

end Execution

end FiscoSmart.Scheduler
