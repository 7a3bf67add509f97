import FiscoSmart.Executor.TransactionExecutive

/-!
# The flow of the executives of a contract

`ExecutiveStackFlow` runs the frames of one contract as coroutines.  A new
transaction waits in the origin flow, a paused frame in the paused pool, and a
frame that got a call or a reply in the waiting flow.  A run empties the waiting
flow first and turns to the origin flow only if no frame is paused.

`submit` tells a new transaction from a reply by the sequence number `0` and the
type `MESSAGE`.  `createCallParameters` gives this type to a granted key lock
too, so a transaction that waits for a key lock in its first frame is put into
the origin flow again, where it waits for its own pause to end.

The executives are left open: what a frame answers to a message is any function
of everything delivered so far.
-/

namespace FiscoSmart.Executor.StackFlow

/-! ## Messages -/

/-- `ExecutionMessage::Type`. -/
inductive ExecutionMessageType
  | txHash
  | message
  | finished
  | keyLock
  | sendBack
  | revert
deriving DecidableEq

/-- `ExecutionMessage`, as far as `createCallParameters` reads it. -/
structure ExecutionMessage where
  type : ExecutionMessageType
  contextID : ℤ
  seq : ℤ
  origin : Bytes
  fromAddress : Bytes
  toAddress : Bytes
  create : Bool
  internalCreate : Bool
  internalCall : Bool
  message : Bytes
  data : Bytes
  gasAvailable : ℤ
  staticCall : Bool
  newEVMContractAddress : Bytes
  status : TransactionStatus
  keyLocks : List Bytes
  abi : Bytes

/-- A transaction, as far as `createCallParameters` reads it. -/
structure Transaction where
  sender : Bytes
  input : Bytes
  abi : Bytes

/-- `CallParameters` with the key locks, which the frames do not read. -/
structure CallParameters extends Executor.CallParameters where
  keyLocks : List Bytes
deriving DecidableEq

/-- `createCallParameters` of a message; it throws for the types without a case.
A granted key lock gets the type of a message. -/
def createCallParameters (input : ExecutionMessage) (staticCall : Bool) :
    Option CallParameters :=
  let typed (type : MessageType) : CallParameters :=
    { contextID := input.contextID
      seq := input.seq
      senderAddress := input.fromAddress
      codeAddress := input.toAddress
      receiveAddress := input.toAddress
      origin := input.origin
      gas := input.gasAvailable
      data := input.data
      abi := if input.create then input.abi else []
      message := input.message
      createSalt := none
      newEVMContractAddress := input.newEVMContractAddress
      status := input.status
      type := type
      staticCall := staticCall
      create := input.create
      internalCreate := input.internalCreate
      internalCall := input.internalCall
      keyLocks := input.keyLocks }
  match input.type with
  | .message => some (typed .message)
  | .revert => some (typed .revert)
  | .finished => some (typed .finished)
  | .keyLock => some (typed .message)
  | .sendBack => none
  | .txHash => none

/-- `createCallParameters` of a transaction. -/
def createTransactionParameters (input : ExecutionMessage) (tx : Transaction) : CallParameters where
  contextID := input.contextID
  seq := input.seq
  senderAddress := toHex tx.sender
  codeAddress := input.toAddress
  receiveAddress := input.toAddress
  origin := toHex tx.sender
  gas := input.gasAvailable
  data := tx.input
  abi := tx.abi
  message := input.message
  createSalt := none
  newEVMContractAddress := []
  status := .none
  type := .message
  staticCall := input.staticCall
  create := input.create
  internalCreate := input.internalCreate
  internalCall := input.internalCall
  keyLocks := input.keyLocks

/-- What `executeTransactionsInternal` makes the parameters from. -/
inductive Input
  | transaction (input : ExecutionMessage) (tx : Transaction)
  | message (input : ExecutionMessage)

def Input.parameters : Input → Option CallParameters
  | transaction input tx => some (createTransactionParameters input tx)
  | message input => createCallParameters input input.staticCall

/-! ## `ExecutiveState` -/

/-- A context and the sequence number of a frame. -/
abbrev Key := ℤ × ℤ

namespace CallParameters

def key (p : CallParameters) : Key := (p.contextID, p.seq)

/-- The key locks that a message gets on its way to the frame. -/
def addKeyLocks (p : CallParameters) (keyLocks : List Bytes) : CallParameters :=
  { p with keyLocks := p.keyLocks ++ keyLocks }

end CallParameters

inductive Status
  | needRun
  | paused
  | needResume
  | finished
deriving DecidableEq

/-- `CoroutineTransactionExecutive`: its exchange message, and whether the
coroutine has ended. -/
structure Coroutine where
  exchangeMessage : Option CallParameters
  ended : Bool

/-- `ExecutiveState`.  The executive is built by the first `go`. -/
structure ExecutiveState where
  contextID : ℤ
  seq : ℤ
  input : Option CallParameters
  executive : Option Coroutine
  status : Status

def statusOf : MessageType → Status
  | .message => .paused
  | .keyLock => .paused
  | .finished => .finished
  | .revert => .finished

namespace ExecutiveState

def new (input : CallParameters) : ExecutiveState where
  contextID := input.contextID
  seq := input.seq
  input := some input
  executive := none
  status := .needRun

/-- `setResumeParam`; without an executive a null pointer is dereferenced. -/
def setResumeParam (s : ExecutiveState) (pullParam : CallParameters) :
    Option ExecutiveState :=
  match s.executive with
  | none => none
  | some executive =>
    some { s with
      status := .needResume
      executive := some { executive with exchangeMessage := some pullParam } }

def appendKeyLocks (s : ExecutiveState) (keyLocks : List Bytes) : Option ExecutiveState :=
  match s.status with
  | .needRun =>
    match s.input with
    | none => none
    | some input => some { s with input := some (input.addKeyLocks keyLocks) }
  | .paused | .needResume =>
    match s.executive with
    | some ⟨some message, ended⟩ =>
      some { s with executive := some ⟨some (message.addKeyLocks keyLocks), ended⟩ }
    | _ => none
  | .finished => some s

def after (s : ExecutiveState) (output : CallParameters) : ExecutiveState :=
  { s with
    input := none
    executive := some ⟨none, statusOf output.type = .finished⟩
    status := statusOf output.type }

/-- The message that `start` or `resume` hands to the coroutine.  A paused or
finished executive gets none: `go` then reads the type of a null pointer.  A
coroutine that has ended cannot be resumed. -/
def pending (s : ExecutiveState) : Option CallParameters :=
  match s.status with
  | .needRun => s.input
  | .needResume =>
    match s.executive with
    | some ⟨message, false⟩ => message
    | _ => none
  | .paused => none
  | .finished => none

/-- `go`: the message that the executive gets, its output and the state after it.
`respond` is the output of the executive. -/
def go (respond : Key → CallParameters → CallParameters) (s : ExecutiveState) :
    Option (CallParameters × CallParameters × ExecutiveState) :=
  s.pending.map fun message =>
    let output := respond (s.contextID, s.seq) message
    (message, { output with contextID := s.contextID, seq := s.seq }, s.after output)

end ExecutiveState

/-! ## `ExecutiveStackFlow` -/

/-- `ContextIDSeqCmp`. -/
def before (a b : Key) : Bool := if a.1 = b.1 then a.2 < b.2 else a.1 > b.1

/-- `insert` of the waiting flow, an ordered set. -/
def insertWaiting (key : Key) : List Key → List Key
  | [] => [key]
  | k :: ks =>
    if before key k then key :: k :: ks
    else if before k key then k :: insertWaiting key ks
    else k :: ks

/-- `ExecutiveStackFlow`, with what was delivered to the frames and what was
returned by `onTxReturn`. -/
structure Flow where
  executives : Key → Option ExecutiveState
  originFlow : List Key
  pausedPool : Finset Key
  waitingFlow : List Key
  isRunning : Bool
  delivered : List (Key × CallParameters)
  returned : List CallParameters

/-- What a frame answers when a message is delivered to it, after everything
delivered before. -/
abbrev Behaviour := List (Key × CallParameters) → Key → CallParameters → CallParameters

namespace Flow

def empty : Flow where
  executives _ := none
  originFlow := []
  pausedPool := ∅
  waitingFlow := []
  isRunning := true
  delivered := []
  returned := []

def setState (f : Flow) (key : Key) (s : ExecutiveState) : Flow :=
  { f with executives := fun k => if k = key then some s else f.executives k }

/-- The executive state of an input: a new one, or the one that is resumed. -/
def executiveFor (f : Flow) (txInput : CallParameters) : Option ExecutiveState :=
  match f.executives txInput.key with
  | none => some (ExecutiveState.new txInput)
  | some s => s.setResumeParam txInput

def submit (f : Flow) (txInput : CallParameters) : Option Flow := do
  let state ← f.executiveFor txInput
  let f := f.setState txInput.key state
  if txInput.seq = 0 ∧ txInput.type = .message then
    some { f with originFlow := f.originFlow ++ [txInput.key] }
  else
    some { f with
      pausedPool := f.pausedPool.erase txInput.key
      waitingFlow := insertWaiting txInput.key f.waitingFlow }

variable (behaviour : Behaviour)

/-- `runOne`, with the output for the caller. -/
def runOne (f : Flow) (key : Key) : Option (CallParameters × Flow) := do
  let s ← f.executives key
  let (message, output, s') ← s.go (behaviour f.delivered)
  let f := { f.setState key s' with
    delivered := f.delivered ++ [(key, message)]
    returned := f.returned ++ [output] }
  match s'.status with
  | .paused => some (output, { f with pausedPool := insert (s'.contextID, s'.seq) f.pausedPool })
  | .finished => some (output, f)
  | _ => none

/-- The key locks of an output that the next frames get. -/
def outputKeyLocks (output : CallParameters) : List Bytes :=
  match output.type with
  | .message | .keyLock => output.keyLocks
  | _ => []

/-- The loop of `runWaitingFlow`, and whether it came to its end: a stopped flow
returns. -/
def runWaitingLoop : List Key → List Bytes → Flow → Option (Bool × Flow)
  | [], _, f => some (true, f)
  | key :: keys, lastKeyLocks, f =>
    if ¬ f.isRunning then some (false, f)
    else do
      let s ← f.executives key
      let s ← s.appendKeyLocks lastKeyLocks
      let (output, f) ← (f.setState key s).runOne behaviour key
      runWaitingLoop keys (lastKeyLocks ++ outputKeyLocks output) f

def runWaitingFlow (f : Flow) : Option Flow := do
  let (completed, f) ← runWaitingLoop behaviour f.waitingFlow [] f
  if completed then some { f with waitingFlow := [] } else some f

/-- The loop of `runOriginFlow` over the queue. -/
def runOriginLoop : List Key → Flow → Option Flow
  | [], f => some { f with originFlow := [] }
  | key :: keys, f =>
    if ¬ f.isRunning then some { f with originFlow := key :: keys }
    else do
      let (_, f) ← { f with originFlow := keys }.runOne behaviour key
      if (f.executives key).map ExecutiveState.status = some .paused then some f
      else runOriginLoop keys f

def runOriginFlow (f : Flow) : Option Flow := runOriginLoop behaviour f.originFlow f

def run (f : Flow) : Option Flow :=
  (if f.waitingFlow = [] then some f else f.runWaitingFlow behaviour).bind fun f =>
    if f.pausedPool = ∅ then f.runOriginFlow behaviour else some f

end Flow

inductive Event
  | submit (input : Input)
  | run
  | stop

def Flow.step (behaviour : Behaviour) (f : Flow) : Event → Option Flow
  | .submit input => input.parameters.bind f.submit
  | .run => f.run behaviour
  | .stop => some { f with isRunning := false }

def Flow.runAll (behaviour : Behaviour) (f : Flow) (events : List Event) : Option Flow :=
  events.foldlM (Flow.step behaviour) f

end FiscoSmart.Executor.StackFlow
