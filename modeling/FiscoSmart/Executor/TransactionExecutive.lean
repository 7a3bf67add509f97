import FiscoSmart.Storage.StateRollback
import FiscoSmart.Support.Contracts

/-!
# The frames of a transaction

A `TransactionExecutive` runs one frame of a transaction: a call, a creation or
a precompiled contract.  It has a recoder of its own, which `execute` installs in
the block storage, and `revert` rolls the storage back by it.  An external call
runs the callee in an executive of its own.  That one installs its own recoder
and nothing installs the caller's again when it returns, except a
`getPrimaryKeys` of the caller.
-/

namespace FiscoSmart.Executor

open Storage
open Support

def bytes (s : String) : Bytes := s.toList.map (fun c => Fin.ofNat 256 c.toNat)

/-! ## Messages -/

/-- `CallParameters::Type`. -/
inductive MessageType
  | message
  | keyLock
  | finished
  | revert
deriving DecidableEq, Repr

/-- `TransactionStatus`, as far as the execution of a frame sets it. -/
inductive TransactionStatus
  | none
  | unknown
  | outOfGasLimit
  | notEnoughCash
  | badInstruction
  | badJumpDestination
  | outOfGas
  | outOfStack
  | stackUnderflow
  | precompiledError
  | revertInstruction
  | contractAddressAlreadyUsed
  | permissionDenied
  | callAddressError
  | gasOverflow
  | contractFrozen
  | accountFrozen
  | wasmValidationFailure
  | wasmArgumentOutOfRange
  | wasmUnreachableInstruction
  | wasmTrap
deriving DecidableEq, Repr

structure CallParameters where
  contextID : ℤ
  seq : ℤ
  senderAddress : Bytes
  codeAddress : Bytes
  receiveAddress : Bytes
  origin : Bytes
  gas : ℤ
  data : Bytes
  abi : Bytes
  message : Bytes
  createSalt : Option ℕ
  newEVMContractAddress : Bytes
  status : TransactionStatus
  type : MessageType
  staticCall : Bool
  create : Bool
  internalCreate : Bool
  internalCall : Bool
deriving DecidableEq, Repr

/-- The constructor of `CallParameters`. -/
def CallParameters.new (type : MessageType) : CallParameters :=
  ⟨0, 0, [], [], [], [], 0, [], [], [], none, [], .none, type, false, false, false, false⟩

/-- What is thrown, by the clauses that catch it: `bcos::Error`,
`PrecompiledError`, `InternalVMError`, another `bcos::Exception` with its status,
another `std::exception`; and `exit(1)`, which nothing catches. -/
inductive Exception
  | error (errorMessage : Bytes)
  | precompiledError (what : Bytes)
  | internalVMError
  | exception (status : TransactionStatus) (what : Bytes)
  | stdException (what : Bytes)
  | exit
deriving DecidableEq, Repr

/-- `evmc_status_code`; the negative codes are `internalError` and the positive
ones without a case of their own are `other`. -/
inductive EvmcStatus
  | success
  | failure
  | revert
  | outOfGas
  | invalidInstruction
  | undefinedInstruction
  | stackOverflow
  | stackUnderflow
  | badJumpDestination
  | invalidMemoryAccess
  | staticModeViolation
  | contractValidationFailure
  | argumentOutOfRange
  | wasmUnreachableInstruction
  | wasmTrap
  | internalError
  | other
deriving DecidableEq, Repr

/-- What the code of a frame returns: the result of a virtual machine, or the
gas and the output of a precompiled contract, or the answer of a check. -/
structure Result where
  status : EvmcStatus
  gasLeft : ℤ
  output : Bytes
deriving DecidableEq, Repr

/-- The block context: its settings, the functions of its hash and codec, and
the addresses of the precompiled contracts. -/
structure BlockContext where
  number : ℤ
  isWasm : Bool
  isAuthCheck : Bool
  maxCodeSize : ℕ
  createDataGas : ℕ
  exceptionalFailedCodeDeposit : Bool
  constantPrecompiled : Bytes → Bool
  hash : Bytes → Bytes
  newEVMAddress : ℤ → ℤ → ℤ → Bytes
  newEVMAddressSalt : Bytes → Bytes → ℕ → Bytes
  encode : List Bytes → Bytes → Bytes
  decode : Bytes → Except Exception (Bytes × Bytes)
  errorOutput : Bytes → Bytes
  injectMeter : Bytes → Option Bytes

/-! ## What a frame has done -/

/-- What a frame has done so far, the last step outermost: writes, scans of the
primary keys, and external calls with what the callee did and the type of the
message it returned, if it returned one. -/
inductive Trace
  | nil
  | setRow (before : Trace) (table : Table) (key : Key) (entry : Entry)
  | getPrimaryKeys (before : Trace)
  | externalCall (before : Trace) (returned : Option MessageType) (callee : Trace)

namespace Trace

/-- The writes of a frame and of its calls that finished, in their order. -/
def kept : Trace → List ((Table × Key) × Entry)
  | nil => []
  | setRow before table key entry => before.kept ++ [((table, key), entry)]
  | getPrimaryKeys before => before.kept
  | externalCall before (some .finished) callee => before.kept ++ callee.kept
  | externalCall before _ _ => before.kept

/-- The recoder of the frame is the installed one. -/
def installed : Trace → Bool
  | nil => true
  | setRow before _ _ _ => before.installed
  | getPrimaryKeys _ => true
  | externalCall _ _ _ => false

/-- Everything the frame has to undo is in its recoder: it wrote only while its
recoder was installed, and its calls that finished kept no write. -/
def Recorded : Trace → Prop
  | nil => True
  | setRow before _ _ _ => before.Recorded ∧ before.installed = true
  | getPrimaryKeys before => before.Recorded
  | externalCall before returned callee =>
    before.Recorded ∧ (returned = some .finished → callee.kept = [])

/-- No call below the frame leaves a write behind that it should not: a callee
that reverts has everything in its recoder, and one that throws kept nothing. -/
def Orderly : Trace → Prop
  | nil => True
  | setRow before _ _ _ => before.Orderly
  | getPrimaryKeys before => before.Orderly
  | externalCall before returned callee =>
    before.Orderly ∧ callee.Orderly ∧ (returned = some .revert → callee.Recorded) ∧
      (returned = none → callee.kept = [])

end Trace

/-! ## The state of an executive -/

/-- An executive at work: the block storage, its own recoder while another one is
installed there, its `seq`, and what it has done. -/
structure Executive where
  storage : StateStorage
  parked : Option Recoder
  seq : ℤ
  trace : Trace

namespace Executive

def recoder (e : Executive) : Recoder :=
  e.parked.getD (e.storage.recoder.getD [])

/-- The state in which `execute` runs a new executive. -/
def new (storage : StateStorage) (seq : ℤ) : Executive :=
  ⟨storage.setRecoder (some []), none, seq, .nil⟩

/-- `setRecoder(m_recoder)`. -/
def setRecoder (e : Executive) : Executive :=
  { e with storage := e.storage.setRecoder (some e.recoder), parked := none }

/-- `m_recoder->clear()`. -/
def clear (e : Executive) : Executive :=
  match e.parked with
  | some _ => { e with parked := some [] }
  | none => { e with storage := e.storage.setRecoder (some []) }

end Executive

abbrev M := EStateM Exception Executive

/-- What a failing storage call throws. -/
def thrown : Fault → Exception
  | .returned e => .error (bytes e.message)
  | .thrown e => .error (bytes e.message)
  | _ => .stdException (bytes "std::exception")

/-- A call of the block storage. -/
def ofStorage {α : Type} (x : StateStorage.M α) : M α := fun e =>
  match x e.storage with
  | .ok a storage => .ok a { e with storage }
  | .error f storage => .error (thrown f) { e with storage }

/-- `StorageWrapper::getRow`. -/
def getRow (table : Table) (key : Key) : M (Option Entry) :=
  ofStorage (StateStorage.asyncGetRow table key)

/-- `StorageWrapper::getRows`. -/
def getRows (previous : Previous) (table : Table) (keys : List Key) : M (List (Option Entry)) :=
  ofStorage (StateStorage.asyncGetRows previous table keys)

/-- `StorageWrapper::setRow`. -/
def setRow (table : Table) (key : Key) (entry : Entry) : M Unit := do
  ofStorage (StateStorage.asyncSetRow table key entry)
  modify (fun e => { e with trace := e.trace.setRow table key entry })

/-- `StorageWrapper::getPrimaryKeys`, which installs the recoder of its executive.
The keys it answers only decide what the frame does next. -/
def getPrimaryKeys : M Unit :=
  modify (fun e => { e.setRecoder with trace := e.trace.getPrimaryKeys })

def revert : M Unit := do
  ofStorage (StateStorage.rollback (← get).recoder)
  modify Executive.clear

/-! ## Tables -/

def sysTables : Table := bytes "s_tables"

def storageValue : Bytes := bytes "value"

def accountCode : Key := bytes "code"

def accountCodeHash : Key := bytes "codeHash"

def accountAbi : Key := bytes "abi"

/-- The entry that `importFields` and `setField` make of one value. -/
def importFields (value : Bytes) : Entry := Entry.default.set value

/-- An error of a storage call, handed on with another message. -/
def withMessage {α : Type} (message : Bytes) (x : M α) : M α :=
  tryCatch x (fun
    | .error _ => throw (.error message)
    | e => throw e)

/-- `StorageWrapper::createTable`. -/
def createTable (tableName : Table) (valueFields : Bytes) : M Unit := do
  match ← withMessage (bytes "Get table info row failed!") (getRow sysTables tableName) with
  | some _ =>
    throw (.error (bytes "Table: " ++ tableName ++ bytes " already exists"))
  | none =>
    withMessage (bytes "Put table info into sys_tables failed!")
      (setRow sysTables tableName (importFields valueFields))

/-- `StorageWrapper::openTable`: whether there is such a table. -/
def openTable (tableName : Table) : M Bool := do
  if tableName = sysTables then return true
  else return (← getRow sysTables tableName).isSome

def getContractTableName (ctx : BlockContext) (address : Bytes) (isWasm : Bool) :
    Table :=
  if ctx.isAuthCheck ∧ bytes "00000000000000000000000000000000000" <+: address then
    bytes "/sys/" ++ address
  else if isWasm then
    if bytes "/tables/" <+: address then address
    else bytes "/apps/" ++ (if bytes "/" <+: address then address.drop 1 else address)
  else bytes "/apps/" ++ address

def creatAuthTable (ctx : BlockContext) (tableName : Table) (origin sender : Bytes) :
    M Unit := do
  if tableName.take 5 = bytes "/sys/" ∨
      (getContractTableName ctx sender false).take 5 = bytes "/sys/" then
    return ()
  else
    let authTableName := tableName ++ bytes "_accessAuth"
    let admin := if sender ≠ origin then origin else sender
    createTable authTableName storageValue
    setRow authTableName (bytes "admin") (importFields admin)
    setRow authTableName (bytes "status") (importFields (bytes "normal"))
    setRow authTableName (bytes "method_auth_type") (importFields [])
    setRow authTableName (bytes "method_auth_white") (importFields [])
    setRow authTableName (bytes "method_auth_black") (importFields [])

/-- `HostContext::setCode`. -/
def setCode (ctx : BlockContext) (tableName : Table) (code : Bytes) : M Bool := do
  if ← openTable tableName then
    setRow tableName accountCodeHash (importFields (ctx.hash code))
    setRow tableName accountCode (importFields code)
    return true
  else return false

/-- `HostContext::setCodeAndAbi`. -/
def setCodeAndAbi (ctx : BlockContext) (tableName : Table) (code abi : Bytes) :
    M Unit := do
  if ← setCode ctx tableName code then
    setRow tableName accountAbi (importFields abi)
  else return ()

/-! ## Running a frame -/

/-- What the contracts do that a frame runs: the two permission checks, the code
of the frame itself, and the call that touches a file of the BFS. -/
structure Behaviour where
  checkContractAvailable : M Bool
  checkAuth : M Bool
  body : M Result
  buildBfsPath : M Bool

/-- `revert()` and a message of type `REVERT`. -/
def revertWith (callResults : CallParameters) : M CallParameters := do
  revert
  return { callResults with type := .revert }

def parseEVMCResult (callResults : CallParameters) (result : Result) :
    M CallParameters :=
  match result.status with
  | .success =>
    return { callResults with
      type := .finished
      status := .none
      gas := result.gasLeft
      data := if callResults.create then callResults.data else result.output }
  | .revert =>
    revertWith { callResults with
      gas := result.gasLeft
      data := result.output
      status := .revertInstruction }
  | .outOfGas =>
    revertWith { callResults with status := .outOfGas, gas := result.gasLeft }
  | .failure =>
    revertWith { callResults with status := .wasmTrap, gas := result.gasLeft }
  | .invalidInstruction => revertWith { callResults with status := .badInstruction }
  | .undefinedInstruction => revertWith { callResults with status := .badInstruction }
  | .badJumpDestination => revertWith { callResults with status := .badJumpDestination }
  | .stackOverflow => revertWith { callResults with status := .outOfStack }
  | .stackUnderflow => revertWith { callResults with status := .stackUnderflow }
  | .invalidMemoryAccess => revertWith { callResults with status := .stackUnderflow }
  | .staticModeViolation => revertWith { callResults with status := .unknown }
  | .contractValidationFailure =>
    revertWith { callResults with status := .wasmValidationFailure }
  | .argumentOutOfRange =>
    revertWith { callResults with status := .wasmArgumentOutOfRange }
  | .wasmTrap => revertWith { callResults with status := .wasmUnreachableInstruction }
  | .wasmUnreachableInstruction =>
    revertWith { callResults with status := .wasmUnreachableInstruction }
  | .internalError => do
    revert
    throw .internalVMError
  | .other => revertWith { callResults with status := .outOfGas }

def execPrecompiled (ctx : BlockContext) (b : Behaviour) (address : Bytes) :
    M Result :=
  if ctx.constantPrecompiled address then b.body
  else throw (.precompiledError (bytes "can't find precompiled address."))

/-- What the clauses of `callPrecompiled` do with an exception. -/
def precompiledFailed (ctx : BlockContext) (callParameters : CallParameters) :
    Exception → M CallParameters
  | .exit => throw .exit
  | .precompiledError what =>
    revertWith { callParameters with
      data := ctx.errorOutput what, status := .precompiledError, message := what }
  | .exception status what =>
    revertWith { callParameters with
      data := ctx.errorOutput what, status, message := what }
  | .stdException what =>
    revertWith { callParameters with
      data := ctx.errorOutput (bytes "InternalPrecompiledError")
      status := .unknown
      message := what }
  | _ =>
    revertWith { callParameters with
      data := ctx.errorOutput (bytes "std::exception")
      status := .unknown
      message := bytes "std::exception" }

/-- The address of the contract that `callPrecompiled` runs. -/
def precompiledAddress (ctx : BlockContext) (callParameters : CallParameters) :
    M Bytes :=
  if callParameters.internalCall then
    match ctx.decode callParameters.data with
    | .ok (contract, _) => return contract
    | .error e => throw e
  else return callParameters.receiveAddress

/-- What `callPrecompiled` tries. -/
def runPrecompiled (ctx : BlockContext) (b : Behaviour)
    (callParameters : CallParameters) (address : Bytes) : M CallParameters := do
  let result ← execPrecompiled ctx b address
  if result.gasLeft < 0 then
    revertWith { callParameters with status := .outOfGas }
  else
    return { callParameters with
      type := .finished
      gas := result.gasLeft
      status := .none
      data := result.output
      internalCall := false }

def callPrecompiled (ctx : BlockContext) (b : Behaviour)
    (callParameters : CallParameters) : M CallParameters := do
  let address ← precompiledAddress ctx callParameters
  tryCatch (runPrecompiled ctx b callParameters address) (precompiledFailed ctx callParameters)

/-- `hasPrecompiledPrefix`. -/
def isPrecompiledCode (code : Bytes) : Bool :=
  13 < code.length ∧ code.take 13 = bytes "[PRECOMPILED]"

def callDynamicPrecompiled (ctx : BlockContext) (b : Behaviour)
    (callParameters : CallParameters) (code : Bytes) : M CallParameters :=
  match code.splitOn 44 with
  | _ :: address :: parameter :: parameters => do
    let callResult ← callPrecompiled ctx b { callParameters with
      codeAddress := callParameters.receiveAddress
      receiveAddress := address
      data := ctx.encode (parameter :: parameters) callParameters.data }
    return { callResult with receiveAddress := callResult.codeAddress }
  | _ => throw (.error (bytes "CallDynamicPrecompiled error code field."))

/-- The message of a frame whose BFS path could not be built. -/
def buildBfsFailed (callParameters : CallParameters) : M CallParameters :=
  revertWith { callParameters with
    status := .revertInstruction
    message := bytes "Error occurs in build BFS dir" }

/-- The writes of `internalCreate` once the BFS path is there. -/
def writeInternalCode (ctx : BlockContext) (newAddress tableName codeString : Bytes) :
    M Unit :=
  if ctx.isWasm then do
    createTable newAddress storageValue
    setRow newAddress accountCode (importFields codeString)
  else do
    createTable tableName storageValue
    let codeTable := getContractTableName ctx newAddress false
    createTable codeTable storageValue
    setRow codeTable accountCode (importFields codeString)
    setRow tableName (bytes "link_address") (importFields newAddress)
    setRow tableName (bytes "type") (importFields (bytes "link"))

def internalCreate (ctx : BlockContext) (b : Behaviour)
    (callParameters : CallParameters) : M CallParameters :=
  match ctx.decode callParameters.data with
  | .error e => throw e
  | .ok (tableName, codeString) => do
    if ← b.buildBfsPath then
      writeInternalCode ctx callParameters.codeAddress tableName codeString
      return { callParameters with
        type := .finished
        status := .none
        internalCreate := false
        create := false
        data := [] }
    else buildBfsFailed callParameters

/-- What the clauses of `go` do with an exception; `taken` are the parameters of
the host, or new ones once they have been taken from it. -/
def caught (taken : CallParameters) : Exception → M CallParameters
  | .error errorMessage =>
    revertWith { taken with status := .revertInstruction, message := errorMessage }
  | _ => throw .exit

/-- The end of a deployment in `go`, once the code may be written. -/
def deploy (ctx : BlockContext) (tableName : Table) (abi : Bytes)
    (callResults : CallParameters) (output : Bytes) : M CallParameters := do
  setCodeAndAbi ctx tableName output abi
  let deployed := { callResults with
    gas := callResults.gas - output.length * ctx.createDataGas
    newEVMContractAddress := callResults.codeAddress
    create := false
    data := [] }
  if ctx.isWasm then return deployed
  else if output = [] then
    revertWith { callResults with
      status := .unknown
      message := bytes "Create contract with empty code, wrong code input."
      create := false
      data := [] }
  else
    let _ ← setCode ctx tableName output
    return deployed

/-- The creating branch of `go` after the virtual machine has returned. -/
def created (ctx : BlockContext) (b : Behaviour) (tableName : Table) (abi : Bytes)
    (host : CallParameters) (result : Result) : M CallParameters := do
  let callResults ← parseEVMCResult host result
  if callResults.status ≠ .none then
    revertWith { callResults with create := false }
  else if ctx.maxCodeSize < result.output.length then
    revertWith { callResults with
      status := .outOfGas
      message := bytes "Code is too large: " ++ bytes (toString result.output.length) ++
        bytes " limit: " ++ bytes (toString ctx.maxCodeSize) }
  else if callResults.gas < result.output.length * ctx.createDataGas ∧
      ctx.exceptionalFailedCodeDeposit then
    revertWith { callResults with
      status := .outOfGas
      message := bytes "exceptionalFailedCodeDeposit" }
  else if ctx.isWasm then
    if ← b.buildBfsPath then deploy ctx tableName abi callResults result.output
    else buildBfsFailed callResults
  else deploy ctx tableName abi callResults result.output

/-- The creating branch of `TransactionExecutive::go`. -/
def goCreate (ctx : BlockContext) (b : Behaviour) (tableName : Table) (abi : Bytes)
    (host : CallParameters) : M CallParameters :=
  tryThen b.body (caught host) (fun result =>
    tryCatch (created ctx b tableName abi host result) (caught (.new .revert)))

/-- The calling branch of `go` on the code it found. -/
def goCode (ctx : BlockContext) (b : Behaviour) (host : CallParameters)
    (code : Bytes) : M CallParameters :=
  if isPrecompiledCode code then
    tryCatch (callDynamicPrecompiled ctx b host code) (caught (.new .revert))
  else
    tryThen b.body (caught host) (fun result =>
      tryCatch (parseEVMCResult host result) (caught (.new .revert)))

/-- The calling branch of `TransactionExecutive::go`. -/
def goCall (ctx : BlockContext) (b : Behaviour) (tableName : Table)
    (host : CallParameters) : M CallParameters :=
  tryThen (getRow tableName accountCode) (caught host) (fun
    | some codeEntry => goCode ctx b host codeEntry.get
    | none =>
      tryCatch (revertWith { host with
          status := .callAddressError, message := bytes "Error contract address." })
        (caught host))

def checkAuth (b : Behaviour) (callParameters : CallParameters) : M Bool :=
  if callParameters.staticCall then return true else b.checkAuth

/-- `TransactionExecutive::call`, and `go` on the host it returns. -/
def call (ctx : BlockContext) (b : Behaviour) (callParameters : CallParameters) :
    M CallParameters := do
  let tableName := getContractTableName ctx callParameters.codeAddress ctx.isWasm
  if ctx.constantPrecompiled callParameters.codeAddress ∨ callParameters.internalCall then
    callPrecompiled ctx b callParameters
  else if ctx.isAuthCheck then
    if ← b.checkContractAvailable then
      if ← checkAuth b callParameters then goCall ctx b tableName callParameters
      else
        revertWith { callParameters with
          status := .permissionDenied
          message := bytes "Call permission denied"
          data := [] }
    else
      revertWith { callParameters with
        status := .contractFrozen
        message := bytes "Contract is frozen"
        data := [] }
  else goCall ctx b tableName callParameters

def hasWasmPreamble (input : Bytes) : Bool :=
  8 ≤ input.length ∧ input.take 4 = [0, 97, 115, 109]

/-- The creation of the tables of a contract in `create`. -/
def createTables (ctx : BlockContext) (tableName : Table)
    (callParameters : CallParameters) : M Unit := do
  createTable tableName storageValue
  if ctx.isAuthCheck then
    creatAuthTable ctx tableName callParameters.origin callParameters.senderAddress

def Exception.what : Exception → Bytes
  | .precompiledError what => what
  | .exception _ what => what
  | .stdException what => what
  | _ => bytes "std::exception"

/-- `create` once its tables are there, and `go` on the host it returns. -/
def createdTables (ctx : BlockContext) (b : Behaviour) (tableName : Table)
    (abi : Bytes) (callParameters : CallParameters) : M CallParameters :=
  if ctx.isWasm then
    match ctx.decode callParameters.data with
    | .error e => throw e
    | .ok (code, _) =>
      if hasWasmPreamble code then
        match ctx.injectMeter code with
        | some code =>
          goCreate ctx b tableName abi { callParameters with abi := [], data := code }
        | none =>
          revertWith { callParameters with
            abi := []
            status := .wasmValidationFailure
            message := bytes "wasm bytecode invalid or use unsupported opcode" }
      else
        revertWith { callParameters with
          abi := []
          status := .wasmValidationFailure
          message := bytes "the code is not wasm bytecode" }
  else goCreate ctx b tableName abi { callParameters with abi := [] }

/-- The clause of `create` for tables that could not be created. -/
def createTablesFailed (callParameters : CallParameters) : Exception → M CallParameters
  | .exit => throw .exit
  | e =>
    revertWith { callParameters with
      abi := []
      status := .contractAddressAlreadyUsed
      message := e.what }

/-- `create` after the permission check. -/
def createAllowed (ctx : BlockContext) (b : Behaviour)
    (callParameters : CallParameters) : M CallParameters :=
  let tableName := getContractTableName ctx callParameters.codeAddress ctx.isWasm
  tryThen (createTables ctx tableName callParameters) (createTablesFailed callParameters)
    (fun _ => createdTables ctx b tableName callParameters.abi callParameters)

/-- `TransactionExecutive::create`, and `go` on the host it returns. -/
def create (ctx : BlockContext) (b : Behaviour) (callParameters : CallParameters) :
    M CallParameters := do
  if callParameters.internalCreate then
    internalCreate ctx b { callParameters with abi := [] }
  else if ctx.isAuthCheck then
    if ← checkAuth b callParameters then createAllowed ctx b callParameters
    else
      revertWith { callParameters with
        abi := []
        status := .permissionDenied
        message := bytes "Create permission denied"
        create := false }
  else createAllowed ctx b callParameters

/-- `TransactionExecutive::execute`, in the state of a new executive. -/
def execute (ctx : BlockContext) (b : Behaviour) (callParameters : CallParameters) :
    M CallParameters :=
  if callParameters.create then create ctx b callParameters
  else call ctx b callParameters

/-- The message that `externalCall` hands to the callee. -/
def externalInput (ctx : BlockContext) (contextID seq : ℤ) (input : CallParameters) :
    CallParameters :=
  let input := { input with seq, contextID }
  if input.create ∧ ctx.isWasm = false then
    let newAddress :=
      match input.createSalt with
      | some salt => ctx.newEVMAddressSalt input.senderAddress input.data salt
      | none => ctx.newEVMAddress ctx.number contextID seq
    { input with receiveAddress := newAddress, codeAddress := newAddress }
  else input

/-- `TransactionExecutive::externalCall`: the callee starts with a recoder of its
own, and leaves it installed. -/
def externalCall (ctx : BlockContext) (contextID : ℤ) (b : Behaviour)
    (input : CallParameters) : M (Except Exception CallParameters) := fun e =>
  let newSeq := e.seq + 1
  match execute ctx b (externalInput ctx contextID newSeq input) (.new e.storage newSeq) with
  | .ok output callee =>
    .ok (.ok output) ⟨callee.storage, some e.recoder, callee.seq,
        e.trace.externalCall (some output.type) callee.trace⟩
  | .error .exit callee => .error .exit { e with storage := callee.storage }
  | .error x callee =>
    .ok (.error x) ⟨callee.storage, some e.recoder, e.seq, e.trace.externalCall none callee.trace⟩

/-! ## Call trees -/

/-- What the code of a frame does through its host until it returns or throws.
A call tells what the callee's permission checks, code and BFS call do. -/
inductive Code
  | done (result : Result)
  | raise (e : Exception)
  | getRow (table : Table) (key : Key) (next : Except Exception (Option Entry) → Code)
  | getRows (table : Table) (keys : List Key) (next : Except Exception (List (Option Entry)) → Code)
  | setRow (table : Table) (key : Key) (entry : Entry) (next : Except Exception Unit → Code)
  | getPrimaryKeys (next : Code)
  | externalCall (input : CallParameters)
      (checkContractAvailable checkAuth body buildBfsPath : Code)
      (next : Except Exception CallParameters → Code)

/-- A call whose exceptions the code of a frame may catch. -/
def attempt {α : Type} (x : M α) : M (Except Exception α) := fun e =>
  match x e with
  | .ok a e => .ok (.ok a) e
  | .error .exit e => .error .exit e
  | .error exception e => .ok (.error exception) e

/-- A check passes if its code returns `success`. -/
def passes (x : M Result) : M Bool := do
  return (← x).status = .success

/-- What the contracts of a frame do, from what runs them. -/
def behaviour (checkContractAvailable checkAuth body buildBfsPath : M Result) : Behaviour where
  checkContractAvailable := passes checkContractAvailable
  checkAuth := passes checkAuth
  body := body
  buildBfsPath := passes buildBfsPath

def Code.run (previous : Previous) (ctx : BlockContext) (contextID : ℤ) : Code → M Result
  | done result => return result
  | raise e => throw e
  | getRow table key next => do
    let answer ← attempt (Executor.getRow table key)
    (next answer).run previous ctx contextID
  | getRows table keys next => do
    let answer ← attempt (Executor.getRows previous table keys)
    (next answer).run previous ctx contextID
  | setRow table key entry next => do
    let answer ← attempt (Executor.setRow table key entry)
    (next answer).run previous ctx contextID
  | getPrimaryKeys next => do
    Executor.getPrimaryKeys
    next.run previous ctx contextID
  | externalCall input available auth body bfs next => do
    let answer ← Executor.externalCall ctx contextID
      (behaviour (available.run previous ctx contextID)
        (auth.run previous ctx contextID) (body.run previous ctx contextID)
        (bfs.run previous ctx contextID)) input
    (next answer).run previous ctx contextID

/-- A frame: what its permission checks, its code and its BFS call do. -/
structure Frame where
  checkContractAvailable : Code
  checkAuth : Code
  body : Code
  buildBfsPath : Code

/-- `TransactionExecutive::start` of a frame on the block storage. -/
def Frame.start (previous : Previous) (ctx : BlockContext) (frame : Frame)
    (input : CallParameters) (storage : StateStorage) :
    EStateM.Result Exception Executive CallParameters :=
  execute ctx (behaviour (frame.checkContractAvailable.run previous ctx input.contextID)
      (frame.checkAuth.run previous ctx input.contextID)
      (frame.body.run previous ctx input.contextID)
      (frame.buildBfsPath.run previous ctx input.contextID)) input (.new storage input.seq)

end FiscoSmart.Executor
