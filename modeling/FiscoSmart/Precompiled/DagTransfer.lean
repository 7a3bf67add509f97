import FiscoSmart.Codec.Scale
import FiscoSmart.Support.Footprint

/-!
# Conflict tags of parallel transfers

`DagTransferPrecompiled` keeps one row per user in the table `DAG_TRANSFER`.
Before a block is executed, `getParallelTag` decodes the data of each call and
names the users whose rows the call may touch; calls without a common tag are
executed in parallel.

The updating functions name every row that they read or write, so two of them
without a common tag commute.  The query `userBalance` names no row although it
reads one.  It has no tag, which the executor takes for "no conflict with
anything", and its answer depends on whether it runs before or after an update
of its user.
-/

namespace FiscoSmart.Precompiled.DagTransfer

open Support Codec Function
open MonadExcept (ofExcept)

variable {α : Type} {user : Bytes}

/-! ## The contract -/

abbrev U256 := BitVec 256

inductive Exception
  | precompiledError (message : String)
  | scaleDecode (failure : Scale.DecodeFailure)
  | runtimeError (message : String)
deriving DecidableEq

variable {field : String} {r : Request}

/-- The table `DAG_TRANSFER`: the field `DAG_TRANSFER_FIELD_BALANCE` of each user. -/
abbrev Table := Bytes → Option String

/-- The storage, where the table may not exist. -/
abbrev Storage := Option Table

abbrev Call := EStateM Exception Storage

variable {amount v : U256} {s : Storage} {failed : α} {found : Option String → Call α}
  {fromUser toUser : Bytes} {x : Except Exception α}

/-- `u256::str`. -/
def str (v : U256) : String := v.toNat.repr

/-- `CodecWrapper::decode` at the three lists of arguments that the contract
decodes.  A decoder that gives up leaves some arguments at their initial values
or throws. -/
structure CodecWrapper where
  decodeString : Bytes → Except Exception Bytes
  decodeStringUint : Bytes → Except Exception (Bytes × U256)
  decodeStringStringUint : Bytes → Except Exception (Bytes × Bytes × U256)

/-- `name2Selector`. -/
structure Selectors where
  userAdd : BitVec 32
  userSave : BitVec 32
  userDraw : BitVec 32
  userTransfer : BitVec 32
  userBalance : BitVec 32

/-- What the contract takes from elsewhere: the codec, the selectors, which are
hashes, and the conversion of text to numbers, which reads back what `str`
writes. -/
structure Environment where
  codec : CodecWrapper
  name2Selector : Selectors
  u256 : String → Except Exception U256
  u256_str : ∀ v, u256 (str v) = .ok v

/-! ### Return codes -/

def codeInvalidOpenTableFailed : ℤ := -51406

def codeInvalidBalanceOverflow : ℤ := -51405

def codeInvalidInsufficientBalance : ℤ := -51404

def codeInvalidUserAlreadyExist : ℤ := -51403

def codeInvalidUserNotExist : ℤ := -51402

def codeInvalidAmount : ℤ := -51401

def codeInvalidUserName : ℤ := -51400

/-! ### The table -/

/-- Whether `openTable` finds the table. -/
def openTable : Call Bool := return (← get).isSome

def getRow (user : Bytes) : Call (Option String) := return (← get).bind (· user)

def setRow (user : Bytes) (field : String) : Call PUnit :=
  modify fun storage => storage.map fun table => update table user (some field)

/-! ### The functions -/

section Functions

variable (env : Environment)

def userAdd (user : Bytes) (amount : U256) : Call ℤ := do
  if user = [] then return codeInvalidUserName
  if ¬ (← openTable) then return codeInvalidOpenTableFailed
  if (← getRow user).isSome then return codeInvalidUserAlreadyExist
  setRow user (str amount)
  return 0

def userSave (user : Bytes) (amount : U256) : Call ℤ := do
  if user = [] then return codeInvalidUserName
  if amount = 0 then return codeInvalidAmount
  if ¬ (← openTable) then return codeInvalidOpenTableFailed
  match ← getRow user with
  | none =>
    setRow user (str amount)
    return 0
  | some field =>
    let balance ← ofExcept (env.u256 field)
    if balance + amount < balance then return codeInvalidBalanceOverflow
    setRow user (str (balance + amount))
    return 0

def userDraw (user : Bytes) (amount : U256) : Call ℤ := do
  if user = [] then return codeInvalidUserName
  if amount = 0 then return codeInvalidAmount
  if ¬ (← openTable) then return codeInvalidOpenTableFailed
  match ← getRow user with
  | none => return codeInvalidUserNotExist
  | some field =>
    let balance ← ofExcept (env.u256 field)
    if balance < amount then return codeInvalidInsufficientBalance
    setRow user (str (balance - amount))
    return 0

/-- The balance of the user who receives a transfer, whose row is added first if
there is none. -/
def receiverBalance (toUser : Bytes) : Call U256 := do
  match ← getRow toUser with
  | none =>
    setRow toUser (str 0)
    return 0
  | some field => ofExcept (env.u256 field)

def userTransfer (fromUser toUser : Bytes) (amount : U256) : Call ℤ := do
  if fromUser = [] ∨ toUser = [] then return codeInvalidUserName
  if amount = 0 then return codeInvalidAmount
  if fromUser = toUser then return 0
  if ¬ (← openTable) then return codeInvalidOpenTableFailed
  match ← getRow fromUser with
  | none => return codeInvalidUserNotExist
  | some field =>
    let fromUserBalance ← ofExcept (env.u256 field)
    if fromUserBalance < amount then return codeInvalidInsufficientBalance
    let toUserBalance ← receiverBalance env toUser
    if toUserBalance + amount < toUserBalance then return codeInvalidBalanceOverflow
    setRow fromUser (str (fromUserBalance - amount))
    setRow toUser (str (toUserBalance + amount))
    return 0

/-- The code and the balance. -/
def userBalance (user : Bytes) : Call (ℤ × U256) := do
  if user = [] then return (codeInvalidUserName, 0)
  if ¬ (← openTable) then return (codeInvalidOpenTableFailed, 0)
  match ← getRow user with
  | none => return (codeInvalidUserNotExist, 0)
  | some field =>
    let balance ← ofExcept (env.u256 field)
    return (0, balance)

/-! ### Calls -/

/-- The numbers that `codec.encode` writes to the result of a call. -/
abbrev ExecResult := List U256

/-- `_out = codec.encode(u256(ret))`. -/
def encodeRet (ret : ℤ) : ExecResult := [BitVec.ofInt 256 ret]

def userAddCall (data : Bytes) : Call ExecResult := do
  let (user, amount) ← ofExcept (env.codec.decodeStringUint data)
  return encodeRet (← userAdd user amount)

def userSaveCall (data : Bytes) : Call ExecResult := do
  let (user, amount) ← ofExcept (env.codec.decodeStringUint data)
  return encodeRet (← userSave env user amount)

def userDrawCall (data : Bytes) : Call ExecResult := do
  let (user, amount) ← ofExcept (env.codec.decodeStringUint data)
  return encodeRet (← userDraw env user amount)

def userTransferCall (data : Bytes) : Call ExecResult := do
  let (fromUser, toUser, amount) ← ofExcept (env.codec.decodeStringStringUint data)
  return encodeRet (← userTransfer env fromUser toUser amount)

def userBalanceCall (data : Bytes) : Call ExecResult := do
  let user ← ofExcept (env.codec.decodeString data)
  let (ret, balance) ← userBalance env user
  return encodeRet ret ++ [balance]

/-- The selector, the most significant byte first. -/
def getParamFunc (param : Bytes) : Except Exception (BitVec 32) :=
  if param.length < 4 then
    .error (.precompiledError "Empty param data in precompiled call")
  else .ok (BitVec.ofNat 32 (fromBigEndian (param.take 4)))

def getParamData (param : Bytes) : Bytes := param.drop 4

/-- `DagTransferPrecompiled::call`. -/
def call (input : Bytes) : Call ExecResult := do
  let func ← ofExcept (getParamFunc input)
  let data := getParamData input
  if func = env.name2Selector.userAdd then userAddCall env data
  else if func = env.name2Selector.userSave then userSaveCall env data
  else if func = env.name2Selector.userDraw then userDrawCall env data
  else if func = env.name2Selector.userTransfer then userTransferCall env data
  else if func = env.name2Selector.userBalance then userBalanceCall env data
  else return []

/-- The tag of the functions with one user. -/
def userTag (user : Bytes) : List Bytes := if user = [] then [] else [user]

/-- `DagTransferPrecompiled::getParallelTag`. -/
def getParallelTag (param : Bytes) : Except Exception (List Bytes) := do
  let func ← getParamFunc param
  let data := getParamData param
  if func = env.name2Selector.userAdd then
    let (user, _) ← env.codec.decodeStringUint data
    return userTag user
  else if func = env.name2Selector.userSave then
    let (user, _) ← env.codec.decodeStringUint data
    return userTag user
  else if func = env.name2Selector.userDraw then
    let (user, _) ← env.codec.decodeStringUint data
    return userTag user
  else if func = env.name2Selector.userTransfer then
    let (fromUser, toUser, _) ← env.codec.decodeStringStringUint data
    return if fromUser ≠ [] ∧ toUser ≠ [] then [fromUser, toUser] else []
  else if func = env.name2Selector.userBalance then return []
  else return []

/-- The conflict fields that `dagExecuteTransactionsInternal` computes for a
call of the contract: a list, also where there is no tag, so that the call is
executed in parallel. -/
def conflictFields (receiveAddress : Bytes) (data : Bytes) : Except Exception (List Bytes) := do
  let criticals ← getParallelTag env data
  return criticals.map (· ++ receiveAddress)

end Functions

/-! ## Requests -/

/-- What a call asks for, with its arguments.  A call that fails before it looks
at the storage, or that selects no function, is refused. -/
inductive Request
  | userAdd (user : Bytes) (amount : U256)
  | userSave (user : Bytes) (amount : U256)
  | userDraw (user : Bytes) (amount : U256)
  | userTransfer (fromUser toUser : Bytes) (amount : U256)
  | userBalance (user : Bytes)
  | refused (result : Except Exception ExecResult)

namespace Request

/-- The request with the decoded arguments. -/
def ofDecoded {α : Type} (f : α → Request) : Except Exception α → Request
  | .ok a => f a
  | .error e => .refused (.error e)

def run (env : Environment) : Request → Call ExecResult
  | userAdd user amount => return encodeRet (← DagTransfer.userAdd user amount)
  | userSave user amount => return encodeRet (← DagTransfer.userSave env user amount)
  | userDraw user amount => return encodeRet (← DagTransfer.userDraw env user amount)
  | userTransfer fromUser toUser amount =>
    return encodeRet (← DagTransfer.userTransfer env fromUser toUser amount)
  | userBalance user => do
    let (ret, balance) ← DagTransfer.userBalance env user
    return encodeRet ret ++ [balance]
  | refused result => ofExcept result

/-- The rows that the request may write: those of its users, if its arguments
are accepted. -/
def Alters : Request → Bytes → Prop
  | userAdd user _, u => u = user ∧ user ≠ []
  | userSave user amount, u => u = user ∧ user ≠ [] ∧ amount ≠ 0
  | userDraw user amount, u => u = user ∧ user ≠ [] ∧ amount ≠ 0
  | userTransfer fromUser toUser amount, u =>
    (u = fromUser ∨ u = toUser) ∧ fromUser ≠ [] ∧ toUser ≠ [] ∧ amount ≠ 0 ∧ fromUser ≠ toUser
  | userBalance _, _ => False
  | refused _, _ => False

/-- The row that the request queries. -/
def Queries : Request → Bytes → Prop
  | userBalance user, u => u = user ∧ user ≠ []
  | _, _ => False

/-- The users that the request names, if none of the names is empty. -/
def tags : Request → List Bytes
  | userAdd user _ => userTag user
  | userSave user _ => userTag user
  | userDraw user _ => userTag user
  | userTransfer fromUser toUser _ =>
    if fromUser ≠ [] ∧ toUser ≠ [] then [fromUser, toUser] else []
  | userBalance _ => []
  | refused _ => []

theorem Alters.mem_tags (h : r.Alters user) : user ∈ r.tags := by
  rcases r with ⟨u, amount⟩ | ⟨u, amount⟩ | ⟨u, amount⟩ | ⟨fromUser, toUser, amount⟩ | u | result
  · obtain ⟨rfl, hne⟩ := h
    simp [tags, userTag, hne]
  · obtain ⟨rfl, hne, -⟩ := h
    simp [tags, userTag, hne]
  · obtain ⟨rfl, hne, -⟩ := h
    simp [tags, userTag, hne]
  · obtain ⟨hmem, hfrom, hto, -⟩ := h
    simpa [tags, hfrom, hto] using hmem
  · exact h.elim
  · exact h.elim

end Request

section Calls

variable (env : Environment) {tags : List Bytes}

def request (input : Bytes) : Request :=
  let data := getParamData input
  Request.ofDecoded (fun func =>
    if func = env.name2Selector.userAdd then
      .ofDecoded (fun p => .userAdd p.1 p.2) (env.codec.decodeStringUint data)
    else if func = env.name2Selector.userSave then
      .ofDecoded (fun p => .userSave p.1 p.2) (env.codec.decodeStringUint data)
    else if func = env.name2Selector.userDraw then
      .ofDecoded (fun p => .userDraw p.1 p.2) (env.codec.decodeStringUint data)
    else if func = env.name2Selector.userTransfer then
      .ofDecoded (fun p => .userTransfer p.1 p.2.1 p.2.2) (env.codec.decodeStringStringUint data)
    else if func = env.name2Selector.userBalance then
      .ofDecoded .userBalance (env.codec.decodeString data)
    else .refused (.ok [])) (getParamFunc input)

theorem ofExcept_bind_run (x : Except Exception α) (f : α → Call ExecResult) (g : α → Request)
    (h : ∀ a, f a = (g a).run env) :
    (ofExcept x : Call α) >>= f = (Request.ofDecoded g x).run env := by
  rcases x with e | a
  · rfl
  · exact h a

theorem call_eq (input : Bytes) : call env input = (request env input).run env := by
  apply ofExcept_bind_run
  intro func
  split_ifs <;> first | rfl | exact ofExcept_bind_run env _ _ _ fun _ => rfl

theorem tags_ofDecoded {f : α → Except Exception (List Bytes)}
    {g : α → Request} (h : x >>= f = .ok tags) (hf : ∀ a, f a = .ok tags → (g a).tags = tags) :
    (Request.ofDecoded g x).tags = tags := by
  rcases x with e | a
  · cases h
  · exact hf a h

theorem tags_request {input : Bytes}
    (h : getParallelTag env input = .ok tags) : (request env input).tags = tags := by
  have hdecoded {α : Type} {x : Except Exception α} {f : α → List Bytes} {g : α → Request}
      (hx : (x >>= fun a => return f a) = .ok tags) (hg : ∀ a, (g a).tags = f a) :
      (Request.ofDecoded g x).tags = tags :=
    tags_ofDecoded hx fun a ha => (hg a).trans (Except.ok.inj ha)
  refine tags_ofDecoded h fun func hfunc => ?_
  split_ifs at hfunc ⊢
  · exact hdecoded hfunc fun _ => rfl
  · exact hdecoded hfunc fun _ => rfl
  · exact hdecoded hfunc fun _ => rfl
  · exact hdecoded hfunc fun _ => rfl
  · -- The query is decoded by `call` only.
    cases hfunc
    rcases env.codec.decodeString (getParamData input) with e | user <;> rfl
  · exact Except.ok.inj hfunc

end Calls

/-! ## Footprints -/

/-- The row of a user, or nothing if there is no table. -/
def rowOf (storage : Storage) (user : Bytes) : Option (Option String) := storage.map (· user)

theorem rowOf_injective : Function.Injective rowOf := by
  rintro (_ | table) (_ | table') h
  · rfl
  · cases congrFun h []
  · cases congrFun h []
  · refine congrArg some (funext fun user => ?_)
    exact Option.some.inj (congrFun h user)

section Footprints

variable {reads writes : Set Bytes}

theorem openTable_footprint (h : user ∈ reads) : Footprint rowOf reads writes openTable where
  outcome s t hst := by
    have hrow : (s.map (· user)).isSome = (t.map (· user)).isSome := congrArg _ (hst h)
    rw [Option.isSome_map, Option.isSome_map] at hrow
    exact congrArg Except.ok hrow
  agree _ _ hst := hst
  kept _ _ _ := rfl

theorem getRow_footprint (h : user ∈ reads) : Footprint rowOf reads writes (getRow user) where
  outcome s t hst := by
    have hrow : (s.map (· user)).bind id = (t.map (· user)).bind id :=
      congrArg (Option.bind · id) (hst h)
    rw [Option.bind_map, Option.bind_map] at hrow
    exact congrArg Except.ok hrow
  agree _ _ hst := hst
  kept _ _ _ := rfl

theorem rowOf_setRow {u : Bytes} : rowOf (final (setRow user field) s) u =
      if u = user then (rowOf s u).map fun _ => some field else rowOf s u := by
  rcases s with _ | table
  · split_ifs <;> rfl
  · change some (update table user (some field) u) = _
    rw [update_apply]
    split_ifs <;> rfl

theorem setRow_footprint (h : user ∈ writes) :
    Footprint rowOf reads writes (setRow user field) where
  outcome _ _ _ := rfl
  agree s t hst u hu := by
    rw [rowOf_setRow, rowOf_setRow, hst hu]
  kept s u hu := by
    rw [rowOf_setRow, if_neg]
    rintro rfl
    exact hu h

theorem ofExcept_footprint : Footprint rowOf reads writes (ofExcept x : Call α) := by
  rcases x with e | a
  · exact .of_throw
  · exact .of_pure

theorem openRow_footprint (h : user ∈ reads)
    (hfound : ∀ row, Footprint rowOf reads writes (found row)) : Footprint rowOf reads writes (do
      if ¬ (← openTable) then return failed
      found (← getRow user)) :=
  (openTable_footprint h).bind fun _ =>
    .of_ite (fun _ => .of_pure) fun _ => (getRow_footprint h).bind hfound

theorem setRow_return_footprint (h : user ∈ writes) :
    Footprint rowOf reads writes (do setRow user field; return (0 : ℤ)) :=
  (setRow_footprint h).bind fun _ => .of_pure

theorem userAdd_footprint (h : user ≠ [] → user ∈ reads ∧ user ∈ writes) :
    Footprint rowOf reads writes (userAdd user amount) := by
  refine .of_ite (fun _ => .of_pure) fun hne => ?_
  obtain ⟨hreads, hwrites⟩ := h hne
  refine openRow_footprint hreads fun row => ?_
  exact .of_ite (fun _ => .of_pure) fun _ => setRow_return_footprint hwrites

variable (env : Environment)

theorem userSave_footprint (h : user ≠ [] → amount ≠ 0 → user ∈ reads ∧ user ∈ writes) :
    Footprint rowOf reads writes (userSave env user amount) := by
  refine .of_ite (fun _ => .of_pure) fun hne => ?_
  refine .of_ite (fun _ => .of_pure) fun hamount => ?_
  obtain ⟨hreads, hwrites⟩ := h hne hamount
  refine openRow_footprint hreads fun row => ?_
  rcases row with _ | field
  · exact setRow_return_footprint hwrites
  · refine ofExcept_footprint.bind fun balance => ?_
    exact .of_ite (fun _ => .of_pure) fun _ => setRow_return_footprint hwrites

theorem userDraw_footprint (h : user ≠ [] → amount ≠ 0 → user ∈ reads ∧ user ∈ writes) :
    Footprint rowOf reads writes (userDraw env user amount) := by
  refine .of_ite (fun _ => .of_pure) fun hne => ?_
  refine .of_ite (fun _ => .of_pure) fun hamount => ?_
  obtain ⟨hreads, hwrites⟩ := h hne hamount
  refine openRow_footprint hreads fun row => ?_
  rcases row with _ | field
  · exact .of_pure
  · refine ofExcept_footprint.bind fun balance => ?_
    exact .of_ite (fun _ => .of_pure) fun _ => setRow_return_footprint hwrites

theorem userBalance_footprint (h : user ≠ [] → user ∈ reads) :
    Footprint rowOf reads writes (userBalance env user) := by
  refine .of_ite (fun _ => .of_pure) fun hne => ?_
  refine openRow_footprint (h hne) fun row => ?_
  rcases row with _ | field
  · exact .of_pure
  · exact ofExcept_footprint.bind fun balance => .of_pure

theorem receiverBalance_footprint (hreads : user ∈ reads) (hwrites : user ∈ writes) :
    Footprint rowOf reads writes (receiverBalance env user) := by
  refine (getRow_footprint hreads).bind fun row => ?_
  rcases row with _ | field
  · exact (setRow_footprint hwrites).bind fun _ => .of_pure
  · exact ofExcept_footprint

theorem userTransfer_footprint (h : fromUser ≠ [] → toUser ≠ [] → amount ≠ 0 → fromUser ≠ toUser →
      {fromUser, toUser} ⊆ reads ∧ {fromUser, toUser} ⊆ writes) :
    Footprint rowOf reads writes (userTransfer env fromUser toUser amount) := by
  refine .of_ite (fun _ => .of_pure) fun hne => ?_
  refine .of_ite (fun _ => .of_pure) fun hamount => ?_
  refine .of_ite (fun _ => .of_pure) fun hdistinct => ?_
  obtain ⟨hfrom, hto⟩ := not_or.mp hne
  obtain ⟨hreads, hwrites⟩ := h hfrom hto hamount hdistinct
  rw [Set.pair_subset_iff] at hreads hwrites
  refine openRow_footprint hreads.1 fun row => ?_
  rcases row with _ | field
  · exact .of_pure
  refine ofExcept_footprint.bind fun fromUserBalance => ?_
  refine .of_ite (fun _ => .of_pure) fun _ => ?_
  refine (receiverBalance_footprint env hreads.2 hwrites.2).bind fun toUserBalance => ?_
  refine .of_ite (fun _ => .of_pure) fun _ => ?_
  exact (setRow_footprint hwrites.1).bind fun _ => setRow_return_footprint hwrites.2

end Footprints

def Request.Reads (r : Request) (user : Bytes) : Prop := r.Queries user ∨ r.Alters user

theorem Request.footprint {env : Environment} :
    Footprint rowOf {user | r.Reads user} {user | r.Alters user} (r.run env) := by
  cases r with
  | userAdd user amount =>
    refine (userAdd_footprint fun hne => ?_).bind fun _ => .of_pure
    exact ⟨.inr ⟨rfl, hne⟩, rfl, hne⟩
  | userSave user amount =>
    refine (userSave_footprint env fun hne hamount => ?_).bind fun _ => .of_pure
    exact ⟨.inr ⟨rfl, hne, hamount⟩, rfl, hne, hamount⟩
  | userDraw user amount =>
    refine (userDraw_footprint env fun hne hamount => ?_).bind fun _ => .of_pure
    exact ⟨.inr ⟨rfl, hne, hamount⟩, rfl, hne, hamount⟩
  | userTransfer fromUser toUser amount =>
    refine (userTransfer_footprint env fun hfrom hto hamount hdistinct => ?_).bind
      fun _ => .of_pure
    have halters : {fromUser, toUser} ⊆
        {user | (Request.userTransfer fromUser toUser amount).Alters user} :=
      fun user huser => ⟨huser, hfrom, hto, hamount, hdistinct⟩
    exact ⟨fun user huser => .inr (halters huser), halters⟩
  | userBalance user =>
    refine (userBalance_footprint env fun hne => ?_).bind fun _ => .of_pure
    exact .inl ⟨rfl, hne⟩
  | refused result => exact ofExcept_footprint

/-! ## Updates that a query observes -/

section Observed

variable (env : Environment) {table : Table}

theorem runs_openRow {a : α} (h : Runs (found (table user)) (some table) a s) : Runs (do
      if ¬ (← openTable) then return failed
      found (← getRow user)) (some table) a s := h

theorem runs_u256 : Runs (ofExcept (env.u256 (str v)) : Call U256) s v s := by
  rw [env.u256_str]
  rfl

theorem runs_setRow :
    Runs (setRow user field) (some table) PUnit.unit (some (update table user (some field))) := rfl

section

variable (hne : user ≠ []) {table' : Table}

include hne

theorem userBalance_of_row (hrow : table user = some (str v)) :
    outcome ((Request.userBalance user).run env) (some table) = .ok [0, v] := by
  have hrun : Runs (userBalance env user) (some table) (0, v) (some table) := by
    rw [userBalance, if_neg hne]
    apply runs_openRow
    rw [hrow]
    exact (runs_u256 env).bind rfl
  have hanswer : Runs ((Request.userBalance user).run env) (some table) [0, v] (some table) :=
    hrun.bind rfl
  exact hanswer.outcome_eq

theorem userBalance_of_no_row (hrow : table user = none) :
    outcome ((Request.userBalance user).run env) (some table) =
      .ok [BitVec.ofInt 256 codeInvalidUserNotExist, 0] := by
  have hrun : Runs (userBalance env user) (some table) (codeInvalidUserNotExist, 0)
      (some table) := by
    rw [userBalance, if_neg hne]
    apply runs_openRow
    rw [hrow]
    rfl
  have hanswer : Runs ((Request.userBalance user).run env) (some table)
      [BitVec.ofInt 256 codeInvalidUserNotExist, 0] (some table) :=
    hrun.bind rfl
  exact hanswer.outcome_eq

theorem userBalance_ne_of_added (hrow : table user = none) (hrow' : table' user = some (str v)) :
    outcome ((Request.userBalance user).run env) (some table') ≠
      outcome ((Request.userBalance user).run env) (some table) := by
  rw [userBalance_of_row env hne hrow', userBalance_of_no_row env hne hrow]
  intro h
  have hcode : (0 : U256) = BitVec.ofInt 256 codeInvalidUserNotExist :=
    (List.cons.inj (Except.ok.inj h)).1
  exact absurd hcode (by decide)

theorem userBalance_ne_of_drawn (hv : v ≠ 0)
    (hrow : table user = some (str v)) (hrow' : table' user = some (str 0)) :
    outcome ((Request.userBalance user).run env) (some table') ≠
      outcome ((Request.userBalance user).run env) (some table) := by
  rw [userBalance_of_row env hne hrow', userBalance_of_row env hne hrow]
  intro h
  have hbalance := (List.cons.inj (List.cons.inj (Except.ok.inj h)).2).1
  exact hv hbalance.symm

end

def singleRow (user : Bytes) (field : String) : Table :=
  update (fun _ => none) user (some field)

theorem singleRow_self : singleRow user field user = some field := update_self ..

theorem runs_userAdd (hne : user ≠ []) :
    Runs (userAdd user amount) (some fun _ => none) 0 (some (singleRow user (str amount))) := by
  rw [userAdd, if_neg hne]
  exact runs_openRow rfl

theorem runs_userSave (hne : user ≠ []) (hamount : amount ≠ 0) :
    Runs (userSave env user amount) (some fun _ => none) 0
      (some (singleRow user (str amount))) := by
  rw [userSave, if_neg hne, if_neg hamount]
  exact runs_openRow rfl

theorem runs_userDraw (hne : user ≠ []) (hamount : amount ≠ 0) :
    Runs (userDraw env user amount) (some (singleRow user (str amount))) 0
      (some (update (singleRow user (str amount)) user (some (str 0)))) := by
  rw [userDraw, if_neg hne, if_neg hamount]
  apply runs_openRow
  rw [singleRow_self]
  refine (runs_u256 env).bind ?_
  rw [if_neg (BitVec.lt_irrefl amount), BitVec.sub_self]
  exact runs_setRow.bind rfl

theorem runs_receiverBalance (hrow : table user = none) :
    Runs (receiverBalance env user) (some table) 0 (some (update table user (some (str 0)))) := by
  have hget : Runs (getRow user) (some table) none (some table) := by
    rw [← hrow]
    rfl
  exact hget.bind rfl

/-- The first transfer to a user, of all that the sender has. -/
theorem runs_userTransfer (hfrom : fromUser ≠ [])
    (hto : toUser ≠ []) (hamount : amount ≠ 0) (hdistinct : fromUser ≠ toUser) :
    ∃ table', Runs (userTransfer env fromUser toUser amount)
        (some (singleRow fromUser (str amount))) 0 (some table') ∧
      table' fromUser = some (str 0) ∧ table' toUser = some (str amount) := by
  have hnone : singleRow fromUser (str amount) toUser = none :=
    update_of_ne hdistinct.symm ..
  refine ⟨update (update (update (singleRow fromUser (str amount))
    toUser (some (str 0))) fromUser (some (str 0))) toUser (some (str amount)), ?_, ?_, ?_⟩
  · rw [userTransfer, if_neg (not_or.mpr ⟨hfrom, hto⟩), if_neg hamount, if_neg hdistinct]
    apply runs_openRow
    rw [singleRow_self]
    refine (runs_u256 env).bind ?_
    rw [if_neg (BitVec.lt_irrefl amount), BitVec.sub_self]
    refine (runs_receiverBalance env hnone).bind ?_
    have hsum : (0 : U256) + amount = amount := BitVec.zero_add amount
    rw [hsum, if_neg (c := amount < 0) BitVec.not_lt_zero]
    exact runs_setRow.bind (runs_setRow.bind rfl)
  · rw [update_of_ne hdistinct, update_self]
  · rw [update_self]

/-- For every row that a request may write there is a storage in which a query
of this row observes the request. -/
theorem Request.Alters.observed (h : r.Alters user) :
    ∃ s, outcome ((Request.userBalance user).run env) (final (r.run env) s) ≠
      outcome ((Request.userBalance user).run env) s := by
  have hfinal {x : Call ℤ} {s s' : Storage} (hx : Runs x s 0 s') :
      final (do return encodeRet (← x)) s = s' := by
    have hrun : Runs (do return encodeRet (← x)) s (encodeRet 0) s' := hx.bind rfl
    exact hrun.eq_final.symm
  rcases r with ⟨u, amount⟩ | ⟨u, amount⟩ | ⟨u, amount⟩ | ⟨fromUser, toUser, amount⟩ | u | result
  · obtain ⟨rfl, hne⟩ := h
    refine ⟨some fun _ => none, ?_⟩
    rw [Request.run, hfinal (runs_userAdd hne)]
    exact userBalance_ne_of_added env hne rfl (singleRow_self ..)
  · obtain ⟨rfl, hne, hamount⟩ := h
    refine ⟨some fun _ => none, ?_⟩
    rw [Request.run, hfinal (runs_userSave env hne hamount)]
    exact userBalance_ne_of_added env hne rfl (singleRow_self ..)
  · obtain ⟨rfl, hne, hamount⟩ := h
    refine ⟨some (singleRow user (str amount)), ?_⟩
    rw [Request.run, hfinal (runs_userDraw env hne hamount)]
    exact userBalance_ne_of_drawn env hne hamount (singleRow_self ..) (update_self ..)
  · obtain ⟨hmem, hfrom, hto, hamount, hdistinct⟩ := h
    obtain ⟨table', hrun, hrow, hrow'⟩ := runs_userTransfer env hfrom hto hamount hdistinct
    refine ⟨some (singleRow fromUser (str amount)), ?_⟩
    rw [Request.run, hfinal hrun]
    rcases hmem with rfl | rfl
    · exact userBalance_ne_of_drawn env hfrom hamount (singleRow_self ..) hrow
    · exact userBalance_ne_of_added env hto (update_of_ne hdistinct.symm ..) hrow'
  · exact h.elim
  · exact h.elim

end Observed

/-! ## Calls without a common tag -/

theorem Request.Queries.eq (h : r.Queries user) : r = .userBalance user := by
  cases r with
  | userBalance u => rw [h.1]
  | _ => exact h.elim

/-- Two calls that the executor runs in parallel commute in every storage if
and only if neither queries a row that the other one may write. -/
theorem parallel_calls_commute_iff (env : Environment) (receiveAddress a b : Bytes)
    (tags tags' : List Bytes) (ha : conflictFields env receiveAddress a = .ok tags)
    (hb : conflictFields env receiveAddress b = .ok tags') (hdisjoint : tags.Disjoint tags') :
    (∀ storage, CommuteAt (call env a) (call env b) storage) ↔
      ∀ user, ¬ ((request env a).Queries user ∧ (request env b).Alters user) ∧
        ¬ ((request env b).Queries user ∧ (request env a).Alters user) := by
  have htags {input : Bytes} {tags : List Bytes}
      (h : conflictFields env receiveAddress input = .ok tags) {user : Bytes}
      (halters : (request env input).Alters user) : user ++ receiveAddress ∈ tags := by
    rw [conflictFields] at h
    rcases hparallel : getParallelTag env input with e | criticals
    · rw [hparallel] at h
      cases h
    · rw [hparallel] at h
      cases h
      rw [← tags_request env hparallel]
      exact List.mem_map_of_mem halters.mem_tags
  rw [call_eq, call_eq]
  constructor
  · intro hcommute user
    constructor
    · rintro ⟨hquery, halters⟩
      obtain ⟨s, hne⟩ := halters.observed env
      have hleft := (hcommute s).left
      rw [hquery.eq] at hleft
      exact hne hleft
    · rintro ⟨hquery, halters⟩
      obtain ⟨s, hne⟩ := halters.observed env
      have hright := (hcommute s).right
      rw [hquery.eq] at hright
      exact hne hright
  · intro h storage
    have hboth : ∀ user, (request env a).Alters user → ¬ (request env b).Alters user :=
      fun user halters halters' => hdisjoint (htags ha halters) (htags hb halters')
    refine ((request env a).footprint).commuteAt rowOf_injective
      ((request env b).footprint) (fun _ => .inr) (fun _ => .inr) ?_ ?_ storage
    · refine Set.disjoint_left.mpr fun user halters hreads => ?_
      rcases hreads with hquery | halters'
      · exact (h user).2 ⟨hquery, halters⟩
      · exact hboth user halters halters'
    · refine Set.disjoint_left.mpr fun user halters hreads => ?_
      rcases hreads with hquery | halters'
      · exact (h user).1 ⟨hquery, halters⟩
      · exact hboth user halters' halters

/-! ## A chain with the SCALE codec -/

/-- `CodecWrapper::decode` with the type `WASM`. -/
def decodeScale {α : Type} (d : Scale.Decoder α) (data : Bytes) : Except Exception α :=
  match d (Cursor.start data) with
  | .ok a _ => .ok a
  | .error failure _ => .error (.scaleDecode failure)

def scaleCodec : CodecWrapper where
  decodeString := decodeScale do
    let user ← Scale.ScaleType.decodeBytes id
    return user.1
  decodeStringUint := decodeScale do
    let user ← Scale.ScaleType.decodeBytes id
    let amount ← Scale.decodeU256
    return (user.1, BitVec.ofNat 256 amount.1)
  decodeStringStringUint := decodeScale do
    let fromUser ← Scale.ScaleType.decodeBytes id
    let toUser ← Scale.ScaleType.decodeBytes id
    let amount ← Scale.decodeU256
    return (fromUser.1, toUser.1, BitVec.ofNat 256 amount.1)

/-- The number written with decimal digits. -/
def ofDecimal (text : String) : Except Exception U256 :=
  if text.toList.all Char.isDigit then
    .ok (BitVec.ofNat 256 (Nat.ofDigitChars 10 text.toList 0))
  else .error (.runtimeError "Unexpected character encountered in input.")

theorem ofDecimal_str (v : U256) : ofDecimal (str v) = .ok v := by
  have hdigits : (str v).toList = Nat.toDigits 10 v.toNat := by
    rw [str, Nat.repr_eq_ofList_toDigits, String.toList_ofList]
  rw [ofDecimal, hdigits, if_pos, Nat.ofDigitChars_ten_toDigits, BitVec.ofNat_toNat,
    BitVec.setWidth_eq]
  exact List.all_eq_true.mpr fun c hc => Nat.isDigit_of_mem_toDigits (by decide) (by decide) hc

/-- The SCALE codec with the selectors of Keccak-256. -/
def wasmEnvironment : Environment where
  codec := scaleCodec
  name2Selector := ⟨0x3fe8e3f5, 0xe555f3d9, 0xff2b0127, 0x0b37617b, 0x1536aedd⟩
  u256 := ofDecimal
  u256_str := ofDecimal_str

def dagTransferName : Bytes := ascii "/sys/dag_test"

/-- `userBalance("a")`. -/
def balanceInput : Bytes := [0x15, 0x36, 0xae, 0xdd, 4, 97]

/-- `userSave("a", 5)`. -/
def saveInput : Bytes := [0xe5, 0x55, 0xf3, 0xd9, 4, 97] ++ List.replicate 31 0 ++ [5]

/-- `userDraw("b", 3)`. -/
def drawInput : Bytes := [0xff, 0x2b, 0x01, 0x27, 4, 98] ++ List.replicate 31 0 ++ [3]

/-- Calls for two users commute. -/
theorem save_and_draw_commute :
    conflictFields wasmEnvironment dagTransferName saveInput = .ok [97 :: dagTransferName] ∧
      conflictFields wasmEnvironment dagTransferName drawInput = .ok [98 :: dagTransferName] ∧
      ∀ storage, CommuteAt (call wasmEnvironment saveInput) (call wasmEnvironment drawInput)
        storage := by
  refine ⟨rfl, rfl, ?_⟩
  refine (parallel_calls_commute_iff wasmEnvironment dagTransferName saveInput drawInput _ _ rfl rfl
    (List.disjoint_singleton.mpr (by decide))).mpr fun user => ?_
  exact ⟨fun h => h.1, fun h => h.1⟩

/-- A query of a user who does not exist yet, and a call that saves 5 for this
user: they have no common tag, but the answer is `CODE_INVALID_USER_NOT_EXIST`
or the balance 5, depending on the order. -/
theorem balance_query_not_commuting :
    conflictFields wasmEnvironment dagTransferName balanceInput = .ok [] ∧
      conflictFields wasmEnvironment dagTransferName saveInput = .ok [97 :: dagTransferName] ∧
      outcome (call wasmEnvironment balanceInput) (some fun _ => none) =
        .ok [BitVec.ofInt 256 (-51402), 0] ∧ outcome (call wasmEnvironment balanceInput)
        (final (call wasmEnvironment saveInput) (some fun _ => none)) = .ok [0, 5] ∧
      ¬ ∀ storage, CommuteAt (call wasmEnvironment balanceInput)
        (call wasmEnvironment saveInput) storage := by
  have hbefore : outcome (call wasmEnvironment balanceInput) (some fun _ => none) =
      .ok [BitVec.ofInt 256 (-51402), 0] := by
    exact userBalance_of_no_row wasmEnvironment (by decide) rfl
  have hafter : outcome (call wasmEnvironment balanceInput)
      (final (call wasmEnvironment saveInput) (some fun _ => none)) = .ok [0, 5] := by
    exact userBalance_of_row wasmEnvironment (by decide) (singleRow_self ..)
  refine ⟨rfl, rfl, hbefore, hafter, fun h => ?_⟩
  have hequal := (h (some fun _ => none)).left
  have hcode := (List.cons.inj (Except.ok.inj hequal)).1
  exact absurd hcode (by decide)

end FiscoSmart.Precompiled.DagTransfer
