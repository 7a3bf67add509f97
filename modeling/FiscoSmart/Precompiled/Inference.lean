import FiscoSmart.Executor.TransactionExecutive

/-!
# Inference off the chain

`InferencePrecompiled` hands the argument of `predict` to the shell of the node.  If
the command exits with 0, the answer is the first line of a file, and otherwise the
status of the command.  Both are local to the node: all nodes agree on a
transaction that they execute from one storage exactly if it runs no command or
its gas suffices for no answer.
-/

namespace FiscoSmart.Precompiled.Inference

open Executor Support

/-- What the contract uses of the codec and of `name2Selector`. -/
structure Codec where
  predict : BitVec 32
  decodeString : Bytes → Except Exception Bytes
  encodeString : Bytes → Bytes
  encodeString_injective : Function.Injective encodeString
  encodeU256 : BitVec 256 → Bytes

/-- What a node answers to a command when the call runs it: the value of `system`, and then
the first line of `result.txt`, if that can be opened. -/
structure Node where
  system : Bytes → BitVec 32
  resultLine : Bytes → Option Bytes

def retValue (node : Node) (cmd : Bytes) : Bytes :=
  let retCode := node.system cmd
  -- `WIFEXITED` and `WEXITSTATUS`
  if retCode ≠ -1 ∧ retCode &&& 0x7f = 0 ∧ (retCode >>> 8) &&& 0xff = 0 then
    (node.resultLine cmd).getD (ascii "retCode: ")
  else ascii "retCode: " ++ ascii (toString retCode.toInt)

/-- `PrecompiledGas::calMemGas`, which is `calTotalGas` when no operation has been added. -/
def calMemGas (memUsed : ℕ) : ℤ :=
  let memSize := (memUsed + 31) / 32
  ↑(3 * memSize + memSize * memSize / 512)

section Call

variable (codec : Codec) (node : Node)

/-- The end of `InferencePrecompiled::call`. -/
def charged (gas : ℤ) (input execResult : Bytes) : Result where
  status := .success
  gasLeft := gas - calMemGas (max input.length execResult.length)
  output := execResult

/-- `InferencePrecompiled::call`. -/
def call (gas : ℤ) (input : Bytes) : Except Exception Result :=
  if input.length < 4 then
    .error (.precompiledError (ascii "Empty param data in precompiled call"))
  else if BitVec.ofNat 32 (fromBigEndian (input.take 4)) = codec.predict then
    (codec.decodeString (input.drop 4)).map
      fun cmd => charged gas input (codec.encodeString (retValue node cmd))
  else .ok (charged gas input (codec.encodeU256 (BitVec.ofInt 256 (-50101))))

/-- The input that `callPrecompiled` passes on. -/
def inputOf (ctx : BlockContext) (callParameters : CallParameters) : Bytes :=
  if callParameters.internalCall then
    ((ctx.decode callParameters.data).toOption.map Prod.snd).getD []
  else callParameters.data

/-- A frame that runs the contract. -/
def behaviour (ctx : BlockContext) (callParameters : CallParameters) : Behaviour where
  checkContractAvailable := return true
  checkAuth := return true
  body := MonadExcept.ofExcept (call codec node callParameters.gas (inputOf ctx callParameters))
  buildBfsPath := return true

/-- `callPrecompiled` on a node. -/
def execute (ctx : BlockContext) (callParameters : CallParameters) : M CallParameters :=
  callPrecompiled ctx (behaviour codec node ctx callParameters) callParameters

end Call

section Alike

variable (codec : Codec) (ctx : BlockContext) (p : CallParameters)

/-- The address is that of a precompiled contract, and the call runs the command there. -/
def RunsCommand (cmd : Bytes) : Prop :=
  (∃ address, precompiledAddress ctx p = pure address ∧ ctx.constantPrecompiled address = true) ∧
  4 ≤ (inputOf ctx p).length ∧
  BitVec.ofNat 32 (fromBigEndian ((inputOf ctx p).take 4)) = codec.predict ∧
  codec.decodeString ((inputOf ctx p).drop 4) = .ok cmd

/-- What is left of the gas after a value has been returned. -/
def gasAfter (value : Bytes) : ℤ :=
  p.gas - calMemGas (max (inputOf ctx p).length (codec.encodeString value).length)

/-- What `callPrecompiled` does when the gas does not suffice. -/
def outOfGas : M CallParameters :=
  tryCatch (revertWith { p with status := .outOfGas }) (precompiledFailed ctx p)

variable {codec ctx p} {node node' : Node} {cmd : Bytes}

theorem revertWith_type :
    Ensures (fun _ => True) (revertWith p) (fun r _ => r.type = .revert) (fun _ _ => True) :=
  (Ensures.trivial _ revert).bind fun _ => .of_pure fun _ _ => rfl

theorem outOfGas_type : Ensures (fun _ => True) (outOfGas ctx p)
    (fun r _ => r.type = .revert) (fun _ _ => True) := by
  refine revertWith_type.tryCatch fun x => ?_
  cases x with
  | exit => exact .of_throw fun _ _ => trivial
  | _ => exact revertWith_type

theorem execute_of_runsCommand (h : RunsCommand codec ctx p cmd) {e : Executive} :
    execute codec node ctx p e =
      if gasAfter codec ctx p (retValue node cmd) < 0 then
        outOfGas ctx p e
      else .ok { p with
        type := .finished
        gas := gasAfter codec ctx p (retValue node cmd)
        status := .none
        data := codec.encodeString (retValue node cmd)
        internalCall := false } e := by
  obtain ⟨⟨address, haddr, hconstant⟩, hlen, hfunc, hdecode⟩ := h
  have hcall : call codec node p.gas (inputOf ctx p) = .ok (charged p.gas (inputOf ctx p)
        (codec.encodeString (retValue node cmd))) := by
    rw [call, if_neg (by omega), if_pos hfunc, hdecode]
    rfl
  have hbody : (behaviour codec node ctx p).body =
      pure (charged p.gas (inputOf ctx p) (codec.encodeString (retValue node cmd))) := by
    rw [behaviour, hcall]
    rfl
  rw [execute, callPrecompiled, haddr, pure_bind, runPrecompiled, execPrecompiled,
    if_pos hconstant, hbody, pure_bind]
  split_ifs with hgas hgas' hgas'
  · rfl
  · exact absurd hgas hgas'
  · exact absurd hgas' hgas
  · rfl

theorem precompiledAddress_cases : (∃ address, precompiledAddress ctx p = pure address) ∨
      ∃ x, precompiledAddress ctx p = throw x := by
  rw [precompiledAddress]
  split_ifs
  · rcases ctx.decode p.data with x | ⟨contract, _⟩
    · exact .inr ⟨x, rfl⟩
    · exact .inl ⟨contract, rfl⟩
  · exact .inl ⟨_, rfl⟩

/-- A call that runs no command does not ask the node. -/
theorem execute_of_not_runsCommand (h : ∀ cmd, ¬ RunsCommand codec ctx p cmd) :
    execute codec node ctx p = execute codec node' ctx p := by
  rw [execute, execute, callPrecompiled, callPrecompiled]
  rcases precompiledAddress_cases with ⟨address, haddr⟩ | ⟨x, hx⟩
  · rw [haddr, pure_bind, pure_bind, runPrecompiled, runPrecompiled, execPrecompiled,
      execPrecompiled]
    split_ifs with hconstant
    · have hcall : call codec node p.gas (inputOf ctx p) =
          call codec node' p.gas (inputOf ctx p) := by
        rw [call, call]
        split_ifs with hlen hfunc
        · rfl
        · rcases hdecode : codec.decodeString ((inputOf ctx p).drop 4) with _ | cmd
          · rw [Except.map, Except.map]
          · exact absurd ⟨⟨address, haddr, hconstant⟩, by omega, hfunc, hdecode⟩ (h cmd)
        · rfl
      rw [behaviour, behaviour, hcall]
    · rfl
  · funext e
    have hthrow : Fails (throw x : M Bytes) e x e := Fails.of_throw
    rw [hx, hthrow.bind_eq, hthrow.bind_eq]

/-- A node on which every command succeeds and leaves the line in the file. -/
def Node.answering (line : Bytes) : Node := ⟨fun _ => 0, fun _ => some line⟩

theorem retValue_answering {line : Bytes} : retValue (.answering line) cmd = line := by
  have hexited : (0 : BitVec 32) ≠ -1 ∧ (0 : BitVec 32) &&& 0x7f = 0 ∧
      ((0 : BitVec 32) >>> 8) &&& 0xff = 0 := by
    decide
  exact if_pos hexited

/-- All nodes that execute a call from the same state agree on the result, the gas and the
storage exactly if the call runs no command, or the gas suffices for no answer. -/
theorem execute_alike_iff (e : Executive) :
    (∀ node node', execute codec node ctx p e = execute codec node' ctx p e) ↔
      ∀ cmd, RunsCommand codec ctx p cmd → ∀ value, gasAfter codec ctx p value < 0 := by
  constructor
  · intro halike cmd hcmd value
    by_contra hgas
    have heq := halike (.answering value) (.answering (0 :: value))
    rw [execute_of_runsCommand hcmd, execute_of_runsCommand hcmd, retValue_answering,
      retValue_answering, if_neg hgas] at heq
    split_ifs at heq with hgas'
    · cases outOfGas_type.ok trivial heq.symm
    · injection heq with hr
      have hvalue := codec.encodeString_injective (congrArg CallParameters.data hr)
      exact absurd (congrArg List.length hvalue) (Nat.succ_ne_self _).symm
  · intro hgas node node'
    by_cases hruns : ∃ cmd, RunsCommand codec ctx p cmd
    · obtain ⟨cmd, hcmd⟩ := hruns
      rw [execute_of_runsCommand hcmd, execute_of_runsCommand hcmd, if_pos (hgas cmd hcmd _),
        if_pos (hgas cmd hcmd _)]
    · rw [execute_of_not_runsCommand (not_exists.mp hruns)]

end Alike

/-- Two nodes on which a command succeeds, with different lines in their files. -/
theorem execute_lines_differ :
    let codec : Codec := ⟨0, .ok, id, Function.injective_id, fun _ => []⟩
    let ctx : BlockContext := ⟨1, false, false, 0, 0, true, fun _ => true, id, fun _ _ _ => [],
      fun _ _ _ => [], fun _ => id, fun _ => .error .exit, id, some⟩
    let p := { CallParameters.new .message with gas := 100, data := [0, 0, 0, 0] }
    let e := Executive.new (Storage.StateStorage.create (fun _ _ => .ok none)) 0
    execute codec (.answering [0]) ctx p e =
        .ok { p with type := .finished, gas := 97, data := [0] } e ∧
      execute codec (.answering [1]) ctx p e =
        .ok { p with type := .finished, gas := 97, data := [1] } e :=
  ⟨rfl, rfl⟩

end FiscoSmart.Precompiled.Inference
