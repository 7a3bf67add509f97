import FiscoSmart.Scheduler.Dmc
import FiscoSmart.Support.Interleaving

/-!
# Preparing a block

`BlockExecutive::prepare` makes a message for every transaction of a block, in a
loop whose iterations run in parallel.  Every iteration also writes the flag
`m_hasDAG`, which later selects how the block is executed.  The writes are
protected one by one, so a run of the loop is an interleaving of the actions of
its iterations.

The loop over the metadata alone adds the attribute of its transaction to the
flag.  The other two loops go through `buildMessage`, which assigns the attribute
to the flag and so discards what other iterations have found.
-/

namespace FiscoSmart.Scheduler.Preparation

open Support List

variable {enableDAG hasDAG : Bool}

/-! ## Transactions and messages -/

/-- `Transaction::Attribute`. -/
def liquidScaleCodec : BitVec 32 := 0x2

/-- `Transaction::Attribute`. -/
def dag : BitVec 32 := 0x4

/-- `Transaction::Attribute`. -/
def liquidCreate : BitVec 32 := 0x8

/-- The attributes include the one of the given bit. -/
def carries (attributes bit : BitVec 32) : Bool := attributes &&& bit ≠ 0

structure Transaction where
  hash : ℕ
  sender : Bytes
  toAddress : Address
  input : Bytes
  abi : Bytes
  source : Bytes
  attributes : BitVec 32

structure TransactionMetaData where
  hash : ℕ
  toAddress : Address
  source : Bytes
  attributes : BitVec 32

structure Block where
  number : ℤ
  transactionMetaData : List TransactionMetaData
  transactions : List Transaction

/-- The members of the scheduler and of the executive that `prepare` reads. -/
structure Config where
  isAuthCheck : Bool
  staticCall : Bool
  startContextID : ContextID
  gasLimit : ℕ

/-- `ExecutionMessage`, with the fields that only the executor reads. -/
structure Message extends ExecutionMessage where
  origin : Bytes
  depth : ℤ
  gasAvailable : ℕ
  staticCall : Bool
  abi : Bytes

def authCommitteeAddress : Address := ascii "0000000000000000000000000000000000010001"

def systemTxsAddress : List Address :=
  [ascii "0000000000000000000000000000000000001000",
    ascii "0000000000000000000000000000000000001003",
    ascii "000000000000000000000000000000000000100b", ascii "/sys/status", ascii "/sys/consensus",
    authCommitteeAddress, ascii "0000000000000000000000000000000000001005"]

def transactionGas : ℕ := 3000000000

/-- `preprocessAddress` removes a leading `0x`. -/
def preprocessAddress : Address → Address
  | 48 :: 120 :: address => address
  | address => address

def isSysContractDeploy (number : ℤ) : Bool := number = 0

section Build

variable (config : Config) (block : Block)

/-- The gas of a message: a transaction to a system contract gets all of it. -/
def gasFor (toAddress : Address) : ℕ :=
  if toAddress ∈ systemTxsAddress then transactionGas else config.gasLimit

def buildMessage (contextID : ContextID) (tx : Transaction) : Message :=
  let liquid := carries tx.attributes liquidScaleCodec
  let create :=
    if liquid then carries tx.attributes liquidCreate
    else if tx.toAddress = [] then true
    else config.isAuthCheck && !config.staticCall && isSysContractDeploy block.number &&
      tx.toAddress = authCommitteeAddress
  let toAddress :=
    if liquid then tx.toAddress
    else if tx.toAddress = [] then []
    else preprocessAddress tx.toAddress
  { type := .message
    contextID := contextID
    seq := 0
    fromAddress := toHex tx.sender
    toAddress := toAddress
    create := create
    createSalt := none
    transactionHash := tx.hash
    data := tx.input
    keyLocks := []
    keyLockAcquired := []
    origin := toHex tx.sender
    depth := 0
    gasAvailable := gasFor config tx.toAddress
    staticCall := config.staticCall
    abi := if create then tx.abi else [] }

/-- The message made from the metadata alone, when the transactions could not be
fetched from the pool. -/
def hashMessage (contextID : ContextID) (metaData : TransactionMetaData) : Message :=
  let liquid := carries metaData.attributes liquidScaleCodec
  { type := .txHash
    contextID := contextID
    seq := 0
    fromAddress := []
    toAddress :=
      if liquid then metaData.toAddress
      else if metaData.toAddress = [] then []
      else preprocessAddress metaData.toAddress
    create :=
      if liquid then carries metaData.attributes liquidCreate else metaData.toAddress = []
    createSalt := none
    transactionHash := metaData.hash
    data := []
    keyLocks := []
    keyLockAcquired := []
    origin := []
    depth := 0
    gasAvailable := gasFor config metaData.toAddress
    staticCall := false
    abi := [] }

/-! ## The build loops -/

/-- A write of `m_hasDAG`: `m_hasDAG = enableDAG` or
`m_hasDAG = m_hasDAG || enableDAG`. -/
inductive FlagWrite
  | assign (enableDAG : Bool)
  | disjoin (enableDAG : Bool)
deriving DecidableEq

def FlagWrite.apply (hasDAG : Bool) : FlagWrite → Bool
  | .assign enableDAG => enableDAG
  | .disjoin enableDAG => hasDAG || enableDAG

/-- What an iteration does to the members that the iterations share. -/
inductive Action
  | setResult (index : ℕ) (transactionHash : ℕ) (source : Bytes)
  | setSysBlock
  | writeFlag (write : FlagWrite)
  | saveMessage (message : Message) (enableDAG : Bool)

/-- The members written by the loops.  `messages` are the arguments of
`saveMessage`, in the order of the calls. -/
structure State where
  executiveResults : ℕ → Option (ℕ × Bytes)
  isSysBlock : Bool
  hasDAG : Bool
  messages : List (Message × Bool)

def State.apply (s : State) : Action → State
  | .setResult index hash source =>
    { s with executiveResults := Function.update s.executiveResults index (some (hash, source)) }
  | .setSysBlock => { s with isSysBlock := true }
  | .writeFlag write => { s with hasDAG := write.apply s.hasDAG }
  | .saveMessage message enableDAG =>
    { s with messages := s.messages ++ [(message, enableDAG)] }

/-- A `BlockExecutive` after its construction. -/
def State.initial : State where
  executiveResults _ := none
  isSysBlock := false
  hasDAG := false
  messages := []

/-- What `buildMessage` does to the shared members. -/
def buildMessageActions (tx : Transaction) : List Action :=
  (if tx.toAddress ∈ systemTxsAddress then [.setSysBlock] else []) ++
    [.writeFlag (.assign (carries tx.attributes dag))]

/-- An iteration of `buildExecutivesFromMetaData` with the fetched transactions. -/
def fetchedIteration (txs : ℕ → Transaction) (i : ℕ) (metaData : TransactionMetaData) :
    List Action :=
  let enableDAG := carries metaData.attributes dag
  [.setResult i metaData.hash metaData.source] ++ buildMessageActions (txs i) ++
    [.writeFlag (.assign enableDAG),
      .saveMessage (buildMessage config block (i + config.startContextID : ℤ) (txs i)) enableDAG]

/-- An iteration of `buildExecutivesFromMetaData` without transactions. -/
def hashIteration (i : ℕ) (metaData : TransactionMetaData) : List Action :=
  let enableDAG := carries metaData.attributes dag
  [.setResult i metaData.hash metaData.source, .writeFlag (.disjoin enableDAG),
    .saveMessage (hashMessage config (i + config.startContextID : ℤ) metaData) enableDAG]

/-- An iteration of `buildExecutivesFromNormalTransaction`. -/
def transactionIteration (i : ℕ) (tx : Transaction) : List Action :=
  let enableDAG := carries tx.attributes dag
  [.setResult i tx.hash tx.source] ++ buildMessageActions tx ++ [.writeFlag (.disjoin enableDAG),
      .saveMessage (buildMessage config block (i + config.startContextID : ℤ) tx) enableDAG]

/-- The iterations of the loop that `prepare` runs, given what
`fetchBlockTxsFromTxPool` has found. -/
def iterations (fetched : Option (ℕ → Transaction)) : List (List Action) :=
  if block.transactionMetaData ≠ [] then
    match fetched with
    | some txs => block.transactionMetaData.mapIdx (fetchedIteration config block txs)
    | none => block.transactionMetaData.mapIdx (hashIteration config)
  else block.transactions.mapIdx (transactionIteration config block)

/-- The members after the loop, for some order of the parallel iterations. -/
def Built (fetched : Option (ℕ → Transaction)) (s : State) : Prop :=
  ∃ trace, Interleaving (iterations config block fetched) trace ∧
    s = trace.foldl State.apply .initial

end Build

/-! ## The flag after the loops -/

def Action.flagWrite? : Action → Option FlagWrite
  | .writeFlag write => some write
  | _ => none

theorem hasDAG_foldl (trace : List Action) (s : State) : (trace.foldl State.apply s).hasDAG =
      (trace.filterMap Action.flagWrite?).foldl FlagWrite.apply s.hasDAG := by
  induction trace generalizing s with
  | nil => rfl
  | cons action trace ih =>
    rw [foldl_cons, ih]
    cases action <;> rfl

variable {writes : List FlagWrite}

theorem foldl_apply_of_forall
    (h : ∀ write ∈ writes, write = .assign enableDAG ∨ write = .disjoin enableDAG)
    (hne : writes ≠ []) : writes.foldl FlagWrite.apply false = enableDAG := by
  have hstays : ∀ (writes : List FlagWrite),
      (∀ write ∈ writes, write = .assign enableDAG ∨ write = .disjoin enableDAG) →
        writes.foldl FlagWrite.apply enableDAG = enableDAG := by
    intro writes h
    induction writes with
    | nil => rfl
    | cons write writes ih =>
      have happly : write.apply enableDAG = enableDAG := by
        rcases h write (mem_cons_self ..) with rfl | rfl
        · rfl
        · exact Bool.or_self _
      rw [foldl_cons, happly]
      exact ih fun write hwrite => h write (mem_cons_of_mem _ hwrite)
  rcases writes with - | ⟨write, writes⟩
  · exact absurd rfl hne
  · have happly : write.apply false = enableDAG := by
      rcases h write (mem_cons_self ..) with rfl | rfl
      · rfl
      · exact Bool.false_or _
    rw [foldl_cons, happly]
    exact hstays writes fun write hwrite => h write (mem_cons_of_mem _ hwrite)

theorem foldl_apply_of_getLast? (h : writes.getLast? = some (.assign enableDAG)) :
    writes.foldl FlagWrite.apply hasDAG = enableDAG := by
  obtain ⟨writes, rfl⟩ := getLast?_eq_some_iff.mp h
  rw [foldl_append]
  rfl

theorem foldl_apply_disjoin (h : ∀ write ∈ writes, ∃ enableDAG, write = .disjoin enableDAG) :
    writes.foldl FlagWrite.apply hasDAG = true ↔
      hasDAG = true ∨ FlagWrite.disjoin true ∈ writes := by
  induction writes generalizing hasDAG with
  | nil => simp
  | cons write writes ih =>
    obtain ⟨enableDAG, rfl⟩ := h write (mem_cons_self ..)
    rw [foldl_cons, ih fun write hwrite => h write (mem_cons_of_mem _ hwrite)]
    cases enableDAG <;> simp [FlagWrite.apply]

section Flag

variable {config : Config} {block : Block} {fetched : Option (ℕ → Transaction)} {s : State}

theorem flagWrites_fetchedIteration (txs : ℕ → Transaction) (i : ℕ)
    (metaData : TransactionMetaData) :
    (fetchedIteration config block txs i metaData).filterMap Action.flagWrite? =
      [.assign (carries (txs i).attributes dag), .assign (carries metaData.attributes dag)] := by
  rw [fetchedIteration, buildMessageActions]
  split_ifs <;> rfl

theorem flagWrites_transactionIteration (i : ℕ) (tx : Transaction) :
    (transactionIteration config block i tx).filterMap Action.flagWrite? =
      [.assign (carries tx.attributes dag), .disjoin (carries tx.attributes dag)] := by
  rw [transactionIteration, buildMessageActions]
  split_ifs <;> rfl

/-- For every transaction of the block, whether it carries the DAG attribute. -/
def Block.dagAttributes (block : Block) : List Bool :=
  if block.transactionMetaData ≠ [] then
    block.transactionMetaData.map fun metaData => carries metaData.attributes dag
  else block.transactions.map fun tx => carries tx.attributes dag

/-- Whether `prepare` runs the loop over the metadata alone. -/
def Block.FromHashes (block : Block) (fetched : Option (ℕ → Transaction)) : Prop :=
  block.transactionMetaData ≠ [] ∧ fetched = none

/-- Outside the loop over the metadata, the iteration of a transaction leaves the
attribute of this transaction in the flag, whatever it was before. -/
theorem exists_iteration_of_mem (hloop : ¬ block.FromHashes fetched)
    (h : enableDAG ∈ block.dagAttributes) : ∃ iteration ∈ iterations config block fetched, ∀ hasDAG,
      (iteration.filterMap Action.flagWrite?).foldl FlagWrite.apply hasDAG = enableDAG := by
  rw [Block.dagAttributes] at h
  split_ifs at h with hmeta
  · obtain ⟨txs, rfl⟩ := Option.ne_none_iff_exists'.mp fun hnone => hloop ⟨hmeta, hnone⟩
    obtain ⟨metaData, hmem, rfl⟩ := mem_map.mp h
    obtain ⟨i, hi, rfl⟩ := mem_iff_getElem.mp hmem
    refine ⟨fetchedIteration config block txs i block.transactionMetaData[i], ?_,
      fun hasDAG => ?_⟩
    · rw [iterations, if_pos hmeta]
      exact mem_mapIdx.mpr ⟨i, hi, rfl⟩
    · rw [flagWrites_fetchedIteration]
      rfl
  · obtain ⟨tx, hmem, rfl⟩ := mem_map.mp h
    obtain ⟨i, hi, rfl⟩ := mem_iff_getElem.mp hmem
    refine ⟨transactionIteration config block i block.transactions[i], ?_, fun hasDAG => ?_⟩
    · rw [iterations.eq_def, if_neg hmeta]
      exact mem_mapIdx.mpr ⟨i, hi, rfl⟩
    · rw [flagWrites_transactionIteration]
      exact Bool.or_self _

/-- Outside the loop over the metadata, the flag can end with the attribute of any
transaction: it suffices that this transaction is processed last. -/
theorem exists_built_of_mem (hloop : ¬ block.FromHashes fetched)
    (h : enableDAG ∈ block.dagAttributes) :
    ∃ s, Built config block fetched s ∧ s.hasDAG = enableDAG := by
  obtain ⟨iteration, hmem, hlast⟩ : ∃ iteration ∈ iterations config block fetched, _ :=
    exists_iteration_of_mem hloop h
  obtain ⟨before, after, hsplit⟩ := append_of_mem hmem
  have hperm : (before ++ after ++ [iteration]).Perm (iterations config block fetched) := by
    rw [hsplit]
    exact (perm_append_singleton _ _).trans perm_middle.symm
  refine ⟨_, ⟨_, (Interleaving.flatten _).perm hperm, rfl⟩, ?_⟩
  rw [hasDAG_foldl, flatten_append, flatten_singleton, filterMap_append, foldl_append, hlast]

theorem mem_flagWrites {trace : List Action}
    (h : Interleaving (iterations config block fetched) trace) {write : FlagWrite} :
    write ∈ trace.filterMap Action.flagWrite? ↔ ∃ iteration ∈ iterations config block fetched,
        write ∈ iteration.filterMap Action.flagWrite? := by
  rw [(h.filterMap Action.flagWrite?).mem_iff]
  simp [mem_map, exists_exists_and_eq_and]

section

variable (h : Built config block fetched s)

include h

theorem Built.hasDAG_of_fromHashes
    (hloop : block.FromHashes fetched) : s.hasDAG = true ↔ true ∈ block.dagAttributes := by
  obtain ⟨hmeta, rfl⟩ := hloop
  obtain ⟨trace, htrace, rfl⟩ := h
  have hwrites : ∀ write, write ∈ trace.filterMap Action.flagWrite? ↔
      ∃ metaData ∈ block.transactionMetaData,
        write = .disjoin (carries metaData.attributes dag) := by
    intro write
    rw [mem_flagWrites htrace, iterations, if_pos hmeta]
    constructor
    · rintro ⟨_, hiteration, hwrite⟩
      obtain ⟨i, hi, rfl⟩ := mem_mapIdx.mp hiteration
      exact ⟨_, getElem_mem hi, mem_singleton.mp hwrite⟩
    · rintro ⟨metaData, hmem, rfl⟩
      obtain ⟨i, hi, rfl⟩ := mem_iff_getElem.mp hmem
      exact ⟨_, mem_mapIdx.mpr ⟨i, hi, rfl⟩, mem_singleton_self _⟩
  rw [hasDAG_foldl, foldl_apply_disjoin, hwrites, Block.dagAttributes, if_pos hmeta, mem_map]
  · constructor
    · rintro (hfalse | ⟨metaData, hmem, htrue⟩)
      · cases hfalse
      · exact ⟨metaData, hmem, (FlagWrite.disjoin.inj htrue).symm⟩
    · rintro ⟨metaData, hmem, htrue⟩
      exact .inr ⟨metaData, hmem, congrArg _ htrue.symm⟩
  · intro write hwrite
    obtain ⟨metaData, _, rfl⟩ := (hwrites write).mp hwrite
    exact ⟨_, rfl⟩

theorem Built.hasDAG_of_forall_eq
    (hloop : ¬ block.FromHashes fetched) (hne : block.dagAttributes ≠ [])
    (hall : ∀ carried ∈ block.dagAttributes, carried = enableDAG) : s.hasDAG = enableDAG := by
  obtain ⟨trace, htrace, rfl⟩ := h
  rw [hasDAG_foldl]
  have hwrites : trace.filterMap Action.flagWrite? ≠ [] := by
    obtain ⟨carried, hcarried⟩ := exists_mem_of_ne_nil _ hne
    obtain ⟨iteration, hmem, hleaves⟩ := exists_iteration_of_mem hloop hcarried
    intro hnil
    have hempty : iteration.filterMap Action.flagWrite? = [] :=
      eq_nil_iff_forall_not_mem.mpr fun write hwrite => by
        have hin := (mem_flagWrites htrace).mpr ⟨iteration, hmem, hwrite⟩
        rw [hnil] at hin
        exact not_mem_nil hin
    rw [hempty] at hleaves
    exact Bool.false_ne_true ((hleaves false).trans (hleaves true).symm)
  by_cases hmeta : block.transactionMetaData ≠ []
  · obtain ⟨txs, rfl⟩ := Option.ne_none_iff_exists'.mp fun hnone => hloop ⟨hmeta, hnone⟩
    -- the last write is the second assignment of some iteration
    obtain ⟨write, hlast⟩ := Option.ne_none_iff_exists'.mp (mt getLast?_eq_none_iff.mp hwrites)
    obtain ⟨_, hthread, hwrite⟩ := (htrace.filterMap Action.flagWrite?).getLast? hlast
    rw [iterations, if_pos hmeta] at hthread
    obtain ⟨_, hiteration, rfl⟩ := mem_map.mp hthread
    obtain ⟨i, hi, rfl⟩ := mem_mapIdx.mp hiteration
    rw [flagWrites_fetchedIteration] at hwrite
    cases hwrite
    rw [foldl_apply_of_getLast? hlast]
    refine hall _ ?_
    rw [Block.dagAttributes, if_pos hmeta]
    exact mem_map_of_mem (getElem_mem hi)
  · refine foldl_apply_of_forall (fun write hwrite => ?_) hwrites
    obtain ⟨_, hiteration, hwrite⟩ := (mem_flagWrites htrace).mp hwrite
    rw [iterations.eq_def, if_neg hmeta] at hiteration
    obtain ⟨i, hi, rfl⟩ := mem_mapIdx.mp hiteration
    have hcarried : carries block.transactions[i].attributes dag = enableDAG := by
      refine hall _ ?_
      rw [Block.dagAttributes, if_neg hmeta]
      exact mem_map_of_mem (getElem_mem hi)
    rw [flagWrites_transactionIteration, hcarried] at hwrite
    simpa using hwrite

theorem Built.hasDAG_of_nil (hattributes : block.dagAttributes = []) : s.hasDAG = false := by
  obtain ⟨trace, htrace, rfl⟩ := h
  have hnone : iterations config block fetched = [] := by
    rw [Block.dagAttributes] at hattributes
    split_ifs at hattributes with hmeta
    · exact absurd (map_eq_nil_iff.mp hattributes) hmeta
    · rw [iterations.eq_def, if_neg hmeta, map_eq_nil_iff.mp hattributes]
      rfl
  obtain rfl : trace = [] := eq_nil_iff_forall_not_mem.mpr fun action haction => by
    obtain ⟨iteration, hiteration, _⟩ := htrace.mem_iff.mp haction
    rw [hnone] at hiteration
    exact not_mem_nil hiteration
  rfl

end

theorem hasDAG_iff_of_built (hs : Built config block fetched s) (hblock : block.FromHashes fetched ∨
      ∀ a ∈ block.dagAttributes, ∀ b ∈ block.dagAttributes, a = b) :
    s.hasDAG = true ↔ true ∈ block.dagAttributes := by
  by_cases hloop : block.FromHashes fetched
  · exact hs.hasDAG_of_fromHashes hloop
  have hsame := hblock.resolve_left hloop
  rcases hattributes : block.dagAttributes with - | ⟨a, rest⟩
  · rw [hs.hasDAG_of_nil hattributes]
    simp
  · have hne : block.dagAttributes ≠ [] := hattributes ▸ cons_ne_nil _ _
    have ha : a ∈ block.dagAttributes := hattributes ▸ mem_cons_self ..
    rw [hs.hasDAG_of_forall_eq hloop hne fun carried hcarried => hsame carried hcarried a ha,
      ← hattributes]
    constructor
    · rintro rfl
      exact ha
    · exact fun htrue => hsame a ha true htrue

/-- The flag tells for every order of the iterations whether the block has a
transaction with the DAG attribute exactly if the loop over the metadata runs or
the transactions agree about the attribute. -/
theorem hasDAG_correct_iff :
    (∀ s, Built config block fetched s → (s.hasDAG = true ↔ true ∈ block.dagAttributes)) ↔
      block.FromHashes fetched ∨ ∀ a ∈ block.dagAttributes, ∀ b ∈ block.dagAttributes, a = b := by
  constructor
  · intro hcorrect
    by_contra hcontra
    obtain ⟨hloop, hmixed⟩ := not_or.mp hcontra
    refine hmixed fun a ha b hb => ?_
    have hall : ∀ a ∈ block.dagAttributes, ∀ b ∈ block.dagAttributes, a = true → b = true := by
      rintro a ha b hb rfl
      obtain ⟨s, hs, rfl⟩ := exists_built_of_mem hloop hb
      exact (hcorrect s hs).mpr ha
    exact Bool.eq_iff_iff.mpr ⟨hall a ha b hb, hall b hb a ha⟩
  · exact fun hblock s hs => hasDAG_iff_of_built hs hblock

end Flag

def plainTransaction (attributes : BitVec 32) : Transaction where
  hash := 0
  sender := []
  toAddress := []
  input := []
  abi := []
  source := []
  attributes := attributes

/-- A transaction for the DAG and an ordinary one. -/
def mixedBlock : Block where
  number := 1
  transactionMetaData := []
  transactions := [plainTransaction dag, plainTransaction 0]

/-- The ordinary transaction is processed last and resets the flag. -/
theorem mixedBlock_loses_flag : true ∈ mixedBlock.dagAttributes ∧
      ∃ s, Built ⟨false, false, 0, transactionGas⟩ mixedBlock none s ∧ s.hasDAG = false := by
  refine ⟨by decide, ?_⟩
  exact exists_built_of_mem (fun hloop => hloop.1 rfl) (by decide)

end FiscoSmart.Scheduler.Preparation
