import FiscoSmart.Support.Encoding
import FiscoSmart.Support.SortedMap

/-!
# Nonce checkers of the transaction pool

`TxPoolNonceChecker` is a set of nonces.  `LedgerNonceChecker` remembers in such
a set the nonces of the last `m_blockLimit` committed blocks: `batchInsert` adds
the nonces of a block and takes out those of the block that has left the window.
At start-up `TxPool::init` fills the checker from the nonce lists that the
ledger stores for every block.
-/

namespace FiscoSmart.TxPool

open Support

/-- `NonceType`, a `u256`. -/
abbrev NonceType := BitVec 256

/-- The values of `TransactionStatus` that the pool returns. -/
inductive TransactionStatus
  | none
  | nonceCheckFail
  | blockLimitCheckFail
  | txPoolIsFull
  | alreadyInTxPool
  | invalidChainId
  | invalidGroupId
  | invalidSignature
deriving DecidableEq

/-- The fields of a transaction that the pool reads.  `signatureValid` stands
for the outcome of `verify`, and `invalid` for the flag of that name. -/
structure Transaction (Hash : Type) where
  hash : Hash
  nonce : NonceType
  blockLimit : ℤ
  groupId : Bytes
  chainId : Bytes
  invalid : Bool
  signatureValid : Bool
  importTime : ℤ
deriving DecidableEq

variable {Hash : Type}

/-! ## `TxPoolNonceChecker` -/

structure TxPoolNonceChecker where
  nonceCache : Finset NonceType

namespace TxPoolNonceChecker

variable (checker : TxPoolNonceChecker)

def insert (nonce : NonceType) : TxPoolNonceChecker :=
  { nonceCache := Insert.insert nonce checker.nonceCache }

def checkNonce (tx : Transaction Hash) (shouldUpdate : Bool) :
    TransactionStatus × TxPoolNonceChecker :=
  if tx.nonce ∈ checker.nonceCache then (.nonceCheckFail, checker)
  else if shouldUpdate then (.none, checker.insert tx.nonce)
  else (.none, checker)

def batchInsert (nonceList : List NonceType) : TxPoolNonceChecker :=
  nonceList.foldl insert checker

def remove (nonce : NonceType) : TxPoolNonceChecker :=
  { nonceCache := checker.nonceCache.erase nonce }

def batchRemove (nonceList : List NonceType) : TxPoolNonceChecker :=
  nonceList.foldl remove checker

variable {checker} {nonce : NonceType} {nonceList : List NonceType}

@[simp]
theorem mem_insert {added : NonceType} :
    nonce ∈ (checker.insert added).nonceCache ↔ nonce = added ∨ nonce ∈ checker.nonceCache :=
  Finset.mem_insert

@[simp]
theorem mem_remove {removed : NonceType} :
    nonce ∈ (checker.remove removed).nonceCache ↔ nonce ∈ checker.nonceCache ∧ nonce ≠ removed := by
  rw [remove, Finset.mem_erase, and_comm]

@[simp]
theorem mem_batchInsert : nonce ∈ (checker.batchInsert nonceList).nonceCache ↔
      nonce ∈ checker.nonceCache ∨ nonce ∈ nonceList := by
  induction nonceList generalizing checker with
  | nil => simp [batchInsert]
  | cons added nonceList ih =>
    have hstep : checker.batchInsert (added :: nonceList) =
        (checker.insert added).batchInsert nonceList := rfl
    rw [hstep, ih, mem_insert, List.mem_cons]
    tauto

@[simp]
theorem mem_batchRemove : nonce ∈ (checker.batchRemove nonceList).nonceCache ↔
      nonce ∈ checker.nonceCache ∧ nonce ∉ nonceList := by
  induction nonceList generalizing checker with
  | nil => simp [batchRemove]
  | cons removed nonceList ih =>
    have hstep : checker.batchRemove (removed :: nonceList) =
        (checker.remove removed).batchRemove nonceList := rfl
    rw [hstep, ih, mem_remove, List.mem_cons]
    tauto

end TxPoolNonceChecker

/-! ## `LedgerNonceChecker` -/

structure LedgerNonceChecker extends TxPoolNonceChecker where
  blockNumber : ℤ
  blockLimit : ℤ
  blockNonceCache : SortedMap ℤ (List NonceType)

namespace LedgerNonceChecker

/-- The body of the loop of `initNonceCache`. -/
def initBlock (checker : LedgerNonceChecker) (it : ℤ × List NonceType) : LedgerNonceChecker :=
  { checker with
    blockNonceCache := checker.blockNonceCache.insert it.1 it.2
    toTxPoolNonceChecker := checker.toTxPoolNonceChecker.batchInsert it.2 }

/-- `initNonceCache`, over the blocks in increasing order of their numbers. -/
def initNonceCache (checker : LedgerNonceChecker)
    (initialNonces : SortedMap ℤ (List NonceType)) : LedgerNonceChecker :=
  initialNonces.toList.foldl initBlock checker

def new (initialNonces : Option (SortedMap ℤ (List NonceType)))
    (blockNumber : ℤ) (blockLimit : ℤ) : LedgerNonceChecker :=
  let checker : LedgerNonceChecker :=
    { nonceCache := ∅
      blockNumber := blockNumber
      blockLimit := blockLimit
      blockNonceCache := SortedMap.empty }
  match initialNonces with
  | none => checker
  | some initialNonces => checker.initNonceCache initialNonces

variable (checker : LedgerNonceChecker)

def checkBlockLimit (tx : Transaction Hash) : TransactionStatus :=
  if checker.blockNumber ≥ tx.blockLimit ∨
      checker.blockNumber + checker.blockLimit < tx.blockLimit then
    .blockLimitCheckFail
  else .none

def checkNonce (tx : Transaction Hash) (shouldUpdate : Bool) :
    TransactionStatus × LedgerNonceChecker :=
  let (status, pool) := checker.toTxPoolNonceChecker.checkNonce tx shouldUpdate
  let checker := { checker with toTxPoolNonceChecker := pool }
  if status ≠ .none then (status, checker) else (checker.checkBlockLimit tx, checker)

def batchInsert (batchId : ℤ) (nonceList : List NonceType) : LedgerNonceChecker :=
  let checker := if checker.blockNumber < batchId then
      { checker with blockNumber := batchId }
    else checker
  let batchToBeRemoved := if batchId > checker.blockLimit then batchId - checker.blockLimit else -1
  let checker := { checker with
    toTxPoolNonceChecker := checker.toTxPoolNonceChecker.batchInsert nonceList }
  let checker := if (checker.blockNonceCache.find? batchId).isNone then
      { checker with blockNonceCache := checker.blockNonceCache.insert batchId nonceList }
    else checker
  if batchToBeRemoved = -1 then checker
  else
    match checker.blockNonceCache.find? batchToBeRemoved with
    | none => checker
    | some nonceList =>
      { checker with
        blockNonceCache := checker.blockNonceCache.erase batchToBeRemoved
        toTxPoolNonceChecker := checker.toTxPoolNonceChecker.batchRemove nonceList }

/-- `batchInsert` for the `count` blocks after block `start`. -/
def insertBlocks (nonces : ℕ → List NonceType) (start : ℕ) : ℕ → LedgerNonceChecker
  | 0 => checker
  | count + 1 =>
    (insertBlocks nonces start count).batchInsert (start + count + 1 : ℕ)
      (nonces (start + count + 1))

end LedgerNonceChecker

/-! ## Start-up -/

/-- What the ledger stores of the chain: its height, and the rows of
`SYS_BLOCK_NUMBER_2_NONCES`. -/
structure Ledger where
  blockNumber : ℤ
  nonces : ℤ → Option (List NonceType)

/-- The row of one block, if it exists, added to the answer of `asyncGetNonceList`. -/
def Ledger.addRow (ledger : Ledger) (retMap : SortedMap ℤ (List NonceType)) (number : ℤ) :
    SortedMap ℤ (List NonceType) :=
  match ledger.nonces number with
  | none => retMap
  | some nonceList => retMap.emplace number nonceList

/-- `Ledger::asyncGetNonceList`, `none` for the error on negative arguments. -/
def Ledger.asyncGetNonceList (ledger : Ledger) (startNumber : ℤ) (offset : ℤ) :
    Option (SortedMap ℤ (List NonceType)) :=
  if startNumber < 0 ∨ offset < 0 then none
  else
    let numberList := (List.range (offset.toNat + 1)).map fun (i : ℕ) => startNumber + (i : ℤ)
    some (numberList.foldl ledger.addRow SortedMap.empty)

/-- `TxPool::init`, as far as it builds the nonce checker; `none` for the
exception that `fetchNonceList` throws on an error of the ledger. -/
def init (ledger : Ledger) (blockLimit : ℤ) : Option LedgerNonceChecker := do
  let startNumber :=
    if ledger.blockNumber > blockLimit then ledger.blockNumber - blockLimit + 1 else 0
  if startNumber > 0 then
    let toNumber := ledger.blockNumber
    let fetchedSize := min blockLimit (toNumber - startNumber + 1)
    let nonceList ← ledger.asyncGetNonceList startNumber fetchedSize
    some (.new (some nonceList) ledger.blockNumber blockLimit)
  else
    some (.new none ledger.blockNumber blockLimit)

/-- The ledger of a chain of height `n` whose block `i` carries the nonces `nonces i`. -/
def Ledger.ofChain (nonces : ℕ → List NonceType) (n : ℕ) : Ledger where
  blockNumber := n
  nonces := fun number =>
    if 0 ≤ number ∧ number ≤ n then some (nonces number.toNat) else none

end FiscoSmart.TxPool
