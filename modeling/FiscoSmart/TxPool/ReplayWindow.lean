import FiscoSmart.Support.SlidingWindow
import FiscoSmart.TxPool.NonceChecker

/-!
# The window of remembered nonces

A checker that receives the blocks of a chain one after the other remembers the
nonces of the last `blockLimit` blocks in one set without multiplicities.  It
therefore forgets the nonce of a recent transaction as soon as an older block
with the same nonce leaves the window.  Below, the set is identified with
`Support.retained`, and from this it is read off in which chains every committed
transaction stays rejected, and in which chains a restarted node rejects the
same transactions as one that has been running since genesis.
-/

namespace FiscoSmart.TxPool

open Support List SortedMap

variable {Hash : Type}

namespace LedgerNonceChecker

variable {checker : LedgerNonceChecker} {nonceList : List NonceType} {nonce : NonceType}
  {tx : Transaction Hash}

/-! ## Insertion of the next block -/

/-- The cache holds no block beyond `m_blockNumber`. -/
def UpToDate (checker : LedgerNonceChecker) : Prop :=
  ∀ number, checker.blockNumber < number → checker.blockNonceCache.find? number = none

/-- The nonces that leave the set when the next block is inserted. -/
def outdated (checker : LedgerNonceChecker) : List NonceType :=
  if checker.blockLimit < checker.blockNumber + 1 then
    (checker.blockNonceCache.find? (checker.blockNumber + 1 - checker.blockLimit)).getD []
  else []

theorem blockNumber_batchInsert_next :
    (checker.batchInsert (checker.blockNumber + 1) nonceList).blockNumber =
      checker.blockNumber + 1 := by
  simp only [batchInsert, if_pos (Int.lt_add_one_of_le (Int.le_refl checker.blockNumber))]
  split_ifs <;> first | rfl | split <;> rfl

theorem blockLimit_batchInsert_next :
    (checker.batchInsert (checker.blockNumber + 1) nonceList).blockLimit =
      checker.blockLimit := by
  simp only [batchInsert, if_pos (Int.lt_add_one_of_le (Int.le_refl checker.blockNumber))]
  split_ifs <;> first | rfl | split <;> rfl

section NextBlock

variable (hpos : 0 < checker.blockLimit) (hfresh : checker.UpToDate)

include hpos hfresh

theorem batchInsert_next :
    (∀ nonce, nonce ∈ (checker.batchInsert (checker.blockNumber + 1) nonceList).nonceCache ↔
      (nonce ∈ checker.nonceCache ∨ nonce ∈ nonceList) ∧ nonce ∉ checker.outdated) ∧
    ∀ number,
      (checker.batchInsert (checker.blockNumber + 1) nonceList).blockNonceCache.find? number =
        if checker.blockLimit < checker.blockNumber + 1 ∧
            number = checker.blockNumber + 1 - checker.blockLimit then none
        else if number = checker.blockNumber + 1 then some nonceList
        else checker.blockNonceCache.find? number := by
  have hnone := hfresh (checker.blockNumber + 1) (by omega)
  by_cases hlimit : checker.blockLimit < checker.blockNumber + 1
  · have hne : checker.blockNumber + 1 - checker.blockLimit ≠ -1 := by omega
    have hother : checker.blockNumber + 1 - checker.blockLimit ≠ checker.blockNumber + 1 := by omega
    cases hexpired :
        checker.blockNonceCache.find? (checker.blockNumber + 1 - checker.blockLimit) <;>
      simp [batchInsert, outdated, find?_insert, find?_erase, hnone, hlimit, hne, hother, hexpired]
  · simp [batchInsert, outdated, find?_insert, hnone, hlimit]

theorem batchInsert_upToDate :
    (checker.batchInsert (checker.blockNumber + 1) nonceList).UpToDate := by
  intro number hnum
  rw [blockNumber_batchInsert_next] at hnum
  rw [(batchInsert_next hpos hfresh).2, if_neg (by omega), if_neg (by omega)]
  exact hfresh number (by omega)

end NextBlock

/-! ## A checker that has followed the chain -/

/-- The checker has received the blocks `1, …, n` of the chain with these nonces. -/
structure AtHeight (nonces : ℕ → List NonceType) (limit n : ℕ) (checker : LedgerNonceChecker) :
    Prop where
  blockNumber : checker.blockNumber = n
  blockLimit : checker.blockLimit = limit
  mem_nonceCache : ∀ nonce, nonce ∈ checker.nonceCache ↔
    nonce ∈ retained limit (fun i => {nonce | nonce ∈ nonces i}) n
  find? : ∀ number : ℤ, checker.blockNonceCache.find? number =
    if 0 < number ∧ number ≤ n ∧ (n : ℤ) < number + limit then some (nonces number.toNat)
    else none

/-- The checker of a node that has been running since genesis. -/
def fromGenesis (nonces : ℕ → List NonceType) (limit n : ℕ) : LedgerNonceChecker :=
  (new none 0 limit).insertBlocks nonces 0 n

variable {nonces : ℕ → List NonceType} {limit n : ℕ}

section

variable (h : checker.AtHeight nonces limit n)

include h

theorem AtHeight.upToDate : checker.UpToDate := by
  intro number hnum
  rw [h.blockNumber] at hnum
  rw [h.find?, if_neg (by omega)]

theorem AtHeight.outdated (hpos : 0 < limit) : nonce ∈ checker.outdated ↔
      nonce ∈ expiring limit (fun i => {nonce | nonce ∈ nonces i}) (n + 1) := by
  rw [LedgerNonceChecker.outdated, h.blockNumber, h.blockLimit, h.find?]
  split_ifs with hlimit hwindow
  · have htoNat : ((n : ℤ) + 1 - limit).toNat + limit = n + 1 := by omega
    constructor
    · intro hmem
      exact ⟨_, by omega, htoNat, hmem⟩
    · rintro ⟨i, hi, hik, hmem⟩
      obtain rfl : i = ((n : ℤ) + 1 - limit).toNat := by omega
      exact hmem
  · omega
  · constructor
    · intro hmem
      exact absurd hmem not_mem_nil
    · rintro ⟨i, hi, hik, _⟩
      omega

theorem AtHeight.batchInsert (hpos : 0 < limit) :
    (checker.batchInsert (n + 1 : ℕ) (nonces (n + 1))).AtHeight nonces limit (n + 1) := by
  have hlimit : 0 < checker.blockLimit := by
    rw [h.blockLimit]
    omega
  have hnext : ((n + 1 : ℕ) : ℤ) = checker.blockNumber + 1 := by
    rw [h.blockNumber]
    rfl
  refine ⟨?_, ?_, ?_, ?_⟩
  · rw [hnext, blockNumber_batchInsert_next]
  · rw [hnext, blockLimit_batchInsert_next, h.blockLimit]
  · intro nonce
    rw [hnext, (batchInsert_next hlimit h.upToDate).1, h.outdated hpos, h.mem_nonceCache]
    rfl
  · intro number
    rw [hnext, (batchInsert_next hlimit h.upToDate).2, h.find?, ← hnext, h.blockLimit]
    by_cases hnew : number = (n + 1 : ℕ)
    · subst hnew
      rw [if_neg (by omega), if_pos rfl, if_pos (by omega), Int.toNat_natCast]
    · rw [if_neg hnew]
      split_ifs <;> first | rfl | omega

end

theorem fromGenesis_atHeight (hpos : 0 < limit) :
    (fromGenesis nonces limit n).AtHeight nonces limit n := by
  induction n with
  | zero =>
    refine ⟨rfl, rfl, fun nonce => ?_, fun number => ?_⟩
    · exact iff_of_false (Finset.notMem_empty _) id
    · rw [if_neg (by omega)]
      rfl
  | succ n ih =>
    rw [fromGenesis, insertBlocks, Nat.zero_add]
    exact ih.batchInsert hpos

theorem checkNonce_eq_none {shouldUpdate : Bool} :
    (checker.checkNonce tx shouldUpdate).1 = .none ↔
      tx.nonce ∉ checker.nonceCache ∧ checker.blockNumber < tx.blockLimit ∧
        tx.blockLimit ≤ checker.blockNumber + checker.blockLimit := by
  by_cases hmem : tx.nonce ∈ checker.nonceCache
  · simp [checkNonce, TxPoolNonceChecker.checkNonce, hmem]
  · cases shouldUpdate <;>
      simp [checkNonce, TxPoolNonceChecker.checkNonce, checkBlockLimit, hmem]

end LedgerNonceChecker

open LedgerNonceChecker

/-! ## Replay of committed transactions -/

section Replay

variable (blocks : ℕ → List (Transaction Hash)) (limit : ℕ)

def nonceLists (i : ℕ) : List NonceType := (blocks i).map Transaction.nonce

/-- The checker answers `None` for the transaction after the blocks `1, …, k`. -/
def PassesAt (tx : Transaction Hash) (k : ℕ) : Prop :=
  ((fromGenesis (nonceLists blocks) limit k).checkNonce tx false).1 = .none

instance (tx : Transaction Hash) (k : ℕ) : Decidable (PassesAt blocks limit tx k) :=
  inferInstanceAs (Decidable (_ = _))

/-- Every transaction of every block passed the check at some height below its block. -/
def CheckedBefore : Prop :=
  ∀ h, 0 < h → ∀ tx ∈ blocks h, ∃ g < h, PassesAt blocks limit tx g

variable {blocks limit}

theorem passesAt_iff (hpos : 0 < limit) {k : ℕ} :
    PassesAt blocks limit tx k ↔
      tx.nonce ∉ retained limit (fun i => {nonce | nonce ∈ nonceLists blocks i}) k ∧
        (k : ℤ) < tx.blockLimit ∧ tx.blockLimit ≤ k + limit := by
  have hheight : (fromGenesis (nonceLists blocks) limit k).AtHeight _ limit k :=
    fromGenesis_atHeight hpos
  rw [PassesAt, checkNonce_eq_none, hheight.mem_nonceCache, hheight.blockNumber, hheight.blockLimit]

/-- Committed transactions stay rejected exactly if no block with the nonce of a
committed transaction leaves the window before the transaction's block limit. -/
theorem committed_rejected_iff (hpos : 0 < limit) (hchecked : CheckedBefore blocks limit) :
    (∀ h, 0 < h → ∀ tx ∈ blocks h, ∀ k, h ≤ k → ¬ PassesAt blocks limit tx k) ↔
      ∀ h, 0 < h → ∀ tx ∈ blocks h, ∀ j, 0 < j → tx.nonce ∈ nonceLists blocks j →
        h ≤ j + limit → tx.blockLimit ≤ (j + limit : ℕ) := by
  constructor
  · intro hrejected h hh tx htx j hj hnonce hle
    by_contra hlt
    refine hrejected h hh tx htx (j + limit) hle ((passesAt_iff hpos).mpr ⟨?_, by omega, ?_⟩)
    · exact notMem_retained_add hj hnonce
    · obtain ⟨g, hg, hpass⟩ := hchecked h hh tx htx
      have hbound := ((passesAt_iff hpos).mp hpass).2.2
      omega
  · intro hkept h hh tx htx k hhk hpass
    obtain ⟨hforgotten, hbelow, _⟩ := (passesAt_iff hpos).mp hpass
    refine hforgotten (mem_retained.mpr ⟨h, hh, hhk, mem_map_of_mem htx, ?_⟩)
    rintro ⟨i, hi, hnonce, hhi, hik⟩
    have hlimit := hkept h hh tx htx i hi hnonce hhi
    omega

def plainTx (hash : ℕ) (nonce : NonceType) (blockLimit : ℤ) : Transaction ℕ where
  hash := hash
  nonce := nonce
  blockLimit := blockLimit
  groupId := []
  chainId := []
  invalid := false
  signatureValid := true
  importTime := 0

/-- A chain with a single transaction, in block `1`. -/
def oneTransfer : ℕ → List (Transaction ℕ)
  | 1 => [plainTx 1 7 2]
  | _ => []

theorem oneTransfer_checkedBefore : CheckedBefore oneTransfer 2 := by
  intro h hh tx htx
  match h, htx with
  | 1, htx =>
    obtain rfl := mem_singleton.mp htx
    exact ⟨0, by omega, by decide +kernel⟩

theorem oneTransfer_rejected :
    0 < 2 ∧ CheckedBefore oneTransfer 2 ∧ ¬ PassesAt oneTransfer 2 (plainTx 1 7 2) 1 := by
  refine ⟨by decide, oneTransfer_checkedBefore, ?_⟩
  refine (committed_rejected_iff (by decide) oneTransfer_checkedBefore).mpr ?_
    1 (by decide) _ (mem_singleton_self _) 1 le_rfl
  intro h hh tx htx j hj _ _
  match h, htx with
  | 1, htx =>
    obtain rfl := mem_singleton.mp htx
    change (2 : ℤ) ≤ (j + 2 : ℕ)
    omega

/-- Two transactions with one nonce are checked before either is committed, and
the nonce is used again when the first of them has left the window. -/
def recycledNonce : ℕ → List (Transaction ℕ)
  | 1 => [plainTx 1 7 2]
  | 2 => [plainTx 2 7 2]
  | 4 => [plainTx 3 7 5]
  | _ => []

/-- Block `4` itself pushes block `2` out of the window, and with it the nonce of
its own transaction. -/
theorem recycledNonce_passes_again :
    CheckedBefore recycledNonce 2 ∧ plainTx 3 7 5 ∈ recycledNonce 4 ∧
      PassesAt recycledNonce 2 (plainTx 3 7 5) 4 := by
  refine ⟨?_, by decide, by decide +kernel⟩
  intro h hh tx htx
  match h, htx with
  | 1, htx =>
    obtain rfl := mem_singleton.mp htx
    exact ⟨0, by omega, by decide +kernel⟩
  | 2, htx =>
    obtain rfl := mem_singleton.mp htx
    exact ⟨0, by omega, by decide +kernel⟩
  | 4, htx =>
    obtain rfl := mem_singleton.mp htx
    exact ⟨3, by omega, by decide +kernel⟩

end Replay

end FiscoSmart.TxPool
