import FiscoSmart.TxPool.ReplayWindow

/-!
# Nonces after a restart

`TxPool::init` asks the ledger for the nonces of the last `blockLimit` blocks,
but only if the chain is longer than the window: on a shorter chain it computes
the start number `0`, takes this for an empty range, and builds a checker that
knows no nonce at all.  On a longer chain the checker gets all nonces of the
window, also those that a running node has forgotten together with an older
block.  The restarted checker answers like the running one exactly if neither
of the two happens.
-/

namespace FiscoSmart.TxPool

open Support LedgerNonceChecker List

variable {Hash : Type} {nonces : ℕ → List NonceType} {limit n : ℕ} {ledger : Ledger} {number : ℤ}
  {checker checker' : LedgerNonceChecker} {nonce : NonceType}
  {retMap : SortedMap ℤ (List NonceType)}

/-! ## What the ledger returns -/

theorem find?_addRow {added : ℤ} :
    (ledger.addRow retMap added).find? number =
      (retMap.find? number).or (if number = added then ledger.nonces number else none) := by
  rw [Ledger.addRow]
  by_cases hnum : number = added
  · subst hnum
    rcases hrow : ledger.nonces number with - | nonceList
    · simp
    · rcases hold : retMap.find? number with - | old
      · simp [SortedMap.emplace, hold, SortedMap.find?_insert]
      · simp [SortedMap.emplace, hold]
  · rcases hrow : ledger.nonces added with - | nonceList
    · simp [hnum]
    · rw [if_neg hnum, Option.or_none]
      simp only [SortedMap.emplace]
      split_ifs with hsome
      · rfl
      · rw [SortedMap.find?_insert, if_neg hnum]

theorem find?_foldl_addRow {numberList : List ℤ} :
    (numberList.foldl ledger.addRow retMap).find? number =
      (retMap.find? number).or (if number ∈ numberList then ledger.nonces number else none) := by
  induction numberList generalizing retMap with
  | nil => simp
  | cons added numberList ih =>
    rw [foldl_cons, ih, find?_addRow, Option.or_assoc]
    by_cases hadded : number = added
    · cases hrow : ledger.nonces number <;> simp [hadded] at hrow ⊢
    · simp [hadded]

theorem find?_asyncGetNonceList {startNumber offset : ℤ} (hstart : 0 ≤ startNumber)
    (hoffset : 0 ≤ offset) : ∃ retMap, ledger.asyncGetNonceList startNumber offset = some retMap ∧
      ∀ number, retMap.find? number =
        if startNumber ≤ number ∧ number ≤ startNumber + offset then ledger.nonces number
        else none := by
  refine ⟨_, if_neg (by omega), fun number => ?_⟩
  rw [find?_foldl_addRow]
  have hmem : number ∈ (List.range (offset.toNat + 1)).map (fun i : ℕ => startNumber + (i : ℤ)) ↔
      startNumber ≤ number ∧ number ≤ startNumber + offset := by
    simp only [mem_map, mem_range]
    constructor
    · rintro ⟨i, hi, rfl⟩
      omega
    · intro hrange
      exact ⟨(number - startNumber).toNat, by omega, by omega⟩
  simp only [hmem]
  rfl

/-! ## The checker built from a nonce list -/

section InitNonceCache

variable {l : List (ℤ × List NonceType)}

theorem foldl_initBlock_blockNumber :
    (l.foldl initBlock checker).blockNumber = checker.blockNumber := by
  induction l generalizing checker with
  | nil => rfl
  | cons it l ih => exact ih

theorem foldl_initBlock_blockLimit :
    (l.foldl initBlock checker).blockLimit = checker.blockLimit := by
  induction l generalizing checker with
  | nil => rfl
  | cons it l ih => exact ih

theorem mem_foldl_initBlock : nonce ∈ (l.foldl initBlock checker).nonceCache ↔
      nonce ∈ checker.nonceCache ∨ ∃ it ∈ l, nonce ∈ it.2 := by
  induction l generalizing checker with
  | nil => simp
  | cons it l ih =>
    rw [foldl_cons, ih, initBlock, TxPoolNonceChecker.mem_batchInsert, or_assoc,
      exists_mem_cons_iff]

theorem find?_foldl_initBlock (hl : KeysIncreasing l) :
    (l.foldl initBlock checker).blockNonceCache.find? number =
      (valueOf l number).or (checker.blockNonceCache.find? number) := by
  induction l generalizing checker with
  | nil => simp [valueOf]
  | cons it l ih =>
    obtain ⟨hhead, htail⟩ := pairwise_cons.mp hl
    rw [foldl_cons, ih htail, initBlock, SortedMap.find?_insert]
    by_cases hit : number = it.1
    · have hnone : valueOf l number = none := by
        rw [valueOf, Option.map_eq_none_iff, find?_eq_none]
        intro other hother
        have hlt := hhead other hother
        exact fun heq => absurd (of_decide_eq_true heq) (by omega)
      rw [if_pos hit, hnone]
      simp [valueOf, hit]
    · have hskip : valueOf (it :: l) number = valueOf l number := by
        simp [valueOf, Ne.symm hit]
      rw [if_neg hit, hskip]

end InitNonceCache

/-! ## Checkers that answer alike -/

/-- The two checkers hold the same nonces and will forget the same nonces. -/
structure Agree (checker checker' : LedgerNonceChecker) : Prop where
  blockNumber : checker.blockNumber = checker'.blockNumber
  blockLimit : checker.blockLimit = checker'.blockLimit
  mem_nonceCache : ∀ nonce, nonce ∈ checker.nonceCache ↔ nonce ∈ checker'.nonceCache
  find? : ∀ number, (checker.blockNonceCache.find? number).getD [] =
    (checker'.blockNonceCache.find? number).getD []
  upToDate : checker.UpToDate
  upToDate' : checker'.UpToDate

section Agree

variable (h : Agree checker checker')

include h

theorem Agree.checkNonce (tx : Transaction Hash) :
    (checker.checkNonce tx false).1 = (checker'.checkNonce tx false).1 := by
  simp only [LedgerNonceChecker.checkNonce, TxPoolNonceChecker.checkNonce, h.mem_nonceCache]
  split_ifs <;> simp [checkBlockLimit, h.blockNumber, h.blockLimit]

theorem Agree.outdated : checker.outdated = checker'.outdated := by
  rw [LedgerNonceChecker.outdated, LedgerNonceChecker.outdated, h.find?, h.blockNumber,
    h.blockLimit]

theorem Agree.batchInsert (hpos : 0 < checker.blockLimit)
    (nonceList : List NonceType) : Agree (checker.batchInsert (checker.blockNumber + 1) nonceList)
      (checker'.batchInsert (checker.blockNumber + 1) nonceList) := by
  have hpos' : 0 < checker'.blockLimit := h.blockLimit ▸ hpos
  rw [h.blockNumber]
  refine ⟨?_, ?_, ?_, ?_, ?_, batchInsert_upToDate hpos' h.upToDate'⟩
  · rw [← h.blockNumber, blockNumber_batchInsert_next, h.blockNumber, blockNumber_batchInsert_next]
  · rw [← h.blockNumber, blockLimit_batchInsert_next, h.blockNumber,
      blockLimit_batchInsert_next, h.blockLimit]
  · intro nonce
    rw [(batchInsert_next hpos' h.upToDate').1, ← h.blockNumber,
      (batchInsert_next hpos h.upToDate).1, h.outdated, h.mem_nonceCache]
  · intro number
    rw [(batchInsert_next hpos' h.upToDate').2, ← h.blockNumber,
      (batchInsert_next hpos h.upToDate).2, h.blockLimit]
    split_ifs
    · rfl
    · rfl
    · exact h.find? number
  · rw [← h.blockNumber]
    exact batchInsert_upToDate hpos h.upToDate

theorem Agree.insertBlocks (hpos : 0 < checker.blockLimit)
    (hnum : checker.blockNumber = n) (m : ℕ) :
    Agree (checker.insertBlocks nonces n m) (checker'.insertBlocks nonces n m) ∧
      (checker.insertBlocks nonces n m).blockNumber = (n + m : ℕ) ∧
      (checker.insertBlocks nonces n m).blockLimit = checker.blockLimit := by
  induction m with
  | zero => exact ⟨h, hnum, rfl⟩
  | succ m ih =>
    obtain ⟨hagree, hnum, hlimit⟩ := ih
    have hnext : ((n + m + 1 : ℕ) : ℤ) = (checker.insertBlocks nonces n m).blockNumber + 1 := by
      rw [hnum]
      rfl
    simp only [LedgerNonceChecker.insertBlocks, hnext]
    refine ⟨hagree.batchInsert (hlimit ▸ hpos) _, ?_, ?_⟩
    · rw [blockNumber_batchInsert_next, hnum]
      rfl
    · rw [blockLimit_batchInsert_next, hlimit]

end Agree

/-! ## The restarted checker -/

/-- The nonces of the blocks `1, …, n`, as sets. -/
abbrev nonceSets (nonces : ℕ → List NonceType) (i : ℕ) : Set NonceType :=
  {nonce | nonce ∈ nonces i}

theorem init_of_le (hn : n ≤ limit) :
    init (Ledger.ofChain nonces n) limit = some (.new none n limit) := by
  have hle : ¬ ((n : ℤ) > limit) := by omega
  simp [init, Ledger.ofChain, hle]

theorem init_of_longer {blockLimit : ℤ}
    (hlonger : blockLimit < ledger.blockNumber) : init ledger blockLimit =
      (ledger.asyncGetNonceList (ledger.blockNumber - blockLimit + 1) blockLimit).map
        (fun nonceList => .new (some nonceList) ledger.blockNumber blockLimit) := by
  have hstart : ledger.blockNumber - blockLimit + 1 > 0 := by omega
  have hsize : min blockLimit
      (ledger.blockNumber - (ledger.blockNumber - blockLimit + 1) + 1) = blockLimit := by omega
  simp only [init, if_pos hlonger, if_pos hstart, hsize]
  cases ledger.asyncGetNonceList (ledger.blockNumber - blockLimit + 1) blockLimit <;> rfl

section

variable (hpos : 0 < limit)

include hpos

theorem init_of_lt (hn : limit < n) :
    ∃ checker, init (Ledger.ofChain nonces n) limit = some checker ∧
      checker.blockNumber = n ∧ checker.blockLimit = limit ∧ (∀ nonce, nonce ∈ checker.nonceCache ↔
        ∃ j, 0 < j ∧ j ≤ n ∧ n < j + limit ∧ nonce ∈ nonces j) ∧
      ∀ number : ℤ, checker.blockNonceCache.find? number =
        if 0 < number ∧ number ≤ n ∧ (n : ℤ) < number + limit then some (nonces number.toNat)
        else none := by
  have hstart : 0 ≤ (n : ℤ) - limit + 1 := by omega
  have hoffset : 0 ≤ (limit : ℤ) := by omega
  obtain ⟨retMap, hret, hrows⟩ :
      ∃ retMap, (Ledger.ofChain nonces n).asyncGetNonceList _ _ = some retMap ∧ _ :=
    find?_asyncGetNonceList hstart hoffset
  have hwindow : ∀ number : ℤ, retMap.find? number =
      if 0 < number ∧ number ≤ n ∧ (n : ℤ) < number + limit then some (nonces number.toNat)
      else none := by
    intro number
    rw [hrows]
    by_cases hin : 0 < number ∧ number ≤ n ∧ (n : ℤ) < number + limit
    · rw [if_pos hin, if_pos (by omega)]
      exact if_pos (by omega)
    · rw [if_neg hin]
      split_ifs with hrange
      · exact if_neg (by omega)
      · rfl
  refine ⟨.new (some retMap) n limit, ?_, ?_, ?_, ?_, ?_⟩
  · rw [init_of_longer (Int.ofNat_lt.mpr hn)]
    exact congrArg _ hret
  · exact foldl_initBlock_blockNumber
  · exact foldl_initBlock_blockLimit
  · intro nonce
    refine mem_foldl_initBlock.trans ⟨?_, ?_⟩
    · rintro (hmem | ⟨⟨number, nonceList⟩, hmem, hnonce⟩)
      · exact absurd hmem (Finset.notMem_empty _)
      · have hrow := SortedMap.find?_eq_some.mpr hmem
        rw [hwindow] at hrow
        split_ifs at hrow with hrange
        cases hrow
        exact ⟨number.toNat, by omega, by omega, by omega, hnonce⟩
    · rintro ⟨j, hj, hjn, hwin, hnonce⟩
      have hrow : retMap.find? (j : ℤ) = some (nonces j) := by
        rw [hwindow, if_pos (by omega), Int.toNat_natCast]
      exact .inr ⟨_, SortedMap.find?_eq_some.mp hrow, hnonce⟩
  · intro number
    rw [← hwindow]
    refine (find?_foldl_initBlock retMap.increasing).trans ?_
    exact Option.or_none

/-- `TxPool::init` builds a checker that answers, for every transaction and after
any number of further blocks, like the checker running since genesis. -/
def RestartsAlike (Hash : Type) (nonces : ℕ → List NonceType) (limit n : ℕ) : Prop :=
  ∃ checker, init (Ledger.ofChain nonces n) limit = some checker ∧ ∀ m (tx : Transaction Hash),
      ((checker.insertBlocks nonces n m).checkNonce tx false).1 =
        (((fromGenesis nonces limit n).insertBlocks nonces n m).checkNonce tx false).1

/-- A transaction that passes the check of the block limit at height `n`. -/
def probe [Inhabited Hash] (n : ℕ) (nonce : NonceType) : Transaction Hash where
  hash := default
  nonce := nonce
  blockLimit := n + 1
  groupId := []
  chainId := []
  invalid := false
  signatureValid := true
  importTime := 0

theorem checkNonce_probe [Inhabited Hash] (hnum : checker.blockNumber = n)
    (hlimit : checker.blockLimit = limit) :
    (checker.checkNonce (probe n nonce : Transaction Hash) false).1 = .none ↔
      nonce ∉ checker.nonceCache := by
  rw [checkNonce_eq_none, hnum, hlimit]
  refine and_iff_left ⟨?_, ?_⟩
  · change (n : ℤ) < n + 1
    omega
  · change (n : ℤ) + 1 ≤ n + limit
    omega

theorem mem_iff_of_checkNonce_eq [Inhabited Hash] (hnum : checker.blockNumber = n)
    (hlimit : checker.blockLimit = limit) (hnum' : checker'.blockNumber = n)
    (hlimit' : checker'.blockLimit = limit) (heq : ∀ tx : Transaction Hash,
      (checker.checkNonce tx false).1 = (checker'.checkNonce tx false).1) (nonce : NonceType) :
    nonce ∈ checker.nonceCache ↔ nonce ∈ checker'.nonceCache := by
  have hprobe : (checker.checkNonce (probe n nonce : Transaction Hash) false).1 = .none ↔ _ :=
    checkNonce_probe hpos hnum hlimit
  have hprobe' : (checker'.checkNonce (probe n nonce : Transaction Hash) false).1 = .none ↔ _ :=
    checkNonce_probe hpos hnum' hlimit'
  rw [heq] at hprobe
  exact not_iff_not.mp (hprobe.symm.trans hprobe')

/-- The nonces held at the restart decide about all later answers. -/
theorem restartsAlike_iff_mem [Inhabited Hash]
    (hinit : init (Ledger.ofChain nonces n) limit = some checker)
    (hnum : checker.blockNumber = n) (hlimit : checker.blockLimit = limit)
    (hagree : (∀ nonce, nonce ∈ checker.nonceCache ↔
        nonce ∈ (fromGenesis nonces limit n).nonceCache) →
      Agree checker (fromGenesis nonces limit n)) : RestartsAlike Hash nonces limit n ↔
      ∀ nonce, nonce ∈ checker.nonceCache ↔ nonce ∈ (fromGenesis nonces limit n).nonceCache := by
  have hgenesis : (fromGenesis nonces limit n).AtHeight nonces limit n :=
    fromGenesis_atHeight hpos
  have hblockLimit : 0 < checker.blockLimit := by
    omega
  constructor
  · rintro ⟨checker', hinit', heq⟩
    cases hinit.symm.trans hinit'
    exact mem_iff_of_checkNonce_eq hpos hnum hlimit hgenesis.blockNumber hgenesis.blockLimit (heq 0)
  · intro hsame
    refine ⟨checker, hinit, fun m tx => ?_⟩
    exact ((hagree hsame).insertBlocks hblockLimit hnum m).1.checkNonce tx

/-- On a chain that fits into the window, the restarted checker knows no nonce. -/
theorem restartsAlike_iff_of_le [Inhabited Hash] (hn : n ≤ limit) :
    RestartsAlike Hash nonces limit n ↔ ∀ j, 0 < j → j ≤ n → nonces j = [] := by
  have hgenesis : (fromGenesis nonces limit n).AtHeight nonces limit n :=
    fromGenesis_atHeight hpos
  have hempty : (∀ nonce, nonce ∈ (new none (n : ℤ) limit).nonceCache ↔
        nonce ∈ (fromGenesis nonces limit n).nonceCache) ↔ ∀ j, 0 < j → j ≤ n → nonces j = [] := by
    simp only [hgenesis.mem_nonceCache, mem_retained_of_le hn]
    constructor
    · intro heq j hj hjn
      refine eq_nil_iff_forall_not_mem.mpr fun nonce hnonce => ?_
      exact absurd ((heq nonce).mpr ⟨j, hj, hjn, hnonce⟩) (Finset.notMem_empty _)
    · intro hnil nonce
      refine iff_of_false (Finset.notMem_empty _) ?_
      rintro ⟨j, hj, hjn, hnonce⟩
      rw [hnil j hj hjn] at hnonce
      exact not_mem_nil hnonce
  refine (restartsAlike_iff_mem hpos (init_of_le hn) rfl rfl fun hsame => ?_).trans hempty
  refine ⟨hgenesis.blockNumber.symm, hgenesis.blockLimit.symm, hsame, fun number => ?_,
    fun _ _ => rfl, hgenesis.upToDate⟩
  rw [hgenesis.find?]
  split_ifs with hin
  · rw [hempty.mp hsame number.toNat (by omega) (by omega)]
    rfl
  · rfl

/-- On a longer chain, the restarted checker knows all nonces of the window. -/
theorem restartsAlike_iff_of_lt [Inhabited Hash] (hn : limit < n) :
    RestartsAlike Hash nonces limit n ↔ ∀ j ≤ n, n < j + limit → ∀ nonce ∈ nonces j,
        nonce ∈ retained limit (nonceSets nonces) n := by
  have hgenesis : (fromGenesis nonces limit n).AtHeight nonces limit n :=
    fromGenesis_atHeight hpos
  obtain ⟨checker, hinit, hnum, hlimit, hmem, hfind⟩ := init_of_lt hpos hn
  refine (restartsAlike_iff_mem hpos hinit hnum hlimit fun hsame => ?_).trans ?_
  · refine ⟨hnum.trans hgenesis.blockNumber.symm, hlimit.trans hgenesis.blockLimit.symm,
      hsame, fun number => ?_, fun number hlt => ?_, hgenesis.upToDate⟩
    · rw [hfind, hgenesis.find?]
    · rw [hfind, if_neg (by omega)]
  · simp only [hmem, hgenesis.mem_nonceCache]
    constructor
    · intro heq j hj hwindow nonce hnonce
      exact (heq nonce).mp ⟨j, by omega, hj, hwindow, hnonce⟩
    · intro hin nonce
      constructor
      · rintro ⟨j, _, hj, hwindow, hnonce⟩
        exact hin j hj hwindow nonce hnonce
      · exact lt_add_of_mem_retained

end

/-- A restart changes no answer exactly if a chain that fits into the window has
no transactions, and on a longer chain no nonce of the window has been forgotten
together with an older block. -/
theorem restartsAlike_iff [Inhabited Hash] (hpos : 0 < limit) : RestartsAlike Hash nonces limit n ↔
      (n ≤ limit → ∀ j, 0 < j → j ≤ n → nonces j = []) ∧
        (limit < n → ∀ j ≤ n, n < j + limit → ∀ nonce ∈ nonces j,
          ∃ i, 0 < i ∧ i ≤ n ∧ nonce ∈ nonces i ∧
            ¬ ExpiredBetween limit (nonceSets nonces) nonce i n) := by
  rcases Nat.lt_or_ge limit n with hn | hn
  · rw [restartsAlike_iff_of_lt hpos hn]
    simp only [hn, not_le.mpr hn, forall_true_left, IsEmpty.forall_iff, true_and, mem_retained]
    rfl
  · rw [restartsAlike_iff_of_le hpos hn]
    simp [hn, not_lt.mpr hn, IsEmpty.forall_iff, and_true]

/-- A chain with a single nonce, in block `2`. -/
def oneNonce : ℕ → List NonceType
  | 2 => [7]
  | _ => []

theorem oneNonce_restartsAlike : 0 < 2 ∧ RestartsAlike ℕ oneNonce 2 3 := by
  refine ⟨by decide, (restartsAlike_iff (by decide)).mpr ⟨fun hle => absurd hle (by decide), ?_⟩⟩
  rintro - j - - nonce hnonce
  match j, hnonce with
  | 2, hnonce =>
    refine ⟨2, by decide, by decide, hnonce, ?_⟩
    rintro ⟨i, -, hmem, -, hle⟩
    match i, hmem with
    | 2, _ => exact absurd hle (by decide)

/-- The transaction of block `1` is rejected at height `1`, and passes again after
a restart at this height. -/
theorem oneTransfer_restart_forgets : ¬ RestartsAlike ℕ (nonceLists oneTransfer) 2 1 ∧
      ((fromGenesis (nonceLists oneTransfer) 2 1).checkNonce (plainTx 1 7 2) false).1 =
        .nonceCheckFail ∧ (init (Ledger.ofChain (nonceLists oneTransfer) 1) 2).map
        (fun checker => (checker.checkNonce (plainTx 1 7 2) false).1) = some .none := by
  have hrunning : ((fromGenesis (nonceLists oneTransfer) 2 1).checkNonce
      (plainTx 1 7 2) false).1 = .nonceCheckFail := by decide +kernel
  have hrestarted : (init (Ledger.ofChain (nonceLists oneTransfer) 1) 2).map
      (fun checker => (checker.checkNonce (plainTx 1 7 2) false).1) = some .none := by
    decide +kernel
  refine ⟨?_, hrunning, hrestarted⟩
  rintro ⟨checker, hinit, heq⟩
  rw [show ((2 : ℕ) : ℤ) = 2 from rfl] at hinit
  rw [hinit, Option.map_some, Option.some.injEq] at hrestarted
  have hcontra := hrestarted.symm.trans ((heq 0 (plainTx 1 7 2)).trans hrunning)
  cases hcontra

end FiscoSmart.TxPool
