import FiscoSmart.Protocol.TransactionVerify

/-!
# The headers of a light node

A light node asks another ledger for the blocks that it does not have and stores their
headers.  A header must name the hash of its parent, but it is stored under the number and
with the hash that it carries, in four rows that are written one after the other.
-/

namespace FiscoSmart.Lightnode

open Support Protocol Function

/-- `impl_calculate` for a block header, into an array of 32 bytes. -/
def calculate (suite : CryptoSuite) (header : BlockHeader) : Except Protocol.Fault HashType :=
  match header.fed with
  | some bytes => .ok (suite.hash bytes)
  | none =>
    if h : header.dataHash.length = 32 then .ok ⟨header.dataHash, h⟩
    else if 32 < header.dataHash.length then .error .noEnoughOutputSpace
    -- the rest of the array is not initialised
    else .error .undefinedBehaviour

def hashOf (suite : CryptoSuite) (header : BlockHeader) : Bytes :=
  (suite.hash header.data.preimage).val

def numberOf (header : BlockHeader) : ℤ := header.data.blockNumber.toInt

/-- The rows of `LedgerImpl` about headers: `SYS_KEY_CURRENT_NUMBER`, `SYS_NUMBER_2_HASH`,
`SYS_HASH_2_NUMBER` and `SYS_NUMBER_2_BLOCK_HEADER`. -/
structure LedgerImpl where
  currentNumber : ℤ
  numberToHash : ℤ → Option Bytes
  hashToNumber : Bytes → Option ℤ
  header : ℤ → Option BlockHeader

/-- The rows that `LedgerImpl::setBlockData<HEADER>` writes under the number that the header
carries, in order. -/
def headerRows (header : BlockHeader) : List (LedgerImpl → LedgerImpl) :=
  [fun s => { s with currentNumber := numberOf header },
    fun s => { s with
      numberToHash := update s.numberToHash (numberOf header) (some header.dataHash) },
    fun s => { s with
      hashToNumber := update s.hashToNumber header.dataHash (some (numberOf header)) },
    fun s => { s with header := update s.header (numberOf header) (some header) }]

/-- The first rows are written. -/
def LedgerImpl.setRows (s : LedgerImpl) (header : BlockHeader) (rows : ℕ) : LedgerImpl :=
  ((headerRows header).take rows).foldl (fun s write => write s) s

/-- `LedgerImpl::setBlockData<HEADER>` -/
def LedgerImpl.setHeader (s : LedgerImpl) (header : BlockHeader) : LedgerImpl := s.setRows header 4

/-- The header names the number and the hash of its parent. -/
def matchesParent (suite : CryptoSuite) (parent header : BlockHeader) : Bool :=
  match header.data.parentInfo, calculate suite parent with
  | info :: _, .ok parentHash =>
    info.blockNumber = parent.data.blockNumber ∧ info.blockHash = parentHash.val
  | _, _ => false

/-- What the source answers for a block: an exception, or a header.  Where storing the block
ends by an exception there is also the number of rows of the header that are written before. -/
abbrev Answer := Option (BlockHeader × Option ℕ)

/-- The header passes the check against `parentBlock`, or else the stored one. -/
def accepts (suite : CryptoSuite) (blockNumber : ℤ) (parentBlock : Option BlockHeader)
    (s : LedgerImpl) (header : BlockHeader) : Bool :=
  -- ignore verify genesis block
  decide (blockNumber ≤ 0) ||
    (parentBlock.or (s.header (blockNumber - 1))).any (matchesParent suite · header)

/-- The loop of `LedgerImpl::impl_sync` from a number on, with `parentBlock`.  There is an answer
for each number up to the one of the source. -/
def syncFrom (suite : CryptoSuite) :
    ℤ → Option BlockHeader → LedgerImpl → List Answer → LedgerImpl
  | blockNumber, parentBlock, s, some (header, ended) :: answers =>
    if accepts suite blockNumber parentBlock s header then
      match ended with
      | some rows => s.setRows header rows
      | none => syncFrom suite (blockNumber + 1) (some header) (s.setHeader header) answers
    else s
  | _, _, s, _ => s

/-- `LedgerImpl::impl_sync`. -/
def LedgerImpl.sync (suite : CryptoSuite) (s : LedgerImpl) (answers : List Answer) : LedgerImpl :=
  syncFrom suite (s.currentNumber + 1) none s answers

/-! ## The chain of the stored headers -/

/-- The header of a number is stored with its hash and names the hash of the stored header
before it. -/
structure LinkedAt (suite : CryptoSuite) (s : LedgerImpl) (n : ℤ) (header parent : BlockHeader) :
    Prop where
  stored : s.header n = some header
  number : numberOf header = n
  before : s.header (n - 1) = some parent
  parent : ∃ info, header.data.parentInfo.head? = some info ∧
    info.blockNumber.toInt = n - 1 ∧ info.blockHash = hashOf suite parent
  hash : s.numberToHash n = some (hashOf suite header)
  back : s.hashToNumber (hashOf suite header) = some n

def Linked (suite : CryptoSuite) (s : LedgerImpl) : Prop :=
  ∀ n, 1 ≤ n → n ≤ s.currentNumber → ∃ header parent, LinkedAt suite s n header parent

/-- The header carries the number that was asked for and the hash of its fields, which is not
the hash of a stored header. -/
structure Genuine (suite : CryptoSuite) (s : LedgerImpl) (n : ℤ) (header : BlockHeader) : Prop where
  number : numberOf header = n
  hash : header.dataHash = hashOf suite header
  new : s.hashToNumber header.dataHash = none

/-- Every header that the loop stores is genuine, and no exception ends the writing between the
first and the last row of a header. -/
def GenuineFrom (suite : CryptoSuite) :
    ℤ → Option BlockHeader → LedgerImpl → List Answer → Prop
  | n, parentBlock, s, some (header, ended) :: answers =>
    accepts suite n parentBlock s header = true → ended ≠ some 0 →
      Genuine suite s n header ∧ (∀ rows, ended = some rows → 4 ≤ rows) ∧
        GenuineFrom suite (n + 1) (some header) (s.setHeader header) answers
  | _, _, _, _ => True

/-- This holds in each of the calls. -/
def GenuineCalls (suite : CryptoSuite) : LedgerImpl → List (List Answer) → Prop
  | _, [] => True
  | s, answers :: calls => GenuineFrom suite (s.currentNumber + 1) none s answers ∧
    GenuineCalls suite (s.sync suite answers) calls

/-- The chain is linked, and the last header is stored under its number and hashed. -/
structure Sound (suite : CryptoSuite) (s : LedgerImpl) (last : BlockHeader) : Prop where
  linked : Linked suite s
  nonneg : 0 ≤ s.currentNumber
  stored : s.header s.currentNumber = some last
  number : numberOf last = s.currentNumber
  hash : ∀ hash, calculate suite last = .ok hash → hash.val = hashOf suite last

variable {suite : CryptoSuite} {s : LedgerImpl} {header last parent : BlockHeader} {n : ℤ}

theorem calculate_of_hash (h : header.dataHash = hashOf suite header) {hash : HashType}
    (hcalculate : calculate suite header = .ok hash) : hash.val = hashOf suite header := by
  have hlength : header.dataHash.length = 32 := by
    rw [h]
    exact (suite.hash _).property
  have hne : header.dataHash ≠ [] := by
    intro hnil
    simp [hnil] at hlength
  rw [Lightnode.calculate, BlockHeader.fed, fedBytes, if_neg hne] at hcalculate
  simp only [hlength, dif_pos, Except.ok.injEq] at hcalculate
  rw [← hcalculate]
  exact h

theorem LinkedAt.setHeader (h : LinkedAt suite s n header parent) {header' : BlockHeader}
    (hlater : n < numberOf header') (hnew : s.hashToNumber header'.dataHash = none) :
    LinkedAt suite (s.setHeader header') n header parent := by
  have hhash : hashOf suite header ≠ header'.dataHash := by
    intro heq
    rw [← heq, h.back] at hnew
    cases hnew
  have hne : n ≠ numberOf header' := by omega
  have hbefore : n - 1 ≠ numberOf header' := by omega
  refine ⟨?_, h.number, ?_, h.parent, ?_, ?_⟩
  · exact (update_of_ne hne _ _).trans h.stored
  · exact (update_of_ne hbefore _ _).trans h.before
  · exact (update_of_ne hne _ _).trans h.hash
  · exact (update_of_ne hhash _ _).trans h.back

/-- A genuine header that names its parent extends the chain. -/
theorem Sound.setHeader (h : Sound suite s last)
    (hgenuine : Genuine suite s (s.currentNumber + 1) header)
    (hparent : matchesParent suite last header = true) :
    Sound suite (s.setHeader header) header := by
  have hnumber := hgenuine.number
  have hother : s.currentNumber ≠ numberOf header := by omega
  refine ⟨?_, ?_, update_self .., rfl, fun hash => calculate_of_hash hgenuine.hash⟩
  · intro n h1 hn
    have hn : n ≤ numberOf header := hn
    rcases Int.lt_or_eq_of_le hn with hlt | rfl
    · obtain ⟨header', parent', hlinked⟩ := h.linked n h1 (by omega)
      exact ⟨header', parent', hlinked.setHeader hlt hgenuine.new⟩
    · refine ⟨header, last, update_self .., rfl, ?_, ?_, ?_, ?_⟩
      · rw [show numberOf header - 1 = s.currentNumber by omega]
        exact (update_of_ne hother _ _).trans h.stored
      · rw [matchesParent] at hparent
        split at hparent
        · rename_i info rest hash hinfo hcalculate
          obtain ⟨hinfoNumber, hinfoHash⟩ := of_decide_eq_true hparent
          refine ⟨info, by rw [hinfo]; rfl, ?_, hinfoHash.trans (h.hash hash hcalculate)⟩
          rw [hinfoNumber]
          exact h.number.trans (by omega)
        · cases hparent
      · exact (update_self ..).trans (congrArg some hgenuine.hash)
      · rw [← hgenuine.hash]
        exact update_self ..
  · have := h.nonneg
    change 0 ≤ numberOf header
    omega

theorem setRows_of_le {rows : ℕ} (h : 4 ≤ rows) : s.setRows header rows = s.setHeader header := by
  have htake : (headerRows header).take rows = (headerRows header).take 4 :=
    (List.take_of_length_le h).trans (List.take_of_length_le le_rfl).symm
  rw [LedgerImpl.setHeader, LedgerImpl.setRows, LedgerImpl.setRows, htake]

theorem Sound.syncFrom {parentBlock : Option BlockHeader} {answers : List Answer}
    (h : Sound suite s last) (hparent : parentBlock = none ∨ parentBlock = some last)
    (hgenuine : GenuineFrom suite (s.currentNumber + 1) parentBlock s answers) :
    ∃ last', Sound suite (syncFrom suite (s.currentNumber + 1) parentBlock s answers) last' := by
  induction answers generalizing s last parentBlock with
  | nil => exact ⟨last, h⟩
  | cons answer answers ih =>
    rcases answer with - | ⟨header, ended⟩
    · exact ⟨last, h⟩
    simp only [Lightnode.syncFrom]
    split_ifs with haccepts
    · by_cases hstarted : ended = some 0
      · subst hstarted
        exact ⟨last, h⟩
      · obtain ⟨hheader, hended, hrest⟩ := hgenuine haccepts hstarted
        have hlast : parentBlock.or (s.header (s.currentNumber + 1 - 1)) = some last := by
          rw [Int.add_sub_cancel, h.stored]
          rcases hparent with rfl | rfl <;> rfl
        rw [accepts, hlast, decide_eq_false (by have := h.nonneg; omega), Bool.false_or] at haccepts
        have hnext := h.setHeader hheader haccepts
        rcases ended with - | rows
        · have hnumber : (s.setHeader header).currentNumber = s.currentNumber + 1 := hheader.number
          rw [← hnumber] at hrest ⊢
          exact ih hnext (.inr rfl) hrest
        · dsimp only
          rw [setRows_of_le (hended rows rfl)]
          exact ⟨header, hnext⟩
    · exact ⟨last, h⟩

theorem Sound.sync_run {calls : List (List Answer)} (h : Sound suite s last)
    (hcalls : GenuineCalls suite s calls) :
    ∃ last', Sound suite (calls.foldl (LedgerImpl.sync suite) s) last' := by
  induction calls generalizing s last with
  | nil => exact ⟨last, h⟩
  | cons answers calls ih =>
    obtain ⟨last', hlast'⟩ := h.syncFrom (.inl rfl) hcalls.1
    exact ih hlast' hcalls.2

/-- From a genesis header that carries no hash or its own, the chain stays linked if the
headers that are stored carry the numbers that were asked for and the hashes of their fields,
and all rows of a header are written. -/
theorem sync_linked (suite : CryptoSuite) (s : LedgerImpl) (genesis : BlockHeader)
    (hcurrent : s.currentNumber = 0) (hstored : s.header 0 = some genesis)
    (hnumber : numberOf genesis = 0)
    (hhash : genesis.dataHash = [] ∨ genesis.dataHash = hashOf suite genesis)
    (calls : List (List Answer)) (hcalls : GenuineCalls suite s calls) :
    Linked suite (calls.foldl (LedgerImpl.sync suite) s) := by
  have hsound : Sound suite s genesis := by
    refine ⟨fun n h1 hn => ?_, Int.le_of_eq hcurrent.symm, hcurrent ▸ hstored,
      hnumber.trans hcurrent.symm, ?_⟩
    · omega
    · intro hash hcalculate
      rcases hhash with hempty | hhash
      · rw [Lightnode.calculate, BlockHeader.fed, fedBytes, if_pos hempty] at hcalculate
        cases hcalculate
        rfl
      · exact calculate_of_hash hhash hcalculate
  obtain ⟨last, hlast⟩ := hsound.sync_run hcalls
  exact hlast.linked

/-! ## Headers that are not what they say -/

/-- A header of a number, with the hash of its fields. -/
def headerOf (number : ℕ) (parentInfo : List ParentInfo) : BlockHeader :=
  let data : HeaderData :=
    ⟨BitVec.ofNat 32 number, parentInfo, [], [], [], number, [], 0, 0, [], [], []⟩
  ⟨data, (echoSuite.hash data.preimage).val, []⟩

/-- The first header is stored without a hash. -/
def genesisHeader : BlockHeader := { headerOf 0 [] with dataHash := [] }

/-- A ledger with the first header only. -/
def genesisLedger : LedgerImpl where
  currentNumber := 0
  numberToHash _ := none
  hashToNumber _ := none
  header := update (fun _ => none) 0 (some genesisHeader)

/-- A header of a number that names the first header as its parent. -/
def childOf (number : ℕ) : BlockHeader := headerOf number [⟨0, hashOf echoSuite genesisHeader⟩]

/-- A call that ends before anything is written, and one that stores a header. -/
theorem sync_linked_child :
    Linked echoSuite ([[some (childOf 1, some 0)], [some (childOf 1, none)]].foldl
      (LedgerImpl.sync echoSuite) genesisLedger) := by
  refine sync_linked echoSuite genesisLedger genesisHeader rfl rfl rfl (.inl rfl) _ ?_
  refine ⟨fun _ hended => absurd rfl hended, fun _ _ => ⟨⟨rfl, rfl, rfl⟩, ?_, trivial⟩, trivial⟩
  intro rows hended
  cases hended

/-- A header with another number and one with another hash are stored, and a header is lost when
an exception ends the call after the first row. -/
theorem sync_not_linked :
    ¬ Linked echoSuite (genesisLedger.sync echoSuite [some (childOf 2, none)]) ∧
    ¬ Linked echoSuite (genesisLedger.sync echoSuite
      [some ({ childOf 1 with dataHash := [7] }, none)]) ∧
    ¬ Linked echoSuite (genesisLedger.sync echoSuite [some (childOf 1, some 1)]) := by
  refine ⟨fun h => ?_, fun h => ?_, fun h => ?_⟩
  all_goals obtain ⟨header, parent, hlinked⟩ := h 1 (Int.le_refl 1) (by decide +kernel)
  · cases show none = some header from hlinked.stored
  · obtain rfl : { childOf 1 with dataHash := [7] } = header := Option.some.inj hlinked.stored
    exact absurd hlinked.hash (by decide +kernel)
  · cases show none = some header from hlinked.stored

end FiscoSmart.Lightnode
