import FiscoSmart.Consensus.Config
import FiscoSmart.Protocol.TransactionVerify

/-!
# Blocks from the network

`BlockValidator` answers whether the sync module may apply a block it has
downloaded.  A block with transactions is checked against the list of consensus
nodes and its signatures are added up.  A block without transactions is let through
before either check, and a signer that is listed twice counts twice.
-/

namespace FiscoSmart.Protocol

/-- `BlockHeaderImpl::hash`: the hash the header carries, else the hash of its
fields. -/
def BlockHeader.hash (suite : CryptoSuite) (header : BlockHeader) : Except Fault HashType :=
  if header.dataHash = [] then .ok (suite.hash header.data.preimage)
  else castHash header.dataHash

end FiscoSmart.Protocol

namespace FiscoSmart.Consensus

open Support Protocol

/-- A block as the sync module hands it in. -/
structure Block where
  blockHeader : BlockHeader
  transactionsSize : ℕ

/-- `BlockValidator` with what it reads of its configuration: the consensus nodes, the
number of the committed block, if there is one, and the signature scheme.  A call of
`verify` that throws is one that answers `false`. -/
structure BlockValidator where
  consensusNodeList : ConsensusNodeList
  committedProposal : Option ℤ
  suite : CryptoSuite
  verify : Bytes → HashType → Bytes → Bool

/-- The signatures of a header with the indices of their signers. -/
def signatureProofs (header : BlockHeader) : List (IndexType × Bytes) :=
  header.signatureList.map (fun sign => (sign.sealerIndex.toNat, sign.signature))

namespace BlockValidator

variable (v : BlockValidator)

/-- The loop over the sealers: the nodes have these identities and weights. -/
def sameSealers : ConsensusNodeList → List Bytes → List (BitVec 64) → Bool
  | [], [], [] => true
  | consNode :: nodes, blockSealer :: sealers, blockWeight :: weights =>
    if consNode.nodeID ≠ blockSealer then false
    else if consNode.weight ≠ blockWeight then false
    else sameSealers nodes sealers weights
  | _, _, _ => false

def checkSealerListAndWeightList (block : Block) : Bool :=
  let data := block.blockHeader.data
  if (getConsensusNodeByIndex v.consensusNodeList data.sealer.toNat).isNone then false
  else if data.sealerList.length ≠ v.consensusNodeList.length ∨
      data.consensusWeights.length ≠ v.consensusNodeList.length then false
  else sameSealers v.consensusNodeList data.sealerList data.consensusWeights

def checkSignatureList (block : Block) : Except Fault Bool := do
  let hash ← block.blockHeader.hash v.suite
  match signatureWeight v.consensusNodeList v.verify hash 0 (signatureProofs block.blockHeader) with
  | none => return false
  | some signatureWeight => return minRequiredQuorum v.consensusNodeList ≤ signatureWeight

/-- `BlockValidator::asyncCheckBlock`, with its answer. -/
def asyncCheckBlock (block : Block) : Except Fault Bool :=
  let number := block.blockHeader.data.blockNumber.toInt
  -- ignore the genesis block
  if number = 0 then .ok true
  else match v.committedProposal with
  | none => .error .undefinedBehaviour
  | some index =>
    if number ≤ index then .ok false
    else if block.transactionsSize = 0 then .ok true
    else if v.checkSealerListAndWeightList block = false then .ok false
    else v.checkSignatureList block

/-! ## What an accepted block has -/

variable {v} {block : Block}

theorem sameSealers_eq {nodes : ConsensusNodeList} {sealers : List Bytes}
    {weights : List (BitVec 64)} (h : sameSealers nodes sealers weights = true) :
    sealers = nodes.map ConsensusNode.nodeID ∧ weights = nodes.map ConsensusNode.weight := by
  induction nodes generalizing sealers weights with
  | nil =>
    cases sealers <;> cases weights <;> simp_all [sameSealers]
  | cons node nodes ih =>
    rcases sealers with - | ⟨sealer, sealers⟩
    · simp [sameSealers] at h
    · rcases weights with - | ⟨weight, weights⟩
      · simp [sameSealers] at h
      · rw [sameSealers] at h
        split_ifs at h with hsealer hw
        obtain ⟨hsealers, hweights⟩ := ih h
        rw [not_not] at hsealer hw
        simp [hsealer, hw, hsealers, hweights]

theorem checkSealerListAndWeightList_eq (h : v.checkSealerListAndWeightList block = true) :
    block.blockHeader.data.sealerList = v.consensusNodeList.map ConsensusNode.nodeID ∧
      block.blockHeader.data.consensusWeights =
        v.consensusNodeList.map ConsensusNode.weight := by
  rw [checkSealerListAndWeightList] at h
  split_ifs at h
  exact sameSealers_eq h

theorem checks_of_accepted (h : v.asyncCheckBlock block = .ok true)
    (hnum : 0 < block.blockHeader.data.blockNumber.toInt)
    (htransactions : 0 < block.transactionsSize) : v.checkSealerListAndWeightList block = true ∧
      v.checkSignatureList block = .ok true := by
  rw [asyncCheckBlock] at h
  rw [if_neg (by omega)] at h
  rcases hcommitted : v.committedProposal with - | index
  · rw [hcommitted] at h
    cases h
  · rw [hcommitted] at h
    dsimp only at h
    rw [if_neg (show block.transactionsSize ≠ 0 by omega)] at h
    split_ifs at h with hold hsealers
    · cases h
    · cases h
    · exact ⟨by simpa using hsealers, h⟩

theorem checkSignatureList_eq (h : v.checkSignatureList block = .ok true) :
    ∃ hash weight, block.blockHeader.hash v.suite = .ok hash ∧
      signatureWeight v.consensusNodeList v.verify hash 0
        (signatureProofs block.blockHeader) = some weight ∧
      minRequiredQuorum v.consensusNodeList ≤ weight := by
  rw [checkSignatureList] at h
  rcases hhash : block.blockHeader.hash v.suite with e | hash
  · rw [hhash] at h
    cases h
  · rw [hhash] at h
    change (match signatureWeight v.consensusNodeList v.verify hash 0
      (signatureProofs block.blockHeader) with
      | none => Except.ok false
      | some weight => Except.ok (decide (minRequiredQuorum v.consensusNodeList ≤ weight))) =
        .ok true at h
    split at h
    · cases h
    · rename_i weight hw
      refine ⟨hash, weight, rfl, hw, ?_⟩
      simpa using h

/-- The certificate of a block: pairwise distinct consensus nodes of quorum weight have
signed the hash of the header, whose lists are those of the consensus nodes. -/
def BlockCertified (v : BlockValidator) (block : Block) : Prop :=
  (∃ hash, block.blockHeader.hash v.suite = .ok hash ∧
    Certified v.consensusNodeList v.verify hash (signatureProofs block.blockHeader)) ∧
  block.blockHeader.data.sealerList = v.consensusNodeList.map ConsensusNode.nodeID ∧
  block.blockHeader.data.consensusWeights = v.consensusNodeList.map ConsensusNode.weight

/-- An accepted block with transactions has the lists of the consensus nodes, and is certified
exactly if its signers, each counted once, have the weight of a quorum. -/
theorem asyncCheckBlock_certified_iff (v : BlockValidator) (block : Block)
    (haccepted : v.asyncCheckBlock block = .ok true)
    (hnumber : 0 < block.blockHeader.data.blockNumber.toInt)
    (htransactions : 0 < block.transactionsSize) :
    (block.blockHeader.data.sealerList = v.consensusNodeList.map ConsensusNode.nodeID ∧
      block.blockHeader.data.consensusWeights = v.consensusNodeList.map ConsensusNode.weight) ∧
    (v.BlockCertified block ↔ (minRequiredQuorum v.consensusNodeList).toNat ≤
      weightOf v.consensusNodeList (signers (signatureProofs block.blockHeader))) := by
  obtain ⟨hsealers, hsignatures⟩ := checks_of_accepted haccepted hnumber htransactions
  obtain ⟨hash, weight, hhash, hw, -⟩ := checkSignatureList_eq hsignatures
  have hlists := checkSealerListAndWeightList_eq hsealers
  refine ⟨hlists, ?_⟩
  rw [← certified_iff (signatureWeight_eq_some.mp hw).1]
  constructor
  · rintro ⟨⟨hash', hhash', hcertified⟩, -⟩
    cases hhash.symm.trans hhash'
    exact hcertified
  · intro hcertified
    exact ⟨⟨hash, hhash, hcertified⟩, hlists⟩

/-- Four nodes of weight one; the signature of a node is its identity. -/
def fourNodes : BlockValidator where
  consensusNodeList := [⟨[0], 1⟩, ⟨[1], 1⟩, ⟨[2], 1⟩, ⟨[3], 1⟩]
  committedProposal := some 0
  suite := ⟨fun _ => ⟨List.replicate 32 0, rfl⟩, fun _ _ => .error .recoverFailed⟩
  verify nodeID _ signature := signature = nodeID

/-- The first block of the four nodes, with these signatures. -/
def firstBlock (transactionsSize : ℕ) (signatureList : List Signature) : Block where
  blockHeader := {
    data := ⟨0, [], [], [], [], 1, [], 0, 0, [[0], [1], [2], [3]], [], [1, 1, 1, 1]⟩
    dataHash := []
    signatureList }
  transactionsSize

/-- A block with the signatures of three of four nodes, one of them twice. -/
theorem asyncCheckBlock_certified_iff_three :
    fourNodes.BlockCertified (firstBlock 1 [⟨0, [0]⟩, ⟨1, [1]⟩, ⟨3, [3]⟩, ⟨3, [3]⟩]) := by
  refine (asyncCheckBlock_certified_iff _ _ rfl ?_ ?_).2.mpr ?_
  · decide
  · decide
  · decide

/-- A block without transactions needs no signature, and one node that signs three times
passes for three. -/
theorem asyncCheckBlock_uncertified : (fourNodes.asyncCheckBlock (firstBlock 0 []) = .ok true ∧
      ¬ fourNodes.BlockCertified (firstBlock 0 [])) ∧
    (fourNodes.asyncCheckBlock (firstBlock 1 [⟨0, [0]⟩, ⟨0, [0]⟩, ⟨0, [0]⟩]) = .ok true ∧
      ¬ fourNodes.BlockCertified (firstBlock 1 [⟨0, [0]⟩, ⟨0, [0]⟩, ⟨0, [0]⟩])) := by
  refine ⟨⟨rfl, ?_⟩, rfl, ?_⟩
  · rintro ⟨⟨hash, -, hcertified⟩, -⟩
    exact absurd hcertified.weight_le (by decide)
  · rintro ⟨⟨hash, -, hcertified⟩, -⟩
    exact absurd hcertified.weight_le (by decide)

end BlockValidator

end FiscoSmart.Consensus
