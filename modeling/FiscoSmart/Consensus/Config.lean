import FiscoSmart.Support.Encoding
import FiscoSmart.Support.Quorum

/-!
# Consensus nodes and quorums

The part of `ConsensusConfig` and `PBFTConfig` that every check of signatures
reads: the list of the consensus nodes with their weights, the quorums computed
from the weights in `uint64_t`, and the loop that adds up the weights of the
signers of a hash.  The loop looks up every signer anew, so a signer that occurs
twice counts twice.
-/

namespace FiscoSmart.Consensus

open Support Finset List

/-- `IndexType`, a `uint64_t`. -/
abbrev IndexType := ℕ

structure ConsensusNode where
  nodeID : Bytes
  weight : BitVec 64
deriving DecidableEq

abbrev ConsensusNodeList := List ConsensusNode

/-- `ConsensusConfig::getConsensusNodeByIndex`. -/
def getConsensusNodeByIndex (nodes : ConsensusNodeList) (nodeIndex : IndexType) :
    Option ConsensusNode :=
  nodes[nodeIndex]?

/-! ## Quorums -/

def totalQuorum (nodes : ConsensusNodeList) : BitVec 64 :=
  wordSum (nodes.map ConsensusNode.weight)

def maxFaultyQuorum (nodes : ConsensusNodeList) : BitVec 64 :=
  (totalQuorum nodes - 1) / 3

def minRequiredQuorum (nodes : ConsensusNodeList) : BitVec 64 :=
  totalQuorum nodes - maxFaultyQuorum nodes

/-- The weight of the node at an index, nothing outside the list. -/
def nodeWeight (nodes : ConsensusNodeList) (nodeIndex : IndexType) : ℕ :=
  ((getConsensusNodeByIndex nodes nodeIndex).map (·.weight.toNat)).getD 0

def weightOf (nodes : ConsensusNodeList) (s : Finset IndexType) : ℕ :=
  ∑ i ∈ s, nodeWeight nodes i

section Quorums

variable {nodes : ConsensusNodeList}

theorem weightOf_range (nodes : ConsensusNodeList) : weightOf nodes (Finset.range nodes.length) =
    ((nodes.map ConsensusNode.weight).map BitVec.toNat).sum := by
  induction nodes with
  | nil => rfl
  | cons node nodes ih =>
    rw [weightOf, List.length_cons, Finset.sum_range_succ', Nat.add_comm, List.map_cons,
      List.map_cons, List.sum_cons, ← ih]
    rfl

section

variable (hpos : 0 < weightOf nodes (Finset.range nodes.length))
  (hfits : weightOf nodes (Finset.range nodes.length) < 2 ^ 64)

include hpos hfits

theorem toNat_maxFaultyQuorum : (maxFaultyQuorum nodes).toNat =
    (weightOf nodes (Finset.range nodes.length) - 1) / 3 := by
  rw [weightOf_range] at hpos hfits ⊢
  have htotal : (totalQuorum nodes).toNat = _ := toNat_wordSum hfits
  rw [maxFaultyQuorum, BitVec.toNat_udiv, BitVec.toNat_sub_of_le, htotal]
  · rfl
  · rw [BitVec.le_def, htotal]
    exact hpos

theorem toNat_minRequiredQuorum : (minRequiredQuorum nodes).toNat =
    weightOf nodes (Finset.range nodes.length) - (maxFaultyQuorum nodes).toNat := by
  have hfaulty := toNat_maxFaultyQuorum hpos hfits
  rw [weightOf_range] at hpos hfits hfaulty ⊢
  have htotal : (totalQuorum nodes).toNat = _ := toNat_wordSum hfits
  rw [minRequiredQuorum, BitVec.toNat_sub_of_le, htotal]
  rw [BitVec.le_def, htotal, hfaulty]
  omega

end

/-- Any two quorums share more than the faulty nodes can have, and the nodes outside a set
of faulty ones make a quorum. -/
theorem quorums_intersect (nodes : ConsensusNodeList)
    (hpos : 0 < weightOf nodes (Finset.range nodes.length))
    (hfits : weightOf nodes (Finset.range nodes.length) < 2 ^ 64) :
    (∀ A ⊆ Finset.range nodes.length, ∀ B ⊆ Finset.range nodes.length,
      (minRequiredQuorum nodes).toNat ≤ weightOf nodes A →
      (minRequiredQuorum nodes).toNat ≤ weightOf nodes B →
        (maxFaultyQuorum nodes).toNat < weightOf nodes (A ∩ B)) ∧
    ∀ F ⊆ Finset.range nodes.length, weightOf nodes F ≤ (maxFaultyQuorum nodes).toNat →
      (minRequiredQuorum nodes).toNat ≤ weightOf nodes (Finset.range nodes.length \ F) := by
  have hfaulty := toNat_maxFaultyQuorum hpos hfits
  rw [toNat_minRequiredQuorum hpos hfits]
  constructor
  · intro A hA B hB hquorumA hquorumB
    have hinter : weightOf nodes A + weightOf nodes B ≤ _ := sum_add_sum_le hA hB
    unfold weightOf at *
    omega
  · intro F hF hle
    have hrest := Finset.sum_sdiff hF (f := nodeWeight nodes)
    unfold weightOf at *
    omega

/-- Four nodes of weight 1. -/
theorem quorums_intersect_four_nodes : let nodes : ConsensusNodeList :=
      [⟨[0], 1⟩, ⟨[1], 1⟩, ⟨[2], 1⟩, ⟨[3], 1⟩]
    (maxFaultyQuorum nodes).toNat < weightOf nodes ({0, 1, 2} ∩ {1, 2, 3}) ∧
      (minRequiredQuorum nodes).toNat ≤ weightOf nodes (Finset.range 4 \ {2}) := by
  obtain ⟨hinter, hrest⟩ := quorums_intersect [⟨[0], 1⟩, ⟨[1], 1⟩, ⟨[2], 1⟩, ⟨[3], 1⟩]
    (by decide) (by decide)
  exact ⟨hinter {0, 1, 2} (by decide) {1, 2, 3} (by decide) (by decide) (by decide),
    hrest {2} (by decide) (by decide)⟩

end Quorums

/-! ## The weight of the signers -/

section Signatures

variable {Hash : Type} (nodes : ConsensusNodeList) (verify : Bytes → Hash → Bytes → Bool)
  (hash : Hash)

/-- The loop over a list of signatures: the weights of the signers are added up until
a signer is no consensus node or has not signed the hash. -/
def signatureWeight : BitVec 64 → List (IndexType × Bytes) → Option (BitVec 64)
  | weight, [] => some weight
  | weight, (nodeIndex, signature) :: rest =>
    match getConsensusNodeByIndex nodes nodeIndex with
    | none => none
    | some nodeInfo =>
      if verify nodeInfo.nodeID hash signature then
        signatureWeight (weight + nodeInfo.weight) rest
      else none

def SignedBy (proof : IndexType × Bytes) : Prop :=
  ∃ nodeInfo, getConsensusNodeByIndex nodes proof.1 = some nodeInfo ∧
    verify nodeInfo.nodeID hash proof.2 = true

/-- Pairwise distinct nodes of quorum weight have signed the hash. -/
def Certified (proofs : List (IndexType × Bytes)) : Prop :=
  ∃ signers : Finset IndexType, (∀ i ∈ signers, ∃ signature, (i, signature) ∈ proofs ∧
      SignedBy nodes verify hash (i, signature)) ∧
    (minRequiredQuorum nodes).toNat ≤ weightOf nodes signers

/-- The indices of the signers, each once. -/
def signers (proofs : List (IndexType × Bytes)) : Finset IndexType :=
  (proofs.map Prod.fst).toFinset

variable {nodes verify hash} {proofs : List (IndexType × Bytes)} {weight : BitVec 64}

theorem nodeWeight_of_some {nodeIndex : IndexType} {nodeInfo : ConsensusNode}
    (h : getConsensusNodeByIndex nodes nodeIndex = some nodeInfo) :
    nodeWeight nodes nodeIndex = nodeInfo.weight.toNat := by
  simp [nodeWeight, h]

/-- The loop ends with a weight exactly if all signatures are good, and the weight is
the sum over the list, in words. -/
theorem signatureWeight_eq_some {start : BitVec 64} :
    signatureWeight nodes verify hash start proofs = some weight ↔
      (∀ proof ∈ proofs, SignedBy nodes verify hash proof) ∧ weight.toNat =
          (start.toNat + (proofs.map (fun proof => nodeWeight nodes proof.1)).sum) % 2 ^ 64 := by
  induction proofs generalizing start with
  | nil =>
    have hstart := start.isLt
    simp only [signatureWeight, Option.some_inj, not_mem_nil, false_imp_iff,
      implies_true, true_and, map_nil, sum_nil, add_zero, Nat.mod_eq_of_lt hstart]
    constructor
    · rintro rfl
      rfl
    · intro h
      exact BitVec.eq_of_toNat_eq h.symm
  | cons proof rest ih =>
    obtain ⟨nodeIndex, signature⟩ := proof
    rw [signatureWeight]
    rcases hnode : getConsensusNodeByIndex nodes nodeIndex with - | nodeInfo
    · simp [SignedBy, hnode]
    · have hsigned : SignedBy nodes verify hash (nodeIndex, signature) ↔
          verify nodeInfo.nodeID hash signature = true := by
        simp [SignedBy, hnode]
      simp only [List.forall_mem_cons, hsigned, List.map_cons, List.sum_cons,
        nodeWeight_of_some hnode]
      split
      · rename_i hverify
        rw [ih, BitVec.toNat_add, Nat.mod_add_mod, add_assoc]
        simp [hverify]
      · rename_i hverify
        simp [hverify]

/-- The signers of a certificate, each counted once, have the weight. -/
theorem Certified.weight_le (h : Certified nodes verify hash proofs) :
    (minRequiredQuorum nodes).toNat ≤ weightOf nodes (signers proofs) := by
  obtain ⟨set, hset, hw⟩ := h
  refine hw.trans (sum_le_sum_of_subset ?_)
  intro i hi
  obtain ⟨signature, hmem, -⟩ := hset i hi
  exact mem_toFinset.mpr (mem_map.mpr ⟨_, hmem, rfl⟩)

/-- If all signatures are good, they make a certificate exactly if the signers, each
counted once, have the weight. -/
theorem certified_iff (h : ∀ proof ∈ proofs, SignedBy nodes verify hash proof) :
    Certified nodes verify hash proofs ↔
      (minRequiredQuorum nodes).toNat ≤ weightOf nodes (signers proofs) := by
  constructor
  · exact Certified.weight_le
  · intro hw
    refine ⟨signers proofs, ?_, hw⟩
    intro i hi
    obtain ⟨⟨i', signature⟩, hmem, rfl⟩ := mem_map.mp (mem_toFinset.mp hi)
    exact ⟨signature, hmem, h _ hmem⟩

end Signatures

end FiscoSmart.Consensus
