import FiscoSmart.Consensus.Engine

/-!
# Proofs that a proposal is prepared

A view-change message carries the proposals its sender has prepared, each with the
signatures of a quorum.  `checkPrecommitMsg` verifies every signature and adds up the
weights, but counts a signer as often as it is listed, and takes the index and the hash
of the message without comparing them with the proposal that is signed.
-/

namespace FiscoSmart.Consensus

open Support

variable {Hash : Type} {env : Env Hash} {proposal : PBFTProposal Hash}

theorem checkPrecommitWeight_eq_true : env.checkPrecommitWeight proposal = true ↔
      ∃ weight, signatureWeight env.consensusNodeList env.verify proposal.hash 0
        proposal.signatureProof = some weight ∧
        minRequiredQuorum env.consensusNodeList ≤ weight := by
  rw [Env.checkPrecommitWeight]
  cases signatureWeight env.consensusNodeList env.verify proposal.hash 0
      proposal.signatureProof with
  | none => simp
  | some weight => simp

theorem signedBy_of_checkPrecommitWeight
    (h : env.checkPrecommitWeight proposal = true) : ∀ proof ∈ proposal.signatureProof,
      SignedBy env.consensusNodeList env.verify proposal.hash proof := by
  obtain ⟨weight, hw, -⟩ := checkPrecommitWeight_eq_true.mp h
  exact (signatureWeight_eq_some.mp hw).1

namespace PBFTCacheProcessor

variable [DecidableEq Hash] {s s' : PBFTEngine Hash} {msg : PBFTMessage Hash}

/-- A message is accepted for the signatures on its proposal, and nothing changes. -/
theorem checkPrecommitMsg_eq_true (h : checkPrecommitMsg env msg s = .ok true s') :
    s' = s ∧ ∃ proposal, msg.consensusProposal = some proposal ∧
      env.checkPrecommitWeight proposal = true := by
  change (if _ then _ else _ : EngineM Hash Bool) s = _ at h
  split_ifs at h with hview
  · cases h
  · split at h
    · cases h
    · rename_i proposal hprop
      split_ifs at h with hw
      · cases h
        exact ⟨rfl, proposal, hprop, hw⟩
      · split at h
        · cases h
        · split_ifs at h with herase
          · cases h
          · cases h

variable (env msg) in
/-- The message shows that its proposal is prepared: pairwise distinct nodes of quorum
weight have signed the hash of the proposal, and the message has the index and the hash of
the proposal. -/
def ShowsPrepared : Prop :=
  ∃ proposal, msg.consensusProposal = some proposal ∧
    Certified env.consensusNodeList env.verify proposal.hash proposal.signatureProof ∧
    msg.index = proposal.index ∧ msg.hash = proposal.hash

/-- An accepted message shows that its proposal is prepared exactly if the signers, each
counted once, have the quorum weight and the message and the proposal agree. -/
theorem checkPrecommitMsg_showsPrepared_iff (h : checkPrecommitMsg env msg s = .ok true s') :
    ShowsPrepared env msg ↔ ∃ proposal, msg.consensusProposal = some proposal ∧
        (minRequiredQuorum env.consensusNodeList).toNat ≤
          weightOf env.consensusNodeList (signers proposal.signatureProof) ∧
        msg.index = proposal.index ∧ msg.hash = proposal.hash := by
  obtain ⟨-, proposal, hprop, hw⟩ := checkPrecommitMsg_eq_true h
  have hcertified := certified_iff (signedBy_of_checkPrecommitWeight hw)
  rw [ShowsPrepared]
  simp [hprop, exists_eq_left', hcertified]

end PBFTCacheProcessor

/-! ## Four nodes -/

/-- Hashes without collisions: a block has its name, and the hash of the fields of a
message is made of the fields. -/
inductive Digest
  | block (name : ℕ)
  | fields (index : BlockNumber) (hash : Digest) (view : ViewType) (generatedFrom : IndexType)
  | viewChange
  | newView
deriving DecidableEq

/-- What a node signs of a hash. -/
def Digest.code : Digest → Bytes
  | .block name => [0, Fin.ofNat 256 name]
  | .fields index hash view generatedFrom =>
    1 :: Fin.ofNat 256 index.toNat :: Fin.ofNat 256 view :: Fin.ofNat 256 generatedFrom :: hash.code
  | .viewChange => [2]
  | .newView => [3]

/-- One of four nodes of weight one.  Nodes sign with their identity in front of the hash;
the data of a block is its number and its name. -/
def fourNodes (nodeIndex : IndexType) : Env Digest where
  consensusNodeList := [⟨[0], 1⟩, ⟨[1], 1⟩, ⟨[2], 1⟩, ⟨[3], 1⟩]
  nodeIndex
  leaderSwitchPeriod := 1
  waterMarkLimit := 50
  verify nodeID hash signature := signature = nodeID ++ hash.code
  sign hash := Fin.ofNat 256 nodeIndex :: hash.code
  hashFields msg := .fields msg.index msg.hash msg.view msg.generatedFrom
  hashViewChange _ := .viewChange
  hashNewView _ := .newView
  noHash := .block 0
  createBlock data :=
    match data with
    | [number, name] => some (number.val, .block name.val)
    | _ => none
  emptyBlock index := ([Fin.ofNat 256 index.toNat, 255], .block 255)

/-- The block of a name at an index, signed by these nodes. -/
def signedProposal (index : ℕ) (name : ℕ) (nodes : List IndexType) : PBFTProposal Digest where
  index
  hash := .block name
  data := [Fin.ofNat 256 index, Fin.ofNat 256 name]
  systemProposal := false
  signature := []
  signatureProof := nodes.map (fun i => (i, (fourNodes i).sign (.block name)))

/-- A precommit message for a proposal, under an index of its own. -/
def precommitOf (index : ℕ) (proposal : PBFTProposal Digest) : PBFTMessage Digest where
  index
  hash := proposal.hash
  view := 0
  generatedFrom := 0
  packetType := .prePreparePacket
  consensusProposal := some proposal
  signatureData := []

/-- Whether the first node accepts a precommit message when it starts. -/
def acceptsPrecommit (msg : PBFTMessage Digest) : Bool :=
  match PBFTCacheProcessor.checkPrecommitMsg (fourNodes 0) msg (.start Digest 0 (.block 0)) with
  | .ok accepted _ => accepted
  | .error _ _ => false

namespace PBFTCacheProcessor

/-- A proposal signed by three of the four nodes is accepted and prepared. -/
theorem showsPrepared_three :
    ShowsPrepared (fourNodes 0) (precommitOf 1 (signedProposal 1 7 [0, 1, 2])) := by
  refine (checkPrecommitMsg_showsPrepared_iff (s := .start Digest 0 (.block 0)) rfl).mpr ?_
  decide

/-- One signer that is listed three times is accepted for a quorum, and a proposal that is
prepared at one index is accepted at another one. -/
theorem checkPrecommitMsg_unsound :
    (acceptsPrecommit (precommitOf 1 (signedProposal 1 7 [0, 0, 0])) = true ∧
      ¬ ShowsPrepared (fourNodes 0) (precommitOf 1 (signedProposal 1 7 [0, 0, 0]))) ∧
    (acceptsPrecommit (precommitOf 2 (signedProposal 1 7 [0, 1, 2])) = true ∧
      ¬ ShowsPrepared (fourNodes 0) (precommitOf 2 (signedProposal 1 7 [0, 1, 2]))) := by
  refine ⟨⟨by decide +kernel, ?_⟩, by decide +kernel, ?_⟩
  · rintro ⟨proposal, hprop, hcertified, -⟩
    cases hprop
    exact absurd hcertified.weight_le (by decide +kernel)
  · rintro ⟨proposal, hprop, -, hindex, -⟩
    cases hprop
    exact absurd hindex (by decide)

end PBFTCacheProcessor

end FiscoSmart.Consensus
