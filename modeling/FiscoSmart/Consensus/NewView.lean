import FiscoSmart.Consensus.PreparedProof

/-!
# What a new view rests on

A node enters a new view with a message that carries view-change messages of a quorum
and the proposals to prepare again.  `isValidNewViewMsg` checks each view-change message
by itself and the sum of the weights.  It does not ask who the sender is, for which
view the view-change messages are, whether a sender occurs twice, and what the
pre-prepare list has to do with the prepared proposals.
-/

namespace FiscoSmart.Consensus

open Support List

variable {Hash : Type}

/-- The prepared proposals that the view-change messages carry. -/
def carriedProposals (viewChanges : List (ViewChangeMsg Hash)) : List (PBFTMessage Hash) :=
  viewChanges.flatMap (·.preparedProposals)

/-- For every index of a carried proposal, a pre-prepare message proposes the hash of one
of the carried proposals of the highest view. -/
def ReproposesNewest (viewChanges : List (ViewChangeMsg Hash))
    (prePrepareList : List (PBFTMessage Hash)) : Prop :=
  ∀ msg ∈ carriedProposals viewChanges,
    ∃ prePrepare ∈ prePrepareList, ∃ proposal, prePrepare.index = msg.index ∧
      prePrepare.consensusProposal = some proposal ∧
      ∃ newest ∈ carriedProposals viewChanges, newest.index = msg.index ∧
        proposal.hash = newest.hash ∧
        ∀ msg' ∈ carriedProposals viewChanges, msg'.index = msg.index → msg'.view ≤ newest.view

def senders (viewChanges : List (ViewChangeMsg Hash)) : List IndexType :=
  viewChanges.map (·.generatedFrom)

section Justified

variable [DecidableEq Hash] (env : Env Hash)

/-- The view-change message is for the view and carries the hash of its content. -/
def matchesView (view : ViewType) (viewChange : ViewChangeMsg Hash) : Bool :=
  viewChange.view = view ∧
    viewChange.signatureDataHash = env.hashViewChange viewChange.toViewChangePayload

/-- The view-change message is for the view and its sender has signed its content. -/
def validForView (view : ViewType) (viewChange : ViewChangeMsg Hash) : Bool :=
  matchesView env view viewChange &&
    env.checkCarriedSignature viewChange.generatedFrom
      (env.hashViewChange viewChange.toViewChangePayload) viewChange.signatureData

/-- A new view with a quorum behind it: the leader of the view has signed the message, distinct
nodes of quorum weight have signed view-change messages for this view, and the newest of
the prepared proposals in these are proposed again. -/
structure NewViewJustified (progressedIndex : BlockNumber) (msg : NewViewMsg Hash) : Prop where
  leader : msg.generatedFrom = env.leaderIndexInNewViewPeriod progressedIndex msg.view
  authentic : SignedBy env.consensusNodeList env.verify (env.hashNewView msg.toNewViewPayload)
    (msg.generatedFrom, msg.signatureData)
  quorum : ∃ signers : Finset IndexType,
    (∀ i ∈ signers, ∃ viewChange ∈ msg.viewChangeMsgList,
      viewChange.generatedFrom = i ∧ validForView env msg.view viewChange = true) ∧
    (minRequiredQuorum env.consensusNodeList).toNat ≤ weightOf env.consensusNodeList signers
  newest : ReproposesNewest (msg.viewChangeMsgList.filter (validForView env msg.view))
    msg.prePrepareList

/-- The weight of the senders, each counted once. -/
def sendersWeight (viewChanges : List (ViewChangeMsg Hash)) : ℕ :=
  weightOf env.consensusNodeList (senders viewChanges).toFinset

theorem quorum_iff {viewChanges : List (ViewChangeMsg Hash)} {view : ViewType} {weight : ℕ} :
    (∃ signers : Finset IndexType, (∀ i ∈ signers, ∃ viewChange ∈ viewChanges,
        viewChange.generatedFrom = i ∧ validForView env view viewChange = true) ∧
      weight ≤ weightOf env.consensusNodeList signers) ↔
    weight ≤ sendersWeight env (viewChanges.filter (validForView env view)) := by
  constructor
  · rintro ⟨signers, hsigners, hweight⟩
    rw [sendersWeight, weightOf]
    refine hweight.trans (Finset.sum_le_sum_of_subset fun i hi => ?_)
    obtain ⟨viewChange, hmem, rfl, hvalid⟩ := hsigners i hi
    exact mem_toFinset.mpr (mem_map_of_mem (mem_filter.mpr ⟨hmem, hvalid⟩))
  · intro hweight
    refine ⟨_, fun i hi => ?_, hweight⟩
    obtain ⟨viewChange, hmem, rfl⟩ := mem_map.mp (mem_toFinset.mp hi)
    obtain ⟨hmem, hvalid⟩ := mem_filter.mp hmem
    exact ⟨viewChange, hmem, rfl, hvalid⟩

end Justified

theorem checkCarriedSignature_eq_true {env : Env Hash} {generatedFrom : IndexType}
    {hash : Hash} {signature : Bytes} :
    env.checkCarriedSignature generatedFrom hash signature = true ↔
      SignedBy env.consensusNodeList env.verify hash (generatedFrom, signature) := by
  rw [Env.checkCarriedSignature, SignedBy, Env.node]
  rcases getConsensusNodeByIndex env.consensusNodeList generatedFrom with - | nodeInfo
  · simp
  · simp

namespace PBFTEngine

variable [DecidableEq Hash] {env : Env Hash} {s s' : PBFTEngine Hash}

theorem isValidViewChangeMsg_signed {viewChange : ViewChangeMsg Hash}
    (h : Runs (isValidViewChangeMsg env viewChange) s true s') :
    env.checkCarriedSignature viewChange.generatedFrom viewChange.signatureDataHash
      viewChange.signatureData = true := by
  obtain ⟨s₀, s₁, -, h⟩ := h.of_bind
  split_ifs at h
  · cases h
  · obtain ⟨-, s₂, -, h⟩ := h.of_bind
    obtain ⟨s₃, s₄, -, h⟩ := h.of_bind
    dsimp only at h
    split_ifs at h
    · cases h
    · cases h
    · obtain ⟨prepared, s₅, -, h⟩ := h.of_bind
      rcases prepared with - | -
      · cases h
      · exact (h.unique .of_pure).1.symm

/-- Every view-change message of the list is signed over the hash it carries. -/
theorem viewChangeListWeight_signed {viewChanges : List (ViewChangeMsg Hash)}
    {start weight : BitVec 64}
    (h : Runs (viewChangeListWeight env start viewChanges) s (some weight) s') :
    ∀ viewChange ∈ viewChanges, env.checkCarriedSignature viewChange.generatedFrom
      viewChange.signatureDataHash viewChange.signatureData = true := by
  induction viewChanges generalizing start s with
  | nil => exact fun _ hmem => absurd hmem not_mem_nil
  | cons viewChange viewChanges ih =>
    obtain ⟨valid, s₁, hvalid, hrest⟩ := h.of_bind
    rcases valid with - | -
    · cases hrest
    · exact forall_mem_cons.mpr ⟨isValidViewChangeMsg_signed hvalid, ih hrest⟩

theorem isValidNewViewMsg_eq_true {msg : NewViewMsg Hash}
    (h : Runs (isValidNewViewMsg env msg) s true s') :
    (∀ viewChange ∈ msg.viewChangeMsgList, env.checkCarriedSignature viewChange.generatedFrom
      viewChange.signatureDataHash viewChange.signatureData = true) ∧
      SignedBy env.consensusNodeList env.verify msg.signatureDataHash
        (msg.generatedFrom, msg.signatureData) := by
  obtain ⟨s₀, s₁, -, hchecks⟩ := h.of_bind
  split_ifs at hchecks with hview
  · cases hchecks
  · obtain ⟨weight, s₂, hw, hrest⟩ := hchecks.of_bind
    rcases weight with - | weight
    · cases hrest
    · dsimp only at hrest
      split_ifs at hrest with hquorum
      · cases hrest
      · refine ⟨viewChangeListWeight_signed hw, ?_⟩
        rw [← checkCarriedSignature_eq_true]
        exact (hrest.unique .of_pure).1.symm

/-- An accepted message from the network has a quorum behind it exactly if its sender is
the leader of the view, the senders of those view-change messages that are for the view and
carry the hash of their content have the weight of a quorum, each counted once, and the
pre-prepare list proposes the newest prepared proposals of these messages. -/
theorem isValidNewViewMsg_justified_iff {msg : NewViewMsg Hash}
    (hdecoded : msg.signatureDataHash = env.hashNewView msg.toNewViewPayload)
    (h : Runs (isValidNewViewMsg env msg) s true s') :
    NewViewJustified env s.config.progressedIndex msg ↔
      msg.generatedFrom = env.leaderIndexInNewViewPeriod s.config.progressedIndex msg.view ∧
        (minRequiredQuorum env.consensusNodeList).toNat ≤
          sendersWeight env (msg.viewChangeMsgList.filter (matchesView env msg.view)) ∧
        ReproposesNewest (msg.viewChangeMsgList.filter (matchesView env msg.view))
          msg.prePrepareList := by
  obtain ⟨hsigned, hauthentic⟩ := isValidNewViewMsg_eq_true h
  rw [hdecoded] at hauthentic
  -- a message that matches is signed, because it is signed over the hash it carries
  have hfilter : msg.viewChangeMsgList.filter (validForView env msg.view) =
      msg.viewChangeMsgList.filter (matchesView env msg.view) := by
    refine filter_congr fun viewChange hmem => ?_
    rw [validForView]
    rcases hmatches : matchesView env msg.view viewChange with - | -
    · rfl
    · rw [Bool.true_and, ← (of_decide_eq_true hmatches).2]
      exact hsigned viewChange hmem
  constructor
  · intro hjustified
    have hquorum := (quorum_iff env).mp hjustified.quorum
    have hnewest := hjustified.newest
    rw [hfilter] at hquorum hnewest
    exact ⟨hjustified.leader, hquorum, hnewest⟩
  · rintro ⟨hleader, hquorum, hnewest⟩
    rw [← hfilter] at hquorum hnewest
    exact ⟨hleader, hauthentic, (quorum_iff env).mpr hquorum, hnewest⟩

/-! ## Messages without a quorum behind them -/

/-- The view-change message of a node for a view, with these prepared proposals. -/
def viewChangeOf (nodeIndex : IndexType) (view : ViewType)
    (preparedProposals : List (PBFTMessage Digest)) : ViewChangeMsg Digest :=
  (fourNodes nodeIndex).encodeViewChange {
    index := 0
    hash := .block 0
    view
    generatedFrom := nodeIndex
    committedProposal := ⟨0, .block 0, [], false, [], []⟩
    preparedProposals }

/-- The new-view message of a node for view 1. -/
def newViewOf (nodeIndex : IndexType) (viewChangeMsgList : List (ViewChangeMsg Digest))
    (prePrepareList : List (PBFTMessage Digest)) : NewViewMsg Digest :=
  (fourNodes nodeIndex).encodeNewView {
    index := 0
    hash := .block 0
    view := 1
    generatedFrom := nodeIndex
    viewChangeMsgList
    prePrepareList }

/-- Whether the first node accepts a new-view message when it starts. -/
def acceptsNewView (msg : NewViewMsg Digest) : Bool :=
  match isValidNewViewMsg (fourNodes 0) msg (start Digest 0 (.block 0)) with
  | .ok accepted _ => accepted
  | .error _ _ => false

/-- The block of a name at index 1, prepared by three nodes in view 0. -/
def preparedBlock (name : ℕ) : PBFTMessage Digest :=
  precommitOf 1 (signedProposal 1 name [0, 1, 3])

/-- The leader of view 1 with the view-change messages of three nodes, one of which has
prepared a block, a copy of one of them, and one for another view. -/
theorem newViewOf_justified : NewViewJustified (fourNodes 0) 1
      (newViewOf 2 [viewChangeOf 0 1 [preparedBlock 7], viewChangeOf 1 1 [],
        viewChangeOf 3 1 [], viewChangeOf 3 1 [], viewChangeOf 2 2 []] [preparedBlock 7]) := by
  have hrun : Runs (isValidNewViewMsg (fourNodes 0) (newViewOf 2
      [viewChangeOf 0 1 [preparedBlock 7], viewChangeOf 1 1 [], viewChangeOf 3 1 [],
        viewChangeOf 3 1 [], viewChangeOf 2 2 []]
      [preparedBlock 7])) (start Digest 0 (.block 0)) true (start Digest 0 (.block 0)) := rfl
  refine (isValidNewViewMsg_justified_iff rfl hrun).mpr ⟨by decide, by decide +kernel, ?_⟩
  intro msg hmem
  cases mem_singleton.mp hmem
  refine ⟨_, mem_singleton_self _, _, rfl, rfl, _, hmem, rfl, rfl, ?_⟩
  intro msg' hmem' _
  cases mem_singleton.mp hmem'
  exact le_rfl

/-- Each of the missing checks matters: a message of a node that is not the leader, three
copies of one view-change message, view-change messages for another view, and a pre-prepare
list without the prepared block are all accepted. -/
theorem isValidNewViewMsg_unjustified :
    (acceptsNewView (newViewOf 3 [viewChangeOf 0 1 [], viewChangeOf 1 1 [],
        viewChangeOf 2 1 []] []) = true ∧
      ¬ NewViewJustified (fourNodes 0) 1 (newViewOf 3 [viewChangeOf 0 1 [],
        viewChangeOf 1 1 [], viewChangeOf 2 1 []] [])) ∧
    (acceptsNewView (newViewOf 2 [viewChangeOf 3 1 [], viewChangeOf 3 1 [],
        viewChangeOf 3 1 []] []) = true ∧
      ¬ NewViewJustified (fourNodes 0) 1 (newViewOf 2 [viewChangeOf 3 1 [],
        viewChangeOf 3 1 [], viewChangeOf 3 1 []] [])) ∧
    (acceptsNewView (newViewOf 2 [viewChangeOf 0 2 [], viewChangeOf 1 2 [],
        viewChangeOf 3 2 []] []) = true ∧
      ¬ NewViewJustified (fourNodes 0) 1 (newViewOf 2 [viewChangeOf 0 2 [],
        viewChangeOf 1 2 [], viewChangeOf 3 2 []] [])) ∧
    (acceptsNewView (newViewOf 2 [viewChangeOf 0 1 [preparedBlock 7], viewChangeOf 1 1 [],
        viewChangeOf 3 1 []] []) = true ∧
      ¬ NewViewJustified (fourNodes 0) 1 (newViewOf 2 [viewChangeOf 0 1 [preparedBlock 7],
        viewChangeOf 1 1 [], viewChangeOf 3 1 []] [])) := by
  refine ⟨⟨by decide +kernel, ?_⟩, ⟨by decide +kernel, ?_⟩, ⟨by decide +kernel, ?_⟩,
    by decide +kernel, ?_⟩
  · intro hjustified
    exact absurd hjustified.leader (by decide)
  · intro hjustified
    exact absurd ((quorum_iff _).mp hjustified.quorum) (by decide +kernel)
  · intro hjustified
    exact absurd ((quorum_iff _).mp hjustified.quorum) (by decide +kernel)
  · intro hjustified
    obtain ⟨prePrepare, hmem, -⟩ := hjustified.newest (preparedBlock 7) (by decide +kernel)
    exact absurd hmem not_mem_nil

end PBFTEngine

end FiscoSmart.Consensus
