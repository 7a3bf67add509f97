import FiscoSmart.Consensus.CacheProcessor
import FiscoSmart.Support.Runs

/-!
# The consensus engine

How `PBFTEngine` checks the pre-prepare, view-change and new-view messages of the other nodes,
and what it does with the proposals of a new view.  The state after a call is the one the
call leaves, also when it throws.
-/

namespace FiscoSmart.Consensus

open Support PBFTCacheProcessor

variable {Hash : Type}

variable [DecidableEq Hash] (env : Env Hash)

namespace PBFTEngine

/-! ## Checks -/

/-- `PBFTConfig::leaderIndex`. -/
def leaderIndex (s : PBFTEngine Hash) (proposalIndex : BlockNumber) : IndexType :=
  env.leaderIndexInNewViewPeriod proposalIndex s.config.view

def isSyncingHigher (s : PBFTEngine Hash) : Bool :=
  s.config.committedIndex + env.waterMarkLimit ≤ s.config.syncingHighestNumber

def checkPBFTMsgState (s : PBFTEngine Hash) (msg : PBFTMessage Hash) : Bool :=
  if msg.consensusProposal.isNone then false
  else if msg.index < s.config.lowWaterMark ∨ msg.index < s.config.expectedCheckPoint ∨
      msg.index ≤ s.config.syncingHighestNumber ∨ msg.index ∈ s.committedProposalList then
    false
  else s.config.view ≤ msg.view

def checkPrePrepareMsg (s : PBFTEngine Hash) (msg : PBFTMessage Hash) : Bool :=
  checkPBFTMsgState s msg ∧ ¬ existPrePrepare s msg ∧ ¬ conflictWithProcessedReq s msg ∧
    ¬ conflictWithPrecommitReq s msg

/-- The checks of `PBFTEngine::handlePrePrepareMsg` before the message is cached or
verified. -/
def acceptsPrePrepare (s : PBFTEngine Hash) (msg : PBFTMessage Hash)
    (generatedFromNewView needCheckSignature : Bool) : Bool :=
  ¬ isSyncingHigher env s ∧ ¬ s.executingProposals.any (fun e => e.1 = msg.hash) ∧
    checkPrePrepareMsg s msg ∧
    (generatedFromNewView ∨ (leaderIndex env s msg.index = msg.generatedFrom ∧
      (needCheckSignature → env.checkSignature msg)))

/-! ## The three phases -/

/-- The message that `PBFTEngine::broadcastPrepareMsg` makes: the vote for the proposal
inside, in the view of the node. -/
def prepareMsgOf (view : ViewType) (msg : PBFTMessage Hash) (proposal : PBFTProposal Hash) :
    PBFTMessage Hash :=
  env.encode { env.populateFrom .preparePacket view proposal with index := msg.index }

def broadcastPrepareMsg (msg : PBFTMessage Hash) (proposal : PBFTProposal Hash) :
    EngineM Hash Unit := do
  let prepareMsg := prepareMsgOf env (← get).config.view msg proposal
  addCache prepareMsg.index (·.addPrepareCache env prepareMsg)
  emit (.sent (.pbft prepareMsg))
  checkAndPreCommit env

/-- `PBFTEngine::handlePrePrepareMsg` for a message that has been verified. -/
def enterPreparePhase (msg : PBFTMessage Hash) : EngineM Hash Unit :=
  match msg.consensusProposal with
  | none => throw .nullPointer
  | some proposal =>
    match env.createBlock proposal.data with
    | none => throw .decodeFailed
    | some _ => do
      addCache msg.index (·.addPrePrepareCache msg)
      broadcastPrepareMsg env msg proposal
      checkAndPreCommit env

/-- `PBFTEngine::handlePrePrepareMsg` for a message that is to be verified: the number in
the data must be the index, then the transaction pool is asked. -/
def verifyPrePrepare (msg : PBFTMessage Hash) (generatedFromNewView : Bool) :
    EngineM Hash Unit :=
  match msg.consensusProposal with
  | none => throw .nullPointer
  | some proposal =>
    match env.createBlock proposal.data with
    | none => throw .decodeFailed
    | some (number, _) => modify (fun s =>
      if number ≠ proposal.index then s
      else { s with verifying := (msg, generatedFromNewView) :: s.verifying })

def handlePrePrepareMsg (msg : PBFTMessage Hash)
    (needVerifyProposal generatedFromNewView needCheckSignature : Bool) :
    EngineM Hash Bool := do
  let s ← get
  if ¬ acceptsPrePrepare env s msg generatedFromNewView needCheckSignature then return false
  else if ¬ needVerifyProposal then
    enterPreparePhase env msg
    return true
  else if (env.node msg.generatedFrom).isNone then return false
  else
    verifyPrePrepare env msg generatedFromNewView
    return true

/-! ## View changes -/

def reachNewView (view : ViewType) : EngineM Hash Unit := do
  modifyConfig (·.resetNewViewState view)
  let s ← get
  resetCacheAfterViewChange env s.config.view s.config.committedIndex
  checkAndPreCommit env
  checkAndCommit env
  discard tryToApplyCommitQueue
  tryToCommitStableCheckPoint

/-- One pre-prepare message without data in the loop of
`PBFTEngine::reHandlePrePrepareProposals`. -/
def fillPrePrepare (prePrepare : PBFTMessage Hash) : EngineM Hash Unit := do
  match tryToFillProposal (← get) prePrepare with
  -- hit the cache
  | some prePrepare => discard (handlePrePrepareMsg env prePrepare true true false)
  -- miss the cache, request to from node
  | none =>
    if (env.node prePrepare.generatedFrom).isNone then throw .nullPointer
    else modify (fun s => { s with precommitRequests := prePrepare :: s.precommitRequests })

/-- The loop of `PBFTEngine::reHandlePrePrepareProposals`, with `maxProposalIndex`. -/
def reHandlePrePrepares : BlockNumber → List (PBFTMessage Hash) → EngineM Hash BlockNumber
  | maxProposalIndex, [] => return maxProposalIndex
  | maxProposalIndex, prePrepare :: prePrepareList =>
    match prePrepare.consensusProposal with
    | none => throw .nullPointer
    | some proposal =>
      if 0 < proposal.data.length then do
        discard (handlePrePrepareMsg env prePrepare true true false)
        reHandlePrePrepares maxProposalIndex prePrepareList
      else do
        fillPrePrepare env prePrepare
        reHandlePrePrepares (max maxProposalIndex prePrepare.index) prePrepareList

def reHandlePrePrepareProposals (newViewReq : NewViewMsg Hash) : EngineM Hash Unit := do
  reachNewView env newViewReq.view
  let maxProposalIndex ←
    reHandlePrePrepares env (← get).config.committedIndex newViewReq.prePrepareList
  modifyConfig (fun config =>
    if newViewReq.prePrepareList.length = 0 then config
    else { config with waitResealUntil := maxProposalIndex })

/-- `PBFTCacheProcessor::checkAndTryIntoNewView` and what its callers do with the
message. -/
def tryIntoNewView : EngineM Hash Unit := do
  match ← checkAndTryIntoNewView env with
  | none => return ()
  | some newViewMsg => reHandlePrePrepareProposals env newViewMsg

def generateViewChange : EngineM Hash (ViewChangePayload Hash) := do
  let preparedProposals ← preCommitCachesWithoutData
  let config := (← get).config
  return {
    index := config.committedIndex
    hash := config.committedHash
    view := config.toView
    generatedFrom := env.nodeIndex
    committedProposal := {
      index := config.committedIndex
      hash := config.committedHash
      data := []
      systemProposal := false
      signature := []
      signatureProof := [] }
    preparedProposals }

/-- `PBFTEngine::broadcastViewChangeReq`; `PBFTEngine::sendViewChange` does the same for
one peer. -/
def broadcastViewChangeReq : EngineM Hash Unit := do
  let viewChangeReq := env.encodeViewChange (← generateViewChange env)
  emit (.sent (.viewChange viewChangeReq))
  addViewChangeReq env viewChangeReq
  tryIntoNewView env

def sendRecoverResponse : EngineM Hash Unit := do
  let config := (← get).config
  emit (.sent (.pbft (env.encode {
    index := config.committedIndex
    hash := env.noHash
    view := config.view
    generatedFrom := env.nodeIndex
    packetType := .recoverResponse
    consensusProposal := none
    signatureData := [] })))

/-- The loop over the prepared proposals in `PBFTEngine::isValidViewChangeMsg`. -/
def checkPreparedProposals (view : ViewType) : List (PBFTMessage Hash) → EngineM Hash Bool
  | [] => return true
  | precommitMsg :: preparedProposals => do
    if view < precommitMsg.view then return false
    else if ← checkPrecommitMsg env precommitMsg then
      checkPreparedProposals view preparedProposals
    else return false

/-- What `PBFTEngine::isValidViewChangeMsg` sends to a node with an old view. -/
def answerViewChange (viewChangeMsg : ViewChangeMsg Hash) : EngineM Hash Unit := do
  let config := (← get).config
  if ¬ config.timeoutState then sendRecoverResponse env
  else if viewChangeMsg.view < config.view ∨
      (viewChangeMsg.view + 1) % 2 ^ 64 < config.toView then broadcastViewChangeReq env
  else return ()

/-- `PBFTEngine::isValidViewChangeMsg`, from a peer. -/
def isValidViewChangeMsg (viewChangeMsg : ViewChangeMsg Hash) : EngineM Hash Bool := do
  -- check the committed-proposal index
  if viewChangeMsg.committedProposal.index < (← get).config.committedIndex then return false
  else
    answerViewChange env viewChangeMsg
    let config := (← get).config
    if viewChangeMsg.view < config.view then return false
    -- check the committed proposal hash
    else if viewChangeMsg.committedProposal.index = config.committedIndex ∧
        viewChangeMsg.committedProposal.hash ≠ config.committedHash then return false
    else if ← checkPreparedProposals env viewChangeMsg.view viewChangeMsg.preparedProposals then
      return env.checkCarriedSignature viewChangeMsg.generatedFrom
        viewChangeMsg.signatureDataHash viewChangeMsg.signatureData
    else return false

/-- The loop over the view-change messages in `PBFTEngine::isValidNewViewMsg`: the sum of
the weights of their senders, unless one of them is not valid. -/
def viewChangeListWeight :
    BitVec 64 → List (ViewChangeMsg Hash) → EngineM Hash (Option (BitVec 64))
  | weight, [] => return some weight
  | weight, viewChangeReq :: viewChangeList => do
    if ← isValidViewChangeMsg env viewChangeReq then
      viewChangeListWeight (weight +
        ((env.node viewChangeReq.generatedFrom).map ConsensusNode.weight).getD 0) viewChangeList
    else return none

def isValidNewViewMsg (newViewMsg : NewViewMsg Hash) : EngineM Hash Bool := do
  if newViewMsg.view ≤ (← get).config.view then return false
  else match ← viewChangeListWeight env 0 newViewMsg.viewChangeMsgList with
  | none => return false
  | some weight =>
    if weight < minRequiredQuorum env.consensusNodeList then return false
    else
      return env.checkCarriedSignature newViewMsg.generatedFrom
        newViewMsg.signatureDataHash newViewMsg.signatureData

/-! ## A node that starts -/

variable (Hash) in
/-- A node that has no messages yet and knows the ledger up to a block. -/
def start (committedIndex : ℕ) (committedHash : Hash) : PBFTEngine Hash where
  config := {
    view := 0
    toView := 0
    timeoutState := true
    startRecovered := false
    committedIndex
    committedHash
    progressedIndex := committedIndex + 1
    expectedCheckPoint := committedIndex + 1
    lowWaterMark := committedIndex + 1
    syncingHighestNumber := 0
    waitSealUntil := 0
    waitResealUntil := 0 }
  caches := .empty
  viewChangeCache := .empty
  viewChangeWeight := fun _ => none
  maxCommittedIndex := fun _ => none
  maxPrecommitIndex := fun _ => none
  newViewGenerated := false
  committedQueue := []
  executingProposals := []
  committedProposalList := []
  stableCheckPointQueue := []
  recoverReqCache := .empty
  recoverCacheWeight := .empty
  verifying := []
  precommitRequests := []
  applying := []
  committing := []
  events := []

end PBFTEngine

end FiscoSmart.Consensus
