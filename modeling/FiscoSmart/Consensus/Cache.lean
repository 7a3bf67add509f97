import FiscoSmart.Consensus.Messages
import FiscoSmart.Support.SortedMap

/-!
# The cache of one proposal

`PBFTCache` collects the messages for one index: the accepted pre-prepare, the
prepare and commit messages by hash and sender, and the proposal that has been
prepared.  Messages are collected under the hash in their fields, while a proof
is built from the signatures of the proposals inside them.
-/

namespace FiscoSmart.Consensus

open Support

variable {Hash : Type}

variable (Hash) in
/-- `CollectionCacheType` with its `QuorumRecoderType`; a hash without messages is one
the maps do not hold. -/
structure Collection where
  requests : Hash → SortedMap IndexType (PBFTMessage Hash)
  weights : Hash → Option (BitVec 64)

namespace Collection

def empty : Collection Hash := ⟨fun _ => .empty, fun _ => none⟩

variable [DecidableEq Hash] (nodes : ConsensusNodeList) (c : Collection Hash)

/-- `PBFTCache::addCache` for the cache of `index`. -/
def addCache (index : BlockNumber) (msg : PBFTMessage Hash) : Collection Hash :=
  if msg.index ≠ index then c
  else if ((c.requests msg.hash).find? msg.generatedFrom).isSome then c
  else match getConsensusNodeByIndex nodes msg.generatedFrom with
  | none => c
  | some nodeInfo =>
    { requests := Function.update c.requests msg.hash
        ((c.requests msg.hash).insert msg.generatedFrom msg)
      weights := Function.update c.weights msg.hash
        (some ((c.weights msg.hash).getD 0 + nodeInfo.weight)) }

/-- `PBFTCache::collectEnoughQuorum`. -/
def collectEnoughQuorum (hash : Hash) : Bool :=
  match c.weights hash with
  | none => false
  | some weight => minRequiredQuorum nodes ≤ weight

/-- `PBFTCache::resetCacheAfterViewChange`. -/
def resetCacheAfterViewChange (curView : ViewType) : Collection Hash :=
  { c with requests := fun hash =>
      (c.requests hash).filter (fun _ msg => curView ≤ msg.view) }

/-- The sum of the weights of the senders in `PBFTCache::recalculateQuorum`. -/
def sendersWeight (requests : SortedMap IndexType (PBFTMessage Hash)) : BitVec 64 :=
  wordSum (requests.toList.filterMap
    (fun b => (getConsensusNodeByIndex nodes b.2.generatedFrom).map ConsensusNode.weight))

/-- `PBFTCache::recalculateQuorum`. -/
def recalculateQuorum : Collection Hash :=
  { c with weights := fun hash =>
      if (c.requests hash).toList = [] then none
      else some (sendersWeight nodes (c.requests hash)) }

/-- The signatures that `PBFTCache::setSignatureList` takes from the messages collected
under a hash; each of them has a proposal. -/
def signatureList (hash : Hash) : List (IndexType × Bytes) :=
  (c.requests hash).toList.map
    (fun b => (b.1, (b.2.consensusProposal.map PBFTProposal.signature).getD []))

end Collection

variable (Hash) in
/-- The variables of `PBFTConfig` that change while the node runs; the proposal the node
has committed last is given by its index and hash. -/
structure PBFTConfig where
  view : ViewType
  toView : ViewType
  timeoutState : Bool
  startRecovered : Bool
  committedIndex : BlockNumber
  committedHash : Hash
  progressedIndex : BlockNumber
  expectedCheckPoint : BlockNumber
  lowWaterMark : BlockNumber
  syncingHighestNumber : BlockNumber
  waitSealUntil : BlockNumber
  waitResealUntil : BlockNumber

variable (Hash) in
structure PBFTCache where
  index : BlockNumber
  submitted : Bool
  stableCommitted : Bool
  precommitted : Bool
  prepares : Collection Hash
  commits : Collection Hash
  prePrepare : Option (PBFTMessage Hash)
  precommit : Option (PBFTMessage Hash)
  precommitWithoutData : Option (PBFTMessage Hash)
  checkpointProposal : Option (PBFTProposal Hash)

namespace PBFTCache

/-- The cache that `PBFTCacheFactory::createPBFTCache` makes. -/
def create (index : BlockNumber) : PBFTCache Hash where
  index
  submitted := false
  stableCommitted := false
  precommitted := false
  prepares := .empty
  commits := .empty
  prePrepare := none
  precommit := none
  precommitWithoutData := none
  checkpointProposal := none

variable [DecidableEq Hash] (env : Env Hash) (config : PBFTConfig Hash) (cache : PBFTCache Hash)

def existPrePrepare (msg : PBFTMessage Hash) : Bool :=
  match cache.prePrepare with
  | none => false
  | some prePrepare => msg.hash = prePrepare.hash ∧ msg.view ≤ prePrepare.view

def conflictWithProcessedReq (msg : PBFTMessage Hash) : Bool :=
  if cache.submitted ∨ cache.stableCommitted then true
  else if msg.view < config.view then true
  else match cache.prePrepare with
  | none => false
  | some prePrepare =>
    -- expired msg
    if msg.view < prePrepare.view then true
    -- conflict msg
    else if msg.view = prePrepare.view then msg.hash ≠ prePrepare.hash
    else false

def conflictWithPrecommitReq (msg : PBFTMessage Hash) : Bool :=
  match cache.precommit with
  | none => false
  | some precommit =>
    if precommit.index < config.progressedIndex then false
    else msg.index = precommit.index ∧ msg.hash ≠ precommit.hash

def addPrepareCache (msg : PBFTMessage Hash) : PBFTCache Hash :=
  { cache with prepares := cache.prepares.addCache env.consensusNodeList cache.index msg }

def addCommitCache (msg : PBFTMessage Hash) : PBFTCache Hash :=
  { cache with commits := cache.commits.addCache env.consensusNodeList cache.index msg }

/-- The proposals inside two messages have the same hash. -/
def sameProposal (msg msg' : PBFTMessage Hash) : Bool :=
  msg.consensusProposal.map PBFTProposal.hash = msg'.consensusProposal.map PBFTProposal.hash

def addPrePrepareCache (msg : PBFTMessage Hash) : PBFTCache Hash :=
  if cache.stableCommitted then cache
  else match cache.checkpointProposal, cache.prePrepare with
  | some _, some prePrepare =>
    if sameProposal msg prePrepare then { cache with prePrepare := some msg } else cache
  | _, _ => { cache with prePrepare := some msg }

/-- `checkPrePrepareProposalStatus` with the quorum of the pre-prepared hash. -/
def collectEnough (c : Collection Hash) : Bool :=
  match cache.prePrepare with
  | none => false
  | some prePrepare =>
    prePrepare.view = config.view ∧ c.collectEnoughQuorum env.consensusNodeList prePrepare.hash

/-- The message that `PBFTCache::intoPrecommit` makes of the pre-prepare: the node is its
sender now, and its proposal has the signatures collected under the proposal's hash. -/
def precommitOf (prePrepare : PBFTMessage Hash) (proposal : PBFTProposal Hash) :
    PBFTMessage Hash :=
  { prePrepare with
    generatedFrom := env.nodeIndex
    consensusProposal := some { proposal with
      signatureProof := cache.prepares.signatureList proposal.hash } }

/-- `PBFTMessage::populateWithoutProposal`, with the proposal without its data. -/
def withoutData (precommit : PBFTMessage Hash) : PBFTMessage Hash :=
  { precommit with
    packetType := .prePreparePacket
    consensusProposal := precommit.consensusProposal.map PBFTProposal.withoutData
    signatureData := [] }

/-- `PBFTCache::intoPrecommit`; the pre-prepare and the precommit are one message. -/
def intoPrecommit (precommit : PBFTMessage Hash) : PBFTCache Hash :=
  { cache with
    prePrepare := some precommit
    precommit := some precommit
    precommitWithoutData := some (withoutData precommit) }

/-- `PBFTCache::checkAndPreCommit` up to the check whether the proposal is committed: the
cache and the messages it has precommitted and broadcast. -/
def tryPreCommit : Option (PBFTCache Hash × PBFTMessage Hash × PBFTMessage Hash) :=
  if cache.precommitted then none
  else match cache.prePrepare with
  | none => none
  | some prePrepare =>
    -- avoid to intoPrecommit when in timeout state
    if config.timeoutState then none
    else if cache.precommit.any (fun precommit => prePrepare.view ≤ precommit.view) then none
    else if prePrepare.view ≠ config.view then none
    else if ¬ cache.collectEnough env config cache.prepares then none
    else match prePrepare.consensusProposal with
    | none => none
    | some proposal =>
      let precommit := cache.precommitOf env prePrepare proposal
      let commitReq := env.encode (env.populateFrom .commitPacket config.view proposal.withoutData)
      let cache := (cache.intoPrecommit precommit).addCommitCache env commitReq
      some ({ cache with precommitted := true }, precommit, commitReq)

/-- `PBFTCache::checkAndCommit`: the proposal that is committed. -/
def tryCommit : Option (PBFTMessage Hash) :=
  if config.timeoutState then none
  else if cache.submitted then none
  else match cache.precommit with
  | none => none
  | some precommit =>
    if precommit.view ≠ config.view then none
    else if ¬ cache.collectEnough env config cache.commits then none
    else some precommit

def resetCache (curView : ViewType) : PBFTCache Hash :=
  let prePrepare :=
    match cache.precommit, cache.prePrepare with
    | none, some prePrepare =>
      if prePrepare.consensusProposal.isSome ∧ prePrepare.view < curView then none
      else some prePrepare
    | _, prePrepare => prePrepare
  { cache with
    submitted := false
    precommitted := false
    prePrepare
    prepares := (cache.prepares.resetCacheAfterViewChange curView).recalculateQuorum
      env.consensusNodeList
    commits := (cache.commits.resetCacheAfterViewChange curView).recalculateQuorum
      env.consensusNodeList }

end PBFTCache

end FiscoSmart.Consensus
