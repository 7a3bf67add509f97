import FiscoSmart.Consensus.Cache

/-!
# The caches of a node

`PBFTCacheProcessor` keeps the caches of all indices, the view-change messages and
the proposals on their way through execution.  Its calls change the state of the node
and report what the node sends and decides as events.
-/

namespace FiscoSmart.Consensus

open Support Function

/-- How a handler ends early: a block does not decode, a pointer is null, a key is
missing. -/
inductive Fault
  | decodeFailed
  | nullPointer
  | outOfRange
deriving DecidableEq, Repr

variable {Hash : Type}

variable (Hash) in
/-- What a node does that others or its own execution see: a packet it sends, the message
`intoPrecommit` has made, the proposal for which `checkAndCommit` has succeeded in the
cache of an index, a proposal handed to `updateCommitQueue`. -/
inductive Event
  | sent (packet : Packet Hash)
  | precommitted (msg : PBFTMessage Hash)
  | committed (index : BlockNumber) (proposal : PBFTProposal Hash)
  | queued (proposal : PBFTProposal Hash)
deriving DecidableEq

variable (Hash) in
/-- The state of a node: the variables of `PBFTConfig` and `PBFTCacheProcessor`, the calls
that wait for an answer, and the events so far, the last one first. -/
structure PBFTEngine where
  config : PBFTConfig Hash
  caches : SortedMap BlockNumber (PBFTCache Hash)
  viewChangeCache : SortedMap ViewType (SortedMap IndexType (ViewChangeMsg Hash))
  viewChangeWeight : ViewType → Option (BitVec 64)
  maxCommittedIndex : ViewType → Option BlockNumber
  maxPrecommitIndex : ViewType → Option BlockNumber
  newViewGenerated : Bool
  committedQueue : List (PBFTProposal Hash)
  executingProposals : List (Hash × BlockNumber)
  committedProposalList : List BlockNumber
  stableCheckPointQueue : List (PBFTProposal Hash)
  recoverReqCache : SortedMap ViewType (SortedMap IndexType (PBFTMessage Hash))
  recoverCacheWeight : SortedMap ViewType (BitVec 64)
  -- pre-prepares in `verifyProposal`, with `_generatedFromNewView`
  verifying : List (PBFTMessage Hash × Bool)
  -- pre-prepares whose data has been asked for
  precommitRequests : List (PBFTMessage Hash)
  -- proposals in `asyncApply`
  applying : List (PBFTProposal Hash)
  -- checkpoints in `asyncCommitStableCheckPoint`
  committing : List (PBFTProposal Hash)
  events : List (Event Hash)

abbrev EngineM (Hash : Type) := EStateM Fault (PBFTEngine Hash)

/-! ## The configuration -/

namespace PBFTConfig

variable (config : PBFTConfig Hash)

def resetToView : PBFTConfig Hash :=
  { config with toView := config.view, timeoutState := false }

def resetNewViewState (view : ViewType) : PBFTConfig Hash :=
  if view < config.view then config
  else { config with startRecovered := true, timeoutState := false, view, toView := view }

def setWaitSealUntil (index : BlockNumber) : PBFTConfig Hash :=
  { config with waitSealUntil := max config.waitSealUntil index }

end PBFTConfig

/-! ## Changing the state -/

def emit (event : Event Hash) : EngineM Hash Unit :=
  modify (fun s => { s with events := event :: s.events })

def modifyConfig (f : PBFTConfig Hash → PBFTConfig Hash) : EngineM Hash Unit :=
  modify (fun s => { s with config := f s.config })

namespace PBFTEngine

variable (s : PBFTEngine Hash)

/-- The cache of an index, made if it does not exist. -/
def cacheAt (index : BlockNumber) : PBFTCache Hash :=
  (s.caches.find? index).getD (.create index)

def withCache (index : BlockNumber) (cache : PBFTCache Hash) : PBFTEngine Hash :=
  { s with caches := s.caches.insert index cache }

def indices : List BlockNumber := s.caches.toList.map Prod.fst

end PBFTEngine

variable [DecidableEq Hash] (env : Env Hash)

namespace PBFTCacheProcessor

/-- `PBFTCacheProcessor::addCache`: let the handler change the cache of an index. -/
def addCache (index : BlockNumber) (handler : PBFTCache Hash → PBFTCache Hash) :
    EngineM Hash Unit :=
  modify (fun s => s.withCache index (handler (s.cacheAt index)))

def existPrePrepare (s : PBFTEngine Hash) (msg : PBFTMessage Hash) : Bool :=
  (s.caches.find? msg.index).any (·.existPrePrepare msg)

def conflictWithProcessedReq (s : PBFTEngine Hash) (msg : PBFTMessage Hash) : Bool :=
  (s.caches.find? msg.index).any (·.conflictWithProcessedReq s.config msg)

def conflictWithPrecommitReq (s : PBFTEngine Hash) (msg : PBFTMessage Hash) : Bool :=
  (s.caches.find? msg.index).any (·.conflictWithPrecommitReq s.config msg)

/-- `PBFTCacheProcessor::tryToFillProposal`: the pre-prepare with the data of the
precommit of its index and hash. -/
def tryToFillProposal (s : PBFTEngine Hash) (prePrepare : PBFTMessage Hash) :
    Option (PBFTMessage Hash) :=
  match (s.caches.find? prePrepare.index).bind PBFTCache.precommit with
  | none => none
  | some precommit =>
    if precommit.hash = prePrepare.hash ∧ precommit.index = prePrepare.index then
      some { prePrepare with
        consensusProposal := prePrepare.consensusProposal.map (fun proposal =>
          { proposal with
            data := (precommit.consensusProposal.map PBFTProposal.data).getD [] }) }
    else none

/-! ## Execution -/

/-- The queue of proposals with one more, the smallest index first. -/
def push (proposal : PBFTProposal Hash) : List (PBFTProposal Hash) → List (PBFTProposal Hash)
  | [] => [proposal]
  | p :: queue =>
    if proposal.index < p.index then proposal :: p :: queue else p :: push proposal queue

/-- `PBFTCacheProcessor::getAppliedCheckPointProposal`, whether there is one. -/
def appliedCheckPointProposal (s : PBFTEngine Hash) (index : BlockNumber) : Bool :=
  index = s.config.committedIndex ∨
    ((s.caches.find? index).bind PBFTCache.checkpointProposal).isSome

def tryToApplyCommitQueue : EngineM Hash Bool := do
  modify (fun s => { s with
    committedQueue := s.committedQueue.dropWhile (·.index < s.config.expectedCheckPoint) })
  let s ← get
  match s.committedQueue with
  | [] => return false
  | proposal :: queue =>
    if proposal.index ≠ s.config.expectedCheckPoint then return false
    -- must wait for the sys-proposal committed to execute new proposal
    else if s.config.committedIndex <
        min (s.config.expectedCheckPoint - 1) s.config.waitSealUntil then return false
    else if ¬ appliedCheckPointProposal s (s.config.expectedCheckPoint - 1) then return false
    else if s.executingProposals.any (fun e => e.1 = proposal.hash) then return false
    else
      set { s with
        committedQueue := queue
        executingProposals := (proposal.hash, proposal.index) :: s.executingProposals
        applying := proposal :: s.applying }
      return true

def updateCommitQueue (proposal : PBFTProposal Hash) : EngineM Hash Unit := do
  emit (.queued proposal)
  let s ← get
  if s.executingProposals.any (fun e => e.1 = proposal.hash) then return ()
  else
    set { s with
      committedQueue := push proposal s.committedQueue
      committedProposalList := proposal.index :: s.committedProposalList
      config := if proposal.systemProposal then s.config.setWaitSealUntil proposal.index
        else s.config }
    discard tryToApplyCommitQueue

/-! ## Precommit and commit -/

/-- The body of the loop of `PBFTCacheProcessor::checkAndCommit`. -/
def checkAndCommitAt (index : BlockNumber) : EngineM Hash Unit := do
  let s ← get
  match s.caches.find? index with
  | none => return ()
  | some cache =>
    match cache.tryCommit env s.config with
    | none => return ()
    | some precommit =>
      set (s.withCache index { cache with submitted := true })
      match precommit.consensusProposal with
      | none => throw .nullPointer
      | some proposal => do
        emit (.committed index proposal)
        updateCommitQueue proposal
        modifyConfig PBFTConfig.resetToView

def checkAndCommit : EngineM Hash Unit := do
  (← get).indices.forM (checkAndCommitAt env)

/-- The body of the loop of `PBFTCacheProcessor::checkAndPreCommit`. -/
def checkAndPreCommitAt (index : BlockNumber) : EngineM Hash Unit := do
  let s ← get
  match s.caches.find? index with
  | none => return ()
  | some cache =>
    match cache.tryPreCommit env s.config with
    | none => return ()
    | some (cache, precommit, commitReq) => do
      set (s.withCache index cache)
      emit (.precommitted precommit)
      emit (.sent (.pbft commitReq))
      checkAndCommitAt env index

def checkAndPreCommit : EngineM Hash Unit := do
  (← get).indices.forM (checkAndPreCommitAt env)

/-! ## Checkpoints -/

/-- `PBFTCacheProcessor::tryToCommitStableCheckPoint`; the storage answers by
`finalizeConsensus` or `onStableCheckPointCommitFailed`. -/
def tryToCommitStableCheckPoint : EngineM Hash Unit :=
  modify (fun s =>
    let expired := s.stableCheckPointQueue.takeWhile (·.index ≤ s.config.committedIndex)
    let queue := s.stableCheckPointQueue.dropWhile (·.index ≤ s.config.committedIndex)
    let committedProposalList :=
      s.committedProposalList.filter (fun i => i ∉ expired.map PBFTProposal.index)
    match queue with
    | [] => { s with stableCheckPointQueue := [], committedProposalList }
    | proposal :: rest =>
      if proposal.index = s.config.committedIndex + 1 then
        { s with
          stableCheckPointQueue := rest
          committedProposalList := committedProposalList.filter (· ≠ proposal.index)
          committing := proposal :: s.committing }
      else { s with stableCheckPointQueue := proposal :: rest, committedProposalList })

/-! ## View changes -/

/-- The larger of an index that may be missing and another one. -/
def maxIndex (index : Option BlockNumber) (index' : BlockNumber) : Option BlockNumber :=
  some (index.elim index' (max index'))

def addViewChangeReq (viewChange : ViewChangeMsg Hash) : EngineM Hash Unit :=
  modify (fun s =>
    let view := viewChange.view
    let cache := (s.viewChangeCache.find? view).getD .empty
    if (cache.find? viewChange.generatedFrom).isSome then s
    else match env.node viewChange.generatedFrom with
    | none => s
    | some nodeInfo =>
      { s with
        viewChangeCache := s.viewChangeCache.insert view
          (cache.insert viewChange.generatedFrom viewChange)
        viewChangeWeight := update s.viewChangeWeight view
          (some ((s.viewChangeWeight view).getD 0 + nodeInfo.weight))
        maxCommittedIndex := update s.maxCommittedIndex view
          (maxIndex (s.maxCommittedIndex view) viewChange.committedProposal.index)
        maxPrecommitIndex := update s.maxPrecommitIndex view
          ((viewChange.preparedProposals.map (·.index)).foldl maxIndex
            (s.maxPrecommitIndex view)) })

/-- The sum of the weights of the senders in
`PBFTCacheProcessor::reCalculateViewChangeWeight`. -/
def viewChangesWeight (cache : SortedMap IndexType (ViewChangeMsg Hash)) : BitVec 64 :=
  wordSum (cache.toList.filterMap (fun b => (env.node b.2.generatedFrom).map ConsensusNode.weight))

def reCalculateViewChangeWeight (s : PBFTEngine Hash) : PBFTEngine Hash :=
  let counted (view : ViewType) : List (ViewChangeMsg Hash) :=
    (((s.viewChangeCache.find? view).getD .empty).toList.map Prod.snd).filter
      (fun viewChange => (env.node viewChange.generatedFrom).isSome)
  { s with
    viewChangeWeight := fun view =>
      match s.viewChangeCache.find? view with
      | none => s.viewChangeWeight view
      | some cache => some (viewChangesWeight env cache)
    maxCommittedIndex := fun view =>
      ((counted view).map (·.committedProposal.index)).foldl maxIndex none
    maxPrecommitIndex := fun view =>
      ((counted view).flatMap (fun viewChange =>
        viewChange.preparedProposals.map (·.index))).foldl maxIndex none }

def removeInvalidViewChange (view : ViewType) (latestCommittedProposal : BlockNumber) :
    EngineM Hash Unit :=
  modify (fun s => reCalculateViewChangeWeight env { s with
    viewChangeCache := (s.viewChangeCache.filter (fun v _ => view < v)).map
      (·.filter (fun _ viewChange => latestCommittedProposal ≤ viewChange.index))
    viewChangeWeight := fun v =>
      if v ≤ view ∧ (s.viewChangeCache.find? v).isSome then none
      else s.viewChangeWeight v })

def removeInvalidRecoverCache (view : ViewType) : EngineM Hash Unit :=
  modify (fun s => { s with
    recoverReqCache := s.recoverReqCache.filter (fun v _ => view < v)
    recoverCacheWeight := s.recoverCacheWeight.filter (fun v _ =>
      view < v ∨ (s.recoverReqCache.find? v).isNone) })

def resetCacheAfterViewChange (view : ViewType) (latestCommittedProposal : BlockNumber) :
    EngineM Hash Unit := do
  modify (fun s => { s with
    caches := s.caches.map (·.resetCache env view)
    newViewGenerated := false })
  removeInvalidViewChange env view latestCommittedProposal
  removeInvalidRecoverCache view

/-- One prepared proposal of a view-change message in the loop of
`PBFTCacheProcessor::generatePrePrepareMsg`. -/
def collectPrepared (maxCommittedIndex : BlockNumber) (generatedFrom : IndexType)
    (prepared : SortedMap BlockNumber (PBFTMessage Hash)) (proposal : PBFTMessage Hash) :
    SortedMap BlockNumber (PBFTMessage Hash) :=
  -- invalid precommit proposal
  if proposal.index < maxCommittedIndex then prepared
  else match prepared.find? proposal.index with
  | some precommitProposal =>
    if (precommitProposal.index ≠ proposal.index ∨ precommitProposal.hash ≠ proposal.hash) ∧
        precommitProposal.view < proposal.view then
      -- newer precommit proposal
      prepared.insert proposal.index proposal
    else prepared
  | none => prepared.insert proposal.index { proposal with generatedFrom }

/-- The prepared proposals that `PBFTCacheProcessor::generatePrePrepareMsg` collects from
the view-change messages. -/
def preparedProposals (maxCommittedIndex : BlockNumber)
    (viewChangeCache : SortedMap IndexType (ViewChangeMsg Hash)) :
    SortedMap BlockNumber (PBFTMessage Hash) :=
  viewChangeCache.toList.foldl (fun prepared b =>
    b.2.preparedProposals.foldl (collectPrepared maxCommittedIndex b.2.generatedFrom)
      prepared) .empty

/-- The largest committed index that the view-change messages for `toView` name. -/
def maxCommitted (s : PBFTEngine Hash) : BlockNumber :=
  (s.maxCommittedIndex s.config.toView).getD s.config.committedIndex

/-- The largest prepared index that the view-change messages for `toView` name, unless the
node waits for an earlier system proposal. -/
def maxPrecommit (s : PBFTEngine Hash) : BlockNumber :=
  let index := (s.maxPrecommitIndex s.config.toView).getD s.config.committedIndex
  -- should not handle the proposal future than the system proposal
  if s.config.committedIndex < s.config.waitSealUntil then min s.config.waitSealUntil index
  else index

/-- The pre-prepare message of one index in `PBFTCacheProcessor::generatePrePrepareMsg`. -/
def prePrepareOf (toView : ViewType) (prepared : SortedMap BlockNumber (PBFTMessage Hash))
    (index : BlockNumber) : Except Fault (PBFTMessage Hash) :=
  match prepared.find? index with
  | some msg =>
    match msg.consensusProposal with
    | none => .error .nullPointer
    | some proposal => .ok (populatePrePrepare proposal toView msg.generatedFrom)
  -- empty prePrepare
  | none => .ok (populatePrePrepare (env.generateEmptyProposal index) toView env.nodeIndex)

def generatePrePrepareMsg (s : PBFTEngine Hash)
    (viewChangeCache : SortedMap IndexType (ViewChangeMsg Hash)) :
    Except Fault (List (PBFTMessage Hash)) :=
  let prepared := preparedProposals (maxCommitted s) viewChangeCache
  (List.range (maxPrecommit s - maxCommitted s).toNat).mapM
    (fun i : ℕ => prePrepareOf env s.config.toView prepared (maxCommitted s + 1 + i))

/-- `PBFTConfig::leaderAfterViewChange`. -/
def leaderAfterViewChange (s : PBFTEngine Hash) : Bool :=
  env.nodeIndex = env.leaderIndexInNewViewPeriod s.config.progressedIndex s.config.toView

def checkAndTryIntoNewView : EngineM Hash (Option (NewViewMsg Hash)) := do
  let s ← get
  -- in syncing mode, no need to try into the newView period
  if s.config.committedIndex < s.config.syncingHighestNumber then return none
  else if s.newViewGenerated ∨ ¬ leaderAfterViewChange env s then return none
  else match s.viewChangeWeight s.config.toView with
  | none => return none
  | some weight =>
    if weight < minRequiredQuorum env.consensusNodeList then return none
    else
      let viewChangeCache := (s.viewChangeCache.find? s.config.toView).getD .empty
      match generatePrePrepareMsg env s viewChangeCache with
      | .error e => throw e
      | .ok prePrepareList => do
        let newViewMsg := env.encodeNewView {
          index := s.config.committedIndex
          hash := s.config.committedHash
          view := s.config.toView
          generatedFrom := env.nodeIndex
          viewChangeMsgList := viewChangeCache.toList.map Prod.snd
          prePrepareList }
        emit (.sent (.newView newViewMsg))
        modify (fun s => { s with newViewGenerated := true })
        return some newViewMsg

def checkPrecommitMsg (precommitMsg : PBFTMessage Hash) : EngineM Hash Bool := do
  let s ← get
  -- the first started node no need to check the view
  if s.config.startRecovered ∧ s.config.toView < precommitMsg.view then return false
  else match precommitMsg.consensusProposal with
  | none => return false
  | some proposal =>
    if env.checkPrecommitWeight proposal then return true
    else match (s.caches.find? precommitMsg.index).bind PBFTCache.precommit with
    | none => return false
    | some precommit =>
      -- erase the cache
      if precommit.hash = precommitMsg.hash ∧
          ¬ precommit.consensusProposal.any env.checkPrecommitWeight then do
        modify (fun s => { s with caches := s.caches.erase precommit.index })
        return false
      else return false

/-- One cache in the loop of `PBFTCacheProcessor::preCommitCachesWithoutData` is kept. -/
def keepsPrecommit (config : PBFTConfig Hash) (cache : PBFTCache Hash) : Bool :=
  match cache.precommitWithoutData with
  | none => true
  | some precommit =>
    ¬ (config.committedIndex < config.waitSealUntil ∧ config.waitSealUntil < precommit.index)

def preCommitCachesWithoutData : EngineM Hash (List (PBFTMessage Hash)) := do
  modify (fun s => { s with
    caches := s.caches.filter (fun _ cache => keepsPrecommit s.config cache) })
  return (← get).caches.toList.filterMap (fun b => b.2.precommitWithoutData)

end PBFTCacheProcessor

end FiscoSmart.Consensus
