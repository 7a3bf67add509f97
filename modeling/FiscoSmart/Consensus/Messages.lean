import FiscoSmart.Consensus.Config

/-!
# Messages of the consensus

Every message starts with the fields of `BaseMessage`.  The signature of a
pre-prepare, prepare, commit or checkpoint message covers these fields only: neither
the proposal inside nor the packet type is signed with them.  The proposal has an
index, a hash and a signature of its own.
-/

namespace FiscoSmart.Consensus

/-- `ViewType`, a `uint64_t`. -/
abbrev ViewType := ℕ

/-- `BlockNumber`, an `int64_t`. -/
abbrev BlockNumber := ℤ

/-- The packet types whose messages have the fields of a `PBFTMessage`. -/
inductive PacketType
  | prePreparePacket
  | preparePacket
  | commitPacket
  | checkPoint
  | recoverRequest
  | recoverResponse
deriving DecidableEq, Repr

variable (Hash : Type)

/-- `PBFTProposal`: a block by its index and hash, with the encoded block, the signature
of the voter and the proof collected from the votes. -/
@[ext]
structure PBFTProposal where
  index : BlockNumber
  hash : Hash
  data : Bytes
  systemProposal : Bool
  signature : Bytes
  signatureProof : List (IndexType × Bytes)
deriving DecidableEq

/-- `BaseMessage`, without the version and the time. -/
@[ext]
structure BaseMessage where
  index : BlockNumber
  hash : Hash
  view : ViewType
  generatedFrom : IndexType
deriving DecidableEq

@[ext]
structure PBFTMessage extends BaseMessage Hash where
  packetType : PacketType
  consensusProposal : Option (PBFTProposal Hash)
  signatureData : Bytes
deriving DecidableEq

/-- The signed part of a view-change message. -/
@[ext]
structure ViewChangePayload extends BaseMessage Hash where
  committedProposal : PBFTProposal Hash
  preparedProposals : List (PBFTMessage Hash)
deriving DecidableEq

/-- `PBFTViewChangeMsg`.  The codec computes `signatureDataHash` for a message it
receives; a message inside another one carries it. -/
@[ext]
structure ViewChangeMsg extends ViewChangePayload Hash where
  signatureDataHash : Hash
  signatureData : Bytes
deriving DecidableEq

/-- The signed part of a new-view message. -/
@[ext]
structure NewViewPayload extends BaseMessage Hash where
  viewChangeMsgList : List (ViewChangeMsg Hash)
  prePrepareList : List (PBFTMessage Hash)
deriving DecidableEq

/-- `PBFTNewViewMsg`. -/
@[ext]
structure NewViewMsg extends NewViewPayload Hash where
  signatureDataHash : Hash
  signatureData : Bytes
deriving DecidableEq

/-- A packet of one of the handled types. -/
inductive Packet
  | pbft (msg : PBFTMessage Hash)
  | viewChange (msg : ViewChangeMsg Hash)
  | newView (msg : NewViewMsg Hash)
deriving DecidableEq

/-- What a node is started with and does not change: the consensus nodes and its own
place among them, the parameters of the protocol, the signature scheme with its own
key, the hash function on the encodings of messages, the decoder of blocks with the
number and the hash of the header fields, and the empty block of a number with its hash. -/
structure Env where
  consensusNodeList : ConsensusNodeList
  nodeIndex : IndexType
  leaderSwitchPeriod : ℕ
  waterMarkLimit : ℤ
  verify : Bytes → Hash → Bytes → Bool
  sign : Hash → Bytes
  hashFields : BaseMessage Hash → Hash
  hashViewChange : ViewChangePayload Hash → Hash
  hashNewView : NewViewPayload Hash → Hash
  noHash : Hash
  createBlock : Bytes → Option (BlockNumber × Hash)
  emptyBlock : BlockNumber → Bytes × Hash

variable {Hash}

namespace Env

variable (env : Env Hash)

/-- `ConsensusConfig::getConsensusNodeByIndex`. -/
def node (nodeIndex : IndexType) : Option ConsensusNode :=
  getConsensusNodeByIndex env.consensusNodeList nodeIndex

/-- `PBFTConfig::leaderIndexInNewViewPeriod`, in `uint64_t`. -/
def leaderIndexInNewViewPeriod (proposalIndex : BlockNumber) (view : ViewType) :
    IndexType :=
  ((proposalIndex % 2 ^ 64).toNat / env.leaderSwitchPeriod + view) % 2 ^ 64 %
    env.consensusNodeList.length

/-- `PBFTMessage::encode`: the message with the signature over its fields. -/
def encode (msg : PBFTMessage Hash) : PBFTMessage Hash :=
  { msg with signatureData := env.sign (env.hashFields msg.toBaseMessage) }

/-- `PBFTCodec::encode` of a view-change message. -/
def encodeViewChange (payload : ViewChangePayload Hash) : ViewChangeMsg Hash :=
  { payload with
    signatureDataHash := env.hashViewChange payload
    signatureData := env.sign (env.hashViewChange payload) }

/-- `PBFTCodec::encode` of a new-view message. -/
def encodeNewView (payload : NewViewPayload Hash) : NewViewMsg Hash :=
  { payload with
    signatureDataHash := env.hashNewView payload
    signatureData := env.sign (env.hashNewView payload) }

/-- `PBFTMessageFactory::populateFrom` of a vote: the fields of the proposal and its
signed hash. -/
def populateFrom (packetType : PacketType) (view : ViewType)
    (proposal : PBFTProposal Hash) : PBFTMessage Hash where
  index := proposal.index
  hash := proposal.hash
  view
  generatedFrom := env.nodeIndex
  packetType
  consensusProposal := some {
    index := proposal.index
    hash := proposal.hash
    data := []
    systemProposal := false
    signature := env.sign proposal.hash
    signatureProof := [] }
  signatureData := []

/-- `TxsValidator::generateEmptyProposal`. -/
def generateEmptyProposal (index : BlockNumber) : PBFTProposal Hash where
  index
  hash := (env.emptyBlock index).2
  data := (env.emptyBlock index).1
  systemProposal := false
  signature := []
  signatureProof := []

/-- `verifySignature` of a `PBFTMessage`, whose hash the receiver computes. -/
def checkSignature (msg : PBFTMessage Hash) : Bool :=
  match env.node msg.generatedFrom with
  | none => false
  | some nodeInfo => env.verify nodeInfo.nodeID (env.hashFields msg.toBaseMessage) msg.signatureData

/-- `PBFTEngine::checkSignature` of a message that carries the signed hash. -/
def checkCarriedSignature (generatedFrom : IndexType) (signatureDataHash : Hash)
    (signatureData : Bytes) : Bool :=
  match env.node generatedFrom with
  | none => false
  | some nodeInfo => env.verify nodeInfo.nodeID signatureDataHash signatureData

/-- `PBFTCacheProcessor::checkPrecommitWeight`. -/
def checkPrecommitWeight (proposal : PBFTProposal Hash) : Bool :=
  match signatureWeight env.consensusNodeList env.verify proposal.hash 0
      proposal.signatureProof with
  | none => false
  | some weight => minRequiredQuorum env.consensusNodeList ≤ weight

end Env

/-- `PBFTMessageFactory::populateFrom` of a pre-prepare message. -/
def populatePrePrepare (proposal : PBFTProposal Hash) (view : ViewType)
    (generatedFrom : IndexType) : PBFTMessage Hash where
  index := proposal.index
  hash := proposal.hash
  view
  generatedFrom
  packetType := .prePreparePacket
  consensusProposal := some proposal
  signatureData := []

/-- `PBFTMessageFactory::populateFrom` of a proposal without its data. -/
def PBFTProposal.withoutData (proposal : PBFTProposal Hash) : PBFTProposal Hash :=
  { proposal with data := [], systemProposal := false, signature := [] }

end FiscoSmart.Consensus
