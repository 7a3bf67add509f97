import FiscoSmart.Support.Encoding

/-!
# The hashed fields of transactions, receipts and block headers

`impl_calculate` feeds the fields of an object to the hasher one after the other,
numbers in big-endian order and without the lengths of strings and lists.  The
byte sequence therefore determines the fields of objects of one shape, and only
of these.
-/

namespace FiscoSmart.Protocol

open Support

/-! ## The objects -/

/-- `bcostars::TransactionData`; `toAddress` is its field `to`. -/
@[ext]
structure TransactionData where
  version : BitVec 32
  chainID : Bytes
  groupID : Bytes
  blockLimit : BitVec 64
  nonce : Bytes
  toAddress : Bytes
  input : Bytes
  abi : Bytes
deriving DecidableEq

@[ext]
structure LogEntry where
  address : Bytes
  topic : List Bytes
  data : Bytes
deriving DecidableEq

/-- `bcostars::TransactionReceiptData`. -/
@[ext]
structure ReceiptData where
  version : BitVec 32
  gasUsed : Bytes
  contractAddress : Bytes
  status : BitVec 32
  output : Bytes
  logEntries : List LogEntry
  blockNumber : BitVec 64
deriving DecidableEq

@[ext]
structure ParentInfo where
  blockNumber : BitVec 64
  blockHash : Bytes
deriving DecidableEq

/-- `bcostars::BlockHeaderData`. -/
@[ext]
structure HeaderData where
  version : BitVec 32
  parentInfo : List ParentInfo
  txsRoot : Bytes
  receiptRoot : Bytes
  stateRoot : Bytes
  blockNumber : BitVec 64
  gasUsed : Bytes
  timestamp : BitVec 64
  sealer : BitVec 64
  sealerList : List Bytes
  extraData : Bytes
  consensusWeights : List (BitVec 64)
deriving DecidableEq

/-- `bcostars::Transaction`, without the fields that no check reads. -/
structure Transaction where
  data : TransactionData
  dataHash : Bytes
  signature : Bytes
  sender : Bytes
deriving DecidableEq

/-- `bcostars::TransactionReceipt`, without the message. -/
structure Receipt where
  data : ReceiptData
  dataHash : Bytes
deriving DecidableEq

structure Signature where
  sealerIndex : BitVec 64
  signature : Bytes
deriving DecidableEq

structure BlockHeader where
  data : HeaderData
  dataHash : Bytes
  signatureList : List Signature
deriving DecidableEq

/-! ## The bytes fed to the hasher -/

/-- `native_to_big` of an `int32_t`. -/
def big32 (v : BitVec 32) : Bytes := bigEndian 4 v.toNat

/-- `native_to_big` of an `int64_t`. -/
def big64 (v : BitVec 64) : Bytes := bigEndian 8 v.toNat

/-- The hashed fields of a transaction, one after the other. -/
def TransactionData.preimage (d : TransactionData) : Bytes :=
  big32 d.version ++ d.chainID ++ d.groupID ++ big64 d.blockLimit ++ d.nonce ++
    d.toAddress ++ d.input ++ d.abi

/-- The hashed fields of a log entry, one after the other. -/
def LogEntry.preimage (e : LogEntry) : Bytes :=
  e.address ++ e.topic.flatMap (fun topicItem => topicItem) ++ e.data

/-- The hashed fields of a receipt, one after the other. -/
def ReceiptData.preimage (d : ReceiptData) : Bytes :=
  big32 d.version ++ d.gasUsed ++ d.contractAddress ++ big32 d.status ++
    d.output ++ d.logEntries.flatMap LogEntry.preimage ++ big64 d.blockNumber

/-- The hashed fields of a parent, one after the other. -/
def ParentInfo.preimage (p : ParentInfo) : Bytes :=
  big64 p.blockNumber ++ p.blockHash

/-- The hashed fields of a block header, one after the other. -/
def HeaderData.preimage (d : HeaderData) : Bytes :=
  big32 d.version ++ d.parentInfo.flatMap ParentInfo.preimage ++ d.txsRoot ++
    d.receiptRoot ++ d.stateRoot ++ big64 d.blockNumber ++ d.gasUsed ++
    big64 d.timestamp ++ big64 d.sealer ++
    d.sealerList.flatMap (fun nodeID => nodeID) ++ d.extraData ++ d.consensusWeights.flatMap big64

/-- An object that carries a hash is not hashed: the hash it carries is handed
out. -/
def fedBytes (dataHash preimage : Bytes) : Option Bytes :=
  if dataHash = [] then some preimage else none

/-- The bytes `impl_calculate` feeds to the hasher for a transaction. -/
def Transaction.fed (tx : Transaction) : Option Bytes :=
  fedBytes tx.dataHash tx.data.preimage

/-- The bytes `impl_calculate` feeds to the hasher for a receipt. -/
def Receipt.fed (r : Receipt) : Option Bytes :=
  fedBytes r.dataHash r.data.preimage

/-- The bytes `impl_calculate` feeds to the hasher for a block header. -/
def BlockHeader.fed (h : BlockHeader) : Option Bytes :=
  fedBytes h.dataHash h.data.preimage

/-! ## Shapes -/

abbrev SameLength (s s' : Bytes) : Prop := s.length = s'.length

/-- Transactions whose strings have the same lengths. -/
structure TransactionData.SameShape (a b : TransactionData) : Prop where
  chainID : SameLength a.chainID b.chainID
  groupID : SameLength a.groupID b.groupID
  nonce : SameLength a.nonce b.nonce
  toAddress : SameLength a.toAddress b.toAddress
  input : SameLength a.input b.input

/-- Log entries with as many topics and strings of the same lengths. -/
structure LogEntry.SameShape (a b : LogEntry) : Prop where
  address : SameLength a.address b.address
  topic : List.Forall₂ SameLength a.topic b.topic
  data : SameLength a.data b.data

/-- Receipts with as many log entries and strings of the same lengths. -/
structure ReceiptData.SameShape (a b : ReceiptData) : Prop where
  gasUsed : SameLength a.gasUsed b.gasUsed
  contractAddress : SameLength a.contractAddress b.contractAddress
  output : SameLength a.output b.output
  logEntries : List.Forall₂ LogEntry.SameShape a.logEntries b.logEntries

/-- Headers with as many parents and sealers and strings of the same lengths. -/
structure HeaderData.SameShape (a b : HeaderData) : Prop where
  parentInfo : List.Forall₂ (fun p q => SameLength p.blockHash q.blockHash)
    a.parentInfo b.parentInfo
  txsRoot : SameLength a.txsRoot b.txsRoot
  receiptRoot : SameLength a.receiptRoot b.receiptRoot
  stateRoot : SameLength a.stateRoot b.stateRoot
  gasUsed : SameLength a.gasUsed b.gasUsed
  sealerList : List.Forall₂ SameLength a.sealerList b.sealerList
  extraData : SameLength a.extraData b.extraData

/-! ## Reading the fields back -/

theorem readable_big32 : Readable (fun _ _ => True) big32 := readable_bitVec 4

theorem readable_big64 : Readable (fun _ _ => True) big64 := readable_bitVec 8

theorem readable_bytes : Readable SameLength (fun s : Bytes => s) :=
  readable_string

theorem preimage_of_fed {hash hash' bytes bytes' : Bytes} (h : hash = [])
    (h' : hash' = []) (heq : fedBytes hash bytes = fedBytes hash' bytes') : bytes = bytes' := by
  rw [fedBytes, fedBytes, if_pos h, if_pos h'] at heq
  exact Option.some.inj heq

theorem big64_length (v : BitVec 64) : (big64 v).length = 8 :=
  bigEndian_length 8 v.toNat

theorem big64_injective : Function.Injective big64 := by
  intro v w h
  exact (readable_big64 v w [] [] trivial (by rw [h])).1

/-- The fields of a transaction can be read back if the lengths are known. -/
theorem TransactionData.preimage_inj {a b : TransactionData}
    (h : a.SameShape b) (heq : a.preimage = b.preimage) : a = b := by
  simp only [preimage, List.append_assoc] at heq
  obtain ⟨hversion, heq⟩ := readable_big32 _ _ _ _ trivial heq
  obtain ⟨hchainID, heq⟩ := readable_bytes _ _ _ _ h.chainID heq
  obtain ⟨hgroupID, heq⟩ := readable_bytes _ _ _ _ h.groupID heq
  obtain ⟨hblockLimit, heq⟩ := readable_big64 _ _ _ _ trivial heq
  obtain ⟨hnonce, heq⟩ := readable_bytes _ _ _ _ h.nonce heq
  obtain ⟨htoAddress, heq⟩ := readable_bytes _ _ _ _ h.toAddress heq
  obtain ⟨hinput, habi⟩ := readable_bytes _ _ _ _ h.input heq
  exact TransactionData.ext hversion hchainID hgroupID hblockLimit hnonce htoAddress hinput habi

theorem LogEntry.readable_preimage : Readable LogEntry.SameShape LogEntry.preimage := by
  intro a b rest rest' h heq
  simp only [preimage, List.append_assoc] at heq
  obtain ⟨haddr, heq⟩ := readable_bytes _ _ _ _ h.address heq
  obtain ⟨htopic, heq⟩ := readable_bytes.flatMap _ _ _ _ h.topic heq
  obtain ⟨hdata, heq⟩ := readable_bytes _ _ _ _ h.data heq
  exact ⟨LogEntry.ext haddr htopic hdata, heq⟩

theorem ReceiptData.preimage_inj {a b : ReceiptData} (h : a.SameShape b)
    (heq : a.preimage = b.preimage) : a = b := by
  simp only [preimage, List.append_assoc] at heq
  obtain ⟨hversion, heq⟩ := readable_big32 _ _ _ _ trivial heq
  obtain ⟨hgasUsed, heq⟩ := readable_bytes _ _ _ _ h.gasUsed heq
  obtain ⟨hcontractAddress, heq⟩ :=
    readable_bytes _ _ _ _ h.contractAddress heq
  obtain ⟨hstat, heq⟩ := readable_big32 _ _ _ _ trivial heq
  obtain ⟨houtput, heq⟩ := readable_bytes _ _ _ _ h.output heq
  obtain ⟨hlogEntries, heq⟩ :=
    LogEntry.readable_preimage.flatMap _ _ _ _ h.logEntries heq
  exact ReceiptData.ext hversion hgasUsed hcontractAddress hstat houtput
    hlogEntries (big64_injective heq)

theorem ParentInfo.readable_preimage : Readable (fun p q => SameLength p.blockHash q.blockHash)
      ParentInfo.preimage := by
  intro a b rest rest' h heq
  simp only [preimage, List.append_assoc] at heq
  obtain ⟨hblockNumber, heq⟩ := readable_big64 _ _ _ _ trivial heq
  obtain ⟨hblockHash, heq⟩ := readable_bytes _ _ _ _ h heq
  exact ⟨ParentInfo.ext hblockNumber hblockHash, heq⟩

theorem HeaderData.preimage_inj {a b : HeaderData} (h : a.SameShape b)
    (heq : a.preimage = b.preimage) : a = b := by
  simp only [preimage, List.append_assoc] at heq
  obtain ⟨hversion, heq⟩ := readable_big32 _ _ _ _ trivial heq
  obtain ⟨hparentInfo, heq⟩ :=
    ParentInfo.readable_preimage.flatMap _ _ _ _ h.parentInfo heq
  obtain ⟨htxsRoot, heq⟩ := readable_bytes _ _ _ _ h.txsRoot heq
  obtain ⟨hreceiptRoot, heq⟩ := readable_bytes _ _ _ _ h.receiptRoot heq
  obtain ⟨hstateRoot, heq⟩ := readable_bytes _ _ _ _ h.stateRoot heq
  obtain ⟨hblockNumber, heq⟩ := readable_big64 _ _ _ _ trivial heq
  obtain ⟨hgasUsed, heq⟩ := readable_bytes _ _ _ _ h.gasUsed heq
  obtain ⟨htimestamp, heq⟩ := readable_big64 _ _ _ _ trivial heq
  obtain ⟨hsealer, heq⟩ := readable_big64 _ _ _ _ trivial heq
  obtain ⟨hsealerList, heq⟩ := readable_bytes.flatMap _ _ _ _ h.sealerList heq
  obtain ⟨hextraData, heq⟩ := readable_bytes _ _ _ _ h.extraData heq
  have hweights : a.consensusWeights = b.consensusWeights :=
    flatMap_injective big64_length (by decide) big64_injective heq
  exact HeaderData.ext hversion hparentInfo htxsRoot hreceiptRoot hstateRoot
    hblockNumber hgasUsed htimestamp hsealer hsealerList hextraData hweights

/-- Objects of one shape that differ in a hashed field are fed to the hasher as
different byte sequences. -/
theorem fed_unambiguous : (∀ a b : Transaction, a.dataHash = [] → b.dataHash = [] →
      a.data.SameShape b.data → a.data ≠ b.data → a.fed ≠ b.fed) ∧
    (∀ a b : Receipt, a.dataHash = [] → b.dataHash = [] →
      a.data.SameShape b.data → a.data ≠ b.data → a.fed ≠ b.fed) ∧
    ∀ a b : BlockHeader, a.dataHash = [] → b.dataHash = [] →
      a.data.SameShape b.data → a.data ≠ b.data → a.fed ≠ b.fed := by
  refine ⟨?_, ?_, ?_⟩
  · intro a b ha hb hshape hne heq
    exact hne (TransactionData.preimage_inj hshape (preimage_of_fed ha hb heq))
  · intro a b ha hb hshape hne heq
    exact hne (ReceiptData.preimage_inj hshape (preimage_of_fed ha hb heq))
  · intro a b ha hb hshape hne heq
    exact hne (HeaderData.preimage_inj hshape (preimage_of_fed ha hb heq))

/-- Objects without strings and lists. -/
def bareTransaction : Transaction :=
  ⟨⟨0, [], [], 0, [], [], [], []⟩, [], [], []⟩

def bareReceipt : Receipt := ⟨⟨0, [], [], 0, [], [], 0⟩, []⟩

def bareHeader : BlockHeader :=
  ⟨⟨0, [], [], [], [], 0, [], 0, 0, [], [], []⟩, [], []⟩

/-- Transactions that differ in the chain, receipts that differ in a topic, and
headers that differ in a sealer. -/
theorem fed_unambiguous_single_field : ({ bareTransaction with data.chainID := [97] }).fed ≠
      ({ bareTransaction with data.chainID := [98] }).fed ∧
    ({ bareReceipt with data.logEntries := [⟨[1], [[2]], []⟩] }).fed ≠
      ({ bareReceipt with data.logEntries := [⟨[1], [[3]], []⟩] }).fed ∧
    ({ bareHeader with data.sealerList := [[1], [2]] }).fed ≠
      ({ bareHeader with data.sealerList := [[1], [3]] }).fed := by
  refine ⟨fed_unambiguous.1 _ _ rfl rfl ⟨rfl, rfl, rfl, rfl, rfl⟩ (by decide),
    fed_unambiguous.2.1 _ _ rfl rfl ⟨rfl, rfl, rfl, ?_⟩ (by decide), fed_unambiguous.2.2 _ _ rfl rfl
      ⟨.nil, rfl, rfl, rfl, rfl, ?_, rfl⟩ (by decide)⟩
  · exact .cons ⟨rfl, .cons rfl .nil, rfl⟩ .nil
  · exact .cons rfl (.cons rfl .nil)

/-- A byte moved from the chain to the group, a log entry moved into the topics
of the one before, and a byte moved from the sealer list to the extra data are
not visible to the hasher. -/
theorem fed_ambiguous_boundaries : (({ bareTransaction with
          data.chainID := [97, 98], data.groupID := [99] }).fed =
        ({ bareTransaction with
          data.chainID := [97], data.groupID := [98, 99] }).fed) ∧
    (({ bareReceipt with
          data.logEntries := [⟨[1], [[2]], [3]⟩, ⟨[4], [[5]], [6]⟩] }).fed =
        ({ bareReceipt with
          data.logEntries := [⟨[1], [[2], [3], [4], [5]], [6]⟩] }).fed) ∧
    (({ bareHeader with data.sealerList := [[1], [2]] }).fed = ({ bareHeader with
          data.sealerList := [[1]], data.extraData := [2] }).fed) := by
  decide

end FiscoSmart.Protocol
