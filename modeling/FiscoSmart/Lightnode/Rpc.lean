import FiscoSmart.Crypto.Merkle
import FiscoSmart.Lightnode.Sync

/-!
# The full blocks that a light node serves

A light node gets a full block from another ledger.  It compares the hashes of the
transactions with the root in the header and the header with its own header of the block
before, but neither the transactions with their hashes nor the header with its own one.
-/

namespace FiscoSmart.Lightnode

open Support Protocol

/-- `bcostars::Block`; the metadata are the hashes of the transactions. -/
structure Block where
  header : BlockHeader
  transactionsMetaData : List Bytes
  transactions : List Transaction
deriving DecidableEq

/-- The last element that `generateMerkle` writes, a hash of 32 bytes; nothing if it throws. -/
def merkleRoot (hasher : Crypto.Hasher Bytes) : List Bytes → Option Bytes
  | [hash] => (assignTo hash).toOption.map (·.val)
  | hashes => (Crypto.Merkle.generateMerkle hasher 2 hashes).toOption.bind List.getLast?

/-- `LightNodeRPC::getBlockByNumber` for a full block that the remote ledger answers with: the
block that is handed out, if nothing throws. -/
def getBlockByNumber (suite : CryptoSuite) (hasher : Crypto.Hasher Bytes) (s : LedgerImpl)
    (blockNumber : ℤ) (block : Block) : Option Block :=
  if block.transactionsMetaData ≠ [] ∧
      merkleRoot hasher block.transactionsMetaData ≠ some block.header.data.txsRoot then none
  -- check parentBlock
  else if 0 < blockNumber ∧
      ¬ (s.header (blockNumber - 1)).any (matchesParent suite · block.header) then none
  else some block

/-- The root of a list of transaction hashes, zero for no transactions. -/
def txsRootOf (hasher : Crypto.Hasher Bytes) (hashes : List Bytes) : Option Bytes :=
  if hashes = [] then some (List.replicate 32 0) else merkleRoot hasher hashes

/-- The hashes of the contents of the transactions. -/
def contentHashes (suite : CryptoSuite) (block : Block) : List Bytes :=
  block.transactions.map fun tx => (suite.hash tx.data.preimage).val

/-- The header has the hash of the stored header of the number, and the contents of the
transactions have the root that it names. -/
structure Authentic (suite : CryptoSuite) (hasher : Crypto.Hasher Bytes) (s : LedgerImpl) (n : ℤ)
    (block : Block) : Prop where
  header : (s.header n).map (hashOf suite) = some (hashOf suite block.header)
  transactions : txsRootOf hasher (contentHashes suite block) = some block.header.data.txsRoot

/-- What is not compared holds: the fields of the header are those of the stored one, and the
metadata are the hashes of the contents of the transactions.  Without metadata, nothing is
compared with the root in the header. -/
structure Agrees (suite : CryptoSuite) (hasher : Crypto.Hasher Bytes) (s : LedgerImpl) (n : ℤ)
    (answer : Block) : Prop where
  header : ∃ stored, s.header n = some stored ∧ stored.data.preimage = answer.header.data.preimage
  transactions : if answer.transactionsMetaData = [] then
      txsRootOf hasher (contentHashes suite answer) = some answer.header.data.txsRoot
    else contentHashes suite answer = answer.transactionsMetaData

/-- The answer collides neither with the stored header nor with its own metadata. -/
structure NoCollision (suite : CryptoSuite) (hasher : Crypto.Hasher Bytes) (s : LedgerImpl) (n : ℤ)
    (answer : Block) : Prop where
  header : ∀ stored, s.header n = some stored → hashOf suite stored = hashOf suite answer.header →
    stored.data.preimage = answer.header.data.preimage
  transactions : txsRootOf hasher (contentHashes suite answer) =
      merkleRoot hasher answer.transactionsMetaData →
    contentHashes suite answer = answer.transactionsMetaData

/-- A hasher that keeps the first bytes of what it is fed. -/
def echoHasher : Crypto.Hasher Bytes where
  digest hashes := (echoSuite.hash hashes.flatten).val
  numberOf bytes := BitVec.ofNat 32 (fromBigEndian bytes)
  ofNumber number := bigEndian 4 number.toNat
  numberOf_ofNumber number := by
    rw [fromBigEndian_bigEndian, Nat.mod_eq_of_lt (show number.toNat < 256 ^ 4 from number.isLt)]
    simp

/-- The hash of the fields of `honestTransaction`. -/
def honestHash : Bytes := (echoSuite.hash honestTransaction.data.preimage).val

/-- A header after the first one with the root of this transaction. -/
def secondHeader (version : BitVec 32) : BlockHeader :=
  { childOf 1 with data := { (childOf 1).data with version, txsRoot := honestHash } }

def shortLedger : LedgerImpl := genesisLedger.setHeader (secondHeader 1)

/-- A transaction that nobody has sent. -/
def forgedTransaction : Transaction :=
  { honestTransaction with data := { honestTransaction.data with version := 1 } }

end FiscoSmart.Lightnode
