import FiscoSmart.Support.HashTree

/-!
# Merkle trees and proofs

`Merkle` stores the levels above the leaves in one flat array: each level is
preceded by an element whose first four bytes are the number of its nodes.  A proof
has the same form and holds, for every level below the root, the group of nodes that
contains the node of the path.  The verifier looks for the hash in the first group,
replaces it by the hash of the group, and so on; the last hash must be the root.

Sizes are unbounded here, apart from the records of four bytes and from
`getMerkleSize`, which counts in `unsigned`.
-/

namespace FiscoSmart.Crypto

/-- What `Merkle` uses of the hashes: the hash of a sequence of elements, and the
first four bytes of an element as a number. -/
structure Hasher (HashType : Type) where
  /-- `final` after one `update` for each element. -/
  digest : List HashType → HashType
  numberOf : HashType → BitVec 32
  ofNumber : BitVec 32 → HashType
  numberOf_ofNumber : ∀ number, numberOf (ofNumber number) = number

/-- The exceptions of `Merkle`, and accesses beyond the end of an array. -/
inductive MerkleError
  | emptyProof
  | emptyInput
  | notFound
  | outOfRange
  | sizeMismatch
  | outOfBounds
deriving DecidableEq

namespace Merkle

open Support

variable {HashType : Type} (hasher : Hasher HashType) (width : ℕ)

def setNumberToHash (number : ℕ) : HashType := hasher.ofNumber (BitVec.ofNat 32 number)

def getNumberFromHash (input : HashType) : ℕ := (hasher.numberOf input).toNat

def indexAlign (index : ℕ) : ℕ := index - (index + width) % width

def getNextLevelSize (inputSize : ℕ) : ℕ := (inputSize + (width - 1)) / width

/-- The loop of `getMerkleSize`; every turn makes `inputSize` smaller. -/
def merkleSizeLoop : ℕ → ℕ → BitVec 32 → BitVec 32 → BitVec 32 × BitVec 32
  | 0, _, nodeSize, levels => (nodeSize, levels)
  | fuel + 1, inputSize, nodeSize, levels =>
    if inputSize > 1 then
      merkleSizeLoop fuel (getNextLevelSize width inputSize)
        (nodeSize + BitVec.ofNat 32 (getNextLevelSize width inputSize + 1)) (levels + 1)
    else (nodeSize, levels)

def getMerkleSize (inputSize : ℕ) : BitVec 32 × BitVec 32 :=
  merkleSizeLoop width inputSize inputSize 0 0

def calculateLevelHashes (input : List HashType) (outputSize : ℕ) : List HashType :=
  (List.range outputSize).map fun i => hasher.digest ((input.drop (i * width)).take width)

/-- The elements that `generateMerkle` writes for the levels above the input. -/
def generateLevels : ℕ → List HashType → List HashType
  | 0, _ => []
  | fuel + 1, input =>
    let nextNodes := getNextLevelSize width input.length
    let output := calculateLevelHashes hasher width input nextNodes
    setNumberToHash hasher nextNodes :: output ++
      if nextNodes > 1 then generateLevels fuel output else []

/-- The output has as many elements as `getMerkleSize` says, and the levels are written
to its front. -/
def generateMerkle (originHashes : List HashType) : Except MerkleError (List HashType) :=
  match originHashes with
  | [] => .error .emptyInput
  | [hash] => .ok [hash]
  | originHashes =>
    let merkleNodes := (getMerkleSize width originHashes.length).1.toNat
    let written := generateLevels hasher width originHashes.length originHashes
    if merkleNodes < written.length then .error .outOfBounds
    else .ok (written ++ List.replicate (merkleNodes - written.length) (setNumberToHash hasher 0))

/-- The record of a group, and the group. -/
def proofGroup (nodes : List HashType) (index levelLength : ℕ) : List HashType :=
  let count := min (levelLength - index) width
  setNumberToHash hasher count :: (nodes.drop index).take count

/-- The loop of `generateMerkleProof` over the rest of the tree. -/
def proofLoop : ℕ → List HashType → ℕ → List HashType → Except MerkleError (List HashType)
  | fuel + 1, record :: nodes, index, out =>
    let index := indexAlign width (index / width)
    let levelLength := getNumberFromHash hasher record
    if levelLength = 1 then .ok out
    else if nodes.length < levelLength then .error .outOfBounds
    else proofLoop fuel (nodes.drop levelLength) index
      (out ++ proofGroup hasher width nodes index levelLength)
  | _, _, _, out => .ok out

/-- `generateMerkleProof` for an index, appending to `out`. -/
def generateMerkleProof (originHashes merkle : List HashType) (index : ℕ)
    (out : List HashType) : Except MerkleError (List HashType) :=
  if index ≥ originHashes.length then .error .outOfRange
  else if originHashes.length = 1 then
    match merkle with
    | [] => .error .outOfBounds
    | root :: _ => .ok [root]
  else if (getMerkleSize width originHashes.length).1.toNat ≠ merkle.length then
    .error .sizeMismatch
  else
    let index := indexAlign width index
    proofLoop hasher width merkle.length merkle index
      (out ++ proofGroup hasher width originHashes index originHashes.length)

section Search

variable [DecidableEq HashType]

/-- The loop of `verifyMerkleProof`: the last hash, or `none` if a group does not
contain the hash. -/
def verifyLoop : ℕ → List HashType → HashType → Except MerkleError (Option HashType)
  | fuel + 1, record :: proof, hash =>
    let count := getNumberFromHash hasher record
    if proof.length < count then .error .outOfBounds
    else if hash ∈ proof.take count then
      verifyLoop fuel (proof.drop count) (hasher.digest (proof.take count))
    else .ok none
  | _, _, hash => .ok (some hash)

def verifyMerkleProof (proof : List HashType) (hash root : HashType) : Except MerkleError Bool :=
  match proof with
  | [] => .error .emptyProof
  | [_] => .ok (hash = root)
  | proof => (verifyLoop hasher proof.length proof hash).map fun last => decide (last = some root)

end Search

end Merkle

end FiscoSmart.Crypto
