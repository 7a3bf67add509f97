import FiscoSmart.Support.Contracts
import FiscoSmart.Support.Encoding
import FiscoSmart.Support.HeadTail

/-!
# The contract ABI codec

`ContractABICodec` writes arguments in the layout of the contract ABI: a word of
32 bytes for each elementary value, and for values of dynamic size an offset in
the place of the value.  Which types are dynamic, and how many words the others
take, is computed by templates over the types (`ABIElementType`, `ABITuple`,
`ABIDynamicType`, `Length`); these traits are the first fields of an `AbiType`,
with `serialise` and `deserialize` as the others.

Decoding is done with `size_t` offsets that wrap around at `2 ^ 64`.  The ranges
that are taken from the data and the elements and bytes that are allocated are
recorded in a `Usage`.
-/

namespace FiscoSmart.Codec.Abi

open Support

/-! ## Access to the data -/

/-- The ranges taken from the data, as start and count, and the number of vector elements
and bytes allocated. -/
structure Usage where
  crops : List (ℕ × ℕ)
  allocated : ℕ
deriving DecidableEq

/-- The exceptions that `abiOut` catches. -/
inductive AbiFailure
  /-- The `std::length_error` of `validOffset`. -/
  | invalidOffset (offset : ℕ)
  /-- The `std::length_error` of `std::vector::resize`. -/
  | tooManyElements (length : ℕ)
deriving DecidableEq

abbrev Decoder := EStateM AbiFailure Usage

/-- Conversion to `size_t`. -/
def sizeT (n : ℕ) : ℕ := n % 2 ^ 64

def validOffset (data : Bytes) (offset : ℕ) : Decoder PUnit :=
  if data.length ≤ offset then throw (.invalidOffset offset) else pure ⟨⟩

/-- The bytes from `start` on, or none if there are fewer than `count`. -/
def getCroppedData (data : Bytes) (start count : ℕ) : Decoder Bytes := do
  modify fun usage => { usage with crops := (start, count) :: usage.crops }
  return if start ≤ data.length ∧ count ≤ data.length ∧ sizeT (start + count) ≤ data.length
    then (data.drop start).take count else []

/-- Allocate memory for elements or bytes. -/
def allocate (n : ℕ) : Decoder PUnit :=
  modify fun usage => { usage with allocated := usage.allocated + n }

/-- The greatest `max_size()` of a vector. -/
def maxSize : ℕ := 2 ^ 63 - 1

/-- `_out.resize(length)` -/
def resize (length : ℕ) : Decoder {n : ℕ // n ≤ maxSize} :=
  if h : length ≤ maxSize then do
    allocate length
    return ⟨length, h⟩
  else throw (.tooManyElements length)

/-- The bytes copied into `n` bytes, the remaining ones being reset to 0. -/
def populate (n : ℕ) (bytes : Bytes) : {bytes : Bytes // bytes.length = n} :=
  ⟨bytes.take n ++ List.replicate (n - bytes.length) 0, by
    rw [List.length_append, List.length_take, List.length_replicate]
    omega⟩

abbrev U256 := {v : ℕ // v < 2 ^ 256}

def word (n : ℕ) : Bytes := bigEndian 32 n

/-- `deserialize(u256&)` -/
def deserializeWord (data : Bytes) (offset : ℕ) : Decoder U256 := do
  validOffset data (sizeT (offset + 31))
  let bytes ← getCroppedData data offset 32
  return ⟨fromBigEndian bytes % 2 ^ 256, Nat.mod_lt _ (by decide)⟩

/-! ## The types -/

/-- The traits of a type, its values and its overloads of `serialise` and `deserialize`. -/
structure AbiType where
  /-- `ABIElementType` -/
  isElementType : Bool
  /-- `ABIDynamicType` -/
  isDynamic : Bool
  /-- `Length`, the words that the type takes in the fixed part. -/
  length : ℕ
  carrier : Type
  serialise : carrier → Bytes
  deserialize : (data : Bytes) → (offset : ℕ) → Decoder carrier

namespace AbiType

def u256 : AbiType where
  isElementType := false
  isDynamic := false
  length := 1
  carrier := U256
  serialise v := word v.1
  deserialize := deserializeWord

/-- A sign and 256 bits for the magnitude. -/
abbrev S256 := {v : ℤ // v.natAbs < 2 ^ 256}

/-- The number that `deserialize(s256&)` makes of a word. -/
def toS256 (u : U256) : S256 :=
  if h : 0x8fffffffffffffffffffffffffffffffffffffffffffffffffffffffffffffff < u.1 then
    ⟨-((2 ^ 256 - 1 - u.1) + 1 : ℕ), by omega⟩
  else ⟨u.1, u.2⟩

/-- The conversion of a negative number to `u256` is its two's complement. -/
def s256 : AbiType where
  isElementType := false
  isDynamic := false
  length := 1
  carrier := S256
  serialise v := word (v.1 % 2 ^ 256).toNat
  deserialize data offset := do
    let u ← deserializeWord data offset
    return toS256 u

def bool : AbiType where
  isElementType := false
  isDynamic := false
  length := 1
  carrier := Bool
  serialise v := word (if v then 1 else 0)
  deserialize data offset := do
    let ret ← deserializeWord data offset
    return decide (0 < ret.1)

def address : AbiType where
  isElementType := false
  isDynamic := false
  length := 1
  carrier := {bytes : Bytes // bytes.length = 20}
  serialise v := List.replicate 12 0 ++ v.1
  deserialize data offset := do
    validOffset data (sizeT (offset + 31))
    let bytes ← getCroppedData data (sizeT (offset + 12)) 20
    return populate 20 bytes

def string32 : AbiType where
  isElementType := false
  isDynamic := false
  length := 1
  carrier := {bytes : Bytes // bytes.length = 32}
  serialise v := v.1
  deserialize data offset := do
    validOffset data (sizeT (offset + 31))
    let bytes ← getCroppedData data offset 32
    return populate 32 bytes

/-- The size in a word, and the bytes filled up to a multiple of 32. -/
def serialiseBytes (bytes : Bytes) : Bytes :=
  word bytes.length ++ (bytes ++ List.replicate ((bytes.length + 31) / 32 * 32 - bytes.length) 0)

def deserializeBytes (data : Bytes) (offset : ℕ) : Decoder Bytes := do
  let len ← deserializeWord data offset
  validOffset data (sizeT (offset + 31 + sizeT len.1))
  let result ← getCroppedData data (sizeT (offset + 32)) (sizeT len.1)
  allocate result.length
  return result

def string : AbiType where
  isElementType := true
  isDynamic := true
  length := 1
  carrier := Bytes
  serialise := serialiseBytes
  deserialize := deserializeBytes

/-- `bytes` is `std::vector<byte>`, with overloads of its own. -/
def bytes : AbiType where
  isElementType := false
  isDynamic := true
  length := 1
  carrier := Bytes
  serialise := serialiseBytes
  deserialize := deserializeBytes

/-- An element, a tuple item or an argument, whose head is `head` bytes after `base`: the
offset of a dynamic one counts from `base`. -/
def deserializeItem (c : AbiType) (data : Bytes) (base head : ℕ) : Decoder c.carrier :=
  if c.isDynamic then do
    let offset ← deserializeWord data (sizeT (base + head))
    c.deserialize data (sizeT (base + sizeT offset.1))
  else c.deserialize data (sizeT (base + head))

/-- The elements from the `u`-th on. -/
def deserializeElements (c : AbiType) (data : Bytes) (base : ℕ) :
    (u n : ℕ) → Decoder {l : List c.carrier // l.length = n}
  | _, 0 => return ⟨[], rfl⟩
  | u, n + 1 => do
    let v ← c.deserializeItem data base (u * c.length * 32)
    let l ← c.deserializeElements data base (u + 1) n
    return ⟨v :: l.1, congrArg (· + 1) l.2⟩

/-- The elements of an array or vector, as parts of its encoding. -/
def elementParts (c : AbiType) (l : List c.carrier) : List (Chunk Byte) :=
  l.map fun v => (c.isDynamic, c.serialise v)

/-- The elements of an array or vector: the offsets of dynamic ones come first and count
from behind them. -/
def serialiseElements (c : AbiType) (l : List c.carrier) : Bytes :=
  (layout word (l.length * 32) (c.elementParts l)).1 ++
    (layout word (l.length * 32) (c.elementParts l)).2

def vector (c : AbiType) : AbiType where
  isElementType := c.isElementType
  isDynamic := true
  length := 1
  carrier := {l : List c.carrier // l.length ≤ maxSize}
  serialise l := word l.1.length ++ c.serialiseElements l.1
  deserialize data offset := do
    let length ← deserializeWord data offset
    let length ← resize (sizeT length.1)
    let l ← c.deserializeElements data (sizeT (offset + 32)) 0 length.1
    return ⟨l.1, l.2.trans_le length.2⟩

/-- `ABIDynamicType` of an array is that of its elements (`remove_dimension`). -/
def array (c : AbiType) (n : ℕ) : AbiType where
  isElementType := false
  isDynamic := c.isDynamic
  length := if c.isDynamic then 1 else n * c.length
  carrier := {l : List c.carrier // l.length = n}
  serialise l := c.serialiseElements l.1
  deserialize data offset := c.deserializeElements data offset 0 n

def Values : List AbiType → Type
  | [] => PUnit
  | c :: cs => c.carrier × Values cs

/-- `Offset`, the words of the fixed part. -/
def offsetWords (cs : List AbiType) : ℕ := cs.foldr (fun c words => c.length + words) 0

/-- The items of a tuple, or the arguments, as parts of the encoding. -/
def itemParts : (cs : List AbiType) → Values cs → List (Chunk Byte)
  | [], _ => []
  | c :: cs, vs => (c.isDynamic, c.serialise vs.1) :: itemParts cs vs.2

/-- The items of a tuple, or the arguments, with the first head `head` bytes after `base`. -/
def deserializeItems (data : Bytes) (base : ℕ) :
    (cs : List AbiType) → (head : ℕ) → Decoder (Values cs)
  | [], _ => return ⟨⟩
  | c :: cs, head => do
    let v ← c.deserializeItem data base head
    let vs ← deserializeItems data base cs (head + c.length * 32)
    return (v, vs)

/-- The offsets of the dynamic items count from behind one word for each item. -/
def serialiseTuple (cs : List AbiType) (vs : Values cs) : Bytes :=
  (layout word (cs.length * 32) (itemParts cs vs)).1 ++
    (layout word (cs.length * 32) (itemParts cs vs)).2

/-- `ABITuple` looks at the `ABIElementType` of the items, and the length of a static tuple
is the number of its items. -/
def tuple (cs : List AbiType) : AbiType where
  isElementType := cs.any isElementType
  isDynamic := cs.any isElementType
  length := if cs.any isElementType then 1 else cs.length
  carrier := Values cs
  serialise := serialiseTuple cs
  deserialize data offset := deserializeItems data offset cs 0

end AbiType

open AbiType

mutual

inductive Ty
  | u256
  | bool
  | address
  | string32
  | string
  | bytes
  | vector (t : Ty)
  | array (t : Ty) (n : ℕ)
  | tuple (ts : Tys)

inductive Tys
  | nil
  | cons (t : Ty) (ts : Tys)

end

mutual

def Ty.denote : Ty → AbiType
  | .u256 => .u256
  | .bool => .bool
  | .address => .address
  | .string32 => .string32
  | .string => .string
  | .bytes => .bytes
  | .vector t => .vector t.denote
  | .array t n => .array t.denote n
  | .tuple ts => .tuple ts.denote

def Tys.denote : Tys → List AbiType
  | .nil => []
  | .cons t ts => t.denote :: ts.denote

end

/-! ## Arguments -/

/-- `abiIn("", args...)`: the offsets of the dynamic arguments count from the beginning. -/
def abiIn (ts : Tys) (args : Values ts.denote) : Bytes :=
  (layout word (offsetWords ts.denote * 32) (itemParts ts.denote args)).1 ++
    (layout word (offsetWords ts.denote * 32) (itemParts ts.denote args)).2

/-- A run of `abiOut`, with what it used. -/
def abiOutRun (ts : Tys) (data : Bytes) : EStateM.Result AbiFailure Usage (Values ts.denote) :=
  deserializeItems data 0 ts.denote 0 ⟨[], 0⟩

/-- `abiOut`: the arguments, or nothing if it returns `false`. -/
def abiOut (ts : Tys) (data : Bytes) : Option (Values ts.denote) :=
  match abiOutRun ts data with
  | .ok args _ => some args
  | .error _ _ => none

end FiscoSmart.Codec.Abi
