import FiscoSmart.Support.Decoding
import FiscoSmart.Support.Encoding
import FiscoSmart.Support.SortedMap

/-!
# The SCALE codec

`ScaleEncoderStream` and `ScaleDecoderStream` have one overload of `<<` and of
`>>` for each supported type, and templates for the composite ones.  The
supported types are the terms of `Ty`; the two overloads for a type, with the
values of the type and their order (`std::map` needs it), form its `ScaleType`.
There is one definition for each template, and `Ty.denote` resolves the
overloads as the compiler does.

Memory is taken to be unbounded, up to the `max_size()` of a vector.
-/

namespace FiscoSmart.Codec.Scale

open Support

/-! ## The streams -/

structure ScaleEncodeException where
  comment : String
deriving DecidableEq

/-- The ways a decoder ends without a value. -/
inductive DecodeFailure
  | scaleDecodeException (comment : String)
  /-- The `std::length_error` of `std::vector::resize`, which nobody catches. -/
  | lengthError
  /-- The iterator is moved beyond the end of the span. -/
  | outOfBounds
deriving DecidableEq

/-- A decoder on a `ScaleDecoderStream`. -/
abbrev Decoder := EStateM DecodeFailure (Cursor Byte)

def hasMore (s : Cursor Byte) (n : ℕ) : Bool := s.currentIndex + n ≤ s.span.length

def nextByte : Decoder Byte := fun s =>
  match s.span[s.currentIndex]? with
  | none => .error (.scaleDecodeException "nextByte exception for NOT_ENOUGH_DATA") s
  | some byte => .ok byte { s with currentIndex := s.currentIndex + 1 }

/-- The checks of the form `if (!hasMore(n)) throw`. -/
def requireMore (n : ℕ) (comment : String) : Decoder PUnit := fun s =>
  if hasMore s n then .ok ⟨⟩ s else .error (.scaleDecodeException comment) s

/-- The bytes from `m_currentIterator` to `m_currentIterator + n`, which nothing
checks to be there. -/
def assign (n : ℕ) : Decoder {bytes : Bytes // bytes.length = n} := fun s =>
  if h : s.currentIndex + n ≤ s.span.length then
    .ok ⟨(s.span.drop s.currentIndex).take n, by rw [List.length_take, List.length_drop]; omega⟩
      { s with currentIndex := s.currentIndex + n }
  else .error .outOfBounds s

/-- The greatest `max_size()` of a vector. -/
def maxSize : ℕ := 2 ^ 63 - 1

/-- `vec.resize(n)` on an empty vector. -/
def resize (n : ℕ) : Decoder {n : ℕ // n ≤ maxSize} := fun s =>
  if h : n ≤ maxSize then .ok ⟨n, h⟩ { s with allocated := s.allocated + n }
  else .error .lengthError s

/-- Add up `count` bytes, each times the next power of 256. -/
def addBytes : (count value multiplier : ℕ) → Decoder ℕ
  | 0, value, _ => return value
  | count + 1, value, multiplier => do
    let byte ← nextByte
    addBytes count (value + byte.val * multiplier) (multiplier * 256)

/-! ## Integers -/

inductive Width
  | one | two | four | eight
deriving DecidableEq

def Width.size : Width → ℕ
  | .one => 1
  | .two => 2
  | .four => 4
  | .eight => 8

def castUnsigned (w : Width) (v : ℕ) : {v : ℕ // v < 256 ^ w.size} :=
  ⟨v % 256 ^ w.size, Nat.mod_lt _ (Nat.pow_pos (by decide))⟩

/-- The values of the signed type of the width. -/
def InRange (w : Width) (v : ℤ) : Prop :=
  -(256 ^ w.size / 2 : ℕ) ≤ v ∧ v < (256 ^ w.size / 2 : ℕ)

theorem inRange_bmod {w : Width} {v : ℤ} : InRange w (v.bmod (256 ^ w.size)) := by
  have hpos : 0 < 256 ^ w.size := Nat.pow_pos (by decide)
  have heven : 256 ^ w.size % 2 = 0 := by cases w <;> decide
  have hlow := Int.le_bmod (x := v) hpos
  have hhigh := Int.bmod_lt (x := v) hpos
  constructor <;> omega

def castSigned (w : Width) (v : ℤ) : {v : ℤ // InRange w v} :=
  ⟨v.bmod (256 ^ w.size), inRange_bmod⟩

/-- The least significant bytes first, as `boost::endian` stores them. -/
def littleEndian : (size value : ℕ) → Bytes
  | 0, _ => []
  | size + 1, value => Fin.ofNat 256 value :: littleEndian size (value / 256)

/-- The part of `decodeInteger` that reads the bytes. -/
def decodeInteger (size : ℕ) : Decoder ℕ := do
  requireMore size "decodeInteger exception for NOT_ENOUGH_DATA"
  addBytes size 0 1

/-- The bytes of an integral value; one byte is taken as it is. -/
def decodeIntegral (w : Width) : Decoder ℕ :=
  if w = .one then do
    let byte ← nextByte
    return byte.val
  else decodeInteger w.size

/-- The signed value that `decodeInteger` finds in the 64 bits of `v`: a negative
one is negated twice. -/
def signedOf (w : Width) (v : ℕ) : {v : ℤ // InRange w v} :=
  if w = .one ∨ v < 256 ^ w.size / 2 then castSigned w v
  else castSigned w (-(castSigned w ((2 ^ 64 - v) % 2 ^ 64 : ℕ)).val)

/-! ## Compact integers -/

/-- The bytes of a number, at least one. -/
def countBytes (v : ℕ) : ℕ :=
  if v / 256 = 0 then 1 else countBytes (v / 256) + 1
termination_by v
decreasing_by omega

def kMinUint16 : ℕ := 2 ^ 6

def kMinUint32 : ℕ := 2 ^ 14

def kMinBigInteger : ℕ := 2 ^ 30

def encodeFirstCategory (value : ℕ) : Bytes := [Fin.ofNat 256 (value * 4)]

def encodeSecondCategory (value : ℕ) : Bytes :=
  let v := value * 4 + 1
  [Fin.ofNat 256 v, Fin.ofNat 256 (v / 256)]

def encodeThirdCategory (value : ℕ) : Bytes := littleEndian 4 (value * 4 + 2)

def encodeCompactInteger (value : ℤ) : Except ScaleEncodeException Bytes :=
  if value < 0 then
    .error ⟨"encodeCompactInteger exception for NEGATIVE_COMPACT_INTEGER"⟩
  else if value < kMinUint16 then .ok (encodeFirstCategory value.toNat)
  else if value < kMinUint32 then .ok (encodeSecondCategory value.toNat)
  else if value < kMinBigInteger then .ok (encodeThirdCategory value.toNat)
  else
    let bigIntLength := countBytes value.toNat
    if 67 < bigIntLength then
      .error ⟨"encodeCompactInteger exception for COMPACT_INTEGER_TOO_BIG"⟩
    else
      .ok (Fin.ofNat 256 ((bigIntLength - 4) * 4 + 3) :: littleEndian bigIntLength value.toNat)

def decodeCompactInteger : Decoder ℕ := do
  let firstByte ← nextByte
  match firstByte.val % 4 with
  | 0 => return firstByte.val / 4
  | 1 =>
    let secondByte ← nextByte
    return (firstByte.val / 4 * 4 + secondByte.val * 256) / 4
  | 2 =>
    requireMore 3 "decodeOptionalBool exception for not enough data"
    let number ← addBytes 3 firstByte.val 256
    return number / 4
  | _ =>
    let bytesCount := firstByte.val / 4 + 4
    requireMore bytesCount "decodeCompactInteger exception for not enough data"
    addBytes bytesCount 0 1

/-- The announced size of a collection, as a `size_type`. -/
def decodeItemCount : Decoder {n : ℕ // n < 2 ^ 64} := do
  let size ← decodeCompactInteger
  return ⟨size % 2 ^ 64, Nat.mod_lt _ (by decide)⟩

/-! ## Large integers -/

abbrev U256 := {v : ℕ // v < 2 ^ 256}

/-- A sign and 256 bits for the magnitude. -/
abbrev S256 := {v : ℤ // v.natAbs < 2 ^ 256}

/-- Interprets `u` as a two's complement signed number. -/
def u2s (u : U256) : S256 :=
  if h : u.1.testBit 255 then
    ⟨-(2 ^ 256 - u.1), by
      have hbit := Nat.ge_two_pow_of_testBit h
      have hlt := u.2
      omega⟩
  else ⟨u.1, u.2⟩

/-- The two's complement representation of `v`. -/
def s2u (v : S256) : U256 :=
  if h : 0 ≤ v.1 then ⟨v.1.toNat, by have := v.2; omega⟩
  else ⟨(2 ^ 256 + v.1).toNat, by have := v.2; omega⟩

def encodeU256 (v : U256) : Bytes := bigEndian 32 v.1

def decodeU256 : Decoder U256 := do
  let bytes ← assign 32
  return ⟨fromBigEndian bytes.1 % 2 ^ 256, Nat.mod_lt _ (by decide)⟩

/-! ## The types and their operators -/

/-- The values of a type, with its overloads of `<<` and `>>`. -/
structure ScaleType where
  carrier : Type
  /-- The order of `std::less`. -/
  order : LinearOrder carrier
  /-- The values in the range that the format is made for. -/
  Fits : carrier → Prop
  /-- For the types of size one, the value a byte is converted to. -/
  ofByte : Option (Byte → carrier)
  encode : carrier → Except ScaleEncodeException Bytes
  decode : Decoder carrier

attribute [instance] ScaleType.order

namespace ScaleType

def encodeCollection {α : Type} (encode : α → Except ScaleEncodeException Bytes)
    (items : List α) : Except ScaleEncodeException Bytes := do
  let size ← encodeCompactInteger items.length
  let bytes ← encodeAll encode items
  return size ++ bytes

def decodeBool : Decoder Bool := do
  let byte ← nextByte
  if byte = 0 then return false
  else if byte = 1 then return true
  else throw (.scaleDecodeException "decodeBool exception for UNEXPECTED_VALUE")

def bool : ScaleType where
  carrier := Bool
  order := inferInstance
  Fits _ := True
  ofByte := some fun byte => byte ≠ 0
  encode v := .ok [if v then 1 else 0]
  decode := decodeBool

def uint (w : Width) : ScaleType where
  carrier := {v : ℕ // v < 256 ^ w.size}
  order := inferInstance
  Fits _ := True
  ofByte := if w = .one then some fun byte => castUnsigned w byte.val else none
  encode v := .ok (littleEndian w.size v.1)
  decode := do
    let v ← decodeIntegral w
    return castUnsigned w v

def int (w : Width) : ScaleType where
  carrier := {v : ℤ // InRange w v}
  order := inferInstance
  Fits _ := True
  ofByte := if w = .one then some fun byte => castSigned w byte.val else none
  encode v := .ok (littleEndian w.size (v.1 % (256 ^ w.size : ℕ)).toNat)
  decode := do
    let v ← decodeIntegral w
    return signedOf w v

/-- `CompactInteger`, an integer without bounds.  The format has at most 67 bytes for it:
the values are those below `2 ^ 536`. -/
def compact : ScaleType where
  carrier := ℤ
  order := inferInstance
  Fits v := 0 ≤ v ∧ v < 256 ^ 67
  ofByte := none
  encode := encodeCompactInteger
  decode := do
    let v ← decodeCompactInteger
    return (v : ℤ)

def u256 : ScaleType where
  carrier := U256
  order := inferInstance
  Fits _ := True
  ofByte := none
  encode v := .ok (encodeU256 v)
  decode := decodeU256

def s256 : ScaleType where
  carrier := S256
  order := inferInstance
  Fits v := -2 ^ 255 ≤ v.1 ∧ v.1 < 2 ^ 255
  ofByte := none
  encode v := .ok (encodeU256 (s2u v))
  decode := do
    let v ← decodeU256
    return u2s v

/-- The bytes of a vector whose elements have size one. -/
def decodeBytes {α : Type} (ofByte : Byte → α) : Decoder {l : List α // l.length ≤ maxSize} := do
  let itemCount ← decodeItemCount
  let itemCount ← resize itemCount.1
  let bytes ← assign itemCount.1
  return ⟨bytes.1.map ofByte, by rw [List.length_map, bytes.2]; exact itemCount.2⟩

/-- A string is decoded as a `std::vector<uint8_t>`. -/
def string : ScaleType where
  carrier := {s : Bytes // s.length ≤ maxSize}
  order := inferInstance
  Fits _ := True
  ofByte := none
  encode s := encodeCollection (fun byte => .ok [byte]) s.1
  decode := decodeBytes id

def decodeItems (c : ScaleType) : Decoder {l : List c.carrier // l.length ≤ maxSize} := do
  let itemCount ← decodeItemCount
  let itemCount ← resize itemCount.1
  let items ← times c.decode itemCount.1
  return ⟨items.1, items.2.trans_le itemCount.2⟩

def decodeVector (c : ScaleType) : Decoder {l : List c.carrier // l.length ≤ maxSize} :=
  match c.ofByte with
  | some ofByte => decodeBytes ofByte
  | none => decodeItems c

def vector (c : ScaleType) : ScaleType where
  carrier := {l : List c.carrier // l.length ≤ maxSize}
  order := inferInstance
  Fits l := ∀ v ∈ l.1, c.Fits v
  ofByte := none
  encode l := encodeCollection c.encode l.1
  decode := decodeVector c

def array (c : ScaleType) (n : ℕ) : ScaleType where
  carrier := {l : List c.carrier // l.length = n}
  order := inferInstance
  Fits l := ∀ v ∈ l.1, c.Fits v
  ofByte := none
  encode l := encodeAll c.encode l.1
  decode := times c.decode n

def encodePair (a b : ScaleType) (p : a.carrier × b.carrier) :
    Except ScaleEncodeException Bytes := do
  let first ← a.encode p.1
  let second ← b.encode p.2
  return first ++ second

def decodePair (a b : ScaleType) : Decoder (a.carrier × b.carrier) := do
  let first ← a.decode
  let second ← b.decode
  return (first, second)

def pair (a b : ScaleType) : ScaleType where
  carrier := a.carrier × b.carrier
  order := inferInstanceAs (LinearOrder (a.carrier ×ₗ b.carrier))
  Fits p := a.Fits p.1 ∧ b.Fits p.2
  ofByte := none
  encode := encodePair a b
  decode := decodePair a b

def unit : ScaleType where
  carrier := PUnit
  order := inferInstance
  Fits _ := True
  ofByte := none
  encode _ := .ok []
  decode := return ⟨⟩

/-- Tuples; a tuple of one element has the size of the element. -/
def tuple : List ScaleType → ScaleType
  | [] => unit
  | [c] => { pair c unit with ofByte := c.ofByte.map fun ofByte byte => (ofByte byte, ⟨⟩) }
  | c :: cs => pair c (tuple cs)

def optional (c : ScaleType) : ScaleType where
  carrier := Option c.carrier
  order := inferInstanceAs (LinearOrder (WithBot c.carrier))
  Fits v := ∀ a ∈ v, c.Fits a
  ofByte := none
  encode
    | none => .ok [0]
    | some a => do
      let bytes ← c.encode a
      return 1 :: bytes
  decode := do
    let hasValue ← decodeBool
    if hasValue then
      let a ← c.decode
      return some a
    else return none

/-- `boost::optional<bool>` takes one byte: `OptionalBool`. -/
def optionalBool : ScaleType where
  carrier := Option Bool
  order := inferInstanceAs (LinearOrder (WithBot Bool))
  Fits _ := True
  ofByte := none
  encode
    | none => .ok [0]
    | some true => .ok [1]
    | some false => .ok [2]
  decode := do
    let byte ← nextByte
    if byte = 0 then return none
    else if byte = 1 then return some true
    else if byte = 2 then return some false
    else throw (.scaleDecodeException "decodeOptionalBool exception for unexpected value")

/-- The entries of a map; a key that is there already keeps its value. -/
def decodeEntries (k v : ScaleType) :
    (n : ℕ) → Decoder {m : SortedMap k.carrier v.carrier // m.size ≤ n}
  | 0 => return ⟨.empty, le_rfl⟩
  | n + 1 => do
    let m ← decodeEntries k v n
    let p ← decodePair k v
    modify fun s => { s with allocated := s.allocated + 1 }
    return ⟨m.1.emplace p.1 p.2, (m.1.size_emplace_le p.1 p.2).trans (Nat.add_le_add_right m.2 1)⟩

def map (k v : ScaleType) : ScaleType where
  carrier := {m : SortedMap k.carrier v.carrier // m.size < 2 ^ 64}
  order := LinearOrder.lift' (fun m => m.1.toList.map toLex) (by
    intro m m' h
    exact Subtype.ext (SortedMap.ext (List.map_injective_iff.mpr toLex.injective h)))
  Fits m := ∀ p ∈ m.1.toList, k.Fits p.1 ∧ v.Fits p.2
  ofByte := none
  encode m := encodeCollection (encodePair k v) m.1.toList
  decode := do
    let itemCount ← decodeItemCount
    let m ← decodeEntries k v itemCount.1
    return ⟨m.1, m.2.trans_lt itemCount.2⟩

end ScaleType

/-! ## The supported types -/

mutual

inductive Ty
  | bool
  | uint (w : Width)
  | int (w : Width)
  | compact
  | u256
  | s256
  | string
  | vector (t : Ty)
  | array (t : Ty) (n : ℕ)
  | pair (a b : Ty)
  | tuple (ts : Tys)
  | optional (t : Ty)
  | variant (ts : Tys)
  | map (k v : Ty)
deriving DecidableEq

/-- Lists of types, the parameter packs of tuples and variants. -/
inductive Tys
  | nil
  | cons (t : Ty) (ts : Tys)
deriving DecidableEq

end

def Tys.toList : Tys → List Ty
  | .nil => []
  | .cons t ts => t :: ts.toList

/-- The value of a variant, and the operators by the index of its alternative. -/
structure Alternatives where
  carrier : Type
  order : LinearOrder carrier
  Fits : carrier → Prop
  /-- `v.type()` -/
  type : carrier → Ty
  encode : carrier → Except ScaleEncodeException Bytes
  /-- `tryDecodeAsOneOfVariant` -/
  decode : ℕ → Decoder carrier

attribute [instance] Alternatives.order

namespace Alternatives

def nil : Alternatives where
  carrier := PEmpty
  order := inferInstance
  Fits _ := True
  type v := v.elim
  encode v := v.elim
  decode _ := throw (.scaleDecodeException "exception for WRONG_TYPE_INDEX")

def cons (t : Ty) (c : ScaleType) (rest : Alternatives) : Alternatives where
  carrier := c.carrier ⊕ rest.carrier
  order := inferInstanceAs (LinearOrder (c.carrier ⊕ₗ rest.carrier))
  Fits := Sum.elim c.Fits rest.Fits
  type := Sum.elim (fun _ => t) rest.type
  encode := Sum.elim c.encode rest.encode
  decode
    | 0 => do
      let v ← c.decode
      return .inl v
    | i + 1 => do
      let v ← rest.decode i
      return .inr v

end Alternatives

/-- `boost::variant<Ts...>`.  The index that is written is the first one whose type is
that of the value. -/
def ScaleType.variant (types : List Ty) (alternatives : Alternatives) : ScaleType where
  carrier := alternatives.carrier
  order := inferInstance
  Fits := alternatives.Fits
  ofByte := none
  encode v := do
    let bytes ← alternatives.encode v
    return Fin.ofNat 256 (types.idxOf (alternatives.type v)) :: bytes
  decode := do
    let typeIndex ← nextByte
    alternatives.decode typeIndex.val

mutual

/-- The values and operators of a type. -/
def Ty.denote : Ty → ScaleType
  | .bool => .bool
  | .uint w => .uint w
  | .int w => .int w
  | .compact => .compact
  | .u256 => .u256
  | .s256 => .s256
  | .string => .string
  | .vector t => .vector t.denote
  | .array t n => .array t.denote n
  | .pair a b => .pair a.denote b.denote
  | .tuple ts => .tuple ts.denote
  | .optional .bool => .optionalBool
  | .optional t => .optional t.denote
  | .variant ts => .variant ts.toList ts.alternatives
  | .map k v => .map k.denote v.denote

def Tys.denote : Tys → List ScaleType
  | .nil => []
  | .cons t ts => t.denote :: ts.denote

def Tys.alternatives : Tys → Alternatives
  | .nil => .nil
  | .cons t ts => .cons t t.denote ts.alternatives

end

mutual

/-- The alternatives of a variant are distinct, and their indices are `uint8_t`s. -/
def Ty.supported : Ty → Bool
  | .bool | .uint _ | .int _ | .compact | .u256 | .s256 | .string => true
  | .vector t => t.supported
  | .array t _ => t.supported
  | .pair a b => a.supported && b.supported
  | .tuple ts => ts.supported
  | .optional t => t.supported
  | .variant ts =>
    ts.supported && decide (ts.toList ≠ [] ∧ ts.toList.Nodup ∧ ts.toList.length ≤ 256)
  | .map k v => k.supported && v.supported

def Tys.supported : Tys → Bool
  | .nil => true
  | .cons t ts => t.supported && ts.supported

end

abbrev Ty.Value (t : Ty) : Type := t.denote.carrier

/-- `scale::encode` of one argument. -/
def encode (t : Ty) (v : t.Value) : Except ScaleEncodeException Bytes := t.denote.encode v

/-- `scale::decode`, with the stream that it leaves. -/
def decode (t : Ty) (span : Bytes) : EStateM.Result DecodeFailure (Cursor Byte) t.Value :=
  t.denote.decode (Cursor.start span)

end FiscoSmart.Codec.Scale
