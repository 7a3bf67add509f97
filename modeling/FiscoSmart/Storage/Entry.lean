import FiscoSmart.Support.Encoding
import FiscoSmart.Support.SortedMap

/-!
# Entries, changes and errors of the storage layer

The value types shared by `KeyPageStorage` and `StateStorage`: an `Entry` with
its status, a `Recoder` and its changes, the condition of a primary-key scan,
and the errors a storage hands back.  Strings are byte strings compared byte by
byte, as `std::string` compares them.
-/

namespace FiscoSmart.Storage

open Support

/-- Row keys and page keys; the empty key is `TABLE_META_KEY`. -/
abbrev Key := Bytes

abbrev Table := Bytes

instance lawfulBEq_table : LawfulBEq Table := inferInstance

/-- The key under which a table keeps its page index. -/
abbrev tableMetaKey : Key := []

/-- `crypto::HashType`. -/
abbrev HashType := BitVec 256

inductive Status
  | normal
  | deleted
  | empty
  | modified
deriving DecidableEq, Repr

/-- `Entry`: `size` is `m_size`, which `setStatus` leaves alone when it drops
the value of a deleted entry. -/
structure Entry where
  value : Bytes
  size : ℕ
  status : Status
deriving DecidableEq, Repr

variable {e : Entry} {s : Status}

namespace Entry

def default : Entry := ⟨[], 0, .empty⟩

instance : Inhabited Entry := ⟨Entry.default⟩

/-- `Entry::get`, the view of the first `m_size` bytes of the value. -/
def get (e : Entry) : Bytes := e.value.take e.size

/-- `Entry::set` and `Entry::setObject` on the serialised object. -/
def set (_ : Entry) (value : Bytes) : Entry :=
  ⟨value, value.length, .modified⟩

def setStatus (e : Entry) (status : Status) : Entry :=
  if status = .deleted then { e with value := [], status }
  else { e with status }

def dirty (e : Entry) : Bool :=
  e.status = .modified || e.status = .deleted

/-- The 32-bit amount that `size()` contributes to a page size. -/
def size32 (e : Entry) : UInt32 := UInt32.ofNat e.size

def hash (e : Entry) (hashImpl : Bytes → HashType) : HashType :=
  match e.status with
  | .modified => hashImpl e.get
  | .deleted => 1
  | .normal => 0
  | .empty => 0

/-- The entry is counted by `m_validCount`. -/
def live (e : Entry) : Bool := e.status ≠ .deleted

/-- The entry is returned by a read. -/
def visible (e : Entry) : Bool :=
  e.status ≠ .deleted && e.status ≠ .empty

@[simp]
theorem setStatus_status : (e.setStatus s).status = s := by
  unfold setStatus
  split_ifs <;> rfl

theorem setStatus_get (hs : s ≠ .deleted) : (e.setStatus s).get = e.get := by
  simp [setStatus, hs, get]

end Entry

/-- What a row contributes to the state hash. -/
def rowHash (table : Table) (hashImpl : Bytes → HashType) (row : Key × Entry) :
    HashType :=
  if row.2.dirty then hashImpl table ^^^ hashImpl row.1 ^^^ row.2.hash hashImpl
  else 0

/-- `Recoder::Change`: what a write replaced. -/
structure Change where
  table : Table
  key : Key
  entry : Option Entry
deriving DecidableEq

/-- `Recoder`: changes are logged at the front, so that a traversal meets the
newest change first. -/
abbrev Recoder := List Change

inductive StorageError
  | unknownError
  | tableNotExists
  | systemTableNotExists
  | tableExists
  | unknownEntryType
  | readError
  | writeError
  | emptyStorage
  | readOnly
  | databaseError
  | databaseRetryable
  | tryLockFailed
  | timestampMismatch
deriving DecidableEq, Repr

/-- `bcos::Error`, without the chain of previous errors: the message is the
format string and `args` are the strings put into it. -/
structure Error where
  code : StorageError
  message : String
  args : List Bytes
deriving DecidableEq, Repr

/-- How a call can fail: with an error handed to the callback, by throwing, or
by leaving the defined behaviour of the language. -/
inductive Fault
  | returned (error : Error)
  | thrown (error : Error)
  | badVariantAccess
  | badOptionalAccess
  | archiveException
  | lengthError
  | undefinedBehaviour
deriving DecidableEq, Repr

inductive Comparator
  | eq
  | ne
  | gt
  | ge
  | lt
  | le
deriving DecidableEq, Repr

/-- `Condition`: key conditions and the `limit(start, count)` window. -/
structure Condition where
  conditions : List (Comparator × Key)
  limit : UInt64 × UInt64

namespace Condition

/-- One arm of the switch in `Condition::isValid`. -/
def holds : Comparator × Key → Key → Bool
  | (.eq, _), _ => true
  | (.ne, value), key => key ≠ value
  | (.gt, value), key => value < key
  | (.ge, value), key => value ≤ key
  | (.lt, value), key => key < value
  | (.le, value), key => key ≤ value

def isValid (c : Condition) (key : Key) : Bool :=
  c.conditions.all (fun cond => holds cond key)

end Condition

end FiscoSmart.Storage
