import FiscoSmart.Storage.Archive
import Mathlib.Data.List.AList

/-!
# The records of one table

`getBucketIndex` hashes the table name only, so all records of a table live in
one bucket and no operation on a table touches another table's records.  The
model therefore keeps one container per table.  Records are `Data` objects on a
heap: the container maps a record key to an address, and the page index points
to pages by address, as the `Data*` of `PageInfo` does.

The operations below are those of `KeyPageStorage` on a table that is not in
`m_ignoreTables`.  They run in a state monad with failures that keeps the state
reached when a call fails.
-/

namespace FiscoSmart.Storage

open Support Function

/-- `KeyPageStorage::Data::Type`. -/
inductive DataType
  | page
  | tableMeta
  | normalEntry
deriving DecidableEq, Repr

/-- The variant `KeyPageStorage::Data::data`. -/
inductive DataValue
  | page (p : Page)
  | tableMeta (m : TableMeta)
deriving DecidableEq

/-- `KeyPageStorage::Data`; the table name is kept by the enclosing storage. -/
structure Data where
  key : Key
  type : DataType
  entry : Entry
  data : DataValue
deriving DecidableEq

namespace Data

/-- The constructor of `Data` that decodes a stored entry. -/
def ofEntry (archive : Archive) (key : Key) (entry : Entry) : DataType → Except Fault Data
  | .tableMeta => do
    let m ← TableMeta.ofValue archive entry.get
    return ⟨key, .tableMeta, entry, .tableMeta m⟩
  | .page => do
    let p ← Page.ofValue archive entry.get key
    return ⟨key, .page, entry, .page p⟩
  | .normalEntry => .ok ⟨key, .normalEntry, entry, .page Page.empty⟩

def withMeta (d : Data) (m : TableMeta) : Data := { d with data := .tableMeta m }

def withPage (d : Data) (p : Page) : Data := { d with data := .page p }

def withStatus (d : Data) (status : Status) : Data :=
  { d with entry := d.entry.setStatus status }

def withKey (d : Data) (key : Key) : Data := { d with key }

/-- The record `getData` creates when the previous storage has none. -/
def created (key : Key) : Data :=
  if key = tableMetaKey then ⟨key, .tableMeta, Entry.default, .tableMeta .empty⟩
  else ⟨key, .page, Entry.default, .page .empty⟩

/-- The copy of a record of a previous `KeyPageStorage` as `getData` imports
it: a page or an index is cleaned and the record is `NORMAL`. -/
def imported (d : Data) : Except Fault Data :=
  if d.key ≠ tableMetaKey then
    match d.data with
    | .page p => .ok { d with
        data := .page (p.clean d.key), entry := d.entry.setStatus .normal }
    | .tableMeta _ => .error .badVariantAccess
  else
    match d.data with
    | .tableMeta m => .ok { d with
        data := .tableMeta m.clean, entry := d.entry.setStatus .normal }
    | .page _ => .error .badVariantAccess

variable (d : Data)

@[simp]
theorem withPage_entry (p : Page) : (d.withPage p).entry = d.entry := rfl

@[simp]
theorem withStatus_entry (status : Status) :
    (d.withStatus status).entry = d.entry.setStatus status := rfl

@[simp]
theorem withKey_entry (key : Key) : (d.withKey key).entry = d.entry := rfl

end Data

/-- The heap and the container of one table. -/
structure TableState where
  next : Address
  heap : Address → Option Data
  container : AList (fun _ : Key => Address)
  fatals : List Fatal

namespace TableState

def empty : TableState := ⟨0, fun _ => none, ∅, []⟩

/-- The address of the record stored under `key`. -/
def find (s : TableState) (key : Key) : Option Address :=
  s.container.lookup key

def cached (s : TableState) (key : Key) : Option Data :=
  (s.find key).bind s.heap

/-- The records of the container, in some order. -/
def records (s : TableState) : List (Key × Data) :=
  s.container.keys.filterMap (fun key => (s.cached key).map (Prod.mk key))

def store (s : TableState) (address : Address) (d : Data) : TableState :=
  { s with heap := update s.heap address (some d) }

/-- Allocate a new object and store it under `key`, releasing the record that
was stored there. -/
def insertOrAssign (s : TableState) (key : Key) (d : Data) : TableState :=
  let heap :=
    match s.find key with
    | some old => update s.heap old none
    | none => s.heap
  { s with
    next := s.next + 1
    heap := update heap s.next (some d)
    container := s.container.insert key s.next }

/-- Take the record `old` out of the container and store it under `new`,
releasing the record that was stored there. -/
def rename (s : TableState) (old new : Key) (address : Address) (d : Data) :
    TableState :=
  let heap :=
    match (s.container.erase old).lookup new with
    | some stale => update s.heap stale none
    | none => s.heap
  { s with
    heap := update heap address (some (d.withKey new))
    container := (s.container.erase old).insert new address }

/-- Take the record `old` out of the container and release it. -/
def drop (s : TableState) (old : Key) (address : Address) : TableState :=
  { s with
    heap := update s.heap address none
    container := s.container.erase old }

def logFatal (s : TableState) (f : Fatal) : TableState :=
  { s with fatals := f :: s.fatals }

end TableState

/-- What the operations on a table read of the storage they belong to:
`fetch` is the search of the previous storage in `getData`. -/
structure TableEnv where
  pageSize : ℕ
  splitSize : ℕ
  mergeSize : ℕ
  ignoreNotExist : Bool
  readOnly : Bool
  archive : Archive
  fetch : Key → Except Fault (Option Data)

abbrev TableM := EStateM Fault TableState

namespace TableM

/-- Dereference a `Data*`. -/
def deref (address : Address) : TableM Data := do
  match (← get).heap address with
  | some d => return d
  | none => throw .undefinedBehaviour

/-- `std::get<0>(data->data)`. -/
def pageAt (address : Address) : TableM Page := do
  match (← deref address).data with
  | .page p => return p
  | .tableMeta _ => throw .badVariantAccess

/-- `std::get<1>(data->data)`. -/
def metaAt (address : Address) : TableM TableMeta := do
  match (← deref address).data with
  | .tableMeta m => return m
  | .page _ => throw .badVariantAccess

def setPage (address : Address) (p : Page) : TableM Unit := do
  let d ← deref address
  modify (·.store address (d.withPage p))

def setMeta (address : Address) (m : TableMeta) : TableM Unit := do
  let d ← deref address
  modify (·.store address (d.withMeta m))

/-- `data->entry.setStatus(status)`. -/
def setStatus (address : Address) (status : Status) : TableM Unit := do
  let d ← deref address
  modify (·.store address (d.withStatus status))

def fatal (f : Fatal) : TableM Unit := modify (·.logFatal f)

/-- A statement guarded by an `if` without `else`. -/
def guarded (b : Prop) [Decidable b] (x : TableM Unit) : TableM Unit :=
  if b then x else pure ()

def logged (f : Option Fatal) : TableM Unit :=
  match f with
  | some f => fatal f
  | none => pure ()

/-- The page a `Data*` points to in state `s`. -/
def pageOf (s : TableState) (address : Address) : Except Fault Page :=
  match s.heap address with
  | none => .error .undefinedBehaviour
  | some d =>
    match d.data with
    | .page p => .ok p
    | .tableMeta _ => .error .badVariantAccess

end TableM

end FiscoSmart.Storage
