import FiscoSmart.Storage.TableOperations
import FiscoSmart.Storage.RowCache

/-!
# `KeyPageStorage`

The storage object: paged tables, the rows of the tables in `m_ignoreTables`,
and the recoder of the calling thread.  Its previous storage is another
`KeyPageStorage`, which hands out copies of its records, or any other storage,
which hands out rows only.  A call either returns or fails with a `Fault` and
leaves the state it has reached.
-/

namespace FiscoSmart.Storage

/-- What a `KeyPageStorage` reads of its previous storage: `copyData` is the
copy a stacked storage asks for, `getData` the search of `getData`, and
`asyncGetRow` the read of a row. -/
structure Prev where
  copyData : Table → Key → Except Fault (Option Data)
  getData : Table → Key → Except Fault (Option Data)
  asyncGetRow : Table → Key → Except Fault (Option Entry)

/-- A record built from a stored row. -/
def decodeRow (archive : Archive) (key : Key) : Option Entry → Except Fault (Option Data)
  | none => .ok none
  | some entry =>
    (Data.ofEntry archive key (entry.setStatus .normal)
      (if key = tableMetaKey then .tableMeta else .page)).map some

/-- A previous storage that is not a `KeyPageStorage`. -/
def Prev.ofRows (archive : Archive) (rows : Table → Key → Except Fault (Option Entry)) : Prev where
  copyData table key :=
    match rows table key with
    | .error (.returned _) => .ok none
    | .error e => .error e
    | .ok entry => decodeRow archive key entry
  getData table key :=
    match rows table key with
    | .error e => .error e
    | .ok entry => decodeRow archive key entry
  asyncGetRow := rows

/-- `KeyPageStorage`; `pageSize` is `m_pageSize`. -/
structure KeyPageStorage where
  prev : Prev
  pageSize : ℕ
  ignoreTables : List Table
  ignoreNotExist : Bool
  readOnly : Bool
  archive : Archive
  tables : AList (fun _ : Table => TableState)
  entries : RowCache
  recoder : Option Recoder

def minPageSize : ℕ := 2048

/-- `SYS_TABLES`, the string `s_tables`. -/
def sysTables : Table := [115, 95, 116, 97, 98, 108, 101, 115]

namespace KeyPageStorage

abbrev M := EStateM Fault KeyPageStorage

def create (archive : Archive) (prev : Prev) (pageSize : ℕ)
    (ignoreTables : Option (List Table)) (ignoreNotExist : Bool) : KeyPageStorage where
  prev
  pageSize := if minPageSize < pageSize then pageSize else minPageSize
  ignoreTables := ignoreTables.getD [sysTables]
  ignoreNotExist
  readOnly := false
  archive
  tables := ∅
  entries := ∅
  recoder := none

def table (s : KeyPageStorage) (t : Table) : TableState :=
  (s.tables.lookup t).getD TableState.empty

def setTable (s : KeyPageStorage) (t : Table) (state : TableState) :
    KeyPageStorage :=
  { s with tables := s.tables.insert t state }

/-- What the operations on a table read of the storage. -/
def env (s : KeyPageStorage) (t : Table) : TableEnv where
  pageSize := s.pageSize
  splitSize := s.pageSize / 3 * 2
  mergeSize := s.pageSize / 4
  ignoreNotExist := s.ignoreNotExist
  readOnly := s.readOnly
  archive := s.archive
  fetch := s.prev.getData t

def copyData (s : KeyPageStorage) (t : Table) (key : Key) : Except Fault (Option Data) :=
  match (s.table t).cached key with
  | some d => .ok (some d)
  | none => s.prev.copyData t key

/-- Run a call on the records of a paged table. -/
def onTable {α : Type} (t : Table) (x : TableEnv → TableM α) : M α :=
  fun s =>
    match x (s.env t) (s.table t) with
    | .ok a state => .ok a (s.setTable t state)
    | .error e state => .error e (s.setTable t state)

/-- `m_recoder.local()->log(…)`. -/
def log (change : Change) : M Unit :=
  modify (fun s => { s with recoder := s.recoder.map (change :: ·) })

def getSysTableRawEntry (t : Table) (key : Key) : M (Option Entry) := do
  let s ← get
  match s.entries.find t key with
  | some entry => return some entry
  | none =>
    match s.prev.asyncGetRow t key with
    | .error e => throw e
    | .ok none => return none
    | .ok (some entry) =>
      if s.readOnly then return some entry
      else
        let (entries, entry) := s.entries.importExistingEntry t key entry
        set { s with entries }
        return some entry

def asyncGetRow (t : Table) (key : Key) : M (Option Entry) := do
  if t ∈ (← get).ignoreTables then
    tryCatch (getSysTableRawEntry t key) (fun e => throw (getRowFailed e))
  else onTable t (fun env => TableM.getEntryFromPage env key)

/-- The write of a row of a table in `m_ignoreTables`. -/
def setSysTableRow (t : Table) (key : Key) (entry : Entry) : M Unit := do
  let s ← get
  set { s with entries := s.entries.set t key (entry.setStatus .modified) }
  log ⟨t, key, s.entries.find t key⟩

def asyncSetRow (t : Table) (key : Key) (entry : Entry) : M Unit := do
  let s ← get
  if s.readOnly then
    throw (.returned ⟨.readOnly, "Try to operate a read-only storage", []⟩)
  else if t ∈ s.ignoreTables then setSysTableRow t key entry
  else
    let entryOld ← onTable t (fun env => TableM.setEntryToPage env key entry)
    log ⟨t, key, entryOld⟩

def asyncGetPrimaryKeys (t : Table) (condition : Option Condition) : M (List Key) := do
  if t ∈ (← get).ignoreTables then
    throw (.returned ⟨.readError, "scan s_tables is not supported", []⟩)
  else onTable t (fun env => TableM.getPrimaryKeys env t condition)

/-- The undo of one recorded change in `KeyPageStorage::rollback`. -/
def undo (change : Change) : M Unit := do
  let s ← get
  if change.table ∈ s.ignoreTables then
    match s.entries.undo change with
    | .error e => throw e
    | .ok entries => set { s with entries }
  else onTable change.table (fun env => TableM.rollbackChange env change)

def rollback (recoder : Recoder) : M Unit := do
  if (← get).readOnly then return ()
  else recoder.forM undo

def setRecoder (recoder : Option Recoder) (s : KeyPageStorage) :
    KeyPageStorage :=
  { s with recoder }

def hash (hashImpl : Bytes → HashType) (s : KeyPageStorage) : HashType :=
  let pagesHash := s.tables.entries.foldl (fun acc r => acc ^^^ r.2.hash r.1 hashImpl) 0
  let entriesHash := s.entries.hash hashImpl
  0 ^^^ pagesHash ^^^ entriesHash

/-- `KeyPageStorage::parallelTraverse`: the rows handed to the callback. -/
def parallelTraverse (onlyDirty : Bool) (s : KeyPageStorage) : List (Table × Key × Entry) :=
  s.tables.entries.flatMap (fun r =>
      (r.2.traverse s.archive onlyDirty).map (fun row => (r.1, row))) ++
    (s.entries.rows.filter (fun r => !onlyDirty || r.2.dirty)).map (fun r => (r.1.1, r.1.2, r.2))

end KeyPageStorage

/-- A previous storage that is a `KeyPageStorage`. -/
def Prev.ofKeyPage (s : KeyPageStorage) : Prev where
  copyData := s.copyData
  getData t key :=
    match s.copyData t key with
    | .error e => .error e
    | .ok none => .ok none
    | .ok (some d) => d.imported.map some
  asyncGetRow t key :=
    match KeyPageStorage.asyncGetRow t key s with
    | .ok entry _ => .ok entry
    | .error e _ => .error e

end FiscoSmart.Storage
