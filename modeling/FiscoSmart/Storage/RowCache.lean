import FiscoSmart.Storage.Entry
import Mathlib.Data.List.AList

/-!
# Rows cached one by one

`StateStorage` keeps every row it has read or written in a container of its
own.  `KeyPageStorage` treats the rows of the tables in `m_ignoreTables` the
same way, so the container and its operations are shared here.
-/

namespace FiscoSmart.Storage

open Function

/-- A container of rows by table and key. -/
abbrev RowCache := AList (fun _ : Table × Key => Entry)

namespace RowCache

def find (c : RowCache) (table : Table) (key : Key) : Option Entry :=
  c.lookup (table, key)

/-- The insertion or replacement of a row in `asyncSetRow`. -/
def set (c : RowCache) (table : Table) (key : Key) (entry : Entry) : RowCache :=
  c.insert (table, key) entry

/-- `importExistingEntry` for a row that is not cached. -/
def importExistingEntry (c : RowCache) (table : Table) (key : Key)
    (entry : Entry) : RowCache × Entry :=
  (c.insert (table, key) (entry.setStatus .normal), entry.setStatus .normal)

/-- The undo of one change in `rollback`. -/
def undo (c : RowCache) (change : Change) : Except Fault RowCache :=
  match change.entry with
  | some entry => .ok (c.insert (change.table, change.key) entry)
  | none =>
    match c.find change.table change.key with
    | some _ => .ok (c.erase (change.table, change.key))
    | none =>
      .error (.thrown ⟨.unknownError, "Not found rollback entry: %s:%s",
        [change.table, change.key]⟩)

theorem find_set_self (c : RowCache) (table : Table) (key : Key) (entry : Entry) :
    (c.set table key entry).find table key = some entry :=
  AList.lookup_insert c

theorem find_set_ne {c : RowCache} {table table' : Table} {key key' : Key}
    {entry : Entry} (h : (table', key') ≠ (table, key)) :
    (c.set table key entry).find table' key' = c.find table' key' :=
  AList.lookup_insert_ne h

theorem lookup_insert (c : RowCache) (x : Table × Key) (entry : Entry) :
    (fun y => (c.insert x entry).lookup y) = update (fun y => c.lookup y) x (some entry) := by
  funext y
  by_cases hy : y = x
  · rw [hy, update_self, AList.lookup_insert]
  · rw [update_of_ne hy, AList.lookup_insert_ne hy]

theorem lookup_erase (c : RowCache) (x : Table × Key) :
    (fun y => (c.erase x).lookup y) = update (fun y => c.lookup y) x none := by
  funext y
  by_cases hy : y = x
  · rw [hy, update_self, AList.lookup_erase]
  · rw [update_of_ne hy, AList.lookup_erase_ne hy]

/-- The undo of a change to a row that is cached. -/
theorem exists_undo {c : RowCache} {change : Change}
    (h : change.entry = none → c.find change.table change.key ≠ none) :
    ∃ c', c.undo change = .ok c' ∧
      (fun y => AList.lookup y c') =
        update (fun y => c.lookup y) (change.table, change.key) change.entry := by
  rcases hentry : change.entry with - | entry
  · obtain ⟨cached, hfind⟩ := Option.ne_none_iff_exists'.mp (h hentry)
    exact ⟨_, by rw [undo, hentry, hfind], c.lookup_erase _⟩
  · exact ⟨_, by rw [undo, hentry], c.lookup_insert _ entry⟩

/-- The cached rows, in some order. -/
def rows (c : RowCache) : List ((Table × Key) × Entry) :=
  c.entries.map (fun r => (r.1, r.2))

/-- The exclusive or over the dirty rows. -/
def hash (hashImpl : Bytes → HashType) (c : RowCache) : HashType :=
  c.rows.foldl (fun acc r => acc ^^^ rowHash r.1.1 hashImpl (r.1.2, r.2)) 0

end RowCache

/-- `StateStorage`, that is `BaseStorage` without eviction; `prev` answers the
reads of the previous storage. -/
structure StateStorage where
  prev : Table → Key → Except Fault (Option Entry)
  readOnly : Bool
  cache : RowCache
  recoder : Option Recoder

/-- The error a failed read of the previous storage is turned into. -/
def getRowFailed : Fault → Fault
  | .returned _ => .returned ⟨.readError, "Get row from storage failed!", []⟩
  | e => e

namespace StateStorage

abbrev M := EStateM Fault StateStorage

/-- A fresh storage on a previous one. -/
def create (prev : Table → Key → Except Fault (Option Entry)) : StateStorage :=
  ⟨prev, false, ∅, none⟩

/-- `BaseStorage::asyncGetRow`. -/
def asyncGetRow (table : Table) (key : Key) : M (Option Entry) := do
  let s ← get
  match s.cache.find table key with
  | some entry => return if entry.status = .deleted then none else some entry
  | none =>
    match s.prev table key with
    | .error e => throw (getRowFailed e)
    | .ok none => return none
    | .ok (some entry) =>
      if s.readOnly then return some entry
      else
        let (cache, entry) := s.cache.importExistingEntry table key entry
        set { s with cache }
        return some entry

/-- `BaseStorage::asyncSetRow`. -/
def asyncSetRow (table : Table) (key : Key) (entry : Entry) : M Unit := do
  let s ← get
  if s.readOnly then
    throw (.returned ⟨.readOnly, "Try to operate a read-only storage", []⟩)
  else
    set { s with
      cache := s.cache.set table key entry
      recoder := s.recoder.map (⟨table, key, s.cache.find table key⟩ :: ·) }

/-- `BaseStorage::hash`. -/
def hash (hashImpl : Bytes → HashType) (s : StateStorage) : HashType :=
  s.cache.hash hashImpl

def withCache (s : StateStorage) (cache : RowCache) : StateStorage :=
  { s with cache }

/-- A row of the previous storage, as a read returns it. -/
def fetched (s : StateStorage) (entry : Entry) : Entry :=
  if s.readOnly then entry else entry.setStatus .normal

theorem asyncGetRow_run (s : StateStorage) (table : Table) (key : Key) :
    asyncGetRow table key s =
      match s.cache.find table key, s.prev table key with
      | some entry, _ => .ok (if entry.status = .deleted then none else some entry) s
      | none, .error e => .error (getRowFailed e) s
      | none, .ok none => .ok none s
      | none, .ok (some entry) => .ok (some (fetched s entry)) (if s.readOnly then s else
          s.withCache (s.cache.importExistingEntry table key entry).1) := by
  have hget {α : Type} (f : StateStorage → M α) : (get >>= f) s = f s s := rfl
  rw [asyncGetRow, hget]
  unfold fetched
  rcases s.cache.find table key with - | entry
  · rcases s.prev table key with e | - | entry
    · rfl
    · rfl
    · dsimp only
      split <;> rfl
  · rfl

end StateStorage

end FiscoSmart.Storage
