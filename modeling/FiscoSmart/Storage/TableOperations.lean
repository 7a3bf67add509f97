import FiscoSmart.Storage.Table

/-!
# Reading, writing and undoing rows of a paged table

The operations of `KeyPageStorage` on one table: `getData` with its search of
the previous storage, `getEntryFromPage`, `setEntryToPage` with the page splits,
merges and page-key changes it triggers, the undo of one recorded change, and
the scan of the primary keys.  `setEntryToPage` is cut at its comments: locate
the page, write the entry, then split or merge.
-/

namespace FiscoSmart.Storage

open Support

namespace TableM

/-- `KeyPageStorage::getData`. -/
def getData (env : TableEnv) (key : Key) (mustExist : Bool) :
    TableM Address := do
  let s ← get
  match s.find key with
  | some address => return address
  | none =>
    match env.fetch key with
    | .error e => throw e
    | .ok (some d) =>
      set (s.insertOrAssign key d)
      return s.next
    | .ok none =>
      guarded (mustExist ∧ ¬ env.ignoreNotExist) (fatal .dataShouldExist)
      modify (·.insertOrAssign key (Data.created key))
      return s.next

/-- The page information at a position of the index. -/
def infoAt (metaData : Address) (position : ℕ) : TableM PageInfo := do
  match (← metaAt metaData).pages[position]? with
  | some info => return info
  | none => throw .undefinedBehaviour

/-- `pageInfo->setPageData(pageData)`. -/
def setPageData (metaData : Address) (position : ℕ) (pageData : Address) :
    TableM Unit := do
  let m ← metaAt metaData
  setMeta metaData { m with
    pages := m.pages.modify position (fun info => { info with pageData := some pageData }) }

/-- `meta->getPageInfoNoLock(key)`. -/
def getPageInfoNoLock (metaData : Address) (key : Key) : TableM (Option ℕ) := do
  let m ← metaAt metaData
  match m.getPageInfoNoLock (pageOf (← get)) key with
  | .error e => throw e
  | .ok (position, m) =>
    setMeta metaData m
    return position

/-- `meta->insertPageInfoNoLock(info)`. -/
def insertPageInfoNoLock (metaData : Address) (info : PageInfo) :
    TableM Unit := do
  let (m, f) := (← metaAt metaData).insertPageInfoNoLock info
  setMeta metaData m
  logged f

/-- `meta->updatePageInfoNoLock(…)` for a page. -/
def updatePageInfoNoLock (metaData : Address) (oldEndKey : Key) (page : Page)
    (pageInfo : Option ℕ) : TableM (Option Key) := do
  let (m, oldPageKey, f) := (← metaAt metaData).updatePageInfoNoLock
    oldEndKey page.endKey page.validCount page.size pageInfo
  setMeta metaData m
  logged f
  return oldPageKey

/-- `KeyPageStorage::changePageKey`. -/
def changePageKey (oldPageKey newPageKey : Key) (isRevert : Bool) : TableM (Option Address) := do
  if newPageKey = [] ∧ ¬ isRevert then
    fatal .changePageKeyToEmpty
    return none
  else
    match (← get).find oldPageKey with
    | none => throw .undefinedBehaviour
    | some address =>
      let _ ← pageAt address
      let d ← deref address
      if newPageKey = [] then
        modify (·.drop oldPageKey address)
        return none
      else
        modify (·.rename oldPageKey newPageKey address d)
        return some address

/-- The entry-page part of `getEntryFromPage`, once the page is at hand. -/
def readPage (env : TableEnv) (info : PageInfo) (pageData : Address)
    (key : Key) : TableM (Option Entry) := do
  let d ← deref pageData
  if d.entry.status = .empty then
    return none
  else
    let page ← pageAt pageData
    guarded (page.validCount.toNat ≠ info.count.toNat ∧ ¬ env.ignoreNotExist)
      (fatal .pageValidCountMismatch)
    if env.readOnly then
      guarded (info.pageKey ≠ key) (fatal .readonlyReadEntry)
      if 0 < page.size then
        return some ((Entry.default.set (env.archive.write page.save)).setStatus d.entry.status)
      else return none
    else return page.getEntry key

/-- The read of the index itself in `getEntryFromPage`. -/
def readMeta (env : TableEnv) (metaData : Address) : TableM (Option Entry) := do
  let m ← metaAt metaData
  if m.pages.isEmpty then
    return none
  else
    let d ← deref metaData
    if d.entry.dirty then
      setMeta metaData m.prune
      return some ((Entry.default.set (env.archive.write m.save)).setStatus d.entry.status)
    else return some d.entry

/-- `KeyPageStorage::getEntryFromPage`. -/
def getEntryFromPage (env : TableEnv) (key : Key) : TableM (Option Entry) := do
  let metaData ← getData env tableMetaKey false
  if key = [] then
    readMeta env metaData
  else
    match ← getPageInfoNoLock metaData key with
    | none => return none
    | some position =>
      let info ← infoAt metaData position
      match info.pageData with
      | some pageData => readPage env info pageData key
      | none =>
        let pageData ← getData env info.pageKey (0 < info.count)
        setPageData metaData position pageData
        readPage env info pageData key

/-- The search for the page to write in `setEntryToPage`: its key and its
record. -/
def locatePage (env : TableEnv) (metaData : Address) (pageInfo : Option ℕ)
    (key : Key) : TableM (Key × Address) := do
  match pageInfo with
  | none =>
    let pageData ← getData env key false
    let _ ← pageAt pageData
    return (key, pageData)
  | some position =>
    let info ← infoAt metaData position
    match info.pageData with
    | some pageData => return (info.pageKey, pageData)
    | none =>
      let pageData ← getData env info.pageKey (0 < info.count)
      setPageData metaData position pageData
      let page ← pageAt pageData
      guarded (0 < info.count ∧ page.validCount.toNat ≠ info.count.toNat)
        (fatal .pageValidCountMismatch)
      return (info.pageKey, pageData)

/-- A page-key change that follows an update of the index, if the update has
replaced the key. -/
def rekey (oldPageKey : Option Key) (newPageKey : Key) (isRevert : Bool) :
    TableM (Option Address) :=
  match oldPageKey with
  | none => return none
  | some oldPageKey => changePageKey oldPageKey newPageKey isRevert

/-- The index update of `setEntryToPage` after a write that changed the page
information of a page that is already indexed. -/
def rekeyPage (metaData : Address) (pageInfo : Option ℕ) (pageKey : Key)
    (pageData : Address) (page : Page) : TableM Address := do
  let oldPageKey ← updatePageInfoNoLock metaData pageKey page pageInfo
  setStatus pageData .modified
  match oldPageKey with
  | none => return pageData
  | some oldPageKey =>
    match ← changePageKey oldPageKey page.endKey false with
    | none => throw .undefinedBehaviour
    | some pageData =>
      guarded (page.validCount = 0) (setStatus pageData .deleted)
      return pageData

/-- The bookkeeping of `setEntryToPage` after the row has been written. -/
def recordWrite (metaData : Address) (pageInfo : Option ℕ) (pageKey : Key)
    (pageData : Address) (page : Page) (pageInfoChanged : Bool) :
    TableM Address := do
  let d ← deref pageData
  if pageInfoChanged then
    if d.entry.status = .empty then
      insertPageInfoNoLock metaData ⟨page.endKey, page.validCount.toUInt16,
        page.size.toUInt16, some pageData⟩
      setStatus pageData .modified
      return pageData
    else rekeyPage metaData pageInfo pageKey pageData page
  else
    setStatus pageData .modified
    return pageData

/-- The write of the entry in `setEntryToPage`: the record of the page and the
replaced entry. -/
def writeEntry (metaData : Address) (pageInfo : Option ℕ) (pageKey : Key)
    (pageData : Address) (key : Key) (entry : Entry) : TableM (Address × Option Entry) := do
  let (page, entryOld, pageInfoChanged) := (← pageAt pageData).setEntry key entry
  setPage pageData page
  let pageData ←
    recordWrite metaData pageInfo pageKey pageData page pageInfoChanged
  setStatus metaData .modified
  return (pageData, entryOld)

/-- `KeyPageStorage::insertNewPage`. -/
def insertNewPage (metaData : Address) (page : Page) : TableM Unit := do
  let s ← get
  let d : Data :=
    ⟨page.endKey, .page, Entry.default.setStatus .modified, .page page⟩
  set (s.insertOrAssign page.endKey d)
  insertPageInfoNoLock metaData ⟨page.endKey, page.validCount.toUInt16,
    page.size.toUInt16, some s.next⟩

/-- The split of an oversized page in `setEntryToPage`. -/
def splitPage (env : TableEnv) (metaData : Address) (pageInfo : Option ℕ)
    (pageData : Address) : TableM Unit := do
  let page ← pageAt pageData
  let (old, new) := page.split env.splitSize
  setPage pageData old
  let oldPageKey ← updatePageInfoNoLock metaData page.endKey old pageInfo
  let moved ← rekey oldPageKey old.endKey false
  guarded (oldPageKey ≠ none ∧ moved = none) (throw .undefinedBehaviour)
  insertNewPage metaData new
  setStatus metaData .modified

/-- The merge of the page at `pageData` into the page at `nextData`. -/
def mergeInto (metaData : Address) (pageInfo : Option ℕ)
    (pageData nextData : Address) : TableM Unit := do
  let page ← pageAt pageData
  let next ← pageAt nextData
  let (left, merged) := next.merge page
  setPage pageData left
  setPage nextData merged
  let (m, nextInfo) := (← metaAt metaData).deletePageInfoNoLock page.endKey pageInfo
  setMeta metaData m
  let oldPageKey ← updatePageInfoNoLock metaData next.endKey merged nextInfo
  setStatus nextData .modified
  setStatus pageData .deleted
  let _ ← rekey oldPageKey merged.endKey false
  setStatus metaData .modified

/-- The merge of a small page into the next page in `setEntryToPage`. -/
def mergePage (env : TableEnv) (metaData : Address) (pageInfo : Option ℕ)
    (pageData : Address) : TableM Unit := do
  let page ← pageAt pageData
  match (← metaAt metaData).getNextPageKeyNoLock page.endKey with
  | none => pure ()
  | some nextPageKey =>
    let nextData ← tryCatch (getData env nextPageKey false) (fun e =>
        match e with
        | .returned _ => do
          fatal .mergePageGetDataError
          throw .badOptionalAccess
        | e => throw e)
    let next ← pageAt nextData
    guarded (next.size.toNat < env.splitSize ∧ nextData ≠ pageData)
      (mergeInto metaData pageInfo pageData nextData)

/-- The split or merge that ends `setEntryToPage`. -/
def rebalance (env : TableEnv) (metaData : Address) (pageInfo : Option ℕ)
    (pageData : Address) : TableM Unit := do
  let page ← pageAt pageData
  if env.pageSize < page.size.toNat ∧ 1 < page.validCount then
    splitPage env metaData pageInfo pageData
  else
    guarded (page.size.toNat < env.mergeSize) (mergePage env metaData pageInfo pageData)

/-- The part of `setEntryToPage` behind the search of the index. -/
def updatePage (env : TableEnv) (metaData : Address) (pageInfo : Option ℕ)
    (key : Key) (entry : Entry) : TableM (Option Entry) := do
  let (pageKey, pageData) ← locatePage env metaData pageInfo key
  let (pageData, entryOld) ←
    writeEntry metaData pageInfo pageKey pageData key entry
  rebalance env metaData pageInfo pageData
  return entryOld

/-- `KeyPageStorage::setEntryToPage` up to the recording of the change: the
replaced entry. -/
def setEntryToPage (env : TableEnv) (key : Key) (entry : Entry) : TableM (Option Entry) := do
  let metaData ← getData env tableMetaKey false
  let pageInfo ← getPageInfoNoLock metaData key
  updatePage env metaData pageInfo key entry

/-- An error handed back by a callee that `BOOST_THROW_EXCEPTION(*error)` turns
into an exception. -/
def throwing {α : Type} (x : TableM α) : TableM α :=
  tryCatch x (fun e =>
    match e with
    | .returned error => throw (.thrown error)
    | e => throw e)

/-- The record of the page to undo a change in. -/
def rollbackPageData (env : TableEnv) (info : PageInfo) : TableM Address :=
  match info.pageData with
  | some pageData => return pageData
  | none => throwing (getData env info.pageKey true)

/-- The undo of one change of a paged table in `KeyPageStorage::rollback`. -/
def rollbackChange (env : TableEnv) (change : Change) : TableM Unit := do
  let metaData ← throwing (getData env tableMetaKey false)
  match ← getPageInfoNoLock metaData change.key with
  | none =>
    throw (.thrown ⟨.readError, "Not found rollback page: %s:%s", [change.table, change.key]⟩)
  | some position =>
    let info ← infoAt metaData position
    let pageData ← rollbackPageData env info
    let page ← pageAt pageData
    guarded (page.validCount.toNat ≠ info.count.toNat) (fatal .pageValidCountMismatch)
    match page.rollback change with
    | .error e => throw e
    | .ok page =>
      setPage pageData page
      guarded (page.count = 0) (setStatus pageData .empty)
      let oldPageKey ←
        updatePageInfoNoLock metaData info.pageKey page (some position)
      let _ ← rekey oldPageKey page.endKey true

/-- The inner loop of `asyncGetPrimaryKeys` over the rows of a page: the keys
collected and the number of matching keys seen. -/
def scanRows (condition : Condition) : List (Key × Entry) → List Key → UInt64 → List Key × UInt64
  | [], keys, validCount => (keys, validCount)
  | (key, entry) :: rest, keys, validCount =>
    let (offset, total) := condition.limit
    if entry.live && condition.isValid key then
      let keys :=
        if offset ≤ validCount ∧ validCount < offset + total then keys ++ [key]
        else keys
      if validCount + 1 = offset + total then (keys, validCount + 1)
      else scanRows condition rest keys (validCount + 1)
    else scanRows condition rest keys validCount

/-- The outer loop of `asyncGetPrimaryKeys` over the page index. -/
def scanPages (env : TableEnv) (condition : Condition) :
    List PageInfo → List Key → UInt64 → TableM (List Key)
  | [], keys, _ => return keys
  | info :: rest, keys, validCount => do
    let pageData ← tryCatch (getData env info.pageKey (0 < info.count)) (fun e =>
        match e with
        | .returned _ => throw .badOptionalAccess
        | e => throw e)
    let page ← pageAt pageData
    let (keys, validCount) :=
      scanRows condition page.entries.toList keys validCount
    scanPages env condition rest keys validCount

/-- `std::vector<std::string>::max_size()`. -/
def maxKeys : ℕ := (2 ^ 63 - 1) / 32

/-- `KeyPageStorage::asyncGetPrimaryKeys` on a paged table. -/
def getPrimaryKeys (env : TableEnv) (table : Table)
    (condition : Option Condition) : TableM (List Key) := do
  match condition with
  | none =>
    throw (.returned ⟨.readError, "asyncGetPrimaryKeys must have condition", []⟩)
  | some condition =>
    let metaData ← tryCatch (getData env tableMetaKey false) (fun e =>
        match e with
        | .returned _ =>
          throw (.returned ⟨.readError, "get table meta data failed, table:%s", [table]⟩)
        | e => throw e)
    let m ← metaAt metaData
    -- `ret.reserve(total)`
    if maxKeys < condition.limit.2.toNat then throw .lengthError
    else scanPages env condition m.pages [] 0

end TableM

namespace Data

/-- What a record of a paged table contributes to `KeyPageStorage::hash`. -/
def hash (table : Table) (hashImpl : Bytes → HashType) (d : Data) : HashType :=
  match d.type, d.data with
  | .page, .page p => if d.entry.dirty then p.hash table hashImpl else 0
  | _, _ => 0

/-- What `parallelTraverse` emits for a record stored under `key`. -/
def traverse (archive : Archive) (onlyDirty : Bool) (key : Key) (d : Data) : List (Key × Entry) :=
  if !onlyDirty || d.entry.dirty then
    match d.type, d.data with
    | .tableMeta, .tableMeta m =>
      [(key, Entry.default.set (archive.write m.save))]
    | .page, .page p =>
      (if p.validCount = 0 then (key, Entry.default.setStatus .deleted)
        else (key, (Entry.default.set (archive.write p.save)).setStatus d.entry.status)) ::
        p.invalidPageKeys.toList.map (fun k => (k.1, Entry.default.setStatus .deleted))
    | _, _ => []
  else []

end Data

namespace TableState

/-- The part of `KeyPageStorage::hash` that a paged table contributes. -/
def hash (table : Table) (hashImpl : Bytes → HashType) (s : TableState) :
    HashType :=
  s.records.foldl (fun acc r => acc ^^^ r.2.hash table hashImpl) 0

/-- The part of `KeyPageStorage::parallelTraverse` over a paged table. -/
def traverse (archive : Archive) (onlyDirty : Bool) (s : TableState) : List (Key × Entry) :=
  s.records.flatMap (fun r => r.2.traverse archive onlyDirty r.1)

end TableState

end FiscoSmart.Storage
