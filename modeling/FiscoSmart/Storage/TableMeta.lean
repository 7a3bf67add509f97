import FiscoSmart.Storage.Page
import FiscoSmart.Support.PartitionPoint

/-!
# The page index of a table

`KeyPageStorage::TableMeta`: the vector of `PageInfo`s sorted by page key, and
the position of the last page information handed out, which a lookup tries
before it searches.  A pointer into the vector is the position it points to, and
a `Data*` is an address.
-/

namespace FiscoSmart.Storage

open Support

/-- The address of a `Data` object. -/
abbrev Address := ℕ

/-- `KeyPageStorage::PageInfo`. -/
structure PageInfo where
  pageKey : Key
  count : UInt16
  size : UInt16
  pageData : Option Address
deriving DecidableEq

/-- `KeyPageStorage::TableMeta`. -/
structure TableMeta where
  pages : List PageInfo
  lastPageInfoIndex : ℕ
deriving DecidableEq

/-- The `FATAL` log lines of `KeyPageStorage`.  The log sink of a node ends the process on
them; here they are kept in a list, and the results say that it stays empty. -/
inductive Fatal
  | insertEmptyPageInfo
  | updatePageInfoNotFound
  | changePageKeyToEmpty
  | dataShouldExist
  | pageValidCountMismatch
  | readonlyReadEntry
  | mergePageGetDataError
deriving DecidableEq, Repr

namespace TableMeta

def empty : TableMeta := ⟨[], 0⟩

/-- `TableMeta::lower_bound`: the first page whose key is not below `key`. -/
def lowerBound (m : TableMeta) (key : Key) : ℕ :=
  partitionPoint (fun info => info.pageKey < key) m.pages

/-- `TableMeta::upper_bound`: the first page whose key is above `key`. -/
def upperBound (m : TableMeta) (key : Key) : ℕ :=
  partitionPoint (fun info => ¬ key < info.pageKey) m.pages

/-- The cached-page test of `getPageInfoNoLock`: the page of the last page
information handed out covers `key`. -/
def lastPageHit (m : TableMeta) (pageOf : Address → Except Fault Page)
    (key : Key) : Except Fault Bool :=
  match m.pages[m.lastPageInfoIndex]? with
  | none => .ok false
  | some info =>
    match info.pageData with
    | none => .ok false
    | some address =>
      (pageOf address).map (fun page =>
        page.startKey ≠ [] ∧ page.startKey ≤ key ∧ key ≤ page.endKey)

/-- The binary search of `getPageInfoNoLock`; a key above all page keys belongs
to the last page, unless that page was emptied by a rollback. -/
def searchPage (m : TableMeta) (key : Key) : Option ℕ × TableMeta :=
  if m.lowerBound key < m.pages.length then
    (some (m.lowerBound key), { m with lastPageInfoIndex := m.lowerBound key })
  else if (m.pages.getLast?.map PageInfo.pageKey).getD [] = [] then (none, m)
  else
    (some (m.pages.length - 1), { m with lastPageInfoIndex := m.pages.length - 1 })

def getPageInfoNoLock (m : TableMeta) (pageOf : Address → Except Fault Page)
    (key : Key) : Except Fault (Option ℕ × TableMeta) :=
  if m.pages.isEmpty then .ok (none, m)
  else
    match m.lastPageHit pageOf key with
    | .error e => .error e
    | .ok true => .ok (some m.lastPageInfoIndex, m)
    | .ok false => .ok (m.searchPage key)

def getNextPageKeyNoLock (m : TableMeta) (key : Key) : Option Key :=
  if key = [] then none
  else (m.pages[m.upperBound key]?).map PageInfo.pageKey

/-- `TableMeta::insertPageInfoNoLock`, with the fatal line it logs. -/
def insertPageInfoNoLock (m : TableMeta) (info : PageInfo) : TableMeta × Option Fatal :=
  if info.pageKey = [] then (m, some .insertEmptyPageInfo)
  else ({ m with pages := m.pages.insertIdx (m.lowerBound info.pageKey) info }, none)

/-- The lambda `updateInfo` of `updatePageInfoNoLock`. -/
def updateInfo (pageKey : Key) (count size : UInt32) (info : PageInfo) :
    PageInfo :=
  { pageKey
    count := count.toUInt16
    size := size.toUInt16
    pageData :=
      if info.pageKey ≠ pageKey ∧ pageKey = [] then none else info.pageData }

/-- `TableMeta::updatePageInfoNoLock`: the index, the page key that was
replaced, and the fatal line it logs. -/
def updatePageInfoNoLock (m : TableMeta) (oldEndKey pageKey : Key)
    (count size : UInt32) (pageInfo : Option ℕ) : TableMeta × Option Key × Option Fatal :=
  let position := pageInfo.getD (m.lowerBound oldEndKey)
  match m.pages[position]? with
  | some info =>
    ({ m with pages := m.pages.set position (updateInfo pageKey count size info) },
      if info.pageKey ≠ pageKey then some info.pageKey else none, none)
  | none => (m, none, some .updatePageInfoNotFound)

/-- `TableMeta::deletePageInfoNoLock`: the index and the page that follows the
erased one. -/
def deletePageInfoNoLock (m : TableMeta) (endKey : Key) (pageInfo : Option ℕ) :
    TableMeta × Option ℕ :=
  let position := pageInfo.getD (m.lowerBound endKey)
  match m.pages[position]? with
  | some info =>
    if info.pageKey = endKey then
      ({ m with pages := m.pages.eraseIdx position }, some position)
    else (m, none)
  | none => (m, none)

/-- The page informations that `clean` and `save` keep. -/
def keeps (info : PageInfo) : Bool := info.count ≠ 0 && info.pageKey ≠ []

/-- `TableMeta::clean`, applied to a copy: copying resets
`lastPageInfoIndex`. -/
def clean (m : TableMeta) : TableMeta :=
  ⟨(m.pages.filter keeps).map (fun info => { info with pageData := none }), 0⟩

/-- The pruning of the live index by `TableMeta::save`. -/
def prune (m : TableMeta) : TableMeta :=
  { m with pages := m.pages.filter keeps }

end TableMeta

end FiscoSmart.Storage
