import FiscoSmart.Storage.Entry

/-!
# Pages

`KeyPageStorage::Page`: a run of consecutive rows kept in key order, with its
byte size, the number of rows that are not deleted, and the set of page keys it
was stored under before (`m_invalidPageKeys`).  Counters are machine words and
wrap as in the source.
-/

namespace FiscoSmart.Storage

open Support

/-- `KeyPageStorage::Page`. -/
structure Page where
  entries : SortedMap Key Entry
  size : UInt32
  validCount : UInt32
  invalidPageKeys : SortedMap Key Unit
deriving DecidableEq

namespace Page

def empty : Page := ⟨SortedMap.empty, 0, 0, SortedMap.empty⟩

def getEntry (p : Page) (key : Key) : Option Entry :=
  (p.entries.find? key).filter Entry.visible

def startKey (p : Page) : Key := p.entries.firstKey?.getD []

def endKey (p : Page) : Key := p.entries.lastKey?.getD []

def count (p : Page) : ℕ := p.entries.size

/-- The part of `Page::setEntry` that keeps `m_validCount` when an existing row
is replaced, with the flag that the page information changed. -/
def replaceCount (validCount : UInt32) (old new : Entry) : UInt32 × Bool :=
  if new.live then
    if old.live then (validCount, false) else (validCount + 1, true)
  else
    if old.live then (validCount - 1, true) else (validCount, false)

/-- The part of `Page::setEntry` that retires the last key of the page when a
larger key is inserted. -/
def retireLastKey (p : Page) (key : Key) : SortedMap Key Unit :=
  match p.entries.lastKey? with
  | none => p.invalidPageKeys.erase key
  | some last =>
    if last < key then (p.invalidPageKeys.insert last ()).erase key
    else p.invalidPageKeys

/-- `Page::setEntry`: the page, the replaced entry, and whether the page
information changed. -/
def setEntry (p : Page) (key : Key) (entry : Entry) : Page × Option Entry × Bool :=
  match p.entries.find? key with
  | some old =>
    let (validCount, changed) := replaceCount p.validCount old entry
    ({ entries := p.entries.insert key entry
       size := p.size + entry.size32 - old.size32
       validCount
       invalidPageKeys := p.invalidPageKeys }, some old, changed || p.invalidPageKeys.size == 1)
  | none =>
    ({ entries := p.entries.insert key entry
       size := p.size + entry.size32 + UInt32.ofNat key.length
       validCount := if entry.live then p.validCount + 1 else p.validCount
       invalidPageKeys := p.retireLastKey key }, none, true)

/-- Move the row `key` from `src` to `dst`, as the loops of `Page::split` and
`Page::merge` do with `extract` and `insert`. -/
def moveEntry (key : Key) (entry : Entry) (src dst : Page) : Page × Page :=
  ({ src with
      entries := src.entries.erase key
      size := src.size - entry.size32 - UInt32.ofNat key.length
      validCount := if entry.live then src.validCount - 1 else src.validCount },
    { dst with
      entries := dst.entries.emplace key entry
      size := dst.size + entry.size32 + UInt32.ofNat key.length
      validCount := if entry.live then dst.validCount + 1 else dst.validCount })

/-- Move the smallest retired key of `src` to `dst` when `key` has reached it. -/
def moveInvalidKey (key : Key) (src dst : Page) : Page × Page :=
  match src.invalidPageKeys.firstKey? with
  | none => (src, dst)
  | some first =>
    if first ≤ key then
      ({ src with invalidPageKeys := src.invalidPageKeys.erase first },
        { dst with invalidPageKeys := dst.invalidPageKeys.insert first () })
    else (src, dst)

/-- The loop of `Page::split` over the remaining rows of the page.  The source
dereferences `entries.end()` when the last row is moved; the loop stops there. -/
def splitLoop (threshold : ℕ) : List (Key × Entry) → Page → Page → Page × Page
  | [], src, dst => (src, dst)
  | (key, entry) :: rest, src, dst =>
    let moved := moveEntry key entry src dst
    let (src, dst) := moveInvalidKey key moved.1 moved.2
    match rest with
    | [] => (src, dst)
    | (_, next) :: _ =>
      if (src.size - next.size32).toNat < threshold || rest.length == 1 then
        (src, dst)
      else splitLoop threshold rest src dst

/-- `Page::split`: the page that keeps the larger keys and the new page with
the smaller ones. -/
def split (p : Page) (threshold : ℕ) : Page × Page :=
  let (old, new) := splitLoop threshold p.entries.toList p empty
  ({ old with invalidPageKeys := old.invalidPageKeys.erase new.endKey },
    { new with invalidPageKeys := new.invalidPageKeys.erase new.endKey })

/-- The loop of `Page::merge` over the rows of the page merged in. -/
def mergeLoop : List (Key × Entry) → Page → Page → Page × Page
  | [], src, dst => (src, dst)
  | (key, entry) :: rest, src, dst =>
    let moved := moveEntry key entry src dst
    mergeLoop rest moved.1 moved.2

/-- `std::set::merge`: the union, and the elements left behind. -/
def mergeKeys (dst src : SortedMap Key Unit) : SortedMap Key Unit × SortedMap Key Unit :=
  (src.toList.foldl (fun acc k => acc.emplace k.1 ()) dst,
    ⟨src.toList.filter (fun k => (dst.find? k.1).isSome), src.increasing.filter _⟩)

/-- `dst.merge(src)` for two different pages: what is left of `src`, and `dst`. -/
def merge (dst src : Page) : Page × Page :=
  let (src', dst') := mergeLoop src.entries.toList src dst
  let (keys, left) := mergeKeys dst'.invalidPageKeys src'.invalidPageKeys
  ({ src' with invalidPageKeys := left }, { dst' with invalidPageKeys := keys })

/-- The set of invalid page keys of a page stored under `pageKey`. -/
def invalidKeysOf (entries : SortedMap Key Entry) (pageKey : Key) :
    SortedMap Key Unit :=
  match entries.lastKey? with
  | none => SortedMap.empty
  | some last =>
    if pageKey = last then SortedMap.empty
    else SortedMap.empty.insert pageKey ()

/-- What `Page::clean` keeps of a row. -/
def cleanEntry (e : Entry) : Option Entry :=
  if e.live then some (e.setStatus .normal) else none

def clean (p : Page) (pageKey : Key) : Page :=
  let entries := p.entries.filterMap cleanEntry
  { p with entries, invalidPageKeys := invalidKeysOf entries pageKey }

def hash (p : Page) (table : Table) (hashImpl : Bytes → HashType) : HashType :=
  p.entries.toList.foldl (fun acc row =>
      if row.2.dirty then
        acc ^^^ (hashImpl table ^^^ hashImpl row.1 ^^^ row.2.hash hashImpl)
      else acc) 0

/-- The last step of undoing an insertion: a retired key that is the last key
of the page again is dropped from the retired keys. -/
def reviveLastKey (entries : SortedMap Key Entry) (invalid : SortedMap Key Unit) :
    SortedMap Key Unit :=
  match entries.lastKey?, invalid.lastKey? with
  | some last, some stale => if last = stale then invalid.erase stale else invalid
  | _, _ => invalid

def rollback (p : Page) (change : Change) : Except Fault Page :=
  match change.entry, p.entries.find? change.key with
  | some old, some cur =>
    .ok { p with
      entries := p.entries.insert change.key old
      size := p.size - cur.size32 + old.size32
      validCount := (replaceCount p.validCount cur old).1 }
  | some old, none =>
    .ok { p with
      entries := p.entries.insert change.key old
      size := p.size - old.size32
      validCount := if old.live then p.validCount + 1 else p.validCount }
  | none, some cur =>
    let entries := p.entries.erase change.key
    .ok { entries
          size := p.size - cur.size32 - UInt32.ofNat change.key.length
          validCount := if cur.live then p.validCount - 1 else p.validCount
          invalidPageKeys := reviveLastKey entries p.invalidPageKeys }
  | none, none =>
    .error (.thrown ⟨.unknownError, "Not found rollback entry: %s:%s", [change.table, change.key]⟩)

/-! ## Keys and counters of a page -/

variable {p : Page}

theorem lastKey?_eq_endKey (h : p.entries.toList ≠ []) : p.entries.lastKey? = some p.endKey := by
  rcases hlast : p.entries.lastKey? with - | k
  · exact absurd (SortedMap.lastKey?_eq_none.mp hlast) h
  · simp [endKey, hlast]

theorem endKey_mem (h : p.entries.toList ≠ []) :
    (∃ e, (p.endKey, e) ∈ p.entries.toList) ∧ ∀ x ∈ p.entries.toList, x.1 ≤ p.endKey := by
  obtain ⟨hmem, hmax⟩ := SortedMap.lastKey?_eq_some.mp (lastKey?_eq_endKey h)
  exact ⟨hmem, fun x hx => hmax x.1 x.2 hx⟩

theorem endKey_eq {k : Key} {e : Entry} (hmem : (k, e) ∈ p.entries.toList)
    (hmax : ∀ x ∈ p.entries.toList, x.1 ≤ k) : p.endKey = k := by
  have hlast : p.entries.lastKey? = some k :=
    SortedMap.lastKey?_eq_some.mpr ⟨⟨e, hmem⟩, fun x w hx => hmax (x, w) hx⟩
  rw [endKey, hlast]
  rfl

theorem startKey_mem (h : p.startKey ≠ []) : ∃ e, (p.startKey, e) ∈ p.entries.toList := by
  rcases hfirst : p.entries.firstKey? with - | k
  · rw [startKey, hfirst] at h
    exact absurd rfl h
  · rw [startKey, hfirst]
    exact (SortedMap.firstKey?_eq_some hfirst).1

/-- The number of rows that are not deleted. -/
def liveCount (rows : List (Key × Entry)) : ℕ :=
  rows.countP (fun row => row.2.live)

/-- `m_validCount` counts the rows that are not deleted. -/
def CountOk (p : Page) : Prop :=
  p.validCount = UInt32.ofNat (liveCount p.entries.toList)

/-- `key` is among the retired page keys of `p`. -/
def Retired (p : Page) (key : Key) : Prop :=
  (key, ()) ∈ p.invalidPageKeys.toList

@[simp]
theorem liveCount_nil : liveCount [] = 0 := rfl

@[simp]
theorem liveCount_cons (row : Key × Entry) (rows : List (Key × Entry)) :
    liveCount (row :: rows) = liveCount rows + row.2.live.toNat := by
  rw [liveCount, List.countP_cons]
  cases row.2.live <;> rfl

@[simp]
theorem liveCount_append (l r : List (Key × Entry)) :
    liveCount (l ++ r) = liveCount l + liveCount r :=
  List.countP_append

theorem liveCount_pos {rows : List (Key × Entry)} {row : Key × Entry}
    (h : row ∈ rows) (hlive : row.2.live = true) : 0 < liveCount rows :=
  List.countP_pos_iff.mpr ⟨row, h, hlive⟩

theorem countOk_empty : CountOk empty := rfl

theorem exists_live (h : CountOk p) (hcount : p.validCount.toUInt16 ≠ 0) :
    ∃ row ∈ p.entries.toList, row.2.live = true := by
  by_contra hnone
  apply hcount
  have hzero : liveCount p.entries.toList = 0 :=
    List.countP_eq_zero.mpr (fun row hrow hlive => hnone ⟨row, hrow, hlive⟩)
  rw [CountOk, hzero] at h
  rw [h]
  rfl

theorem two_le_length (h : CountOk p) (hlt : 1 < p.validCount) : 2 ≤ p.entries.toList.length := by
  have hle : liveCount p.entries.toList ≤ p.entries.toList.length :=
    List.countP_le_length
  by_contra hlen
  rw [h, UInt32.lt_iff_toNat_lt, UInt32.toNat_ofNat'] at hlt
  have hone : (1 : UInt32).toNat = 1 := rfl
  omega

theorem ofNat_add_live (n : ℕ) (e : Entry) : UInt32.ofNat (n + e.live.toNat) =
      if e.live then UInt32.ofNat n + 1 else UInt32.ofNat n := by
  cases hlive : e.live <;> simp [UInt32.ofNat_add]

theorem ofNat_sub_live (n : ℕ) (e : Entry) : UInt32.ofNat n =
      if e.live then UInt32.ofNat (n + e.live.toNat) - 1
      else UInt32.ofNat (n + e.live.toNat) := by
  cases hlive : e.live <;> simp [UInt32.ofNat_add]

end Page

end FiscoSmart.Storage
