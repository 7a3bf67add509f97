import FiscoSmart.Storage.TableMeta

/-!
# Serialised pages and page indexes

`save` and `load` of `Page` and `TableMeta` write to and read from a boost
binary archive.  The archive library itself is a parameter: an `Archive` turns
the sequence of items handed to it into bytes and reads the same sequence back.
Saving a page drops its deleted rows, and loading it marks every row `NORMAL`.
-/

namespace FiscoSmart.Storage

open Support

inductive ArchiveItem
  | number (n : ℕ)
  | text (s : Bytes)
  | binary (b : Bytes)
deriving DecidableEq

/-- A binary archive: what was written is read back. -/
structure Archive where
  write : List ArchiveItem → Bytes
  read : Bytes → Option (List ArchiveItem)
  read_write : ∀ items, read (write items) = some items
  write_ne_nil : ∀ items, write items ≠ []

namespace Page

/-- The items of one row in `Page::save`. -/
def saveRow (row : Key × Entry) : List ArchiveItem :=
  if row.2.live then
    [.text row.1, .number row.2.get.length, .binary row.2.get]
  else []

def save (p : Page) : List ArchiveItem :=
  .number p.validCount.toNat :: p.entries.toList.flatMap saveRow

/-- The loop of `Page::load`. -/
def loadRows : ℕ → List ArchiveItem → Page → Option Page
  | 0, _, p => some p
  | n + 1, .text key :: .number len :: .binary value :: rest, p =>
    if value.length = len then
      loadRows n rest { p with
          entries := p.entries.emplace key ⟨value, len, .normal⟩
          size := p.size + UInt32.ofNat len + UInt32.ofNat key.length }
    else none
  | _ + 1, _, _ => none

def load : List ArchiveItem → Option Page
  | .number count :: rest =>
    loadRows (UInt32.ofNat count).toNat rest { empty with validCount := UInt32.ofNat count }
  | _ => none

/-- The constructor of `Page` from a stored value. -/
def ofValue (archive : Archive) (value : Bytes) (pageKey : Key) :
    Except Fault Page :=
  if value = [] then .ok empty
  else
    match (archive.read value).bind load with
    | none => .error .archiveException
    | some p =>
      match p.entries.lastKey? with
      | none => .error .undefinedBehaviour
      | some _ =>
        .ok { p with invalidPageKeys := invalidKeysOf p.entries pageKey }

end Page

namespace TableMeta

def saveInfo (info : PageInfo) : List ArchiveItem :=
  [.text info.pageKey, .number info.count.toNat, .number info.size.toNat]

/-- `TableMeta::save`, after it has pruned the index. -/
def save (m : TableMeta) : List ArchiveItem :=
  .number m.prune.pages.length :: m.prune.pages.flatMap saveInfo

/-- The loop that loads the vector of page informations. -/
def loadInfos : ℕ → List ArchiveItem → Option (List PageInfo)
  | 0, _ => some []
  | n + 1, .text key :: .number count :: .number size :: rest =>
    (loadInfos n rest).map (⟨key, UInt16.ofNat count, UInt16.ofNat size, none⟩ :: ·)
  | _ + 1, _ => none

def load : List ArchiveItem → Option TableMeta
  | .number count :: rest => (loadInfos count rest).map (⟨·, 0⟩)
  | _ => none

/-- The constructor of `TableMeta` from a stored value.  An empty value leaves
the vector of pages a null pointer. -/
def ofValue (archive : Archive) (value : Bytes) : Except Fault TableMeta :=
  if value = [] then .error .undefinedBehaviour
  else
    match (archive.read value).bind load with
    | none => .error .archiveException
    | some m => .ok m

end TableMeta

end FiscoSmart.Storage
