import FiscoSmart.Storage.Archive

/-!
# A concrete archive

An archive that writes a tag and a unary length before every item.  It serves
to run the model on concrete inputs; no result depends on its format.
-/

namespace FiscoSmart.Storage.PlainArchive

open List

variable {items : List ArchiveItem}

/-- A number in unary, closed by a zero byte. -/
def encodeNat (n : ℕ) : Bytes := List.replicate n 1 ++ [0]

def decodeNat : Bytes → Option (ℕ × Bytes)
  | [] => none
  | b :: rest =>
    if b = 0 then some (0, rest)
    else (decodeNat rest).map (fun r => (r.1 + 1, r.2))

def encodeItem : ArchiveItem → Bytes
  | .number n => 1 :: encodeNat n
  | .text s => 2 :: (encodeNat s.length ++ s)
  | .binary b => 3 :: (encodeNat b.length ++ b)

def encodeItems (items : List ArchiveItem) : Bytes :=
  items.flatMap encodeItem ++ [0]

def decodeItems : ℕ → Bytes → Option (List ArchiveItem)
  | 0, _ => none
  | _ + 1, [] => none
  | fuel + 1, tag :: rest =>
    if tag = 0 then some []
    else do
      let (n, rest) ← decodeNat rest
      if tag = 1 then
        return .number n :: (← decodeItems fuel rest)
      else if tag = 2 then
        return .text (rest.take n) :: (← decodeItems fuel (rest.drop n))
      else
        return .binary (rest.take n) :: (← decodeItems fuel (rest.drop n))

theorem decodeNat_encodeNat {n : ℕ} {rest : Bytes} :
    decodeNat (encodeNat n ++ rest) = some (n, rest) := by
  induction n with
  | zero => rfl
  | succ n ih =>
    have hcons : encodeNat (n + 1) ++ rest = 1 :: (encodeNat n ++ rest) := by
      simp [encodeNat, replicate_succ]
    rw [hcons, decodeNat, if_neg (by decide), ih]
    rfl

theorem decodeItems_encodeItems : ∀ fuel, items.length < fuel →
      decodeItems fuel (encodeItems items) = some items := by
  induction items with
  | nil =>
    intro fuel hfuel
    obtain ⟨fuel, rfl⟩ : ∃ k, fuel = k + 1 := ⟨fuel - 1, by
      omega⟩
    rfl
  | cons item items ih =>
    intro fuel hfuel
    obtain ⟨fuel, rfl⟩ : ∃ k, fuel = k + 1 := ⟨fuel - 1, by omega⟩
    have hrest := ih fuel (by simpa using hfuel)
    have hcons : encodeItems (item :: items) = encodeItem item ++ encodeItems items := by
      simp [encodeItems]
    rw [hcons]
    rcases item with n | b | b
    · rw [encodeItem, cons_append, decodeItems, if_neg (by decide), decodeNat_encodeNat]
      simp [hrest]
    · rw [encodeItem, cons_append, append_assoc, decodeItems,
        if_neg (by decide), decodeNat_encodeNat]
      simp [hrest]
    · rw [encodeItem, cons_append, append_assoc, decodeItems,
        if_neg (by decide), decodeNat_encodeNat]
      simp [hrest]

theorem length_lt_encodeItems : items.length < (encodeItems items).length := by
  induction items with
  | nil => decide
  | cons item items ih =>
    have hpos : 0 < (encodeItem item).length := by cases item <;> simp [encodeItem]
    simp only [encodeItems, flatMap_cons, length_append, length_cons] at ih ⊢
    omega

/-- The archive of tagged items. -/
def archive : Archive where
  write := encodeItems
  read bytes := decodeItems bytes.length bytes
  read_write items :=
    decodeItems_encodeItems _ length_lt_encodeItems
  write_ne_nil items := by simp [encodeItems]

end FiscoSmart.Storage.PlainArchive
