import Mathlib.Tactic

/-!
# Encodings by concatenation

A record is encoded by writing its fields one after the other.  Such an encoding
can be read back field by field as soon as the shape of the fields is known: the
lengths of byte strings and lists.  `Readable` says that, under a relation of
equal shape, a field can be told from what follows it; it is closed under
lists of fields.
-/

namespace FiscoSmart

open List

abbrev Byte := Fin 256

instance neZero_byte : NeZero 256 := ⟨by decide⟩

abbrev Bytes := List Byte

def ascii (s : String) : Bytes := s.toList.map fun c => Fin.ofNat 256 c.toNat

/-- The lower-case digit of a number below `16`. -/
def hexDigit (n : ℕ) : Byte := Fin.ofNat 256 (if n < 10 then 48 + n else 87 + n)

def toHex (bytes : Bytes) : Bytes :=
  bytes.flatMap fun byte => [hexDigit (byte.val / 16), hexDigit (byte.val % 16)]

namespace Support

/-- The last `k` bytes of a number, the most significant one first. -/
def bigEndian : ℕ → ℕ → Bytes
  | 0, _ => []
  | k + 1, n => bigEndian k (n / 256) ++ [Fin.ofNat 256 n]

@[simp]
theorem bigEndian_length (k n : ℕ) : (bigEndian k n).length = k := by
  induction k generalizing n with
  | zero => rfl
  | succ k ih => rw [bigEndian, length_append, ih, length_singleton]

theorem bigEndian_inj {k n m : ℕ} (hn : n < 256 ^ k) (hm : m < 256 ^ k)
    (h : bigEndian k n = bigEndian k m) : n = m := by
  induction k generalizing n m with
  | zero =>
    omega
  | succ k ih =>
    obtain ⟨hinit, hlast⟩ := append_inj' h rfl
    have hlow : n % 256 = m % 256 := by
      have hbyte := head_eq_of_cons_eq hlast
      simpa [Fin.ofNat] using congrArg Fin.val hbyte
    have hhigh : n / 256 = m / 256 := by
      apply ih _ _ hinit
      · rw [Nat.div_lt_iff_lt_mul (by decide)]
        rwa [pow_succ] at hn
      · rw [Nat.div_lt_iff_lt_mul (by decide)]
        rwa [pow_succ] at hm
    omega

/-- The number with the given bytes, the most significant one first. -/
def fromBigEndian (bytes : Bytes) : ℕ :=
  bytes.foldl (fun (n : ℕ) (byte : Byte) => n * 256 + byte.val) 0

theorem fromBigEndian_append_singleton (bytes : Bytes) (byte : Byte) :
    fromBigEndian (bytes ++ [byte]) = fromBigEndian bytes * 256 + byte := by
  rw [fromBigEndian, foldl_append]
  rfl

theorem fromBigEndian_bigEndian (k n : ℕ) : fromBigEndian (bigEndian k n) = n % 256 ^ k := by
  induction k generalizing n with
  | zero =>
    rw [pow_zero, Nat.mod_one]
    rfl
  | succ k ih =>
    rw [bigEndian, fromBigEndian_append_singleton, ih, pow_succ', Nat.mod_mul,
      Nat.mul_comm, Nat.add_comm]
    rfl

theorem fromBigEndian_lt (bytes : Bytes) : fromBigEndian bytes < 256 ^ bytes.length := by
  induction bytes using List.reverseRecOn with
  | nil => exact Nat.one_pos
  | append_singleton bytes byte ih =>
    rw [fromBigEndian_append_singleton, length_append, length_singleton, pow_succ]
    omega

theorem bigEndian_fromBigEndian (bytes : Bytes) :
    bigEndian bytes.length (fromBigEndian bytes) = bytes := by
  induction bytes using List.reverseRecOn with
  | nil => rfl
  | append_singleton bytes byte ih =>
    have hhigh : (fromBigEndian bytes * 256 + byte) / 256 = fromBigEndian bytes := by omega
    have hlow : Fin.ofNat 256 (fromBigEndian bytes * 256 + byte) = byte :=
      Fin.ext (by simp [Fin.ofNat])
    rw [fromBigEndian_append_singleton, length_append, length_singleton, bigEndian, hhigh, hlow, ih]

section Readable

variable {α β : Type} {R : α → α → Prop} {f : α → List β}

/-- Encodings of two values of the same shape can be told from what follows
them. -/
def Readable (R : α → α → Prop) (f : α → List β) : Prop :=
  ∀ a b rest rest', R a b → f a ++ rest = f b ++ rest' → a = b ∧ rest = rest'

theorem readable_of_length (hlen : ∀ a b, R a b → (f a).length = (f b).length)
    (hvalue : ∀ a b, R a b → f a = f b → a = b) : Readable R f := by
  intro a b rest rest' hR h
  obtain ⟨hfirst, hrest⟩ := append_inj h (hlen a b hR)
  exact ⟨hvalue a b hR hfirst, hrest⟩

theorem readable_string : Readable (fun s s' : List β => s.length = s'.length) (fun s => s) :=
  readable_of_length (fun _ _ h => h) (fun _ _ _ h => h)

theorem readable_bitVec (k : ℕ) :
    Readable (fun _ _ => True) (fun v : BitVec (8 * k) => bigEndian k v.toNat) := by
  apply readable_of_length
  · intro v w _
    rw [bigEndian_length, bigEndian_length]
  · intro v w _ h
    have hbound : ∀ u : BitVec (8 * k), u.toNat < 256 ^ k := by
      intro u
      calc
        u.toNat < 2 ^ (8 * k) := u.isLt
        _ = 256 ^ k := pow_mul 2 8 k
    exact BitVec.eq_of_toNat_eq (bigEndian_inj (hbound v) (hbound w) h)

theorem Readable.flatMap (h : Readable R f) : Readable (List.Forall₂ R) (fun l => l.flatMap f) := by
  intro l l' rest rest' hR heq
  induction hR with
  | nil => exact ⟨rfl, heq⟩
  | cons hhead _ ih =>
    simp only [flatMap_cons, append_assoc] at heq
    obtain ⟨rfl, htail⟩ := h _ _ _ _ hhead heq
    obtain ⟨rfl, hrest⟩ := ih htail
    exact ⟨rfl, hrest⟩

/-- A list of values of one positive width, at the end of an encoding. -/
theorem flatMap_injective {k : ℕ} (hlen : ∀ a, (f a).length = k) (hk : 0 < k)
    (hf : Function.Injective f) : Function.Injective (fun l : List α => l.flatMap f) := by
  intro l l' h
  have hcount : l.length = l'.length := by
    have htotal : ∀ l : List α, (l.flatMap f).length = l.length * k := by
      intro l
      induction l with
      | nil => simp
      | cons a l ih =>
        rw [flatMap_cons, length_append, hlen, ih, length_cons, Nat.succ_mul, Nat.add_comm]
    have hlengths := congrArg List.length h
    simp only [htotal] at hlengths
    exact Nat.eq_of_mul_eq_mul_right hk hlengths
  have hreadable : Readable (fun _ _ => True) f :=
    readable_of_length (fun a b _ => (hlen a).trans (hlen b).symm) (fun _ _ _ heq => hf heq)
  have hshape : List.Forall₂ (fun _ _ => True) l l' :=
    forall₂_iff_zip.mpr ⟨hcount, fun _ => trivial⟩
  exact (hreadable.flatMap l l' [] [] hshape (congrArg (fun bytes => bytes ++ []) h)).1

end Readable

end Support

end FiscoSmart
