import FiscoSmart.Codec.ScaleRoundTrip

/-!
# SCALE decoding of arbitrary input

Most decoders check that the bytes they need are there.  Two do not: `u256` is
taken from the next 32 bytes of the span whether or not there are so many, and
a vector is resized to the announced size, and filled without a check if its
elements are bytes.  Where the input has what it announces in these places,
decoding is safe, and the elements that are allocated are bounded by the bytes
that are consumed.
-/

namespace FiscoSmart.Codec.Scale

open Support

variable {α : Type} {a b c v : ScaleType} {n : ℕ} {cs : List ScaleType} {d : Decoder α} {k l : ℤ}
  {t : Ty} {s : Cursor Byte}

/-- The failure that callers of a decoder expect. -/
def DecodeFailure.IsScaleDecodeException (e : DecodeFailure) : Prop :=
  ∃ comment, e = .scaleDecodeException comment

mutual

/-- At least one byte is consumed for a value of the type. -/
def Ty.occupies : Ty → Bool
  | .array t n => decide (0 < n) && t.occupies
  | .pair a b => a.occupies || b.occupies
  | .tuple ts => ts.occupies
  | .bool | .uint _ | .int _ | .compact | .u256 | .s256 | .string | .vector _ | .optional _
  | .variant _ | .map _ _ => true

def Tys.occupies : Tys → Bool
  | .nil => false
  | .cons t ts => t.occupies || ts.occupies

end

mutual

/-- The elements of all vectors and maps in the type take at least one byte. -/
def Ty.elementsOccupy : Ty → Bool
  | .bool | .uint _ | .int _ | .compact | .u256 | .s256 | .string => true
  | .vector t => t.occupies && t.elementsOccupy
  | .array t _ => t.elementsOccupy
  | .pair a b => a.elementsOccupy && b.elementsOccupy
  | .tuple ts => ts.elementsOccupy
  | .optional t => t.elementsOccupy
  | .variant ts => ts.elementsOccupy
  | .map k v => (k.occupies || v.occupies) && (k.elementsOccupy && v.elementsOccupy)

def Tys.elementsOccupy : Tys → Bool
  | .nil => true
  | .cons t ts => t.elementsOccupy && ts.elementsOccupy

end

/-- The bytes that are left are enough for `n`. -/
def HasBytes (s : Cursor Byte) (n : ℕ) : Prop := s.currentIndex + n ≤ s.span.length

/-- The entries of a map meet `p` where they begin. -/
def EachEntry (k v : ScaleType) (p : Cursor Byte → Prop) : ℕ → Cursor Byte → Prop
  | 0, _ => True
  | n + 1, s => EachEntry k v p n s ∧ After (ScaleType.decodeEntries k v n) s fun _ => p

mutual

/-- The input has what it announces: behind the size of a string, or of a vector with elements
of one byte, as many bytes are left; 32 bytes are left for a large integer; and the size of
another vector is at most `max_size()`. -/
def Ty.sizesFit : Ty → Cursor Byte → Prop
  | .bool, _ | .uint _, _ | .int _, _ | .compact, _ => True
  | .u256, s | .s256, s => HasBytes s 32
  | .string, s => After decodeItemCount s fun n s' => n.1 ≤ maxSize ∧ HasBytes s' n.1
  | .vector t, s => After decodeItemCount s fun n s' => n.1 ≤ maxSize ∧
      if t.denote.ofByte.isSome then HasBytes s' n.1
      else After (resize n.1) s' fun m => Each t.sizesFit t.denote.decode m.1
  | .array t n, s => Each t.sizesFit t.denote.decode n s
  | .pair a b, s => a.sizesFit s ∧ After a.denote.decode s fun _ => b.sizesFit
  | .tuple ts, s => ts.sizesFit s
  | .optional t, s =>
    After ScaleType.decodeBool s fun hasValue s' => hasValue = true → t.sizesFit s'
  | .variant ts, s => After nextByte s fun byte => ts.alternativeFits byte.val
  | .map k v, s => After decodeItemCount s fun n => EachEntry k.denote v.denote
      (fun s' => k.sizesFit s' ∧ After k.denote.decode s' fun _ => v.sizesFit) n.1

def Tys.sizesFit : Tys → Cursor Byte → Prop
  | .nil, _ => True
  | .cons t ts, s => t.sizesFit s ∧ After t.denote.decode s fun _ => ts.sizesFit

def Tys.alternativeFits : Tys → ℕ → Cursor Byte → Prop
  | .nil, _, _ => True
  | .cons t _, 0, s => t.sizesFit s
  | .cons _ ts, i + 1, s => ts.alternativeFits i s

end

/-- Decoding throws `ScaleDecodeException`, or stays within the input and allocates no
more elements than the input has bytes. -/
def DecodesSafely (t : Ty) (span : Bytes) : Prop :=
  match decode t span with
  | .error e _ => e.IsScaleDecodeException
  | .ok _ s => s.currentIndex ≤ span.length ∧ (t.elementsOccupy = true → s.allocated ≤ span.length)

/-! ## Composed decoders -/

/-- A property of decoders, with a count, that is kept when decoders are composed from the
calls that check what they read. -/
structure Composes (P : {α : Type} → Decoder α → ℤ → Prop) : Prop where
  pure : ∀ {α : Type} {a : α}, P (pure a : Decoder α) 0
  throw : ∀ {α : Type} {comment : String}, P (throw (.scaleDecodeException comment) : Decoder α) 0
  bind : ∀ {α β : Type} {d : Decoder α} {f : α → Decoder β} {k l : ℤ}, P d k → (∀ a, P (f a) l) →
    P (d >>= f) (k + l)
  mono : ∀ {α : Type} {d : Decoder α} {k l : ℤ}, P d k → l ≤ k → P d l
  nextByte : P nextByte 1
  requireMore : ∀ {n comment}, P (requireMore n comment) 0
  count : P (modify fun s => { s with allocated := s.allocated + 1 } : Decoder PUnit) (-1)

namespace Composes

variable {P : {α : Type} → Decoder α → ℤ → Prop} (h : Composes P)

include h

theorem map {β : Type} (hd : P d k) (g : α → β) : P (do return g (← d)) k :=
  h.mono (h.bind hd fun _ => h.pure) (Int.add_zero k).ge

/-- A byte, and what follows it. -/
theorem byte {f : Byte → Decoder α} (hf : ∀ byte, P (f byte) 0) : P (Scale.nextByte >>= f) 1 :=
  h.mono (h.bind h.nextByte hf) (by decide)

theorem addBytes (count value multiplier : ℕ) : P (addBytes count value multiplier) count := by
  induction count generalizing value multiplier with
  | zero => exact h.pure
  | succ count ih =>
    refine h.mono (h.bind h.nextByte fun byte => ih _ _) ?_
    rw [Nat.cast_succ, Int.add_comm]

theorem moreBytes (n count value multiplier : ℕ) (comment : String) :
    P (do Scale.requireMore n comment; Scale.addBytes count value multiplier) count :=
  h.mono (h.bind h.requireMore fun _ => h.addBytes _ _ _) (Int.zero_add _).ge

theorem decodeCompactInteger : P decodeCompactInteger 1 := by
  refine h.byte fun byte => ?_
  split
  · exact h.pure
  · exact h.mono (h.map h.nextByte _) (by decide)
  · exact h.mono (h.bind h.requireMore fun _ => h.map (h.addBytes 3 _ _) _) (by decide)
  · exact h.mono (h.moreBytes _ _ _ _ _) (Int.natCast_nonneg _)

theorem decodeItemCount : P decodeItemCount 1 := h.map h.decodeCompactInteger _

theorem decodeIntegral (w : Width) : P (decodeIntegral w) 1 := by
  rw [Scale.decodeIntegral]
  split_ifs with hw
  · exact h.map h.nextByte _
  · refine h.mono (h.moreBytes _ _ _ _ _) ?_
    have hsize : 1 ≤ w.size := by cases w <;> decide
    omega

theorem decodeBool : P ScaleType.decodeBool 1 := by
  refine h.byte fun byte => ?_
  split_ifs
  · exact h.pure
  · exact h.pure
  · exact h.throw

theorem decodePair (ha : P a.decode k) (hb : P b.decode l) : P (ScaleType.decodePair a b) (k + l) :=
  h.bind ha fun _ => h.map hb _

theorem tuple_cons (hc : P c.decode k)
    (hcs : P (ScaleType.tuple cs).decode l) : P (ScaleType.tuple (c :: cs)).decode (k + l) := by
  rcases cs with - | ⟨c', cs⟩
  · exact h.decodePair hc hcs
  · exact h.decodePair hc hcs

theorem optional (hc : P c.decode 0) : P (ScaleType.optional c).decode 1 := by
  refine h.mono (h.bind h.decodeBool fun hasValue => (?_ : P _ 0)) (by decide)
  cases hasValue
  · exact h.pure
  · exact h.map hc _

theorem optionalBool : P ScaleType.optionalBool.decode 1 := by
  refine h.byte fun byte => ?_
  split_ifs
  · exact h.pure
  · exact h.pure
  · exact h.pure
  · exact h.throw

theorem variant {types : List Ty} {alternatives : Alternatives}
    (hs : ∀ i, P (alternatives.decode i) 0) : P (ScaleType.variant types alternatives).decode 1 :=
  h.byte fun byte => hs byte.val

theorem decodeEntries {k : ScaleType} (hkv : P (ScaleType.decodePair k v) 1) (n : ℕ) :
    P (ScaleType.decodeEntries k v n) 0 := by
  induction n with
  | zero => exact h.pure
  | succ n ih => exact h.bind ih fun m => h.bind hkv fun p => h.map h.count _

theorem mapDecode {k : ScaleType} (hkv : P (ScaleType.decodePair k v) 1) :
    P (ScaleType.map k v).decode 1 :=
  h.bind h.decodeItemCount fun n => h.map (h.decodeEntries hkv n.1) _

end Composes

/-! ## Allocation -/

theorem composes_frugal : Composes Frugal where
  pure := Frugal.of_pure
  throw := Frugal.of_throw
  bind := Frugal.bind
  mono := Frugal.mono
  nextByte := by
    intro s a s' hrun
    rw [Runs, nextByte] at hrun
    split at hrun
    · cases hrun
    · cases hrun
      dsimp only
      omega
  requireMore := by
    intro n comment s a s' hrun
    rw [Runs, requireMore] at hrun
    split_ifs at hrun
    cases hrun
    omega
  count := by
    intro s _ s' hrun
    obtain ⟨-, rfl⟩ := Runs.of_modify.unique hrun
    dsimp only
    omega

theorem assign_frugal : Frugal (assign n) n := by
  intro s a s' hrun
  rw [Runs, assign] at hrun
  split_ifs at hrun
  cases hrun
  dsimp only
  omega

/-- What is allocated for `n` elements has to be consumed afterwards. -/
theorem resize_frugal {f : {n : ℕ // n ≤ maxSize} → Decoder α}
    (hf : ∀ m, Frugal (f m) (m.1 + k)) : Frugal (resize n >>= f) k := by
  intro s a s'' hrun
  obtain ⟨m, s', hresize, hrun⟩ := hrun.of_bind
  have h := hf m s' a s'' hrun
  rw [Runs, resize] at hresize
  split_ifs at hresize
  cases hresize
  dsimp only at h
  omega

namespace ScaleType

theorem decodeBytes_frugal (f : Byte → α) : Frugal (decodeBytes f) 1 := by
  refine (composes_frugal.decodeItemCount.bind fun n => (?_ : Frugal _ 0)).mono (by decide)
  refine resize_frugal fun m => ?_
  exact assign_frugal.map.mono (Int.add_zero _).le

/-- The elements of a vector are allocated before they are decoded. -/
theorem decodeItems_frugal (hc : Frugal c.decode 1) : Frugal (decodeItems c) 1 := by
  refine (composes_frugal.decodeItemCount.bind fun n => (?_ : Frugal _ 0)).mono (by decide)
  refine resize_frugal fun m => ?_
  exact (hc.times m.1).map.mono (by omega)

theorem decodeVector_frugal (hc : Frugal c.decode 1) : Frugal (decodeVector c) 1 := by
  rw [decodeVector]
  split
  · exact decodeBytes_frugal _
  · exact decodeItems_frugal hc

end ScaleType

theorem frugal_of_toNat {b : Bool} (h : Frugal d b.toNat) : Frugal d 0 :=
  h.mono (Int.natCast_nonneg _)

theorem toNat_or_le (a b : Bool) : ((a || b).toNat : ℤ) ≤ a.toNat + b.toNat := by
  cases a <;> cases b <;> decide

theorem toNat_array_le {b : Bool} : ((decide (0 < n) && b).toNat : ℤ) ≤ n * (b.toNat : ℤ) := by
  cases b
  · rw [Bool.and_false]
    exact (Int.mul_zero _).ge
  · rw [Bool.and_true]
    change _ ≤ (n : ℤ) * 1
    by_cases hn : 0 < n
    · rw [decide_eq_true hn]
      change (1 : ℤ) ≤ _
      omega
    · rw [decide_eq_false hn]
      change (0 : ℤ) ≤ _
      omega

mutual

/-- A successful decoder consumes a byte for each element it allocates. -/
theorem Ty.decode_frugal : ∀ t : Ty, t.elementsOccupy = true →
    Frugal t.denote.decode t.occupies.toNat
  | .bool, _ => composes_frugal.decodeBool
  | .uint w, _ => (composes_frugal.decodeIntegral w).map
  | .int w, _ => (composes_frugal.decodeIntegral w).map
  | .compact, _ => composes_frugal.decodeCompactInteger.map
  | .u256, _ => assign_frugal.map.mono (by decide)
  | .s256, _ => assign_frugal.map.map.mono (by decide)
  | .string, _ => ScaleType.decodeBytes_frugal id
  | .vector t, h => by
    obtain ⟨hoccupies, helements⟩ := Bool.and_eq_true_iff.mp h
    have ht := t.decode_frugal helements
    rw [hoccupies] at ht
    exact ScaleType.decodeVector_frugal ht
  | .array t n, h => by
    rw [Ty.occupies]
    exact ((t.decode_frugal h).times n).mono toNat_array_le
  | .pair a b, h => by
    obtain ⟨ha, hb⟩ := Bool.and_eq_true_iff.mp h
    rw [Ty.occupies]
    exact (composes_frugal.decodePair (a.decode_frugal ha) (b.decode_frugal hb)).mono
      (toNat_or_le _ _)
  | .tuple ts, h => ts.decode_frugal h
  | .optional t, h =>
    Ty.optional_denote (P := fun c => Frugal c.decode 1) composes_frugal.optionalBool
      (composes_frugal.optional (frugal_of_toNat (t.decode_frugal h)))
  | .variant ts, h => composes_frugal.variant (ts.alternatives_frugal h)
  | .map k v, h => by
    obtain ⟨hoccupies, helements⟩ := Bool.and_eq_true_iff.mp h
    obtain ⟨hk, hv⟩ := Bool.and_eq_true_iff.mp helements
    have hle := toNat_or_le k.occupies v.occupies
    rw [hoccupies] at hle
    exact composes_frugal.mapDecode
      ((composes_frugal.decodePair (k.decode_frugal hk) (v.decode_frugal hv)).mono hle)

theorem Tys.decode_frugal : ∀ ts : Tys, ts.elementsOccupy = true →
    Frugal (ScaleType.tuple ts.denote).decode ts.occupies.toNat
  | .nil, _ => Frugal.of_pure
  | .cons t ts, h => by
    obtain ⟨ht, hts⟩ := Bool.and_eq_true_iff.mp h
    rw [Tys.occupies]
    exact (composes_frugal.tuple_cons (t.decode_frugal ht) (ts.decode_frugal hts)).mono
      (toNat_or_le _ _)

theorem Tys.alternatives_frugal : ∀ ts : Tys, ts.elementsOccupy = true →
    ∀ i, Frugal (ts.alternatives.decode i) 0
  | .nil, _, _ => Frugal.of_throw
  | .cons t _, h, 0 => (frugal_of_toNat (t.decode_frugal (Bool.and_eq_true_iff.mp h).1)).map
  | .cons _ ts, h, i + 1 => (ts.alternatives_frugal (Bool.and_eq_true_iff.mp h).2 i).map

end

/-! ## Decoders that check what they read -/

theorem composes_advances : Composes fun d _ => Advances d where
  pure := .of_pure
  throw := .of_throw
  bind := .bind
  mono hd _ := hd
  nextByte := by
    intro s hs byte s' hrun
    rw [Runs, nextByte] at hrun
    split at hrun
    · cases hrun
    · rename_i hbyte
      cases hrun
      obtain ⟨hlt, -⟩ := List.getElem?_eq_some_iff.mp hbyte
      exact ⟨rfl, Nat.le_succ _, hlt⟩
  requireMore := by
    intro n comment s hs _ s' hrun
    rw [Runs, requireMore] at hrun
    split_ifs at hrun
    cases hrun
    exact ⟨rfl, le_rfl, hs⟩
  count := by
    intro s hs _ s' hrun
    obtain ⟨-, rfl⟩ := Runs.of_modify.unique hrun
    exact ⟨rfl, le_rfl, hs⟩

theorem assign_advances : Advances (assign n) := by
  intro s _ bytes s' hrun
  rw [Runs, assign] at hrun
  split_ifs at hrun with hend
  cases hrun
  exact ⟨rfl, Nat.le_add_right _ _, hend⟩

theorem resize_advances : Advances (resize n) := by
  intro s hs m s' hrun
  rw [Runs, resize] at hrun
  split_ifs at hrun
  cases hrun
  exact ⟨rfl, le_rfl, hs⟩

theorem decodeVector_advances (hc : Advances c.decode) : Advances (ScaleType.decodeVector c) := by
  rw [ScaleType.decodeVector]
  split
  · exact composes_advances.decodeItemCount.bind fun _ => resize_advances.bind fun _ =>
      assign_advances.map
  · exact composes_advances.decodeItemCount.bind fun n => resize_advances.bind fun m =>
      (hc.times m.1).map

mutual

/-- Where decoding succeeds, it has not left the input. -/
theorem Ty.decode_advances : ∀ t : Ty, Advances t.denote.decode
  | .bool => composes_advances.decodeBool
  | .uint w => (composes_advances.decodeIntegral w).map
  | .int w => (composes_advances.decodeIntegral w).map
  | .compact => composes_advances.decodeCompactInteger.map
  | .u256 => assign_advances.map
  | .s256 => assign_advances.map.map
  | .string => composes_advances.decodeItemCount.bind fun _ => resize_advances.bind fun _ =>
      assign_advances.map
  | .vector t => decodeVector_advances t.decode_advances
  | .array t n => t.decode_advances.times n
  | .pair a b =>
    composes_advances.decodePair (k := 0) (l := 0) a.decode_advances b.decode_advances
  | .tuple ts => ts.decode_advances
  | .optional t =>
    Ty.optional_denote (P := fun c => Advances c.decode) composes_advances.optionalBool
      (composes_advances.optional t.decode_advances)
  | .variant ts => composes_advances.variant ts.alternatives_advance
  | .map k v => composes_advances.mapDecode (composes_advances.decodePair (k := 0) (l := 0)
      k.decode_advances v.decode_advances)

theorem Tys.decode_advances : ∀ ts : Tys, Advances (ScaleType.tuple ts.denote).decode
  | .nil => .of_pure
  | .cons t ts =>
    composes_advances.tuple_cons (k := 0) (l := 0) t.decode_advances ts.decode_advances

theorem Tys.alternatives_advance : ∀ (ts : Tys) (i : ℕ), Advances (ts.alternatives.decode i)
  | .nil, _ => .of_throw
  | .cons t _, 0 => t.decode_advances.map
  | .cons _ ts, i + 1 => (ts.alternatives_advance i).map

end

/-! ## Decoders that do not -/

/-- The decoder throws nothing but `ScaleDecodeException` there. -/
abbrev Expected {α : Type} (d : Decoder α) (s : Cursor Byte) : Prop :=
  FailsOnly DecodeFailure.IsScaleDecodeException d s

theorem composes_expected : Composes fun d _ => ∀ s, Expected d s where
  pure _ := .of_runs .of_pure
  throw _ := (FailsOnly.iff_of_fails .of_throw).mpr ⟨_, rfl⟩
  bind hd hf s := FailsOnly.bind_iff.mpr ⟨hd s, fun a s' _ => hf a s'⟩
  mono hd _ := hd
  nextByte := by
    intro s e s' hfails
    rw [Fails, nextByte] at hfails
    split at hfails
    · cases hfails
      exact ⟨_, rfl⟩
    · cases hfails
  requireMore := by
    intro n comment s e s' hfails
    rw [Fails, requireMore] at hfails
    split_ifs at hfails
    cases hfails
    exact ⟨comment, rfl⟩
  count _ := .of_runs .of_modify

theorem assign_expected_iff : Expected (assign n) s ↔ HasBytes s n := by
  rw [HasBytes]
  by_cases hend : s.currentIndex + n ≤ s.span.length
  · exact iff_of_true (.of_runs (by rw [Runs, assign, dif_pos hend])) hend
  · refine iff_of_false (fun h => ?_) hend
    obtain ⟨comment, heq⟩ := h .outOfBounds s (by rw [Fails, assign, dif_neg hend])
    cases heq

/-- The size is compared with `max_size()` only, and the exception is not the expected one. -/
theorem resize_bind_expected_iff {f : {n : ℕ // n ≤ maxSize} → Decoder α} :
    Expected (resize n >>= f) s ↔
      n ≤ maxSize ∧ After (resize n) s fun m s' => Expected (f m) s' := by
  refine FailsOnly.bind_iff.trans (and_congr_left fun _ => ?_)
  by_cases hn : n ≤ maxSize
  · exact iff_of_true (.of_runs (by rw [Runs, resize, dif_pos hn])) hn
  · refine iff_of_false (fun h => ?_) hn
    obtain ⟨comment, heq⟩ := h .lengthError s (by rw [Fails, resize, dif_neg hn])
    cases heq

/-- What a decoder needs besides a part that is checked. -/
theorem expected_bind_iff {β : Type} {f : α → Decoder β} (hd : ∀ s, Expected d s) :
    Expected (d >>= f) s ↔ After d s fun a s' => Expected (f a) s' :=
  FailsOnly.bind_iff.trans (and_iff_right (hd s))

namespace ScaleType

theorem decodeBytes_expected_iff {f : Byte → α} :
    Expected (decodeBytes f) s ↔
      After decodeItemCount s fun n s' => n.1 ≤ maxSize ∧ HasBytes s' n.1 := by
  refine (expected_bind_iff composes_expected.decodeItemCount).trans (after_congr fun n s' => ?_)
  refine resize_bind_expected_iff.trans (and_congr_right fun hn => ?_)
  have hresize : Runs (resize n.1) s' ⟨n.1, hn⟩ { s' with allocated := s'.allocated + n.1 } := by
    rw [Runs, resize, dif_pos hn]
  constructor
  · intro h
    have hassign := assign_expected_iff.mp (FailsOnly.map_iff.mp (h _ _ hresize))
    exact hassign
  · intro h m s'' hrun
    obtain ⟨rfl, rfl⟩ := hresize.unique hrun
    exact FailsOnly.map_iff.mpr (assign_expected_iff.mpr h)

theorem decodePair_expected_iff {p q : Cursor Byte → Prop} (ha : ∀ s, Expected a.decode s ↔ p s)
    (hb : ∀ s, Expected b.decode s ↔ q s) (s : Cursor Byte) :
    Expected (decodePair a b) s ↔ p s ∧ After a.decode s fun _ => q := by
  refine FailsOnly.bind_iff.trans (and_congr (ha s) (after_congr fun _ s' => ?_))
  exact FailsOnly.map_iff.trans (hb s')

theorem tuple_cons_expected_iff {p q : Cursor Byte → Prop} (hc : ∀ s, Expected c.decode s ↔ p s)
    (hcs : ∀ s, Expected (tuple cs).decode s ↔ q s) :
    Expected (tuple (c :: cs)).decode s ↔ p s ∧ After c.decode s fun _ => q := by
  rcases cs with - | ⟨c', cs⟩
  · exact decodePair_expected_iff hc hcs s
  · exact decodePair_expected_iff hc hcs s

theorem optional_expected_iff {p : Cursor Byte → Prop} (hc : ∀ s, Expected c.decode s ↔ p s) :
    Expected (optional c).decode s ↔
      After decodeBool s fun hasValue s' => hasValue = true → p s' := by
  refine (expected_bind_iff composes_expected.decodeBool).trans (after_congr fun hasValue s' => ?_)
  cases hasValue
  · exact iff_of_true (.of_runs .of_pure) fun h => absurd h Bool.false_ne_true
  · exact (FailsOnly.map_iff.trans (hc s')).trans (imp_iff_right rfl).symm

theorem decodeEntries_expected_iff {k : ScaleType} {p : Cursor Byte → Prop}
    (hkv : ∀ s, Expected (decodePair k v) s ↔ p s) (n : ℕ) :
    Expected (decodeEntries k v n) s ↔ EachEntry k v p n s := by
  induction n with
  | zero => exact iff_of_true (.of_runs .of_pure) trivial
  | succ n ih =>
    refine FailsOnly.bind_iff.trans (and_congr ih (after_congr fun m s' => ?_))
    refine (FailsOnly.bind_iff.trans (and_iff_left fun _ s'' _ => ?_)).trans (hkv s')
    exact FailsOnly.map_iff.mpr (composes_expected.count s'')

end ScaleType

mutual

/-- A decoder ends as expected exactly if the input has what it announces. -/
theorem Ty.expected_iff : ∀ (t : Ty) (s : Cursor Byte), Expected t.denote.decode s ↔ t.sizesFit s
  | .bool, s => iff_of_true (composes_expected.decodeBool s) trivial
  | .uint w, s | .int w, s =>
    iff_of_true (FailsOnly.map_iff.mpr (composes_expected.decodeIntegral w s)) trivial
  | .compact, s => iff_of_true (FailsOnly.map_iff.mpr (composes_expected.decodeCompactInteger s))
      trivial
  | .u256, _ => FailsOnly.map_iff.trans assign_expected_iff
  | .s256, _ => FailsOnly.map_iff.trans (FailsOnly.map_iff.trans assign_expected_iff)
  | .string, _ => ScaleType.decodeBytes_expected_iff
  | .vector t, s => by
    change Expected (ScaleType.decodeVector t.denote) s ↔ _
    rw [Ty.sizesFit, ScaleType.decodeVector]
    rcases t.denote.ofByte with - | ofByte
    · refine (expected_bind_iff composes_expected.decodeItemCount).trans
        (after_congr fun n s' => ?_)
      refine resize_bind_expected_iff.trans (and_congr_right fun _ => ?_)
      exact after_congr fun m s'' =>
        FailsOnly.map_iff.trans (FailsOnly.times_iff t.expected_iff m.1 s'')
    · exact ScaleType.decodeBytes_expected_iff
  | .array t n, s => FailsOnly.times_iff t.expected_iff n s
  | .pair a b, s => ScaleType.decodePair_expected_iff a.expected_iff b.expected_iff s
  | .tuple ts, s => ts.expected_iff s
  | .optional t, s => by
    by_cases ht : t = .bool
    · subst ht
      exact iff_of_true (composes_expected.optionalBool s) fun _ _ _ _ => trivial
    · rw [Ty.denote]
      · exact ScaleType.optional_expected_iff t.expected_iff
      · exact ht
  | .variant ts, _ =>
    (expected_bind_iff composes_expected.nextByte).trans
      (after_congr fun byte s' => ts.alternative_expected_iff byte.val s')
  | .map k v, _ =>
    (expected_bind_iff composes_expected.decodeItemCount).trans (after_congr fun n _ =>
      FailsOnly.map_iff.trans (ScaleType.decodeEntries_expected_iff
        (ScaleType.decodePair_expected_iff k.expected_iff v.expected_iff) n.1))

theorem Tys.expected_iff : ∀ (ts : Tys) (s : Cursor Byte),
    Expected (ScaleType.tuple ts.denote).decode s ↔ ts.sizesFit s
  | .nil, _ => iff_of_true (.of_runs .of_pure) trivial
  | .cons t ts, _ => ScaleType.tuple_cons_expected_iff t.expected_iff ts.expected_iff

theorem Tys.alternative_expected_iff : ∀ (ts : Tys) (i : ℕ) (s : Cursor Byte),
    Expected (ts.alternatives.decode i) s ↔ ts.alternativeFits i s
  | .nil, _, _ => iff_of_true ((FailsOnly.iff_of_fails .of_throw).mpr ⟨_, rfl⟩) trivial
  | .cons t _, 0, s => FailsOnly.map_iff.trans (t.expected_iff s)
  | .cons _ ts, i + 1, s => FailsOnly.map_iff.trans (ts.alternative_expected_iff i s)

end

/-! ## Which inputs are decoded safely -/

example : DecodesSafely .string [4, 65] := ⟨by decide, fun _ => by decide⟩

end FiscoSmart.Codec.Scale
