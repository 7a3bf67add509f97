import FiscoSmart.Codec.Scale

/-!
# SCALE encodings are read back

Every value of a supported type is decoded from its encoding, whatever follows
it, and exactly the bytes of the encoding are consumed.  The proof follows the
types: `ScaleType.Lawful` holds of every elementary type and is kept by every
template.

The range of `s256` is that of its two's complement representation.  The type
itself has a separate sign, and its values outside the range are decoded to
other values.
-/

namespace FiscoSmart.Codec.Scale

open Support List

variable {w : Width} {α : Type} {v : {v : ℤ // InRange w v}} {c a b k : ScaleType} {f : Byte → α}
  {t : Ty} {u : ℤ}

/-! ## Reading bytes -/

theorem nextByte_reads (byte : Byte) : Reads nextByte [byte] byte := by
  intro s t hleft
  obtain ⟨read, hspan, hindex⟩ := hleft
  refine ⟨{ s with currentIndex := s.currentIndex + 1 }, ?_, rfl, rfl⟩
  have hbyte : s.span[s.currentIndex]? = some byte := by
    rw [hspan, hindex, getElem?_append_right le_rfl, Nat.sub_self]
    rfl
  rw [Runs, nextByte, hbyte]

variable {n : ℕ} {bytes : Bytes}

theorem requireMore_reads {comment : String} {d : Decoder α} {a : α}
    (hn : n ≤ bytes.length) (h : Reads d bytes a) :
    Reads (do requireMore n comment; d) bytes a := by
  intro s t hleft
  have hmore : hasMore s n = true := by
    obtain ⟨read, hspan, hindex⟩ := hleft
    rw [hasMore, hspan, hindex, length_append, length_append, decide_eq_true_eq]
    omega
  have hrun : Runs (requireMore n comment) s ⟨⟩ s := by
    rw [Runs, requireMore, if_pos hmore]
  obtain ⟨s', hrun', hmoved⟩ := h s t hleft
  exact ⟨s', hrun.bind hrun', hmoved⟩

theorem assign_reads (h : bytes.length = n) : Reads (assign n) bytes ⟨bytes, h⟩ := by
  subst h
  intro s t hleft
  obtain ⟨read, hspan, hindex⟩ := hleft
  refine ⟨{ s with currentIndex := s.currentIndex + bytes.length }, ?_, rfl, rfl⟩
  have hmore : s.currentIndex + bytes.length ≤ s.span.length := by
    rw [hspan, hindex, length_append, length_append]
    omega
  have hbytes : (s.span.drop s.currentIndex).take bytes.length = bytes := by
    rw [hspan, hindex, drop_left, take_left]
  rw [Runs, assign, dif_pos hmore]
  congr 1
  exact Subtype.ext hbytes

theorem resize_reads (h : n ≤ maxSize) : Reads (resize n) [] ⟨n, h⟩ := by
  intro s t hleft
  refine ⟨{ s with allocated := s.allocated + n }, ?_, rfl, rfl⟩
  rw [Runs, resize, dif_pos h]

/-! ## Integers -/

theorem littleEndian_length (size value : ℕ) : (littleEndian size value).length = size := by
  induction size generalizing value with
  | zero => rfl
  | succ size ih => rw [littleEndian, length_cons, ih]

theorem addBytes_reads (size n value multiplier : ℕ) :
    Reads (addBytes size value multiplier) (littleEndian size n)
      (value + n % 256 ^ size * multiplier) := by
  induction size generalizing n value multiplier with
  | zero =>
    rw [pow_zero, Nat.mod_one, Nat.zero_mul, Nat.add_zero]
    exact Reads.of_pure
  | succ size ih =>
    have hsplit : value + n % 256 ^ (size + 1) * multiplier =
        value + n % 256 * multiplier + n / 256 % 256 ^ size * (multiplier * 256) := by
      rw [pow_succ', Nat.mod_mul]
      ring
    rw [hsplit]
    exact (nextByte_reads _).bind (ih (n / 256) _ _)

theorem addBytes_reads_of_lt {size : ℕ} (h : n < 256 ^ size) :
    Reads (addBytes size 0 1) (littleEndian size n) n := by
  have hreads := addBytes_reads size n 0 1
  rwa [Nat.mod_eq_of_lt h, Nat.mul_one, Nat.zero_add] at hreads

variable {types : List Ty}

theorem decodeIntegral_reads (h : n < 256 ^ w.size) :
    Reads (decodeIntegral w) (littleEndian w.size n) n := by
  rw [decodeIntegral]
  split_ifs with hw
  · subst hw
    have hbyte : (Fin.ofNat 256 n).val = n := Nat.mod_eq_of_lt h
    have hreads := (nextByte_reads (Fin.ofNat 256 n)).map (g := Fin.val)
    rwa [hbyte] at hreads
  · exact requireMore_reads (littleEndian_length ..).ge (addBytes_reads_of_lt h)

theorem castUnsigned_val {v : {v : ℕ // v < 256 ^ w.size}} : castUnsigned w v.1 = v :=
  Subtype.ext (Nat.mod_eq_of_lt v.2)

theorem castSigned_modEq : (castSigned w u).1 ≡ u [ZMOD (256 ^ w.size : ℕ)] :=
  Int.bmod_emod

theorem castSigned_of_modEq (h : u ≡ v.1 [ZMOD (256 ^ w.size : ℕ)]) : castSigned w u = v := by
  have hrange : -(256 ^ w.size / 2 : ℕ) ≤ v.1 ∧ v.1 < (256 ^ w.size / 2 : ℕ) := v.2
  apply Subtype.ext
  calc
    u.bmod (256 ^ w.size) = v.1.bmod (256 ^ w.size) := by
      rw [← Int.emod_bmod, h, Int.emod_bmod]
    _ = v.1 := by apply Int.bmod_eq_of_le <;> omega

theorem signedOf_emod : signedOf w (v.1 % (256 ^ w.size : ℕ)).toNat = v := by
  have hpos : (0 : ℤ) < (256 ^ w.size : ℕ) := by exact_mod_cast Nat.pow_pos (by decide)
  have hbits : 256 ^ w.size ∣ 2 ^ 64 := by cases w <;> decide
  have hcast : ((v.1 % (256 ^ w.size : ℕ)).toNat : ℤ) = v.1 % (256 ^ w.size : ℕ) :=
    Int.toNat_of_nonneg (Int.emod_nonneg _ hpos.ne')
  have hle : (v.1 % (256 ^ w.size : ℕ)).toNat ≤ 2 ^ 64 := by
    have hle := Nat.le_of_dvd (by decide) hbits
    omega
  have hmod : ((v.1 % (256 ^ w.size : ℕ)).toNat : ℤ) ≡ v.1 [ZMOD (256 ^ w.size : ℕ)] := by
    rw [hcast]
    exact Int.mod_modEq _ _
  rw [signedOf]
  split_ifs
  · exact castSigned_of_modEq hmod
  · apply castSigned_of_modEq
    -- the negated number is the complement of `v` in 64 bits, hence in the width of `v`
    have hcomplement : (((2 ^ 64 - (v.1 % (256 ^ w.size : ℕ)).toNat) % 2 ^ 64 : ℕ) : ℤ) ≡
        -v.1 [ZMOD (256 ^ w.size : ℕ)] := by
      have hdvd : ((256 ^ w.size : ℕ) : ℤ) ∣ (2 ^ 64 : ℕ) := Int.natCast_dvd_natCast.mpr hbits
      rw [Int.natCast_mod, Nat.cast_sub hle]
      refine ((Int.mod_modEq _ _).of_dvd hdvd).trans ?_
      have hzero : ((2 ^ 64 : ℕ) : ℤ) ≡ 0 [ZMOD (256 ^ w.size : ℕ)] :=
        Int.modEq_zero_iff_dvd.mpr hdvd
      simpa using hzero.sub hmod
    simpa using (castSigned_modEq.trans hcomplement).neg

/-! ## Compact integers -/

theorem lt_pow_countBytes (v : ℕ) : v < 256 ^ countBytes v := by
  induction v using Nat.strong_induction_on with
  | _ v ih =>
    rw [countBytes]
    split_ifs with hsmall
    · omega
    · have hlt := ih (v / 256) (by omega)
      omega

theorem countBytes_le {v k : ℕ} (hk : 0 < k) (h : v < 256 ^ k) : countBytes v ≤ k := by
  induction k generalizing v with
  | zero => omega
  | succ k ih =>
    rw [countBytes]
    split_ifs with hsmall
    · omega
    · have hlt : v / 256 < 256 ^ k := by
        omega
      have hkpos : 0 < k := by
        by_contra hzero
        obtain rfl : k = 0 := by omega
        omega
      exact Nat.succ_le_succ (ih hkpos hlt)

theorem decodeCompactInteger_first (h : n < 2 ^ 6) :
    Reads decodeCompactInteger (encodeFirstCategory n) n := by
  have hbyte : (Fin.ofNat 256 (n * 4)).val = n * 4 := Nat.mod_eq_of_lt (by omega)
  refine (nextByte_reads (Fin.ofNat 256 (n * 4))).bind ?_
  rw [hbyte, Nat.mul_mod_left]
  rw [Nat.mul_div_cancel n (by decide)]
  exact Reads.of_pure

theorem decodeCompactInteger_second (h : n < 2 ^ 14) :
    Reads decodeCompactInteger (encodeSecondCategory n) n := by
  have hlow : (Fin.ofNat 256 (n * 4 + 1)).val = (n * 4 + 1) % 256 := rfl
  have hhigh : (Fin.ofNat 256 ((n * 4 + 1) / 256)).val = (n * 4 + 1) / 256 :=
    Nat.mod_eq_of_lt (by omega)
  have hflag : (n * 4 + 1) % 256 % 4 = 1 := by omega
  have hvalue : ((n * 4 + 1) % 256 / 4 * 4 + (n * 4 + 1) / 256 * 256) / 4 = n := by omega
  refine (nextByte_reads (Fin.ofNat 256 (n * 4 + 1))).bind ?_
  rw [hlow, hflag]
  refine (nextByte_reads (Fin.ofNat 256 ((n * 4 + 1) / 256))).bind ?_
  rw [hhigh, hvalue]
  exact Reads.of_pure

theorem decodeCompactInteger_third (h : n < 2 ^ 30) :
    Reads decodeCompactInteger (encodeThirdCategory n) n := by
  have hlow : (Fin.ofNat 256 (n * 4 + 2)).val = (n * 4 + 2) % 256 := rfl
  have hflag : (n * 4 + 2) % 256 % 4 = 2 := by omega
  have hvalue : ((n * 4 + 2) % 256 + (n * 4 + 2) / 256 % 256 ^ 3 * 256) / 4 = n := by omega
  refine (nextByte_reads (Fin.ofNat 256 (n * 4 + 2))).bind ?_
  rw [hlow, hflag]
  apply requireMore_reads (littleEndian_length 3 _).ge
  have hreads := (addBytes_reads 3 ((n * 4 + 2) / 256) ((n * 4 + 2) % 256) 256).map (g := (· / 4))
  rwa [hvalue] at hreads

theorem decodeCompactInteger_big {length : ℕ} (hlow : 4 ≤ length) (hhigh : length ≤ 67)
    (h : n < 256 ^ length) : Reads decodeCompactInteger
      (Fin.ofNat 256 ((length - 4) * 4 + 3) :: littleEndian length n) n := by
  have hheader : (Fin.ofNat 256 ((length - 4) * 4 + 3)).val = (length - 4) * 4 + 3 :=
    Nat.mod_eq_of_lt (by omega)
  have hflag : ((length - 4) * 4 + 3) % 4 = 3 := by omega
  have hcount : ((length - 4) * 4 + 3) / 4 + 4 = length := by omega
  refine (nextByte_reads (Fin.ofNat 256 ((length - 4) * 4 + 3))).bind ?_
  rw [hheader, hflag]
  rw [hcount]
  exact requireMore_reads (littleEndian_length ..).ge (addBytes_reads_of_lt h)

/-- Each of the four size classes is read back by the branch of its flag. -/
theorem encodeCompactInteger_reads (h : n < 256 ^ 67) :
    ∃ bytes, encodeCompactInteger n = .ok bytes ∧ Reads decodeCompactInteger bytes n := by
  have hlen : countBytes n ≤ 67 := countBytes_le (by decide) h
  rw [encodeCompactInteger, if_neg (by omega), Int.toNat_natCast]
  rw [if_neg (Nat.not_lt.mpr hlen)]
  split_ifs with h6 h14 h30
  · exact ⟨_, rfl, decodeCompactInteger_first (Int.ofNat_lt.mp h6)⟩
  · exact ⟨_, rfl, decodeCompactInteger_second (Int.ofNat_lt.mp h14)⟩
  · exact ⟨_, rfl, decodeCompactInteger_third (Int.ofNat_lt.mp h30)⟩
  · have hlow : 4 ≤ countBytes n := by
      by_contra hsmall
      have hpow : 256 ^ countBytes n ≤ 256 ^ 3 := Nat.pow_le_pow_right (by decide) (by omega)
      have hlt := lt_pow_countBytes n
      have hbig : 2 ^ 30 ≤ n := Nat.not_lt.mp fun hn => h30 (Int.ofNat_lt.mpr hn)
      omega
    exact ⟨_, rfl, decodeCompactInteger_big hlow hlen (lt_pow_countBytes n)⟩

theorem decodeItemCount_reads (h : n < 2 ^ 64) :
    ∃ bytes, encodeCompactInteger n = .ok bytes ∧ Reads decodeItemCount bytes ⟨n, h⟩ := by
  obtain ⟨bytes, hencode, hreads⟩ := encodeCompactInteger_reads (h.trans (by decide))
  refine ⟨bytes, hencode, ?_⟩
  have hcount : (⟨n % 2 ^ 64, Nat.mod_lt _ (by decide)⟩ : {n : ℕ // n < 2 ^ 64}) = ⟨n, h⟩ :=
    Subtype.ext (Nat.mod_eq_of_lt h)
  rw [← hcount]
  exact hreads.map (g := fun size =>
    (⟨size % 2 ^ 64, Nat.mod_lt _ (by decide)⟩ : {n : ℕ // n < 2 ^ 64}))

/-! ## Large integers -/

theorem decodeU256_reads (v : U256) : Reads decodeU256 (encodeU256 v) v := by
  have hvalue : fromBigEndian (bigEndian 32 v.1) % 2 ^ 256 = v.1 := by
    rw [fromBigEndian_bigEndian, show (256 : ℕ) ^ 32 = 2 ^ 256 by decide +kernel, Nat.mod_mod,
      Nat.mod_eq_of_lt v.2]
  have hreads := (assign_reads (bigEndian_length 32 v.1)).map (g := fun bytes =>
    (⟨fromBigEndian bytes.1 % 2 ^ 256, Nat.mod_lt _ (by decide)⟩ : U256))
  have hv : (⟨fromBigEndian (bigEndian 32 v.1) % 2 ^ 256, Nat.mod_lt _ (by decide)⟩ : U256) = v :=
    Subtype.ext hvalue
  rwa [hv] at hreads

theorem u2s_s2u {v : S256} (hlow : -2 ^ 255 ≤ v.1) (hhigh : v.1 < 2 ^ 255) : u2s (s2u v) = v := by
  apply Subtype.ext
  rw [s2u]
  split_ifs with hpos
  · have hbit : v.1.toNat.testBit 255 = false := Nat.testBit_lt_two_pow (by omega)
    rw [u2s, dif_neg (by rw [hbit]; decide)]
    exact Int.toNat_of_nonneg hpos
  · have hge : 2 ^ 255 ≤ (2 ^ 256 + v.1).toNat := by omega
    have hbit : (2 ^ 256 + v.1).toNat.testBit 255 = true := by
      rw [Nat.testBit_eq_decide_div_mod_eq, decide_eq_true_eq]
      omega
    rw [u2s, dif_pos hbit]
    dsimp only
    omega

/-! ## The templates -/

/-- The values of a type in the range of the format are read back; a value of size one
is the byte that its encoding consists of. -/
structure ScaleType.Lawful (c : ScaleType) : Prop where
  roundTrips : ∀ v, c.Fits v → RoundTrips c.encode c.decode v
  ofByte : ∀ f, c.ofByte = some f → ∀ v, ∃ byte, c.encode v = .ok [byte] ∧ f byte = v

namespace ScaleType

theorem Lawful.of_ofByte_eq_none (h : c.ofByte = none)
    (hround : ∀ v, c.Fits v → RoundTrips c.encode c.decode v) : c.Lawful := by
  refine ⟨hround, ?_⟩
  intro f hf
  rw [h] at hf
  cases hf

theorem decodeBool_reads (v : Bool) : Reads decodeBool [if v then 1 else 0] v := by
  refine (nextByte_reads (if v then 1 else 0)).bind ?_
  cases v
  · exact Reads.of_pure
  · exact Reads.of_pure

theorem bool_lawful : bool.Lawful where
  roundTrips v _ := ⟨_, rfl, decodeBool_reads v⟩
  ofByte := by
    intro f hf (v : Bool)
    cases hf
    refine ⟨if v then 1 else 0, rfl, ?_⟩
    cases v <;> rfl

theorem eq_of_ite_eq_some {g : Byte → α}
    (h : (if w = .one then some g else none) = some f) : w = .one ∧ g = f := by
  split_ifs at h with hw
  exact ⟨hw, Option.some.inj h⟩

theorem uint_reads {v : {v : ℕ // v < 256 ^ w.size}} :
    Reads (uint w).decode (littleEndian w.size v.1) v := by
  have hreads := (decodeIntegral_reads v.2).map (g := castUnsigned w)
  rwa [castUnsigned_val] at hreads

theorem uint_lawful : (uint w).Lawful where
  roundTrips v _ := ⟨_, rfl, uint_reads⟩
  ofByte := by
    intro f hf (v : {v : ℕ // v < 256 ^ w.size})
    obtain ⟨rfl, rfl⟩ := eq_of_ite_eq_some hf
    have hbyte : (Fin.ofNat 256 v.1).val = v.1 := Nat.mod_eq_of_lt v.2
    exact ⟨Fin.ofNat 256 v.1, rfl, (congrArg (castUnsigned .one) hbyte).trans castUnsigned_val⟩

theorem int_reads :
    Reads (int w).decode (littleEndian w.size (v.1 % (256 ^ w.size : ℕ)).toNat) v := by
  have hlt : (v.1 % (256 ^ w.size : ℕ)).toNat < 256 ^ w.size := by
    omega
  have hreads := (decodeIntegral_reads hlt).map (g := signedOf w)
  rwa [signedOf_emod] at hreads

theorem int_lawful : (int w).Lawful where
  roundTrips v _ := ⟨_, rfl, int_reads⟩
  ofByte := by
    intro f hf (v : {v : ℤ // InRange w v})
    obtain ⟨rfl, rfl⟩ := eq_of_ite_eq_some hf
    refine ⟨Fin.ofNat 256 (v.1 % 256).toNat, rfl, ?_⟩
    have hbyte : (Fin.ofNat 256 (v.1 % 256).toNat).val = (v.1 % 256).toNat :=
      Nat.mod_eq_of_lt (by omega)
    apply castSigned_of_modEq
    rw [hbyte, Int.toNat_of_nonneg (by omega)]
    exact Int.mod_modEq _ _

theorem compact_lawful : compact.Lawful := by
  apply Lawful.of_ofByte_eq_none rfl
  intro (v : ℤ) (hv : 0 ≤ v ∧ v < 256 ^ 67)
  obtain ⟨n, rfl⟩ := Int.eq_ofNat_of_zero_le hv.1
  obtain ⟨bytes, hencode, hreads⟩ := encodeCompactInteger_reads (Int.ofNat_lt.mp hv.2)
  exact ⟨bytes, hencode, hreads.map⟩

theorem u256_lawful : u256.Lawful :=
  Lawful.of_ofByte_eq_none rfl fun v _ => ⟨_, rfl, decodeU256_reads v⟩

theorem s256_lawful : s256.Lawful := by
  apply Lawful.of_ofByte_eq_none rfl
  intro (v : S256) (hv : -2 ^ 255 ≤ v.1 ∧ v.1 < 2 ^ 255)
  have hreads := (decodeU256_reads (s2u v)).map (g := u2s)
  rw [u2s_s2u hv.1 hv.2] at hreads
  exact ⟨_, rfl, hreads⟩

/-! ### Collections -/

section Collections

variable {encode : α → Except ScaleEncodeException Bytes}

theorem encodeCollection_eq {items : List α} {size : Bytes}
    (hsize : encodeCompactInteger items.length = .ok size)
    (hbytes : encodeAll encode items = .ok bytes) :
    encodeCollection encode items = .ok (size ++ bytes) := by
  rw [encodeCollection, hsize, hbytes]
  rfl

theorem lt_of_le_maxSize (h : n ≤ maxSize) : n < 2 ^ 64 :=
  h.trans_lt (by decide)

theorem encodeAll_bytes (h : ∀ v, ∃ byte, encode v = .ok [byte] ∧ f byte = v)
    (items : List α) : ∃ bytes, encodeAll encode items = .ok bytes ∧ bytes.length = items.length ∧
      bytes.map f = items := by
  induction items with
  | nil => exact ⟨[], rfl, rfl, rfl⟩
  | cons v items ih =>
    obtain ⟨byte, hencode, rfl⟩ := h v
    obtain ⟨bytes, hbytes, hlen, hmap⟩ := ih
    refine ⟨byte :: bytes, ?_, congrArg (· + 1) hlen, congrArg (f byte :: ·) hmap⟩
    rw [encodeAll, hencode, hbytes]
    rfl

theorem decodeBytes_roundTrips (h : ∀ v, ∃ byte, encode v = .ok [byte] ∧ f byte = v)
    (items : {l : List α // l.length ≤ maxSize}) :
    RoundTrips (fun items => encodeCollection encode items.1) (decodeBytes f) items := by
  obtain ⟨items, hitems⟩ := items
  obtain ⟨bytes, hbytes, hlen, rfl⟩ := encodeAll_bytes h items
  obtain ⟨size, hsize, hcount⟩ := decodeItemCount_reads (lt_of_le_maxSize hitems)
  refine ⟨size ++ bytes, encodeCollection_eq hsize hbytes, hcount.bind ?_⟩
  exact (resize_reads hitems).bind (assign_reads hlen).map

end Collections

theorem string_lawful : string.Lawful := by
  apply Lawful.of_ofByte_eq_none rfl
  intro s _
  exact decodeBytes_roundTrips (f := id) (fun byte => ⟨byte, rfl, rfl⟩) s

theorem vector_lawful (hc : c.Lawful) : (vector c).Lawful := by
  apply Lawful.of_ofByte_eq_none rfl
  intro items hfits
  change RoundTrips _ (decodeVector c) items
  rw [decodeVector]
  split
  · exact decodeBytes_roundTrips (hc.ofByte _ ‹_›) items
  · obtain ⟨items, hitems⟩ := items
    obtain ⟨bytes, hbytes, hreads⟩ :=
      RoundTrips.encodeAll fun v hv => hc.roundTrips v (hfits v hv)
    obtain ⟨size, hsize, hcount⟩ := decodeItemCount_reads (lt_of_le_maxSize hitems)
    refine ⟨size ++ bytes, encodeCollection_eq hsize hbytes, hcount.bind ?_⟩
    exact (resize_reads hitems).bind hreads.map

theorem array_lawful (hc : c.Lawful) (n : ℕ) : (array c n).Lawful := by
  apply Lawful.of_ofByte_eq_none rfl
  intro (items : {l : List c.carrier // l.length = n}) hfits
  obtain ⟨items, rfl⟩ := items
  exact RoundTrips.encodeAll fun v hv => hc.roundTrips v (hfits v hv)

theorem decodePair_roundTrips (ha : a.Lawful) (hb : b.Lawful)
    {p : a.carrier × b.carrier} (hfits : a.Fits p.1 ∧ b.Fits p.2) :
    RoundTrips (encodePair a b) (decodePair a b) p := by
  obtain ⟨first, hfirst, hreads⟩ := ha.roundTrips p.1 hfits.1
  obtain ⟨second, hsecond, hreads'⟩ := hb.roundTrips p.2 hfits.2
  refine ⟨first ++ second, ?_, hreads.bind hreads'.map⟩
  rw [encodePair, hfirst, hsecond]
  rfl

theorem pair_lawful (ha : a.Lawful) (hb : b.Lawful) : (pair a b).Lawful :=
  Lawful.of_ofByte_eq_none rfl fun _ hfits => decodePair_roundTrips ha hb hfits

theorem unit_lawful : unit.Lawful :=
  Lawful.of_ofByte_eq_none rfl fun _ _ => ⟨[], rfl, Reads.of_pure⟩

theorem tuple_singleton_lawful (hc : c.Lawful) : (tuple [c]).Lawful where
  roundTrips v hfits := decodePair_roundTrips hc unit_lawful hfits
  ofByte := by
    intro f hf (v : c.carrier × PUnit)
    obtain ⟨g, hg, rfl⟩ := Option.map_eq_some_iff.mp hf
    obtain ⟨byte, hencode, hvalue⟩ := hc.ofByte g hg v.1
    refine ⟨byte, ?_, Prod.ext hvalue rfl⟩
    change (do
      let first ← c.encode v.1
      let second ← unit.encode v.2
      return first ++ second) = _
    rw [hencode]
    rfl

theorem tuple_lawful {cs : List ScaleType} (h : ∀ c ∈ cs, c.Lawful) : (tuple cs).Lawful := by
  induction cs with
  | nil => exact unit_lawful
  | cons c cs ih =>
    have hc := h c (mem_cons_self ..)
    have hcs := ih fun c hc => h c (mem_cons_of_mem _ hc)
    rcases cs with - | ⟨c', cs⟩
    · exact tuple_singleton_lawful hc
    · exact pair_lawful hc hcs

theorem optional_lawful (hc : c.Lawful) : (optional c).Lawful := by
  apply Lawful.of_ofByte_eq_none rfl
  intro (v : Option c.carrier) hfits
  rcases v with - | a
  · exact ⟨[0], rfl, (decodeBool_reads false).bind Reads.of_pure⟩
  · obtain ⟨bytes, hencode, hreads⟩ := hc.roundTrips a (hfits a rfl)
    refine ⟨1 :: bytes, ?_, (decodeBool_reads true).bind hreads.map⟩
    change (do let bytes ← c.encode a; return 1 :: bytes) = _
    rw [hencode]
    rfl

theorem optionalBool_lawful : optionalBool.Lawful := by
  apply Lawful.of_ofByte_eq_none rfl
  rintro (_ | _ | _) -
  · exact ⟨[0], rfl, (nextByte_reads 0).bind Reads.of_pure⟩
  · exact ⟨[2], rfl, (nextByte_reads 2).bind Reads.of_pure⟩
  · exact ⟨[1], rfl, (nextByte_reads 1).bind Reads.of_pure⟩

/-- Emplacing the bindings of a map in their order gives the map back: each key is
above those before it. -/
theorem decodeEntries_roundTrips {v : ScaleType} (hk : k.Lawful) (hv : v.Lawful)
    {l : List (k.carrier × v.carrier)} (hl : KeysIncreasing l) (hn : l.length = n)
    (hfits : ∀ p ∈ l, k.Fits p.1 ∧ v.Fits p.2) : ∃ bytes, encodeAll (encodePair k v) l = .ok bytes ∧
      Reads (decodeEntries k v n) bytes ⟨⟨l, hl⟩, hn.le⟩ := by
  induction n generalizing l with
  | zero =>
    obtain rfl := length_eq_zero_iff.mp hn
    exact ⟨[], rfl, Reads.of_pure⟩
  | succ n ih =>
    rcases eq_nil_or_concat' l with rfl | ⟨l, p, rfl⟩
    · cases hn
    · obtain ⟨hinit, -, hlast⟩ := pairwise_append.mp hl
      have hlen : l.length = n := by simpa using hn
      obtain ⟨bytes, hbytes, hreads⟩ :=
        ih hinit hlen fun p hp => hfits p (mem_append_left _ hp)
      obtain ⟨bytes', hbytes', hreads'⟩ :=
        decodePair_roundTrips hk hv (hfits p (mem_append_right _ (mem_singleton_self p)))
      have hemplace : (⟨(⟨l, hinit⟩ : SortedMap k.carrier v.carrier).emplace p.1 p.2,
          ((⟨l, hinit⟩ : SortedMap k.carrier v.carrier).size_emplace_le p.1 p.2).trans
            (Nat.add_le_add_right hlen.le 1)⟩ :
          {m : SortedMap k.carrier v.carrier // m.size ≤ n + 1}) = ⟨⟨l ++ [p], hl⟩, hn.le⟩ := by
        apply Subtype.ext
        apply SortedMap.ext
        exact SortedMap.emplace_toList_of_all_lt
          (fun b hb => hlast b hb p (mem_singleton_self p))
      have hcount : Reads (modify fun s => { s with allocated := s.allocated + 1 } :
          Decoder PUnit) [] ⟨⟩ := Reads.of_modify (fun _ => rfl) fun _ => rfl
      refine ⟨bytes ++ bytes', encodeAll_append hbytes hbytes', hreads.bind ?_⟩
      rw [← hemplace]
      exact hreads'.bind_last (hcount.bind_last Reads.of_pure)

theorem map_lawful {v : ScaleType} (hk : k.Lawful) (hv : v.Lawful) : (map k v).Lawful := by
  apply Lawful.of_ofByte_eq_none rfl
  intro (m : {m : SortedMap k.carrier v.carrier // m.size < 2 ^ 64}) hfits
  obtain ⟨⟨l, hl⟩, hsize⟩ := m
  obtain ⟨bytes, hbytes, hreads⟩ := decodeEntries_roundTrips hk hv hl rfl hfits
  obtain ⟨size, hencode, hcount⟩ := decodeItemCount_reads hsize
  exact ⟨size ++ bytes, encodeCollection_eq hencode hbytes, hcount.bind hreads.map⟩

end ScaleType

/-! ### Variants -/

/-- The operators of the alternatives find a value by the first index of its type. -/
def Alternatives.Lawful (types : List Ty) (alternatives : Alternatives) : Prop :=
  ∀ v, alternatives.Fits v → alternatives.type v ∈ types ∧ RoundTrips alternatives.encode
      (alternatives.decode (types.idxOf (alternatives.type v))) v

theorem Alternatives.cons_lawful
    {rest : Alternatives} (hc : c.Lawful) (hrest : rest.Lawful types) (ht : t ∉ types) :
    (cons t c rest).Lawful (t :: types) := by
  rintro (v | v) hfits
  · refine ⟨mem_cons_self .., ?_⟩
    obtain ⟨bytes, hencode, hreads⟩ := hc.roundTrips v hfits
    refine ⟨bytes, hencode, ?_⟩
    change Reads ((cons t c rest).decode ((t :: types).idxOf t)) bytes (.inl v)
    rw [idxOf_cons_self]
    exact hreads.map
  · obtain ⟨hmem, bytes, hencode, hreads⟩ := hrest v hfits
    refine ⟨mem_cons_of_mem _ hmem, bytes, hencode, ?_⟩
    change Reads ((cons t c rest).decode ((t :: types).idxOf (rest.type v))) bytes (.inr v)
    have hne : t ≠ rest.type v := fun heq => ht (heq ▸ hmem)
    rw [idxOf_cons_ne types hne]
    exact hreads.map

theorem ScaleType.variant_lawful {alternatives : Alternatives}
    (h : alternatives.Lawful types) (hcount : types.length ≤ 256) :
    (variant types alternatives).Lawful := by
  apply Lawful.of_ofByte_eq_none rfl
  intro v hfits
  obtain ⟨hmem, bytes, hencode, hreads⟩ := h v hfits
  have hindex : (Fin.ofNat 256 (types.idxOf (alternatives.type v))).val =
      types.idxOf (alternatives.type v) :=
    Nat.mod_eq_of_lt ((idxOf_lt_length_iff.mpr hmem).trans_le hcount)
  refine ⟨Fin.ofNat 256 (types.idxOf (alternatives.type v)) :: bytes, ?_,
    (nextByte_reads _).bind ?_⟩
  · change (do
      let bytes ← alternatives.encode v
      return Fin.ofNat 256 (types.idxOf (alternatives.type v)) :: bytes) = _
    rw [hencode]
    rfl
  · rw [hindex]
    exact hreads

/-! ## The supported types -/

theorem Ty.optional_denote {P : ScaleType → Prop} (hbool : P .optionalBool)
    (h : P (.optional t.denote)) : P (Ty.optional t).denote := by
  by_cases ht : t = .bool
  · subst ht
    exact hbool
  · rwa [Ty.denote]
    exact ht

mutual

theorem Ty.denote_lawful : ∀ t : Ty, t.supported = true → t.denote.Lawful
  | .bool, _ => ScaleType.bool_lawful
  | .uint w, _ => ScaleType.uint_lawful
  | .int w, _ => ScaleType.int_lawful
  | .compact, _ => ScaleType.compact_lawful
  | .u256, _ => ScaleType.u256_lawful
  | .s256, _ => ScaleType.s256_lawful
  | .string, _ => ScaleType.string_lawful
  | .vector t, h => ScaleType.vector_lawful (t.denote_lawful h)
  | .array t n, h => ScaleType.array_lawful (t.denote_lawful h) n
  | .pair a b, h =>
    have hab := Bool.and_eq_true_iff.mp h
    ScaleType.pair_lawful (a.denote_lawful hab.1) (b.denote_lawful hab.2)
  | .tuple ts, h => ScaleType.tuple_lawful (ts.denote_lawful h)
  | .optional t, h =>
    Ty.optional_denote ScaleType.optionalBool_lawful (ScaleType.optional_lawful (t.denote_lawful h))
  | .variant ts, h => by
    obtain ⟨hts, hshape⟩ := Bool.and_eq_true_iff.mp h
    obtain ⟨-, hnodup, hcount⟩ := of_decide_eq_true hshape
    exact ScaleType.variant_lawful (ts.alternatives_lawful hts hnodup) hcount
  | .map k v, h =>
    have hkv := Bool.and_eq_true_iff.mp h
    ScaleType.map_lawful (k.denote_lawful hkv.1) (v.denote_lawful hkv.2)

theorem Tys.denote_lawful : ∀ ts : Tys, ts.supported = true → ∀ c ∈ ts.denote, c.Lawful
  | .nil, _ => fun _ hc => absurd hc not_mem_nil
  | .cons t ts, h =>
    have hts := Bool.and_eq_true_iff.mp h
    forall_mem_cons.mpr ⟨t.denote_lawful hts.1, ts.denote_lawful hts.2⟩

theorem Tys.alternatives_lawful : ∀ ts : Tys, ts.supported = true → ts.toList.Nodup →
    ts.alternatives.Lawful ts.toList
  | .nil, _, _ => fun v => v.elim
  | .cons t ts, h, hnodup => by
    obtain ⟨ht, hts⟩ := Bool.and_eq_true_iff.mp h
    obtain ⟨hmem, hnodup⟩ := nodup_cons.mp hnodup
    exact Alternatives.cons_lawful (t.denote_lawful ht) (ts.alternatives_lawful hts hnodup) hmem

end

/-- Decoding the encoding of a value, followed by anything, yields the value and leaves
what follows unread. -/
theorem decode_encode {t : Ty} (ht : t.supported = true) {v : t.Value} (hv : t.denote.Fits v)
    (trailing : Bytes) :
    ∃ bytes s, encode t v = .ok bytes ∧ decode t (bytes ++ trailing) = .ok v s ∧
      s.Left trailing ∧ s.currentIndex = bytes.length := by
  obtain ⟨bytes, hencode, hreads⟩ := (t.denote_lawful ht).roundTrips v hv
  have hleft := Cursor.left_start (bytes ++ trailing)
  obtain ⟨s, hrun, hspan, hindex⟩ := hreads _ trailing hleft
  have hcount : s.currentIndex = bytes.length := by
    rw [hindex]
    exact Nat.zero_add _
  exact ⟨bytes, s, hencode, hrun, hleft.moved hspan hindex, hcount⟩

/-- A pair of a byte vector and a negative number, followed by one more byte. -/
theorem decode_encode_pair : ∃ bytes s, encode (.pair (.vector (.uint .one)) .s256)
        (⟨[⟨1, by decide⟩, ⟨255, by decide⟩], by decide⟩, ⟨-5, by decide⟩) = .ok bytes ∧
      decode (.pair (.vector (.uint .one)) .s256) (bytes ++ [7]) =
        .ok (⟨[⟨1, by decide⟩, ⟨255, by decide⟩], by decide⟩, ⟨-5, by decide⟩) s ∧
      s.Left [7] ∧ s.currentIndex = bytes.length := by
  refine decode_encode rfl ?_ [7]
  exact ⟨fun _ _ => trivial, by decide, by decide⟩

/-- An `s256` of magnitude `2 ^ 255` and positive sign is decoded to the negative one. -/
theorem decode_encode_s256_overflow : ∃ bytes v s, encode .s256 ⟨2 ^ 255, by decide⟩ = .ok bytes ∧
      decode .s256 bytes = .ok v s ∧ v.1 = -2 ^ 255 := by
  refine ⟨_, _, _, rfl, rfl, ?_⟩
  decide +kernel

end FiscoSmart.Codec.Scale
