import FiscoSmart.Codec.Abi

/-!
# ABI decoding of arbitrary data

An offset or a size in the data is a number of 256 bits that is cut down to 64
bits, and the sums that are compared with the size of the data wrap around at
`2 ^ 64`.  So an offset near the end of the address space passes the check, and
the range behind it lies outside the data; it is then taken to be empty.  A
vector is moreover resized to the announced length before anything is compared
with the size of the data.  Where no range runs over the end of the address
space, all of them lie inside the data, and what is allocated are the announced
lengths.
-/

namespace FiscoSmart.Codec.Abi

open Support AbiType List

/-- All ranges that were taken lie within the data. -/
def CropsInside (data : Bytes) (usage : Usage) : Prop :=
  ∀ crop ∈ usage.crops, crop.1 + crop.2 ≤ data.length

/-- What `abiOut` used, whether or not it succeeded. -/
def abiOutUsage (ts : Tys) (data : Bytes) : Usage :=
  final (deserializeItems data 0 ts.denote 0) ⟨[], 0⟩

/-- The ranges that were taken lie within the data, and at most `budget` elements and bytes
were allocated. -/
def Bounded (data : Bytes) (budget : ℕ) (usage : Usage) : Prop :=
  CropsInside data usage ∧ usage.allocated ≤ budget

/-- Every offset that `abiOut` follows stays inside the data, and it allocates at most `factor`
elements and bytes for each byte of the data. -/
def DecodesSafely (factor : ℕ) (ts : Tys) (data : Bytes) : Prop :=
  Bounded data (factor * data.length) (abiOutUsage ts data)

/-! ## Offsets and lengths in the data -/

/-- A range of `count` bytes at `start` that passes the check of its last byte does not run
over the end of the address space. -/
def RangeFits (data : Bytes) (last start count : ℕ) : Prop :=
  sizeT last < data.length → start + count ≤ 2 ^ 64

/-- The offset of a dynamic value, and the value where it leads; or the value in its place. -/
def itemFits (c : AbiType) (fits : ℕ → Usage → Prop) (data : Bytes) (base head : ℕ)
    (usage : Usage) : Prop :=
  if c.isDynamic then
    RangeFits data (sizeT (base + head) + 31) (sizeT (base + head)) 32 ∧
      After (deserializeWord data (sizeT (base + head))) usage
        fun offset => fits (sizeT (base + sizeT offset.1))
  else fits (sizeT (base + head)) usage

def elementsFit (c : AbiType) (fits : ℕ → Usage → Prop) (data : Bytes) (base : ℕ) :
    (u n : ℕ) → Usage → Prop
  | _, 0, _ => True
  | u, n + 1, usage => itemFits c fits data base (u * c.length * 32) usage ∧
      After (c.deserializeItem data base (u * c.length * 32)) usage
        fun _ => elementsFit c fits data base (u + 1) n

mutual

/-- In decoding the type at an offset, every range that passes its check ends within the
address space, and every length is at most what is left of the budget. -/
def Ty.fits (data : Bytes) (budget : ℕ) : Ty → ℕ → Usage → Prop
  | .u256, p, _ | .bool, p, _ | .string32, p, _ => RangeFits data (p + 31) p 32
  | .address, p, _ => RangeFits data (p + 31) (sizeT (p + 12)) 20
  | .string, p, usage | .bytes, p, usage => RangeFits data (p + 31) p 32 ∧
      After (deserializeWord data p) usage fun len usage' =>
        sizeT (p + 31 + sizeT len.1) < data.length →
          sizeT (p + 32) + sizeT len.1 ≤ 2 ^ 64 ∧ usage'.allocated + sizeT len.1 ≤ budget
  | .vector t, p, usage => RangeFits data (p + 31) p 32 ∧
      After (deserializeWord data p) usage fun length usage' =>
        (sizeT length.1 ≤ maxSize → usage'.allocated + sizeT length.1 ≤ budget) ∧
          After (resize (sizeT length.1)) usage' fun n =>
            elementsFit t.denote (t.fits data budget) data (sizeT (p + 32)) 0 n.1
  | .array t n, p, usage => elementsFit t.denote (t.fits data budget) data p 0 n usage
  | .tuple ts, p, usage => ts.fits data budget p 0 usage

def Tys.fits (data : Bytes) (budget : ℕ) : Tys → ℕ → ℕ → Usage → Prop
  | .nil, _, _, _ => True
  | .cons t ts, base, head, usage =>
    itemFits t.denote (t.fits data budget) data base head usage ∧
      After (t.denote.deserializeItem data base head) usage
        fun _ => ts.fits data budget base (head + t.denote.length * 32)

end

/-! ## What decoders need -/

section Needs

variable {data : Bytes} {budget base head p n : ℕ} {α β : Type} {d : Decoder α} {c : AbiType}
  {P Q : Usage → Prop}

/-- The decoder stays within the bounds exactly if it is started with `P`, and it gives
nothing back. -/
structure Needs (data : Bytes) (budget : ℕ) (d : Decoder α) (P : Usage → Prop) : Prop where
  grows : ∀ usage, Bounded data budget (final d usage) → Bounded data budget usage
  iff : ∀ usage, Bounded data budget usage → (Bounded data budget (final d usage) ↔ P usage)

namespace Needs

theorem of_pure {v : α} : Needs data budget (pure v) fun _ => True :=
  ⟨fun _ h => h, fun _ h => iff_of_true h trivial⟩

theorem of_throw {e : AbiFailure} : Needs data budget (throw e : Decoder α) fun _ => True :=
  ⟨fun _ h => h, fun _ h => iff_of_true h trivial⟩

theorem congr (h : Needs data budget d P) (hPQ : ∀ usage, P usage ↔ Q usage) :
    Needs data budget d Q :=
  ⟨h.grows, fun usage husage => (h.iff usage husage).trans (hPQ usage)⟩

theorem bind {f : α → Decoder β} {R : α → Usage → Prop} (hd : Needs data budget d P)
    (hf : ∀ v, Needs data budget (f v) (R v)) :
    Needs data budget (d >>= f) fun usage => P usage ∧ After d usage R := by
  have hfinal : ∀ usage, Bounded data budget (final (d >>= f) usage) ↔
      Bounded data budget (final d usage) ∧
        After d usage fun v usage' => Bounded data budget (final (f v) usage') := by
    intro usage
    rcases hrun : d usage with ⟨v, usage'⟩ | ⟨e, usage'⟩
    · rw [final, final, Runs.bind_eq hrun, hrun]
      constructor
      · intro h
        refine ⟨(hf v).grows usage' h, fun w usage'' hrun' => ?_⟩
        obtain ⟨rfl, rfl⟩ := Runs.unique hrun hrun'
        exact h
      · exact fun h => h.2 v usage' hrun
    · rw [final, final, Fails.bind_eq hrun, hrun]
      exact (and_iff_left fun _ _ hrun' => absurd hrun' (Fails.not_runs hrun)).symm
  constructor
  · exact fun usage h => hd.grows usage ((hfinal usage).mp h).1
  · intro usage husage
    rw [hfinal, hd.iff usage husage]
    refine and_congr_right fun hP => forall₂_congr fun v usage' => imp_congr_right fun hrun => ?_
    have hbounded := (hd.iff usage husage).mpr hP
    rw [← hrun.eq_final] at hbounded
    exact (hf v).iff usage' hbounded

theorem map {g : α → β} (hd : Needs data budget d P) : Needs data budget (do return g (← d)) P :=
  (hd.bind fun _ => of_pure).congr fun _ => and_iff_left fun _ _ _ => trivial

theorem validOffset_bind {f : PUnit → Decoder β} (hf : Needs data budget (f ⟨⟩) P) :
    Needs data budget (validOffset data n >>= f) fun usage => n < data.length → P usage := by
  rw [validOffset]
  by_cases hn : data.length ≤ n
  · rw [if_pos hn]
    refine (of_throw.bind fun _ => hf).congr fun usage => ?_
    exact iff_of_true ⟨trivial, fun _ _ hrun => absurd hrun Fails.of_throw.not_runs⟩
      fun hlt => absurd hlt (Nat.not_lt.mpr hn)
  · rw [if_neg hn]
    exact hf.congr fun usage => (imp_iff_right (Nat.not_le.mp hn)).symm

end Needs

theorem getCroppedData_needs {start count : ℕ} :
    Needs data budget (getCroppedData data start count) fun _ => start + count ≤ data.length where
  grows _ h := ⟨fun crop hcrop => h.1 crop (mem_cons_of_mem _ hcrop), h.2⟩
  iff _ h := (and_iff_left h.2).trans (forall_mem_cons.trans (and_iff_left h.1))

/-- A check and the range that it is for. -/
theorem range_needs {last start count : ℕ} {g : Bytes → α} (hdata : data.length < 2 ^ 64)
    (hlast : start + count ≤ 2 ^ 64 → sizeT last < data.length → start + count ≤ data.length) :
    Needs data budget (do
      validOffset data (sizeT last)
      let bytes ← getCroppedData data start count
      return g bytes) fun _ => RangeFits data last start count := by
  refine (Needs.validOffset_bind getCroppedData_needs.map).congr fun _ => ?_
  refine forall_congr' fun hlt => ⟨fun h => ?_, fun h => hlast h hlt⟩
  omega

theorem deserializeWord_needs (hdata : data.length < 2 ^ 64) :
    Needs data budget (deserializeWord data p) fun _ => RangeFits data (p + 31) p 32 := by
  apply range_needs hdata
  rw [sizeT]
  omega

theorem allocate_needs :
    Needs data budget (allocate n) fun usage => usage.allocated + n ≤ budget where
  grows _ h := ⟨h.1, (Nat.le_add_right _ _).trans h.2⟩
  iff _ h := and_iff_right h.1

theorem resize_needs {length : ℕ} : Needs data budget (resize length)
    fun usage => length ≤ maxSize → usage.allocated + length ≤ budget := by
  rw [resize]
  split_ifs with h
  · exact allocate_needs.map.congr fun _ => (imp_iff_right h).symm
  · exact Needs.of_throw.congr fun _ => iff_of_true trivial fun h' => absurd h' h

/-- The bytes are taken before memory is allocated for them. -/
theorem bytes_needs {start count : ℕ} (hdata : data.length < 2 ^ 64) : Needs data budget (do
      let result ← getCroppedData data start count
      allocate result.length
      return result)
    fun usage => start + count ≤ data.length ∧ usage.allocated + count ≤ budget := by
  refine (getCroppedData_needs.bind fun _ => allocate_needs.map).congr fun usage => ?_
  refine and_congr_right fun hle => ?_
  have hinside : start ≤ data.length ∧ count ≤ data.length ∧ sizeT (start + count) ≤ data.length :=
    ⟨by omega, by omega, by rw [sizeT]; omega⟩
  have hlen : ((data.drop start).take count).length = count := by
    rw [length_take, length_drop]
    omega
  have hrun : Runs (getCroppedData data start count) usage ((data.drop start).take count)
      { usage with crops := (start, count) :: usage.crops } := by
    refine Runs.of_modify.bind ?_
    rw [if_pos hinside]
    exact .of_pure
  constructor
  · intro h
    have hbudget := h _ _ hrun
    dsimp only at hbudget
    rwa [hlen] at hbudget
  · intro h bytes usage' hrun'
    obtain ⟨rfl, rfl⟩ := hrun.unique hrun'
    rwa [hlen]

theorem deserializeBytes_needs (hdata : data.length < 2 ^ 64) :
    Needs data budget (deserializeBytes data p) (Ty.string.fits data budget p) := by
  refine ((deserializeWord_needs hdata).bind fun len =>
    Needs.validOffset_bind (bytes_needs hdata)).congr fun usage => ?_
  refine and_congr_right fun _ => after_congr fun len usage' => forall_congr' fun hlast => ?_
  refine and_congr_left fun _ => ?_
  have hlen : sizeT len.1 < 2 ^ 64 := Nat.mod_lt _ (by decide)
  have hstart : sizeT (p + 32) = (p + 32) % 2 ^ 64 := rfl
  rw [sizeT] at hlast
  constructor <;> omega

variable {fits : ℕ → Usage → Prop}

theorem deserializeItem_needs (hdata : data.length < 2 ^ 64)
    (hc : ∀ p, Needs data budget (c.deserialize data p) (fits p)) :
    Needs data budget (c.deserializeItem data base head) (itemFits c fits data base head) := by
  unfold itemFits
  rw [deserializeItem]
  split_ifs
  · exact (deserializeWord_needs hdata).bind fun offset => hc _
  · exact hc _

theorem deserializeElements_needs (hdata : data.length < 2 ^ 64)
    (hc : ∀ p, Needs data budget (c.deserialize data p) (fits p)) (u n : ℕ) :
    Needs data budget (c.deserializeElements data base u n)
      (elementsFit c fits data base u n) := by
  induction n generalizing u with
  | zero => exact .of_pure
  | succ n ih => exact (deserializeItem_needs hdata hc).bind fun v => (ih (u + 1)).map

mutual

theorem Ty.needs (hdata : data.length < 2 ^ 64) : ∀ (t : Ty) (p : ℕ),
    Needs data budget (t.denote.deserialize data p) (t.fits data budget p)
  | .u256, _ => deserializeWord_needs hdata
  | .bool, _ => (deserializeWord_needs hdata).map
  | .address, p => range_needs hdata (by rw [sizeT, sizeT]; omega)
  | .string32, p => range_needs hdata (by rw [sizeT]; omega)
  | .string, _ | .bytes, _ => deserializeBytes_needs hdata
  | .vector t, p => (deserializeWord_needs hdata).bind fun length => resize_needs.bind fun n =>
      (deserializeElements_needs hdata (t.needs hdata) 0 n.1).map
  | .array t n, _ => deserializeElements_needs hdata (t.needs hdata) 0 n
  | .tuple ts, _ => ts.needs hdata _ 0

theorem Tys.needs (hdata : data.length < 2 ^ 64) : ∀ (ts : Tys) (base head : ℕ),
    Needs data budget (deserializeItems data base ts.denote head) (ts.fits data budget base head)
  | .nil, _, _ => .of_pure
  | .cons t ts, _, _ => (deserializeItem_needs hdata (t.needs hdata)).bind fun _ =>
      (ts.needs hdata _ _).map

end

end Needs

/-! ## Which data are decoded safely -/

/-- The word `2 ^ 64 - 31` leads to a range outside the data, which is found to be empty. -/
example : ¬ ∀ crop ∈ (abiOutUsage (.cons .string .nil) (word (2 ^ 64 - 31))).crops,
    crop.1 + crop.2 ≤ 32 := by
  decide +kernel

end FiscoSmart.Codec.Abi
