import FiscoSmart.Codec.Abi

/-!
# ABI encodings are read back

Arguments are decoded from their encoding if the traits of all tuples that are
encoded are right: the items of a tuple take as many words as there are items,
and a tuple is recognised as dynamic if one of its items is.  The traits are
wrong for a tuple with a static item of more than one word, and for a tuple
whose dynamic items contain no string, such as `std::tuple<bytes>`.
-/

namespace FiscoSmart.Codec.Abi

open Support AbiType List

variable {α : Type} {v : α} {data part : Bytes} {n p base : ℕ} {c : AbiType} {cs : List AbiType}
  {l : List c.carrier} {d : Decoder α}

/-- Whatever was used before, `d` returns `v`. -/
def Yields {α : Type} (d : Decoder α) (v : α) : Prop :=
  ∀ usage, ∃ usage', Runs d usage v usage'

namespace Yields

variable {β : Type} {f : α → Decoder β} {w : β}

theorem of_pure : Yields (pure v) v := fun usage => ⟨usage, .of_pure⟩

theorem of_modify {g : Usage → Usage} : Yields (modify g) ⟨⟩ :=
  fun usage => ⟨g usage, .of_modify⟩

theorem bind (hd : Yields d v) (hf : Yields (f v) w) : Yields (d >>= f) w := by
  intro usage
  obtain ⟨usage', hrun⟩ := hd usage
  obtain ⟨usage'', hrun'⟩ := hf usage'
  exact ⟨usage'', hrun.bind hrun'⟩

theorem map {g : α → β} (hd : Yields d v) : Yields (do return g (← d)) (g v) :=
  hd.bind (of_pure)

end Yields

/-! ## Elementary types -/

theorem sizeT_of_lt (h : n < 2 ^ 64) : sizeT n = n := Nat.mod_eq_of_lt h

theorem validOffset_yields {offset : ℕ} (h : offset < data.length) :
    Yields (validOffset data offset) ⟨⟩ := by
  rw [validOffset, if_neg (Nat.not_le.mpr h)]
  exact .of_pure

theorem getCroppedData_yields (hdata : data.length < 2 ^ 64)
    (h : At data p part) : Yields (getCroppedData data p part.length) part := by
  have hle := h.le_length
  have hcrop : p ≤ data.length ∧ part.length ≤ data.length ∧
      sizeT (p + part.length) ≤ data.length := by
    rw [sizeT_of_lt (hle.trans_lt hdata)]
    omega
  refine Yields.of_modify.bind ?_
  rw [if_pos hcrop, h.take_drop]
  exact Yields.of_pure

theorem word_length : (word n).length = 32 := bigEndian_length 32 n

theorem fromBigEndian_word (hn : n < 2 ^ 256) : fromBigEndian (word n) % 2 ^ 256 = n := by
  rw [word, fromBigEndian_bigEndian, show (256 : ℕ) ^ 32 = 2 ^ 256 by decide +kernel,
    Nat.mod_mod, Nat.mod_eq_of_lt hn]

theorem word_yields {f : Bytes → Decoder α}
    (hdata : data.length < 2 ^ 64) (h : At data p part) (hpart : part.length = 32)
    (hf : Yields (f part) v) : Yields (do
      validOffset data (sizeT (p + 31))
      let bytes ← getCroppedData data p 32
      f bytes) v := by
  have hle := h.le_length
  have hoffset : sizeT (p + 31) < data.length := by
    rw [sizeT_of_lt] <;> omega
  have hcrop := getCroppedData_yields hdata h
  rw [hpart] at hcrop
  exact (validOffset_yields hoffset).bind (hcrop.bind hf)

theorem deserializeWord_yields (hdata : data.length < 2 ^ 64) (hn : n < 2 ^ 256)
    (h : At data p (word n)) : Yields (deserializeWord data p) ⟨n, hn⟩ := by
  refine word_yields hdata h word_length ?_
  have hvalue : (⟨fromBigEndian (word n) % 2 ^ 256, Nat.mod_lt _ (by decide)⟩ : U256) = ⟨n, hn⟩ :=
    Subtype.ext (fromBigEndian_word hn)
  rw [← hvalue]
  exact .of_pure

theorem populate_self {bytes : {bytes : Bytes // bytes.length = n}} :
    populate n bytes.1 = bytes := by
  obtain ⟨bytes, rfl⟩ := bytes
  apply Subtype.ext
  change bytes.take bytes.length ++ List.replicate (bytes.length - bytes.length) 0 = bytes
  rw [take_length, Nat.sub_self, replicate_zero, append_nil]

/-! ## The templates -/

/-- The traits of a type are right for a value, which is decoded wherever it stands. -/
structure AbiType.Lawful (c : AbiType) (v : c.carrier) : Prop where
  static_length : c.isDynamic = false → (c.serialise v).length = 32 * c.length
  dynamic_length : c.isDynamic = true → c.length = 1
  decodes : ∀ data p, data.length < 2 ^ 64 → At data p (c.serialise v) →
    Yields (c.deserialize data p) v

namespace AbiType

theorem u256_lawful (v : U256) : u256.Lawful v where
  static_length _ := word_length
  dynamic_length h := by cases h
  decodes data p hdata h := deserializeWord_yields hdata v.2 h

theorem bool_lawful (v : Bool) : bool.Lawful v where
  static_length _ := word_length
  dynamic_length h := by cases h
  decodes := by
    intro data p hdata h
    have hword : (if v then 1 else 0) < 2 ^ 256 := by cases v <;> decide
    have hyields := (deserializeWord_yields hdata hword h).map (g := fun ret => decide (0 < ret.1))
    have hv : decide (0 < if v then 1 else 0) = v := by cases v <;> rfl
    rwa [hv] at hyields

theorem address_lawful (v : {bytes : Bytes // bytes.length = 20}) : address.Lawful v where
  static_length := by
    intro _
    change (List.replicate 12 0 ++ v.1).length = 32
    rw [length_append, length_replicate, v.2]
  dynamic_length h := by cases h
  decodes := by
    intro data p hdata h
    have hlast := h.right
    rw [length_replicate] at hlast
    have hle := hlast.le_length
    have hoffset : sizeT (p + 31) < data.length := by
      rw [sizeT_of_lt] <;> omega
    have hcrop := getCroppedData_yields hdata hlast
    rw [v.2, ← sizeT_of_lt (n := p + 12) (by omega)] at hcrop
    have hyields := hcrop.map (g := populate 20)
    rw [populate_self] at hyields
    exact (validOffset_yields hoffset).bind hyields

theorem string32_lawful (v : {bytes : Bytes // bytes.length = 32}) : string32.Lawful v where
  static_length _ := v.2
  dynamic_length h := by cases h
  decodes := by
    intro data p hdata h
    have hyields : Yields (pure (populate 32 v.1)) v := by
      rw [populate_self]
      exact .of_pure
    exact word_yields hdata h v.2 hyields

theorem deserializeBytes_yields {v : Bytes}
    (hdata : data.length < 2 ^ 64) (h : At data p (serialiseBytes v)) :
    Yields (deserializeBytes data p) v := by
  have hcontent := h.right.left
  rw [word_length] at hcontent
  have hle := hcontent.le_length
  have hlen : sizeT v.length = v.length := sizeT_of_lt (by omega)
  have hlast : sizeT (p + 31 + sizeT v.length) < data.length := by
    rw [hlen, sizeT_of_lt] <;> omega
  have hcrop := getCroppedData_yields hdata hcontent
  rw [← sizeT_of_lt (n := p + 32) (by omega), ← hlen] at hcrop
  refine (deserializeWord_yields hdata (by omega) h.left).bind ((validOffset_yields hlast).bind ?_)
  exact hcrop.bind (Yields.of_modify.bind Yields.of_pure)

theorem string_lawful (v : Bytes) : string.Lawful v where
  static_length h := by cases h
  dynamic_length _ := rfl
  decodes _ _ hdata h := deserializeBytes_yields hdata h

theorem bytes_lawful (v : Bytes) : bytes.Lawful v where
  static_length h := by cases h
  dynamic_length _ := rfl
  decodes _ _ hdata h := deserializeBytes_yields hdata h

/-! ### Items -/

section Items

variable {head tail : ℕ}

/-- The first of several parts is decoded, and the others are placed behind it. -/
theorem Lawful.deserializeItem {v : c.carrier} (hc : c.Lawful v) (hdata : data.length < 2 ^ 64)
    {parts : List (Chunk Byte)}
    (h : Placed word data base head tail ((c.isDynamic, c.serialise v) :: parts)) :
    Yields (c.deserializeItem data base head) v ∧
      ∃ tail', Placed word data base (head + c.length * 32) tail' parts := by
  rw [AbiType.deserializeItem]
  rcases hdyn : c.isDynamic with - | -
  · rw [hdyn] at h
    obtain ⟨hpart, hrest⟩ := h
    have hle := hpart.le_length
    constructor
    · rw [if_neg Bool.false_ne_true, sizeT_of_lt (n := base + head) (by omega)]
      exact hc.decodes data _ hdata hpart
    · rw [hc.static_length hdyn, Nat.mul_comm] at hrest
      exact ⟨_, hrest⟩
  · rw [hdyn] at h
    obtain ⟨hoffset, hpart, hrest⟩ := h
    have hle := hoffset.le_length
    have hle' := hpart.le_length
    have htail : sizeT tail = tail := sizeT_of_lt (by omega)
    constructor
    · rw [if_pos rfl, sizeT_of_lt (n := base + head) (by omega)]
      refine (deserializeWord_yields hdata (by omega) hoffset).bind ?_
      rw [htail, sizeT_of_lt (n := base + tail) (by omega)]
      exact hc.decodes data _ hdata hpart
    · rw [hc.dynamic_length hdyn]
      rw [word_length] at hrest
      exact ⟨_, hrest⟩

theorem deserializeElements_yields (hl : ∀ v ∈ l, c.Lawful v) (hdata : data.length < 2 ^ 64) {u : ℕ}
    (hn : l.length = n)
    (h : Placed word data base (u * c.length * 32) tail (c.elementParts l)) :
    Yields (c.deserializeElements data base u n) ⟨l, hn⟩ := by
  subst hn
  induction l generalizing u tail with
  | nil => exact .of_pure
  | cons v l ih =>
    obtain ⟨hv, tail', hrest⟩ := (hl v (mem_cons_self ..)).deserializeItem hdata h
    rw [← Nat.add_mul, ← Nat.succ_mul] at hrest
    exact hv.bind (ih (fun w hw => hl w (mem_cons_of_mem _ hw)) hrest).map

/-- All items of a tuple are lawful. -/
def AllLawful : (cs : List AbiType) → Values cs → Prop
  | [], _ => True
  | c :: cs, vs => c.Lawful vs.1 ∧ AllLawful cs vs.2

theorem deserializeItems_yields {vs : Values cs} (hvs : AllLawful cs vs)
    (hdata : data.length < 2 ^ 64)
    (h : Placed word data base head tail (itemParts cs vs)) :
    Yields (deserializeItems data base cs head) vs := by
  induction cs generalizing head tail with
  | nil => exact .of_pure
  | cons c cs ih =>
    obtain ⟨hv, tail', hrest⟩ := hvs.1.deserializeItem hdata h
    exact hv.bind (ih hvs.2 hrest).map

theorem layout_itemParts_length {vs : Values cs} (hvs : AllLawful cs vs) (next : ℕ) :
    (layout word next (itemParts cs vs)).1.length = offsetWords cs * 32 := by
  induction cs generalizing next with
  | nil => rfl
  | cons c cs ih =>
    obtain ⟨hc, hvs⟩ := hvs
    have hrest := ih hvs
    change _ = (c.length + offsetWords cs) * 32
    rw [itemParts]
    rcases hdyn : c.isDynamic with - | -
    · rw [layout, length_append, hrest, hc.static_length hdyn]
      omega
    · rw [layout, length_append, word_length, hrest, hc.dynamic_length hdyn]
      omega

theorem layout_elementParts_length (hl : ∀ v ∈ l, c.Lawful v) {next : ℕ} :
    (layout word next (c.elementParts l)).1.length = l.length * (c.length * 32) := by
  induction l generalizing next with
  | nil => exact (Nat.zero_mul _).symm
  | cons v l ih =>
    change (layout word next ((c.isDynamic, c.serialise v) :: c.elementParts l)).1.length = _
    have hc := hl v (mem_cons_self ..)
    have htail : ∀ w ∈ l, c.Lawful w := fun w hw => hl w (mem_cons_of_mem _ hw)
    rw [length_cons, Nat.succ_mul, Nat.add_comm]
    rcases hdyn : c.isDynamic with - | -
    · rw [layout, length_append, ih htail, hc.static_length hdyn, Nat.mul_comm 32]
    · rw [layout, length_append, word_length, ih htail, hc.dynamic_length hdyn]

end Items

theorem elementParts_static (h : c.isDynamic = false) :
    ∀ item ∈ c.elementParts l, item.1 = false := by
  intro item hitem
  obtain ⟨v, -, rfl⟩ := mem_map.mp hitem
  exact h

/-- The elements of an array or a vector stand behind each other, and behind their offsets
if they are dynamic. -/
theorem decodes_elements (hl : ∀ v ∈ l, c.Lawful v)
    (hdata : data.length < 2 ^ 64) (hn : l.length = n) (h : At data base (c.serialiseElements l)) :
    Yields (c.deserializeElements data base 0 n) ⟨l, hn⟩ := by
  have hplaced : Placed word data base 0 (l.length * 32) (c.elementParts l) := by
    rcases hdyn : c.isDynamic with - | -
    · exact placed_of_static h (elementParts_static hdyn)
    · apply placed_of_append h
      rw [layout_elementParts_length hl]
      cases l with
      | nil => rw [length_nil, Nat.zero_mul, Nat.zero_mul]
      | cons v l => rw [(hl v (mem_cons_self ..)).dynamic_length hdyn, Nat.one_mul]
  rw [← Nat.zero_mul 32, ← Nat.zero_mul c.length] at hplaced
  exact deserializeElements_yields hl hdata hn hplaced

theorem vector_lawful {v : (vector c).carrier} (hl : ∀ w ∈ v.1, c.Lawful w) :
    (vector c).Lawful v where
  static_length h := by cases h
  dynamic_length _ := rfl
  decodes := by
    intro data p hdata h
    obtain ⟨l, hlmax⟩ := v
    have helements := h.right
    rw [word_length] at helements
    have hle := helements.le_length
    have hmax : maxSize < 2 ^ 64 := by decide
    have hlen : sizeT l.length = l.length := sizeT_of_lt (by omega)
    have hresize : Yields (resize (sizeT l.length)) ⟨l.length, hlmax⟩ := by
      rw [hlen, resize, dif_pos hlmax]
      exact Yields.of_modify.bind Yields.of_pure
    have hword : l.length < 2 ^ 256 := by omega
    rw [← sizeT_of_lt (n := p + 32) (by omega)] at helements
    exact (deserializeWord_yields hdata hword h.left).bind
      (hresize.bind (decodes_elements hl hdata rfl helements).map)

theorem array_lawful {v : (array c n).carrier} (hl : ∀ w ∈ v.1, c.Lawful w) :
    (array c n).Lawful v where
  static_length := by
    intro (hdyn : c.isDynamic = false)
    change (c.serialiseElements v.1).length = 32 * (if c.isDynamic then 1 else n * c.length)
    rw [serialiseElements, layout_of_static (elementParts_static hdyn), append_nil,
      layout_elementParts_length hl, v.2, hdyn, if_neg Bool.false_ne_true, Nat.mul_comm 32,
      Nat.mul_assoc]
  dynamic_length := by
    intro (hdyn : c.isDynamic = true)
    exact if_pos hdyn
  decodes data p hdata h := decodes_elements hl hdata v.2 h

/-- The traits of the items are those that the traits of the tuple assume. -/
def Regular (cs : List AbiType) : Bool :=
  decide (offsetWords cs = cs.length) && (cs.any isElementType == cs.any isDynamic)

theorem itemParts_static (h : cs.any isDynamic = false) (vs : Values cs) :
    ∀ item ∈ itemParts cs vs, item.1 = false := by
  induction cs with
  | nil => exact fun _ hitem => absurd hitem not_mem_nil
  | cons c cs ih =>
    rw [any_cons, Bool.or_eq_false_iff] at h
    exact forall_mem_cons.mpr ⟨h.1, ih h.2 vs.2⟩

theorem tuple_lawful {vs : Values cs} (hvs : AllLawful cs vs) (h : Regular cs = true) :
    (tuple cs).Lawful vs := by
  obtain ⟨hwords, hdyn⟩ := Bool.and_eq_true_iff.mp h
  have hwords : offsetWords cs = cs.length := of_decide_eq_true hwords
  have hdyn : cs.any isElementType = cs.any isDynamic := beq_iff_eq.mp hdyn
  refine ⟨?_, ?_, ?_⟩
  · intro (hstatic : cs.any isElementType = false)
    change (serialiseTuple cs vs).length = 32 * (if cs.any isElementType then 1 else cs.length)
    rw [serialiseTuple, layout_of_static (itemParts_static (hdyn.symm.trans hstatic) vs),
      append_nil, layout_itemParts_length hvs, hwords, hstatic, if_neg Bool.false_ne_true,
      Nat.mul_comm]
  · intro (hdyn : cs.any isElementType = true)
    exact if_pos hdyn
  · intro data p hdata hp
    have hlen := layout_itemParts_length hvs (cs.length * 32)
    rw [hwords] at hlen
    exact deserializeItems_yields hvs hdata (placed_of_append hp hlen)

end AbiType

/-! ## Arguments -/

mutual

/-- All tuples that are encoded with the value have the right traits: for the elements of an
empty vector nothing is asked. -/
def Ty.regular : (t : Ty) → t.denote.carrier → Bool
  | .u256, _ | .bool, _ | .address, _ | .string32, _ | .string, _ | .bytes, _ => true
  | .vector t, (v : {l : List t.denote.carrier // l.length ≤ maxSize}) => v.1.all t.regular
  | .array t _, (v : {l : List t.denote.carrier // l.length = _}) => v.1.all t.regular
  | .tuple ts, vs => ts.regular vs && Regular ts.denote

def Tys.regular : (ts : Tys) → Values ts.denote → Bool
  | .nil, _ => true
  | .cons t ts, (vs : t.denote.carrier × Values ts.denote) => t.regular vs.1 && ts.regular vs.2

end

mutual

theorem Ty.denote_lawful : ∀ (t : Ty) (v : t.denote.carrier), t.regular v = true →
    t.denote.Lawful v
  | .u256, v, _ => u256_lawful v
  | .bool, v, _ => bool_lawful v
  | .address, v, _ => address_lawful v
  | .string32, v, _ => string32_lawful v
  | .string, v, _ => string_lawful v
  | .bytes, v, _ => bytes_lawful v
  | .vector t, _, h => vector_lawful fun w hw => t.denote_lawful w (all_eq_true.mp h w hw)
  | .array t _, _, h => array_lawful fun w hw => t.denote_lawful w (all_eq_true.mp h w hw)
  | .tuple ts, vs, h =>
    have hts := Bool.and_eq_true_iff.mp h
    tuple_lawful (ts.denote_lawful vs hts.1) hts.2

theorem Tys.denote_lawful : ∀ (ts : Tys) (vs : Values ts.denote), ts.regular vs = true →
    AllLawful ts.denote vs
  | .nil, _, _ => trivial
  | .cons t ts, vs, h =>
    have hts := Bool.and_eq_true_iff.mp h
    ⟨t.denote_lawful vs.1 hts.1, ts.denote_lawful vs.2 hts.2⟩

end

/-- Arguments are decoded from their encoding if the tuples in them have the right traits. -/
theorem abiOut_abiIn {ts : Tys} {args : Values ts.denote} (hargs : ts.regular args = true)
    (hsize : (abiIn ts args).length < 2 ^ 64) : abiOut ts (abiIn ts args) = some args := by
  have hcs := ts.denote_lawful args hargs
  have hlen := layout_itemParts_length hcs (offsetWords ts.denote * 32)
  have hplaced := placed_of_append (At.self (abiIn ts args)) hlen
  obtain ⟨usage, hrun⟩ := deserializeItems_yields hcs hsize hplaced ⟨[], 0⟩
  rw [abiOut, abiOutRun, hrun]

/-- A vector of two strings, a tuple of a number and a string, and no tuples of `bytes`. -/
theorem abiOut_abiIn_strings :
    abiOut (.cons (.vector .string) (.cons (.tuple (.cons .u256 (.cons .string .nil)))
        (.cons (.vector (.tuple (.cons .bytes .nil))) .nil)))
      (abiIn (.cons (.vector .string) (.cons (.tuple (.cons .u256 (.cons .string .nil)))
          (.cons (.vector (.tuple (.cons .bytes .nil))) .nil)))
        (⟨[[65], [66, 67]], by decide⟩, (⟨7, by decide⟩, [68], ⟨⟩), ⟨[], by decide⟩, ⟨⟩)) =
      some (⟨[[65], [66, 67]], by decide⟩, (⟨7, by decide⟩, [68], ⟨⟩), ⟨[], by decide⟩, ⟨⟩) := by
  apply abiOut_abiIn rfl
  decide +kernel

/-- The arguments `std::tuple<bytes>` and `u256`: the tuple is taken to have one word, and the
size of its bytes is returned as the number. -/
theorem abiOut_abiIn_tuple_bytes : (abiOut (.cons (.tuple (.cons .bytes .nil)) (.cons .u256 .nil))
        (abiIn (.cons (.tuple (.cons .bytes .nil)) (.cons .u256 .nil))
          (([65, 66, 67], ⟨⟩), ⟨7, by decide⟩, ⟨⟩))).map (fun args => args.2.1.1) = some 3 := by
  decide +kernel

/-! ## Signed numbers -/

theorem Yields.unique {v' : α} (h : Yields d v) (h' : Yields d v') : v = v' := by
  obtain ⟨usage, hrun⟩ := h ⟨[], 0⟩
  obtain ⟨usage', hrun'⟩ := h' ⟨[], 0⟩
  exact (hrun.unique hrun').1

theorem s256_yields (u : U256) : Yields (s256.deserialize (word u.1) 0) (toS256 u) :=
  (deserializeWord_yields (by rw [word_length]; decide) u.2 (At.self _)).map

theorem exists_word {w : Bytes} (h : w.length = 32) : ∃ u : U256, word u.1 = w := by
  have hlt := fromBigEndian_lt w
  rw [h] at hlt
  exact ⟨⟨fromBigEndian w, hlt⟩, by rw [word, ← h, bigEndian_fromBigEndian]⟩

theorem toS256_emod (u : U256) : ((toS256 u).1 % 2 ^ 256).toNat = u.1 := by
  rw [toS256]
  split_ifs <;> dsimp only <;> omega

/-- Every word is written back as it was read.  The numbers in the range of a signed word
are read back, apart from the `2 ^ 252` least ones. -/
theorem s256_reads_back_iff (w : Bytes) (hw : w.length = 32) (v : S256) (hlow : -2 ^ 255 ≤ v.1)
    (hhigh : v.1 < 2 ^ 255) : (∃ v, Yields (s256.deserialize w 0) v ∧ s256.serialise v = w) ∧
      (Yields (s256.deserialize (s256.serialise v) 0) v ↔ -2 ^ 255 + 2 ^ 252 ≤ v.1) := by
  constructor
  · obtain ⟨u, rfl⟩ := exists_word hw
    exact ⟨toS256 u, s256_yields u, congrArg word (toS256_emod u)⟩
  · have hlt : (v.1 % 2 ^ 256).toNat < 2 ^ 256 := by omega
    obtain ⟨u, hu⟩ : ∃ u : U256, u.1 = (v.1 % 2 ^ 256).toNat := ⟨⟨_, hlt⟩, rfl⟩
    have hread : toS256 u = v ↔ -2 ^ 255 + 2 ^ 252 ≤ v.1 := by
      rw [← Subtype.val_inj, toS256]
      split_ifs <;> dsimp only <;> omega
    have hyields := s256_yields u
    rw [hu] at hyields
    rw [← hread]
    constructor
    · exact hyields.unique
    · rintro rfl
      exact hyields

/-- The word of `1`, and the number `-1`. -/
theorem s256_reads_back_one : (∃ v, Yields (s256.deserialize (word 1) 0) v ∧
      s256.serialise v = word 1) ∧
    (Yields (s256.deserialize (s256.serialise ⟨-1, by decide⟩) 0) ⟨-1, by decide⟩ ↔
      (-2 ^ 255 + 2 ^ 252 : ℤ) ≤ -1) :=
  s256_reads_back_iff (word 1) word_length ⟨-1, by decide⟩ (by decide) (by decide)

/-- The least signed number is read back as its absolute value. -/
theorem s256_least_read_positive :
    Yields (s256.deserialize (s256.serialise ⟨-2 ^ 255, by decide +kernel⟩) 0)
      ⟨2 ^ 255, by decide +kernel⟩ := by
  have hword : ((-2 ^ 255 : ℤ) % 2 ^ 256).toNat = 2 ^ 255 := by decide +kernel
  have hyields := s256_yields ⟨2 ^ 255, by decide +kernel⟩
  rw [toS256, dif_neg (by decide +kernel)] at hyields
  change Yields (s256.deserialize (word _) 0) _
  rw [hword]
  exact hyields

end FiscoSmart.Codec.Abi
