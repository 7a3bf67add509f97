import FiscoSmart.Crypto.Merkle
import FiscoSmart.Support.Encoding

/-!
# Completeness and soundness of Merkle proofs

The tree that `generateMerkle` writes is the tree of digests over the leaves, and the
proof that `generateMerkleProof` returns is the path above a leaf, group by group.  The
verifier accepts a proof exactly if it is a climb from the hash to the root, and does
not know how high the tree is.
-/

namespace FiscoSmart.Crypto

open Support Support.HashTree List

variable {i turns : ℕ}

/-- Hashes of `size` bytes, with any hash function on byte strings. -/
def Hasher.ofBytes (size : ℕ) (hsize : 4 ≤ size)
    (digest : Bytes → {bytes : Bytes // bytes.length = size}) :
    Hasher {bytes : Bytes // bytes.length = size} where
  digest hashes := digest (hashes.flatMap Subtype.val)
  numberOf hash := BitVec.ofNat 32 (fromBigEndian (hash.1.take 4))
  ofNumber number :=
    ⟨bigEndian 4 number.toNat ++ List.replicate (size - 4) 0, by simp; omega⟩
  numberOf_ofNumber number := by
    have htake : (bigEndian 4 number.toNat ++ List.replicate (size - 4) 0).take 4 =
        bigEndian 4 number.toNat := List.take_left' (bigEndian_length 4 _)
    simp only [htake, fromBigEndian_bigEndian]
    apply BitVec.eq_of_toNat_eq
    have hlt := number.isLt
    simp only [BitVec.toNat_ofNat]
    omega

namespace Merkle

variable {HashType : Type} (hasher : Hasher HashType) (width : ℕ)

theorem getNumberFromHash_setNumberToHash {number : ℕ} (h : number < 2 ^ 32) :
    getNumberFromHash hasher (setNumberToHash hasher number) = number := by
  rw [getNumberFromHash, setNumberToHash, hasher.numberOf_ofNumber, BitVec.toNat_ofNat,
    Nat.mod_eq_of_lt h]

/-! ## The shape of the tree -/

/-- The number of levels above the leaves. -/
def treeDepth : ℕ → ℕ → ℕ
  | 0, _ => 0
  | fuel + 1, size =>
    if size > 1 then treeDepth fuel (getNextLevelSize width size) + 1 else 0

/-- The number of elements of the tree, the records included. -/
def treeNodes : ℕ → ℕ → ℕ
  | 0, _ => 0
  | fuel + 1, size =>
    if size > 1 then
      getNextLevelSize width size + 1 + treeNodes fuel (getNextLevelSize width size)
    else 0

variable {hasher width}

theorem merkleSizeLoop_eq (fuel size : ℕ) (nodes levels : BitVec 32) :
    merkleSizeLoop width fuel size nodes levels =
      (nodes + BitVec.ofNat 32 (treeNodes width fuel size),
        levels + BitVec.ofNat 32 (treeDepth width fuel size)) := by
  induction fuel generalizing size nodes levels with
  | zero => simp [merkleSizeLoop, treeNodes, treeDepth]
  | succ fuel ih =>
    rw [merkleSizeLoop, treeNodes, treeDepth]
    split_ifs with hsize
    · rw [ih, BitVec.ofNat_add (_ + 1), BitVec.ofNat_add (treeDepth ..), BitVec.add_assoc,
        BitVec.add_assoc, BitVec.add_comm (BitVec.ofNat 32 (treeDepth ..))]
      rfl
    · simp

theorem getMerkleSize_eq (size : ℕ) : getMerkleSize width size =
      (BitVec.ofNat 32 (treeNodes width size size),
        BitVec.ofNat 32 (treeDepth width size size)) := by
  simp [getMerkleSize, merkleSizeLoop_eq]

theorem calculateLevelHashes_eq (input : List HashType) :
    calculateLevelHashes hasher width input (getNextLevelSize width input.length) =
      parents hasher.digest width input := rfl

theorem generateLevels_succ (fuel : ℕ) (input : List HashType) :
    generateLevels hasher width (fuel + 1) input =
      setNumberToHash hasher (parents hasher.digest width input).length ::
        (parents hasher.digest width input ++
          if (parents hasher.digest width input).length > 1 then
            generateLevels hasher width fuel (parents hasher.digest width input)
          else []) := by
  rw [generateLevels, calculateLevelHashes_eq, length_parents]
  rfl

/-! ## Levels of the flat array

The levels of an input are treated by induction on their number; an input of at least
two nodes is longer than the level above it. -/

variable {fuel size : ℕ} {input : List HashType}

theorem treeDepth_of_le_one (h : size ≤ 1) : treeDepth width fuel size = 0 := by
  rcases fuel with - | fuel
  · rfl
  · rw [treeDepth, if_neg (by omega)]

theorem treeDepth_pos (hfuel : 0 < fuel) (hsize : 2 ≤ size) : 0 < treeDepth width fuel size := by
  obtain ⟨fuel, rfl⟩ := Nat.exists_eq_add_of_le' hfuel
  rw [treeDepth, if_pos (by omega)]
  exact Nat.succ_pos _

theorem treeDepth_le_treeNodes (size : ℕ) :
    treeDepth width fuel size ≤ treeNodes width fuel size := by
  induction fuel generalizing size with
  | zero => exact le_rfl
  | succ fuel ih =>
    rw [treeDepth, treeNodes]
    split_ifs
    · have hle := ih (getNextLevelSize width size)
      omega
    · exact le_rfl

theorem treeNodes_of_le_one (h : size ≤ 1) : treeNodes width fuel size = 0 := by
  rcases fuel with - | fuel
  · rfl
  · rw [treeNodes, if_neg (by omega)]

section Levels

variable (hinput : 2 ≤ input.length)

include hinput

variable (hasher) in
theorem treeDepth_succ : treeDepth width (fuel + 1) input.length =
      treeDepth width fuel (parents hasher.digest width input).length + 1 := by
  rw [treeDepth, if_pos (by omega), length_parents]
  rfl

variable (hasher) in
theorem treeNodes_succ : treeNodes width (fuel + 1) input.length =
      (parents hasher.digest width input).length + 1 +
        treeNodes width fuel (parents hasher.digest width input).length := by
  rw [treeNodes, if_pos (by omega), length_parents]
  rfl

/-- The array has as many elements as `getMerkleSize` counts, and ends with the only node
of the last level. -/
theorem generateLevels_spec (hwidth : 2 ≤ width) (hfuel : input.length ≤ fuel) :
    (generateLevels hasher width fuel input).length = treeNodes width fuel input.length ∧
      ∃ root, level hasher.digest width (treeDepth width fuel input.length) input = [root] ∧
        (generateLevels hasher width fuel input).getLast? = some root := by
  induction fuel generalizing input with
  | zero => omega
  | succ fuel ih =>
    have hlt := length_parents_lt hasher.digest hwidth hinput
    have hpos : 0 < (parents hasher.digest width input).length :=
      length_parents_pos hasher.digest (by omega) (by omega)
    rw [generateLevels_succ, treeNodes_succ hasher hinput, treeDepth_succ hasher hinput, level_succ]
    rcases Nat.lt_or_ge 1 (parents hasher.digest width input).length with hmany | hone
    · obtain ⟨hlen, root, hlevel, hlast⟩ := ih hmany (by omega)
      rw [if_pos hmany]
      refine ⟨?_, root, hlevel, ?_⟩
      · rw [length_cons, length_append, hlen]
        omega
      · rw [← cons_append, getLast?_append, hlast]
        rfl
    · obtain ⟨root, hroot⟩ : ∃ root, parents hasher.digest width input = [root] :=
        length_eq_one_iff.mp (by omega)
      rw [if_neg (by omega), treeNodes_of_le_one hone, treeDepth_of_le_one hone, hroot]
      exact ⟨rfl, root, rfl, rfl⟩

end Levels

/-! ## The path of a leaf -/

variable (hasher) in
/-- A list of groups, each preceded by its size. -/
def encodeGroups (groups : List (List HashType)) : List HashType :=
  groups.flatMap fun g => setNumberToHash hasher g.length :: g

theorem length_le_length_encodeGroups (groups : List (List HashType)) :
    groups.length ≤ (encodeGroups hasher groups).length := by
  induction groups with
  | nil => exact le_rfl
  | cons g groups ih =>
    rw [encodeGroups, flatMap_cons, length_append, length_cons, length_cons]
    rw [encodeGroups] at ih
    omega

theorem indexAlign_eq (index : ℕ) : indexAlign width index = index / width * width := by
  rw [indexAlign, Nat.add_mod_right]
  have hindex := Nat.div_add_mod' index width
  omega

theorem proofGroup_eq (nodes rest : List HashType) (i : ℕ) :
    proofGroup hasher width (nodes ++ rest) (indexAlign width i) nodes.length =
      setNumberToHash hasher (group width nodes (i / width)).length ::
        group width nodes (i / width) := by
  have hcount : min (nodes.length - i / width * width) width =
      (group width nodes (i / width)).length := by
    rw [length_group, Nat.min_comm]
  have htake : ((nodes ++ rest).drop (i / width * width)).take
      (group width nodes (i / width)).length = group width nodes (i / width) := by
    rcases Nat.lt_or_ge (i / width * width) nodes.length with hlt | hge
    · rw [drop_append_of_le_length (by omega),
        take_append_of_le_length (by rw [length_drop]; omega), group, take_eq_take_iff, length_take]
      omega
    · rw [group, drop_eq_nil_of_le hge]
      simp
  simp [proofGroup, indexAlign_eq, hcount, htake]

/-- The proof contains the groups of the path above the level that was read first. -/
theorem proofLoop_generateLevels (hwidth : 2 ≤ width) (out : List HashType)
    (hinput : 2 ≤ input.length) (hsize : input.length ≤ 2 ^ 32) (hfuel : input.length ≤ fuel)
    (hturns : treeDepth width fuel input.length ≤ turns) :
    proofLoop hasher width turns (generateLevels hasher width fuel input) (indexAlign width i) out =
      .ok (out ++ encodeGroups hasher (path hasher.digest width
        (treeDepth width fuel input.length - 1) (parents hasher.digest width input)
        (i / width))) := by
  induction fuel generalizing input turns i out with
  | zero => omega
  | succ fuel ih =>
    have hlt := length_parents_lt hasher.digest hwidth hinput
    have hpos : 0 < (parents hasher.digest width input).length :=
      length_parents_pos hasher.digest (by omega) (by omega)
    have hindex : indexAlign width i / width = i / width := by
      rw [indexAlign_eq, Nat.mul_div_cancel _ (by omega)]
    rw [treeDepth_succ hasher hinput] at hturns ⊢
    obtain ⟨turns, rfl⟩ := Nat.exists_eq_add_of_le' (show 1 ≤ turns by omega)
    rw [generateLevels_succ, proofLoop, hindex, getNumberFromHash_setNumberToHash hasher (by omega)]
    rcases Nat.lt_or_ge 1 (parents hasher.digest width input).length with hmany | hone
    · have hdepth : treeDepth width fuel (parents hasher.digest width input).length =
          treeDepth width fuel (parents hasher.digest width input).length - 1 + 1 :=
        (Nat.sub_add_cancel (treeDepth_pos (by omega) hmany)).symm
      rw [if_neg (by omega), if_neg (by simp), if_pos hmany, proofGroup_eq,
        drop_left, ih _ hmany (by omega) (by omega) (by omega), Nat.add_sub_cancel,
        hdepth, path, Nat.add_sub_cancel, encodeGroups, encodeGroups, flatMap_cons, append_assoc]
    · rw [if_pos (by omega), treeDepth_of_le_one hone]
      simp [encodeGroups, path]

/-! ## The tree and the path of a leaf, if nothing overflows -/

/-- The records hold the sizes of the groups, and the elements of the tree can be
counted in `unsigned`. -/
structure Fits (width size : ℕ) : Prop where
  size_lt : size < 2 ^ 32
  nodes_lt : treeNodes width size size < 2 ^ 32

section Fits

variable {leaves : List HashType} (hleaves : 2 ≤ leaves.length)

include hleaves

theorem generateMerkle_of_two_le : generateMerkle hasher width leaves =
      if (getMerkleSize width leaves.length).1.toNat <
          (generateLevels hasher width leaves.length leaves).length then
        .error .outOfBounds
      else
        .ok (generateLevels hasher width leaves.length leaves ++
          List.replicate ((getMerkleSize width leaves.length).1.toNat -
            (generateLevels hasher width leaves.length leaves).length)
            (setNumberToHash hasher 0)) := by
  match leaves, hleaves with
  | _ :: _ :: _, _ => rfl

/-- A tree that was written without an access beyond its end has no other elements. -/
theorem eq_generateLevels_of_generateMerkle {merkle : List HashType} (hwidth : 2 ≤ width)
    (h : generateMerkle hasher width leaves = .ok merkle) :
    merkle = generateLevels hasher width leaves.length leaves := by
  have hlen : (generateLevels hasher width leaves.length leaves).length = _ :=
    (generateLevels_spec hleaves hwidth le_rfl).1
  have hmod := Nat.mod_le (treeNodes width leaves.length leaves.length) (2 ^ 32)
  rw [generateMerkle_of_two_le hleaves, getMerkleSize_eq, BitVec.toNat_ofNat, hlen] at h
  split_ifs at h with hlt
  rw [Nat.sub_eq_zero_of_le hmod, replicate_zero, append_nil] at h
  exact (Except.ok.inj h).symm

variable (hwidth : 2 ≤ width) (hfits : Fits width leaves.length)

include hwidth hfits

theorem generateMerkle_of_fits : generateMerkle hasher width leaves =
      .ok (generateLevels hasher width leaves.length leaves) := by
  have hlen : (generateLevels hasher width leaves.length leaves).length = _ :=
    (generateLevels_spec hleaves hwidth le_rfl).1
  rw [generateMerkle_of_two_le hleaves, getMerkleSize_eq, BitVec.toNat_ofNat,
    Nat.mod_eq_of_lt hfits.nodes_lt, hlen, if_neg (lt_irrefl _), Nat.sub_self,
    replicate_zero, append_nil]

theorem generateMerkleProof_of_fits (hi : i < leaves.length) :
    generateMerkleProof hasher width leaves
        (generateLevels hasher width leaves.length leaves) i [] =
      .ok (encodeGroups hasher (path hasher.digest width
        (treeDepth width leaves.length leaves.length) leaves i)) := by
  have hlen : (generateLevels hasher width leaves.length leaves).length = _ :=
    (generateLevels_spec hleaves hwidth le_rfl).1
  have hdepth : treeDepth width leaves.length leaves.length =
      treeDepth width leaves.length leaves.length - 1 + 1 :=
    (Nat.sub_add_cancel (treeDepth_pos (by omega) hleaves)).symm
  have hgroup : proofGroup hasher width (leaves ++ []) (indexAlign width i) leaves.length = _ :=
    proofGroup_eq leaves [] i
  rw [append_nil] at hgroup
  unfold generateMerkleProof
  rw [if_neg (by omega), if_neg (by omega), getMerkleSize_eq, BitVec.toNat_ofNat,
    Nat.mod_eq_of_lt hfits.nodes_lt, if_neg (by simp [hlen])]
  dsimp only
  rw [hgroup, proofLoop_generateLevels hwidth _ hleaves hfits.size_lt.le le_rfl
      (by rw [hlen]; exact treeDepth_le_treeNodes _), hdepth, path]
  rfl

end Fits

/-! ## The verifier -/

section Verify

variable [DecidableEq HashType] {x : HashType} {groups : List (List HashType)}

theorem verifyLoop_encodeGroups {y : HashType}
    (hclimbs : Climbs hasher.digest groups x y) (hsize : ∀ g ∈ groups, g.length < 2 ^ 32)
    (hturns : groups.length ≤ turns) :
    verifyLoop hasher turns (encodeGroups hasher groups) x = .ok (some y) := by
  induction groups generalizing x turns with
  | nil =>
    obtain rfl : x = y := hclimbs
    rcases turns <;> rfl
  | cons g groups ih =>
    obtain ⟨hx, hclimbs⟩ := hclimbs
    rw [length_cons] at hturns
    obtain ⟨turns, rfl⟩ := Nat.exists_eq_add_of_le' (show 1 ≤ turns by omega)
    have hencode : encodeGroups hasher (g :: groups) =
        setNumberToHash hasher g.length :: (g ++ encodeGroups hasher groups) := rfl
    rw [hencode, verifyLoop, getNumberFromHash_setNumberToHash hasher (hsize g (mem_cons_self ..)),
      if_neg (by simp), take_left, if_pos hx, drop_left]
    exact ih hclimbs (fun g' hg' => hsize g' (mem_cons_of_mem g hg')) (by omega)

variable (hasher) in
/-- The groups that a proof consists of, as the verifier reads them. -/
def readGroups : ℕ → List HashType → List (List HashType)
  | fuel + 1, record :: proof =>
    proof.take (getNumberFromHash hasher record) ::
      readGroups fuel (proof.drop (getNumberFromHash hasher record))
  | _, _ => []

variable (hasher) in
/-- The groups of a proof; a proof of one element has none. -/
def proofGroups (proof : List HashType) : List (List HashType) :=
  match proof with
  | [_] => []
  | proof => readGroups hasher proof.length proof

variable {proof : List HashType}

theorem climbs_of_verifyLoop {y : HashType} (h : verifyLoop hasher turns proof x = .ok (some y)) :
    Climbs hasher.digest (readGroups hasher turns proof) x y := by
  induction turns generalizing proof x with
  | zero => exact Option.some.inj (Except.ok.inj h)
  | succ turns ih =>
    rcases proof with - | ⟨record, proof⟩
    · exact Option.some.inj (Except.ok.inj h)
    · rw [verifyLoop] at h
      split_ifs at h with hlen hx
      · exact ⟨hx, ih h⟩
      · exact absurd (Except.ok.inj h) nofun

variable {root : HashType}

theorem verifyMerkleProof_of_two_le (h : 2 ≤ proof.length) : verifyMerkleProof hasher proof x root =
      (verifyLoop hasher proof.length proof x).map fun last => decide (last = some root) := by
  match proof, h with
  | _ :: _ :: _, _ => rfl

theorem verifyMerkleProof_encodeGroups
    (hclimbs : Climbs hasher.digest groups x root) (hsize : ∀ g ∈ groups, g.length < 2 ^ 32)
    (hgroups : groups ≠ []) :
    verifyMerkleProof hasher (encodeGroups hasher groups) x root = .ok true := by
  have hlen : 2 ≤ (encodeGroups hasher groups).length := by
    obtain ⟨g, groups, rfl⟩ := exists_cons_of_ne_nil hgroups
    have hpos : 0 < g.length := length_pos_of_mem hclimbs.1
    rw [encodeGroups, flatMap_cons, length_append, length_cons]
    omega
  rw [verifyMerkleProof_of_two_le hlen,
    verifyLoop_encodeGroups hclimbs hsize (length_le_length_encodeGroups groups)]
  simp [Except.map]

theorem climbs_of_verifyMerkleProof (h : verifyMerkleProof hasher proof x root = .ok true) :
    Climbs hasher.digest (proofGroups hasher proof) x root := by
  match proof, h with
  | [_], h =>
    have hroot : x = root := of_decide_eq_true (Except.ok.inj h)
    exact hroot
  | record :: node :: proof, h =>
    rw [verifyMerkleProof_of_two_le (by simp)] at h
    rcases hloop : verifyLoop hasher _ (record :: node :: proof) x with error | result
    · rw [hloop] at h
      exact absurd h nofun
    · rw [hloop] at h
      have hres : result = some root := of_decide_eq_true (Except.ok.inj h)
      exact climbs_of_verifyLoop (hres ▸ hloop)

/-! ## Every leaf has a proof -/

/-- For every leaf of a tree that fits, the generated proof is accepted. -/
theorem verifyMerkleProof_generateMerkleProof (hwidth : 2 ≤ width) {leaves : List HashType}
    (hfits : Fits width leaves.length) {i : ℕ} {leaf : HashType} (hi : leaves[i]? = some leaf) :
    ∃ merkle root proof, generateMerkle hasher width leaves = .ok merkle ∧
      merkle.getLast? = some root ∧
      generateMerkleProof hasher width leaves merkle i [] = .ok proof ∧
      verifyMerkleProof hasher proof leaf root = .ok true := by
  obtain ⟨hlt, -⟩ := List.getElem?_eq_some_iff.mp hi
  rcases Nat.lt_or_ge 1 leaves.length with hmany | hone
  · obtain ⟨-, root, hlevel, hlast⟩ :
        _ ∧ ∃ root, level hasher.digest width _ leaves = [root] ∧ _ = some root :=
      generateLevels_spec hmany hwidth le_rfl
    obtain ⟨y, hy, hclimbs⟩ : ∃ y ∈ level hasher.digest width
        (treeDepth width leaves.length leaves.length) leaves, _ :=
      exists_climbs_path (by omega) hi
    obtain rfl : y = root := by
      rw [hlevel] at hy
      exact mem_singleton.mp hy
    have hdepth : 0 < treeDepth width leaves.length leaves.length :=
      treeDepth_pos (by omega) hmany
    refine ⟨_, y, _, generateMerkle_of_fits hmany hwidth hfits, hlast,
      generateMerkleProof_of_fits hmany hwidth hfits hlt,
      verifyMerkleProof_encodeGroups hclimbs (fun g hg => ?_) ?_⟩
    · exact (length_le_of_mem_path (by omega) hg).trans_lt hfits.size_lt
    · obtain ⟨d, hd⟩ := Nat.exists_eq_add_of_le' hdepth
      rw [hd]
      exact cons_ne_nil _ _
  · obtain ⟨hash, rfl⟩ := length_eq_one_iff.mp (show leaves.length = 1 by omega)
    obtain rfl : i = 0 := by simpa using hlt
    obtain rfl : hash = leaf := by simpa using hi
    exact ⟨[hash], hash, [hash], rfl, rfl, rfl, by simp [verifyMerkleProof]⟩

/-- Hashes of four bytes: the first byte marks a digest, and the others add up the bytes. -/
def sumHasher : Hasher {bytes : Bytes // bytes.length = 4} :=
  .ofBytes 4 le_rfl fun bytes => ⟨[255, 0, 0, bytes.foldr (· + ·) 0], rfl⟩

/-- A leaf of the examples. -/
def sumLeaf (byte : Byte) : {bytes : Bytes // bytes.length = 4} := ⟨[0, 0, 0, byte], rfl⟩

theorem threeLeaves_verify : ∃ merkle root proof,
      generateMerkle sumHasher 2 [sumLeaf 1, sumLeaf 2, sumLeaf 3] = .ok merkle ∧
      merkle.getLast? = some root ∧
      generateMerkleProof sumHasher 2 [sumLeaf 1, sumLeaf 2, sumLeaf 3] merkle 2 [] = .ok proof ∧
      verifyMerkleProof sumHasher proof (sumLeaf 3) root = .ok true :=
  verifyMerkleProof_generateMerkleProof le_rfl ⟨by decide, by decide⟩ rfl

/-- The `unsigned` size of the tree over `2 ^ 33` leaves overflows, and the tree is written
beyond the end of the array. -/
theorem generateMerkle_overflow :
    generateMerkle sumHasher 2 (List.replicate (2 ^ 33) (sumLeaf 0)) = .error .outOfBounds := by
  have hlen : (List.replicate (2 ^ 33) (sumLeaf 0)).length = 2 ^ 33 := length_replicate
  have hleaves : 2 ≤ (List.replicate (2 ^ 33) (sumLeaf 0)).length := by
    rw [hlen]
    decide
  have hnodes : treeNodes 2 (2 ^ 33) (2 ^ 33) = 2 ^ 33 + 32 := by decide +kernel
  rw [generateMerkle_of_two_le hleaves, (generateLevels_spec hleaves le_rfl le_rfl).1,
    getMerkleSize_eq, hlen, hnodes]
  rfl

/-! ## Which accepted hashes are leaves -/

/-- If the digests of the groups of the tree and of the proof do not collide, and none
is a leaf, then an accepted hash is a leaf exactly if the proof has as many groups as the
tree has levels above the leaves. -/
theorem mem_leaves_iff_of_verifyMerkleProof (hwidth : 2 ≤ width) {leaves merkle : List HashType}
    {proof : List HashType} {x root : HashType} {G : Set (List HashType)}
    (hinjective : Set.InjOn hasher.digest G) (hleaf : ∀ g ∈ G, hasher.digest g ∉ leaves)
    (htree : treeGroups hasher.digest width
      (treeDepth width leaves.length leaves.length) leaves ⊆ G)
    (hproof : ∀ g ∈ proofGroups hasher proof, g ∈ G)
    (hmerkle : generateMerkle hasher width leaves = .ok merkle)
    (hroot : merkle.getLast? = some root)
    (haccepted : verifyMerkleProof hasher proof x root = .ok true) : x ∈ leaves ↔
      (proofGroups hasher proof).length = treeDepth width leaves.length leaves.length := by
  refine (climbs_of_verifyMerkleProof haccepted).mem_leaves_iff hinjective hleaf htree hproof ?_
  match leaves, hmerkle with
  | [hash], hmerkle =>
    obtain rfl : [hash] = merkle := Except.ok.inj hmerkle
    obtain rfl : hash = root := Option.some.inj hroot
    exact mem_singleton_self hash
  | first :: second :: leaves, hmerkle =>
    have hmany : 2 ≤ (first :: second :: leaves).length := Nat.le_add_left 2 leaves.length
    obtain rfl := eq_generateLevels_of_generateMerkle hmany hwidth hmerkle
    obtain ⟨-, root', hlevel, hlast⟩ :
        _ ∧ ∃ root', level hasher.digest width _ (first :: second :: leaves) = [root'] ∧
          _ = some root' :=
      generateLevels_spec hmany hwidth le_rfl
    obtain rfl : root' = root := Option.some.inj (hlast.symm.trans hroot)
    rw [hlevel]
    exact mem_singleton_self root'

/-- With as many groups as the tree has levels, the hash is a leaf. -/
theorem twoLeaves_mem_leaves : sumLeaf 1 ∈ [sumLeaf 1, sumLeaf 2] ↔ (proofGroups sumHasher
        [setNumberToHash sumHasher 2, sumLeaf 1, sumLeaf 2]).length = treeDepth 2 2 2 := by
  have htree : treeGroups sumHasher.digest 2 (treeDepth 2 2 2) [sumLeaf 1, sumLeaf 2] ⊆
      {[sumLeaf 1, sumLeaf 2]} := by
    rintro g ⟨k, hk, i, hi, rfl⟩
    obtain rfl : k = 0 := by simpa [treeDepth, getNextLevelSize] using hk
    obtain rfl : i = 0 := by simpa using hi
    rfl
  have haccepted : verifyMerkleProof sumHasher
      [setNumberToHash sumHasher 2, sumLeaf 1, sumLeaf 2] (sumLeaf 1)
      (sumHasher.digest [sumLeaf 1, sumLeaf 2]) = .ok true := by decide +kernel
  refine mem_leaves_iff_of_verifyMerkleProof le_rfl (Set.injOn_singleton _ _) ?_ htree ?_
    rfl rfl haccepted
  · rintro g rfl
    decide +kernel
  · intro g hg
    have hgroups : proofGroups sumHasher [setNumberToHash sumHasher 2, sumLeaf 1, sumLeaf 2] =
        [[sumLeaf 1, sumLeaf 2]] := by decide +kernel
    rw [hgroups, mem_singleton] at hg
    exact hg

/-- Four leaves, and the groups of the tree over them. -/
def fourLeaves : List {bytes : Bytes // bytes.length = 4} :=
  [sumLeaf 1, sumLeaf 2, sumLeaf 4, sumLeaf 8]

def fourLeavesGroups : List (List {bytes : Bytes // bytes.length = 4}) :=
  [[sumLeaf 1, sumLeaf 2], [sumLeaf 4, sumLeaf 8],
    [sumHasher.digest [sumLeaf 1, sumLeaf 2], sumHasher.digest [sumLeaf 4, sumLeaf 8]]]

/-- Although no digests collide and none is a leaf, the verifier accepts an inner node
and the root, with proofs that are too short. -/
theorem verifyMerkleProof_inner_node : ∃ merkle root,
      generateMerkle sumHasher 2 fourLeaves = .ok merkle ∧ merkle.getLast? = some root ∧
      verifyMerkleProof sumHasher (merkle.take 3)
        (sumHasher.digest [sumLeaf 1, sumLeaf 2]) root = .ok true ∧
      verifyMerkleProof sumHasher [sumLeaf 0] root root = .ok true ∧
      (∀ g ∈ fourLeavesGroups, sumHasher.digest g ∉ fourLeaves) ∧
      Set.InjOn sumHasher.digest {g | g ∈ fourLeavesGroups} ∧
      treeGroups sumHasher.digest 2 (treeDepth 2 4 4) fourLeaves ⊆ {g | g ∈ fourLeavesGroups} ∧
      (∀ g ∈ proofGroups sumHasher (merkle.take 3), g ∈ fourLeavesGroups) := by
  refine ⟨_, _, rfl, rfl, by decide +kernel, by decide +kernel, by decide +kernel, ?_, ?_,
    by decide +kernel⟩
  · have hpairs : ∀ g ∈ fourLeavesGroups, ∀ g' ∈ fourLeavesGroups,
        sumHasher.digest g = sumHasher.digest g' → g = g' := by decide +kernel
    exact fun g hg g' hg' => hpairs g hg g' hg'
  · rintro g ⟨k, hk, i, hi, rfl⟩
    have hdepth : treeDepth 2 4 4 = 2 := by decide
    obtain rfl | rfl : k = 0 ∨ k = 1 := by omega
    · have hlen : (parents sumHasher.digest 2 fourLeaves).length = 2 := by decide +kernel
      rw [level_zero, hlen] at hi
      obtain rfl | rfl : i = 0 ∨ i = 1 := by omega
      all_goals exact mem_of_elem_eq_true (by decide +kernel)
    · have hlen : (parents sumHasher.digest 2 (level sumHasher.digest 2 1 fourLeaves)).length =
          1 := by decide +kernel
      obtain rfl : i = 0 := by omega
      exact mem_of_elem_eq_true (by decide +kernel)

end Verify

end Merkle

end FiscoSmart.Crypto
