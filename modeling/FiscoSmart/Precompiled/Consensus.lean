import FiscoSmart.Support.Encoding

/-!
# The node list of the consensus contract

`ConsensusPrecompiled` keeps the consensus nodes in one row of `SYS_CONSENSUS`
and rewrites the whole list with every call.  The ledger reads the row back for
the consensus module and narrows the weights from `u256` to `uint64_t`.  The
contract refuses the weight `0`, but not a weight whose lower 64 bits are `0`.
-/

namespace FiscoSmart.Precompiled

open List

variable {nodeID : Bytes} {α : Type} {l : List α}

/-! ## The contract -/

inductive NodeType
  | consensusSealer
  | consensusObserver
  | consensusWorkingSealer
deriving DecidableEq

structure ConsensusNode where
  nodeID : Bytes
  weight : BitVec 256
  type : NodeType
  enableNumber : ℤ
deriving DecidableEq

abbrev ConsensusNodeList := List ConsensusNode

/-- The row of `SYS_CONSENSUS`, if it exists. -/
abbrev ConsensusRow := Option ConsensusNodeList

inductive Code
  | success
  | invalidNodeID
  | invalidWeight
  | lastSealer
  | nodeNotExist
  | noAuthorized
deriving DecidableEq

structure PrecompiledError where
  message : String

def nodeLength : ℕ := 128

/-- `boost::to_lower`. -/
def toLower (s : Bytes) : Bytes :=
  s.map fun c => if 65 ≤ c.val ∧ c.val ≤ 90 then Fin.ofNat 256 (c.val + 32) else c

def hexValue (c : Byte) : Option ℕ :=
  if 48 ≤ c.val ∧ c.val ≤ 57 then some (c.val - 48)
  else if 97 ≤ c.val ∧ c.val ≤ 102 then some (c.val - 87)
  else if 65 ≤ c.val ∧ c.val ≤ 70 then some (c.val - 55)
  else none

/-- `std::isxdigit`. -/
def isxdigit (c : Byte) : Bool := (hexValue c).isSome

/-- The check of node IDs in `addSealer` and `addObserver`. -/
def validNodeID (nodeID : Bytes) : Bool :=
  nodeID.length = nodeLength ∧ nodeID.countP isxdigit = nodeLength

def sealerCount (consensusList : ConsensusNodeList) : ℕ :=
  consensusList.countP (·.type = .consensusSealer)

/-- The list with the first node of this ID changed, if there is one. -/
def updateNode (nodeID : Bytes) (f : ConsensusNode → ConsensusNode) :
    ConsensusNodeList → Option ConsensusNodeList
  | [] => none
  | node :: rest =>
    if node.nodeID = nodeID then some (f node :: rest)
    else (updateNode nodeID f rest).map (node :: ·)

section Calls

variable (number : ℤ) (row : ConsensusRow)

/-- The node as `addSealer` writes it. -/
def sealerNode (nodeID : Bytes) (weight : BitVec 256) : ConsensusNode :=
  ⟨nodeID, weight, .consensusSealer, number + 1⟩

/-- The node as `addObserver` writes it. -/
def observerNode (nodeID : Bytes) : ConsensusNode :=
  ⟨nodeID, 0, .consensusObserver, number + 1⟩

/-- The list with the node in the place of the first one with its ID, or at the end. -/
def putNode (node : ConsensusNode) (consensusList : ConsensusNodeList) : ConsensusNodeList :=
  (updateNode node.nodeID (fun _ => node) consensusList).getD (consensusList ++ [node])

def addSealer (nodeID : Bytes) (weight : BitVec 256) : Code × ConsensusRow :=
  let nodeID := toLower nodeID
  if ¬ validNodeID nodeID then (.invalidNodeID, row)
  else if weight = 0 then (.invalidWeight, row)
  else (.success, some (putNode (sealerNode number nodeID weight) (row.getD [])))

def addObserver (nodeID : Bytes) : Code × ConsensusRow :=
  let nodeID := toLower nodeID
  if ¬ validNodeID nodeID then (.invalidNodeID, row)
  else
    let consensusList := putNode (observerNode number nodeID) (row.getD [])
    if sealerCount consensusList = 0 then (.lastSealer, row)
    else (.success, some consensusList)

def removeNode (nodeID : Bytes) : Code × ConsensusRow :=
  let nodeID := toLower nodeID
  if nodeID.length ≠ nodeLength then (.invalidNodeID, row)
  else if (row.getD []).all (·.nodeID ≠ nodeID) then (.nodeNotExist, row)
  else
    let consensusList := (row.getD []).eraseP (·.nodeID = nodeID)
    if sealerCount consensusList = 0 then (.lastSealer, row)
    else (.success, some consensusList)

def setWeight (nodeID : Bytes) (weight : BitVec 256) :
    Except PrecompiledError (Code × ConsensusRow) :=
  let nodeID := toLower nodeID
  if nodeID.length ≠ nodeLength then .ok (.invalidNodeID, row)
  else if weight = 0 then .ok (.invalidWeight, row)
  else
    match (row.getD []).find? (·.nodeID = nodeID) with
    | none => .ok (.nodeNotExist, row)
    | some node =>
      if node.type ≠ .consensusSealer then .error ⟨"Cannot set weight to observer."⟩
      else
        let f node := { node with weight := weight, enableNumber := number + 1 }
        .ok (.success, updateNode nodeID f (row.getD []))

/-- The functions of the contract, with their arguments. -/
inductive Call
  | addSealer (nodeID : Bytes) (weight : BitVec 256)
  | addObserver (nodeID : Bytes)
  | remove (nodeID : Bytes)
  | setWeight (nodeID : Bytes) (weight : BitVec 256)

/-- `ConsensusPrecompiled::call` in block `number`, for a sender that passes the
check of the authority or not. -/
def call (authorized : Bool) : Call → Except PrecompiledError (Code × ConsensusRow)
  | .addSealer nodeID weight =>
    .ok (if authorized then addSealer number row nodeID weight else (.noAuthorized, row))
  | .addObserver nodeID =>
    .ok (if authorized then addObserver number row nodeID else (.noAuthorized, row))
  | .remove nodeID =>
    .ok (if authorized then removeNode row nodeID else (.noAuthorized, row))
  | .setWeight nodeID weight =>
    if authorized then setWeight number row nodeID weight else .ok (.noAuthorized, row)

end Calls

variable {node : ConsensusNode} {consensusList : ConsensusNodeList} {c : Call} {weight : BitVec 256}

/-! ## The ledger -/

/-- `fromHex`, which throws on other characters and on a single digit. -/
def fromHex : Bytes → Option Bytes
  | [] => some []
  | [_] => none
  | high :: low :: rest => do
    let h ← hexValue high
    let l ← hexValue low
    let bytes ← fromHex rest
    some (Fin.ofNat 256 (16 * h + l) :: bytes)

/-- `consensus::ConsensusNode`, as the consensus module gets it. -/
structure LedgerNode where
  nodeID : Bytes
  weight : BitVec 64

/-- The ledger's view of a node, `none` for the exception of `fromHex`. -/
def ledgerNode (node : ConsensusNode) : Option LedgerNode :=
  (fromHex node.nodeID).map fun nodeID => ⟨nodeID, node.weight.setWidth 64⟩

/-- `Ledger::asyncGetNodeListByType`, `none` for an exception. -/
def asyncGetNodeListByType (type : NodeType) (blockNumber : ℤ) (row : ConsensusRow) :
    Option (List LedgerNode) := do
  let nodeList ← row
  let effectNumber := blockNumber + 1
  (nodeList.filter (fun it => it.type = type ∧ it.enableNumber ≤ effectNumber)).mapM ledgerNode

/-! ## Lists with distinct node IDs -/

section Lists

variable {f : ConsensusNode → ConsensusNode} {other : ConsensusNode}

theorem updateNode_of_find? (h : consensusList.find? (·.nodeID = nodeID) = some node) :
    ∃ before after, consensusList = before ++ node :: after ∧ node.nodeID = nodeID ∧
      ∀ f, updateNode nodeID f consensusList = some (before ++ f node :: after) := by
  induction consensusList with
  | nil => cases h
  | cons first rest ih =>
    by_cases hfirst : first.nodeID = nodeID
    · rw [find?_cons_of_pos (by simpa using hfirst)] at h
      cases h
      exact ⟨[], rest, rfl, hfirst, fun f => by simp [updateNode, hfirst]⟩
    · rw [find?_cons_of_neg (by simpa using hfirst)] at h
      obtain ⟨before, after, rfl, hnode, hupdate⟩ := ih h
      exact ⟨first :: before, after, rfl, hnode, fun f => by simp [updateNode, hfirst, hupdate f]⟩

theorem updateNode_eq_putNode (h : consensusList.find? (·.nodeID = nodeID) = some node)
    (hf : (f node).nodeID = node.nodeID) :
    updateNode nodeID f consensusList = some (putNode (f node) consensusList) := by
  obtain ⟨before, after, _, hnode, hupdate⟩ := updateNode_of_find? h
  rw [putNode, hf, hnode, hupdate, hupdate, Option.getD_some]

theorem updateNode_of_forall_ne (h : ∀ other ∈ consensusList, other.nodeID ≠ nodeID) :
    updateNode nodeID f consensusList = none := by
  induction consensusList with
  | nil => rfl
  | cons first rest ih =>
    rw [updateNode, if_neg (h first (mem_cons_self ..)),
      ih fun other hother => h other (mem_cons_of_mem _ hother)]
    rfl

theorem putNode_cases (node : ConsensusNode) (consensusList : ConsensusNodeList) :
    (∃ before old after, consensusList = before ++ old :: after ∧ old.nodeID = node.nodeID ∧
        putNode node consensusList = before ++ node :: after) ∨
      (∀ other ∈ consensusList, other.nodeID ≠ node.nodeID) ∧
        putNode node consensusList = consensusList ++ [node] := by
  rcases hfind : consensusList.find? (·.nodeID = node.nodeID) with - | old
  · have hne : ∀ other ∈ consensusList, other.nodeID ≠ node.nodeID := by
      simpa using hfind
    exact .inr ⟨hne, by rw [putNode, updateNode_of_forall_ne hne, Option.getD_none]⟩
  · obtain ⟨before, after, hsplit, hold, hupdate⟩ := updateNode_of_find? hfind
    exact .inl ⟨before, old, after, hsplit, hold, by rw [putNode, hupdate, Option.getD_some]⟩

/-- A list in which no node ID occurs twice. -/
def DistinctIDs (consensusList : ConsensusNodeList) : Prop :=
  (consensusList.map ConsensusNode.nodeID).Nodup

theorem DistinctIDs.ne_of_split {before after : ConsensusNodeList}
    (h : DistinctIDs (before ++ node :: after)) :
    ∀ other ∈ before ++ after, other.nodeID ≠ node.nodeID := by
  rw [DistinctIDs, map_append, map_cons, nodup_middle, nodup_cons, ← map_append] at h
  exact fun other hother heq => h.1 (heq ▸ mem_map_of_mem hother)

section

variable (h : DistinctIDs consensusList)

include h

theorem DistinctIDs.find?_eq (hmem : node ∈ consensusList) :
    consensusList.find? (·.nodeID = node.nodeID) = some node := by
  cases hfind : consensusList.find? (·.nodeID = node.nodeID) with
  | none => exact absurd (by simp) (find?_eq_none.mp hfind node hmem)
  | some other =>
    have heq : other.nodeID = node.nodeID := by simpa using find?_some hfind
    rw [inj_on_of_nodup_map h (mem_of_find?_eq_some hfind) hmem heq]

theorem DistinctIDs.put (node : ConsensusNode) : DistinctIDs (putNode node consensusList) := by
  rcases putNode_cases node consensusList with ⟨before, old, after, rfl, hold, hput⟩ | ⟨hne, hput⟩
  · rw [hput]
    simpa [DistinctIDs, hold] using h
  · rw [hput, DistinctIDs, map_append, map_singleton]
    refine List.Nodup.append h (nodup_singleton _) ?_
    simpa [disjoint_singleton] using hne

theorem DistinctIDs.mem_put : other ∈ putNode node consensusList ↔
      other = node ∨ other ∈ consensusList ∧ other.nodeID ≠ node.nodeID := by
  rcases putNode_cases node consensusList with ⟨before, old, after, rfl, hold, hput⟩ | ⟨hne, hput⟩
  · have hothers := h.ne_of_split
    rw [hold] at hothers
    rw [hput, mem_append, mem_cons]
    constructor
    · rintro (hin | rfl | hin)
      · exact .inr ⟨by simp [hin], hothers other (by simp [hin])⟩
      · exact .inl rfl
      · exact .inr ⟨by simp [hin], hothers other (by simp [hin])⟩
    · rintro (rfl | ⟨hin, hne⟩)
      · exact .inr (.inl rfl)
      · rcases mem_append.mp hin with hin | hin
        · exact .inl hin
        · exact .inr ((mem_cons.mp hin).imp (fun heq => absurd (heq ▸ hold) hne) id)
  · rw [hput, mem_append, mem_singleton]
    constructor
    · rintro (hin | rfl)
      · exact .inr ⟨hin, hne other hin⟩
      · exact .inl rfl
    · rintro (rfl | ⟨hin, _⟩)
      · exact .inr rfl
      · exact .inl hin

end

theorem sealerCount_eq_zero : sealerCount consensusList = 0 ↔
      ∀ node ∈ consensusList, node.type ≠ .consensusSealer := by
  simp [sealerCount, countP_eq_zero]

end Lists

/-! ## Node IDs -/

theorem fromHex_of_forall (hdigits : ∀ c ∈ nodeID, isxdigit c = true) (heven : Even nodeID.length) :
    ∃ bytes, fromHex nodeID = some bytes := by
  induction nodeID using fromHex.induct with
  | case1 => exact ⟨[], rfl⟩
  | case2 c => simp at heven
  | case3 high low rest ih =>
    obtain ⟨h, hhigh⟩ := Option.isSome_iff_exists.mp (hdigits high (by simp))
    obtain ⟨l, hlow⟩ := Option.isSome_iff_exists.mp (hdigits low (by simp))
    obtain ⟨bytes, hrest⟩ := ih (fun c hc => hdigits c (by simp [hc]))
      (by simpa [Nat.even_add_one] using heven)
    exact ⟨Fin.ofNat 256 (16 * h + l) :: bytes, by simp [fromHex, hhigh, hlow, hrest]⟩

theorem validNodeID_eq_true (h : validNodeID nodeID = true) :
    ∃ bytes, fromHex nodeID = some bytes := by
  simp only [validNodeID, decide_eq_true_eq] at h
  obtain ⟨hlen, hcount⟩ := h
  refine fromHex_of_forall ?_ ?_
  · exact countP_eq_length.mp (hcount.trans hlen.symm)
  · rw [hlen]
    decide

/-! ## Reading the list back -/

section ReadBack

variable {β : Type} {f : α → Option β} {ys : List β}

theorem mapM_eq_some : l.mapM f = some ys ↔ l.map f = ys.map some := by
  induction l generalizing ys with
  | nil => cases ys <;> simp
  | cons x l ih =>
    rcases ys with - | ⟨y, ys⟩
    · cases hx : f x <;> cases hl : l.mapM f <;> simp [mapM_cons, hx, hl]
    · rw [map_cons, map_cons, List.cons.injEq, ← ih]
      cases hx : f x <;> cases hl : l.mapM f <;> simp [mapM_cons, hx, hl]

theorem mem_of_mapM (h : l.mapM f = some ys) {y : β} : y ∈ ys ↔ ∃ x ∈ l, f x = some y := by
  rw [← mem_map, mapM_eq_some.mp h, mem_map_of_injective (Option.some_injective β)]

theorem exists_of_mapM (h : l.mapM f = some ys) {x : α} (hx : x ∈ l) : ∃ y ∈ ys, f x = some y := by
  have hmem : f x ∈ ys.map some := mapM_eq_some.mp h ▸ mem_map_of_mem hx
  obtain ⟨y, hy, heq⟩ := mem_map.mp hmem
  exact ⟨y, hy, heq.symm⟩

theorem exists_mapM_of_forall (h : ∀ x ∈ l, ∃ y, f x = some y) : ∃ ys, l.mapM f = some ys := by
  induction l with
  | nil => exact ⟨[], rfl⟩
  | cons x l ih =>
    obtain ⟨y, hy⟩ := h x (mem_cons_self ..)
    obtain ⟨ys, hys⟩ := ih fun x hx => h x (mem_cons_of_mem _ hx)
    exact ⟨y :: ys, by simp [mapM_cons, hy, hys]⟩

end ReadBack

/-! ## The invariant -/

/-- What every call leaves behind in the row after block `blockNumber`. -/
structure WellFormed (blockNumber : ℤ) (consensusList : ConsensusNodeList) : Prop where
  distinct : DistinctIDs consensusList
  valid : ∀ node ∈ consensusList, validNodeID node.nodeID = true
  observer : ∀ node ∈ consensusList, node.type = .consensusObserver → node.weight = 0
  sealer : ∃ node ∈ consensusList, node.type = .consensusSealer
  weight : ∀ node ∈ consensusList, node.type = .consensusSealer → node.weight.setWidth 64 ≠ 0
  enabled : ∀ node ∈ consensusList, node.enableNumber ≤ blockNumber + 1

/-- Node IDs are distinct, observers have no weight, and the ledger reads back at
least one sealer, and all sealers with a positive weight. -/
def Usable (blockNumber : ℤ) (row : ConsensusRow) : Prop :=
  ∃ consensusList nodes, row = some consensusList ∧ DistinctIDs consensusList ∧
    (∀ node ∈ consensusList, node.type = .consensusObserver → node.weight = 0) ∧
    asyncGetNodeListByType .consensusSealer blockNumber row = some nodes ∧
    nodes ≠ [] ∧ ∀ node ∈ nodes, 0 < node.weight.toNat

section Invariant

variable {blockNumber number : ℤ} {row : ConsensusRow} {authorized : Bool}

theorem WellFormed.usable (h : WellFormed blockNumber consensusList) :
    Usable blockNumber (some consensusList) := by
  let visible := consensusList.filter
    (fun it => it.type = .consensusSealer ∧ it.enableNumber ≤ blockNumber + 1)
  have hread : ∀ node ∈ visible, ∃ ledger, ledgerNode node = some ledger := by
    intro node hnode
    obtain ⟨bytes, hbytes⟩ := validNodeID_eq_true (h.valid node (mem_of_mem_filter hnode))
    exact ⟨⟨bytes, _⟩, by rw [ledgerNode, hbytes, Option.map_some]⟩
  obtain ⟨nodes, hnodes⟩ := exists_mapM_of_forall hread
  refine ⟨consensusList, nodes, rfl, h.distinct, h.observer, hnodes, ?_, ?_⟩
  · obtain ⟨node, hnode, hsealer⟩ := h.sealer
    have hvisible : node ∈ visible :=
      mem_filter.mpr ⟨hnode, by simp [hsealer, h.enabled node hnode]⟩
    obtain ⟨ledger, hledger⟩ := hread node hvisible
    exact ne_nil_of_mem ((mem_of_mapM hnodes).mpr ⟨node, hvisible, hledger⟩)
  · intro ledger hledger
    obtain ⟨node, hvisible, hnode⟩ := (mem_of_mapM hnodes).mp hledger
    obtain ⟨hmem, hsealer⟩ := mem_filter.mp hvisible
    obtain ⟨bytes, _, rfl⟩ := Option.map_eq_some_iff.mp hnode
    have hw := h.weight node hmem (by simp at hsealer; exact hsealer.1)
    exact Nat.pos_of_ne_zero fun hzero => hw (BitVec.eq_of_toNat_eq hzero)

/-- A visible sealer whose weight has only zeros in its lower 64 bits. -/
theorem not_usable_of_mem (hmem : node ∈ consensusList) (hsealer : node.type = .consensusSealer)
    (henabled : node.enableNumber ≤ blockNumber + 1) (hw : node.weight.setWidth 64 = 0) :
    ¬ Usable blockNumber (some consensusList) := by
  rintro ⟨_, nodes, _, _, _, hnodes, _, hpos⟩
  have hvisible : node ∈ consensusList.filter
      (fun it => it.type = .consensusSealer ∧ it.enableNumber ≤ blockNumber + 1) :=
    mem_filter.mpr ⟨hmem, by simp [hsealer, henabled]⟩
  obtain ⟨ledger, hledger, hnode⟩ := exists_of_mapM hnodes hvisible
  obtain ⟨bytes, _, rfl⟩ := Option.map_eq_some_iff.mp hnode
  have hlt := hpos _ hledger
  simp [hw] at hlt

section

variable (h : WellFormed blockNumber consensusList) (hle : blockNumber ≤ number)

include h hle

/-- A node that is put into the list keeps it well formed if it has a valid ID, the
right weight for its type, and leaves a sealer. -/
theorem WellFormed.put (hvalid : validNodeID node.nodeID = true)
    (hobserver : node.type = .consensusObserver → node.weight = 0)
    (hw : node.type = .consensusSealer → node.weight.setWidth 64 ≠ 0)
    (henabled : node.enableNumber ≤ number + 1)
    (hsealer : ∃ other ∈ putNode node consensusList, other.type = .consensusSealer) :
    WellFormed number (putNode node consensusList) := by
  have hput : ∀ P : ConsensusNode → Prop, P node → (∀ other ∈ consensusList, P other) →
      ∀ other ∈ putNode node consensusList, P other := by
    intro P hnode hothers other hother
    rcases h.distinct.mem_put.mp hother with rfl | ⟨hin, _⟩
    · exact hnode
    · exact hothers other hin
  refine ⟨h.distinct.put node, hput _ hvalid h.valid, hput _ hobserver h.observer, hsealer,
    hput _ hw h.weight, hput _ henabled fun other hother => ?_⟩
  have := h.enabled other hother
  omega

theorem WellFormed.mono : WellFormed number consensusList := by
  refine { h with enabled := fun node hnode => ?_ }
  have := h.enabled node hnode
  omega

theorem WellFormed.erase
    (hsealer : ∃ node ∈ consensusList.eraseP (·.nodeID = nodeID), node.type = .consensusSealer) :
    WellFormed number (consensusList.eraseP (·.nodeID = nodeID)) := by
  have hsub : (consensusList.eraseP (·.nodeID = nodeID)).Sublist consensusList :=
    eraseP_sublist
  have hmono := h.mono hle
  refine ⟨List.Nodup.sublist (hsub.map _) h.distinct, fun node hnode => ?_, fun node hnode => ?_,
    hsealer, fun node hnode => ?_, fun node hnode => ?_⟩
  · exact hmono.valid node (hsub.subset hnode)
  · exact hmono.observer node (hsub.subset hnode)
  · exact hmono.weight node (hsub.subset hnode)
  · exact hmono.enabled node (hsub.subset hnode)

end

/-! ## The calls -/

/-- The call writes no weight of a sealer whose lower 64 bits are all `0`: a weight
other than `0` for a valid ID, or for the ID of a sealer, has a bit in this range. -/
def Call.WritesNarrowWeight (row : ConsensusRow) (authorized : Bool) : Call → Prop
  | .addSealer nodeID weight =>
    authorized = true → validNodeID (toLower nodeID) = true → weight ≠ 0 → weight.setWidth 64 ≠ 0
  | .setWeight nodeID weight =>
    authorized = true →
      (∃ node ∈ row.getD [], node.nodeID = toLower nodeID ∧ node.type = .consensusSealer) →
        weight ≠ 0 → weight.setWidth 64 ≠ 0
  | _ => True

/-- The row after a call; a call that throws leaves it as it was. -/
def rowAfter (number : ℤ) (row : ConsensusRow) (authorized : Bool) (c : Call) : ConsensusRow :=
  match call number row authorized c with
  | .ok (_, row) => row
  | .error _ => row

section Step

variable (h : WellFormed blockNumber consensusList) (hle : blockNumber ≤ number)

/-- The row holds a list that is well formed after block `number`. -/
def RowWellFormed (number : ℤ) (row : ConsensusRow) : Prop :=
  ∃ consensusList, row = some consensusList ∧ WellFormed number consensusList

include h hle

theorem WellFormed.addSealer
    (hw : validNodeID (toLower nodeID) = true → weight ≠ 0 → weight.setWidth 64 ≠ 0) :
    RowWellFormed number (addSealer number (some consensusList) nodeID weight).2 := by
  dsimp only [Precompiled.addSealer]
  split_ifs with hvalid hzero
  · exact ⟨_, rfl, h.mono hle⟩
  · refine ⟨_, rfl, h.put hle hvalid ?_ (fun _ => hw hvalid hzero) (Int.le_refl _) ?_⟩
    · rintro ⟨⟩
    · exact ⟨_, h.distinct.mem_put.mpr (.inl rfl), rfl⟩
  · exact ⟨_, rfl, h.mono hle⟩

theorem WellFormed.addObserver :
    RowWellFormed number (addObserver number (some consensusList) nodeID).2 := by
  dsimp only [Precompiled.addObserver]
  split_ifs with hvalid hcount
  · exact ⟨_, rfl, h.mono hle⟩
  · refine ⟨_, rfl, h.put hle hvalid (fun _ => rfl) ?_ (Int.le_refl _) ?_⟩
    · rintro ⟨⟩
    · simpa [sealerCount_eq_zero] using hcount
  · exact ⟨_, rfl, h.mono hle⟩

theorem WellFormed.removeNode :
    RowWellFormed number (removeNode (some consensusList) nodeID).2 := by
  dsimp only [Precompiled.removeNode]
  split_ifs with hlen hmissing hcount
  · exact ⟨_, rfl, h.mono hle⟩
  · exact ⟨_, rfl, h.mono hle⟩
  · exact ⟨_, rfl, h.mono hle⟩
  · refine ⟨_, rfl, h.erase hle ?_⟩
    simpa [sealerCount_eq_zero] using hcount

end Step

theorem setWeight_cases :
    (∃ code, setWeight number (some consensusList) nodeID weight = .ok (code, some consensusList)) ∨
      (∃ error, setWeight number (some consensusList) nodeID weight = .error error) ∨
      weight ≠ 0 ∧ ∃ node ∈ consensusList, node.nodeID = toLower nodeID ∧
        node.type = .consensusSealer ∧ setWeight number (some consensusList) nodeID weight =
          .ok (.success, some (putNode ⟨node.nodeID, weight, node.type, number + 1⟩
            consensusList)) := by
  dsimp only [setWeight, Option.getD_some]
  by_cases hlen : (toLower nodeID).length ≠ nodeLength
  · exact .inl ⟨_, if_pos hlen⟩
  by_cases hzero : weight = 0
  · exact .inl ⟨_, by rw [if_neg hlen, if_pos hzero]⟩
  rw [if_neg hlen, if_neg hzero]
  cases hfind : consensusList.find? (·.nodeID = toLower nodeID) with
  | none => exact .inl ⟨_, rfl⟩
  | some node =>
    by_cases hsealer : node.type ≠ .consensusSealer
    · exact .inr (.inl ⟨_, if_pos hsealer⟩)
    refine .inr (.inr ⟨hzero, node, mem_of_find?_eq_some hfind, ?_, not_not.mp hsealer, ?_⟩)
    · simpa using find?_some hfind
    · dsimp only
      rw [if_neg hsealer, updateNode_eq_putNode hfind rfl]

theorem WellFormed.step (h : WellFormed blockNumber consensusList) (hle : blockNumber ≤ number)
    (hc : c.WritesNarrowWeight (some consensusList) authorized) :
    RowWellFormed number (rowAfter number (some consensusList) authorized c) := by
  have hsame : RowWellFormed number (some consensusList) := ⟨_, rfl, h.mono hle⟩
  rcases authorized with - | -
  · cases c <;> exact hsame
  · rcases c with ⟨nodeID, weight⟩ | nodeID | nodeID | ⟨nodeID, weight⟩
    · exact h.addSealer hle (hc rfl)
    · exact h.addObserver hle
    · exact h.removeNode hle
    · rw [rowAfter, call, if_pos rfl]
      rcases setWeight_cases with
        ⟨code, heq⟩ | ⟨error, heq⟩ | ⟨hzero, node, hmem, hid, hsealer, heq⟩
      · rw [heq]
        exact hsame
      · rw [heq]
        exact hsame
      · rw [heq]
        refine ⟨_, rfl, h.put hle (h.valid node hmem) ?_ ?_ (Int.le_refl _) ?_⟩
        · intro hobserver
          rw [hsealer] at hobserver
          cases hobserver
        · exact fun _ => hc rfl ⟨node, hmem, hid, hsealer⟩ hzero
        · exact ⟨_, h.distinct.mem_put.mpr (.inl rfl), hsealer⟩

/-- A weight whose lower 64 bits are all `0` is accepted and read back as `0`. -/
theorem WellFormed.not_usable_step (h : WellFormed blockNumber consensusList)
    (hc : ¬ c.WritesNarrowWeight (some consensusList) authorized) :
    ¬ Usable number (rowAfter number (some consensusList) authorized c) := by
  rcases c with ⟨nodeID, weight⟩ | nodeID | nodeID | ⟨nodeID, weight⟩
  · simp only [Call.WritesNarrowWeight, Classical.not_imp, not_not] at hc
    obtain ⟨rfl, hvalid, hzero, hw⟩ := hc
    have hrow : rowAfter number (some consensusList) true (.addSealer nodeID weight) =
        some (putNode (sealerNode number (toLower nodeID) weight) consensusList) := by
      rw [rowAfter, call, if_pos rfl, Precompiled.addSealer, if_neg (not_not.mpr hvalid),
        if_neg hzero]
      rfl
    rw [hrow]
    exact not_usable_of_mem (h.distinct.mem_put.mpr (.inl rfl)) rfl (Int.le_refl _) hw
  · exact absurd trivial hc
  · exact absurd trivial hc
  · simp only [Call.WritesNarrowWeight, Classical.not_imp, not_not] at hc
    obtain ⟨rfl, ⟨node, hmem, hid, hsealer⟩, hzero, hw⟩ := hc
    have hlen : (toLower nodeID).length = nodeLength := by
      have hvalid := h.valid node hmem
      rw [hid, validNodeID, decide_eq_true_eq] at hvalid
      exact hvalid.1
    have hrow : rowAfter number (some consensusList) true (.setWeight nodeID weight) =
        some (putNode ⟨node.nodeID, weight, node.type, number + 1⟩ consensusList) := by
      rw [rowAfter, call, if_pos rfl, Precompiled.setWeight, if_neg (not_not.mpr hlen),
        if_neg hzero, Option.getD_some, ← hid, h.distinct.find?_eq hmem]
      dsimp only
      rw [if_neg (not_not.mpr hsealer), updateNode_eq_putNode (h.distinct.find?_eq hmem) rfl]
    rw [hrow]
    exact not_usable_of_mem (h.distinct.mem_put.mpr (.inl rfl)) hsealer (Int.le_refl _) hw

end Invariant

/-! ## Runs -/

/-- A call, the block in which it is executed, and whether its sender is authorized. -/
structure Step where
  number : ℤ
  authorized : Bool
  call : Call

/-- The row of `SYS_CONSENSUS` after the blocks up to `blockNumber`. -/
structure State where
  blockNumber : ℤ
  row : ConsensusRow

def State.step (s : State) (e : Step) : State where
  blockNumber := e.number
  row := rowAfter e.number s.row e.authorized e.call

def State.run (s : State) (steps : List Step) : State := steps.foldl State.step s

/-- The calls are executed in blocks with increasing numbers after `blockNumber`. -/
def InOrder (blockNumber : ℤ) (steps : List Step) : Prop :=
  (blockNumber :: steps.map Step.number).Pairwise (· ≤ ·)

section Splits

variable {a : α}

theorem forall_split_cons {P : List α → Prop} :
    (∀ before after, a :: l = before ++ after → P before) ↔
      P [] ∧ ∀ before after, l = before ++ after → P (a :: before) := by
  constructor
  · exact fun h => ⟨h [] _ rfl, fun before after hl => h (a :: before) after (by rw [hl]; rfl)⟩
  · rintro ⟨hnil, hcons⟩ before after hsplit
    rcases cons_eq_append_iff.mp hsplit with ⟨rfl, _⟩ | ⟨before, rfl, hl⟩
    · exact hnil
    · exact hcons before after hl

theorem forall_split_at_cons {P : List α → α → Prop} :
    (∀ before b after, a :: l = before ++ b :: after → P before b) ↔
      P [] a ∧ ∀ before b after, l = before ++ b :: after → P (a :: before) b := by
  constructor
  · exact fun h => ⟨h [] a l rfl, fun before b after hl =>
      h (a :: before) b after (by rw [hl]; rfl)⟩
  · rintro ⟨hnil, hcons⟩ before b after hsplit
    rcases cons_eq_append_iff.mp hsplit with ⟨rfl, hhead⟩ | ⟨before, rfl, hl⟩
    · cases hhead
      exact hnil
    · exact hcons before b after hl

end Splits

/-- From a well formed list, the list stays usable, at every height from the last
call on, exactly if no call writes a weight whose lower 64 bits are all `0`. -/
theorem usable_run_iff {blockNumber : ℤ} {consensusList : ConsensusNodeList}
    (h : WellFormed blockNumber consensusList) {steps : List Step}
    (horder : InOrder blockNumber steps) : (∀ before after, steps = before ++ after →
      ∀ height, (State.run ⟨blockNumber, some consensusList⟩ before).blockNumber ≤ height →
        Usable height (State.run ⟨blockNumber, some consensusList⟩ before).row) ↔
    ∀ before e after, steps = before ++ e :: after →
      e.call.WritesNarrowWeight (State.run ⟨blockNumber, some consensusList⟩ before).row
        e.authorized := by
  have hstart : ∀ height, blockNumber ≤ height → Usable height (some consensusList) :=
    fun height hheight => (h.mono hheight).usable
  induction steps generalizing blockNumber consensusList with
  | nil =>
    refine iff_of_true ?_ ?_
    · intro before after hsplit
      obtain ⟨rfl, rfl⟩ := append_eq_nil_iff.mp hsplit.symm
      exact hstart
    · intro before e after hsplit
      simp at hsplit
  | cons e steps ih =>
    obtain ⟨hfirst, hrest⟩ := pairwise_cons.mp horder
    have hle : blockNumber ≤ e.number := hfirst _ (mem_cons_self ..)
    have hnext : RowWellFormed e.number
          (rowAfter e.number (some consensusList) e.authorized e.call) →
        ((∀ before after, steps = before ++ after → ∀ height,
          (State.run ⟨blockNumber, some consensusList⟩ (e :: before)).blockNumber ≤ height →
            Usable height (State.run ⟨blockNumber, some consensusList⟩ (e :: before)).row) ↔
        ∀ before d after, steps = before ++ d :: after → d.call.WritesNarrowWeight
            (State.run ⟨blockNumber, some consensusList⟩ (e :: before)).row d.authorized) := by
      rintro ⟨list, hrow, hlist⟩
      have hstep : State.step ⟨blockNumber, some consensusList⟩ e = ⟨e.number, some list⟩ := by
        rw [State.step, hrow]
      simp only [State.run, foldl_cons, hstep]
      exact ih hlist hrest fun height hheight => (hlist.mono hheight).usable
    rw [forall_split_cons, forall_split_at_cons]
    constructor
    · rintro ⟨_, husable⟩
      have hhead : e.call.WritesNarrowWeight (some consensusList) e.authorized := by
        by_contra hbad
        exact h.not_usable_step hbad (husable [] steps rfl e.number (Int.le_refl _))
      exact ⟨hhead, (hnext (h.step hle hhead)).mp husable⟩
    · rintro ⟨hhead, hcalls⟩
      exact ⟨hstart, (hnext (h.step hle hhead)).mpr hcalls⟩

def oneSealer : ConsensusNodeList :=
  [⟨List.replicate 128 48, 1, .consensusSealer, 0⟩]

theorem oneSealer_wellFormed : WellFormed 0 oneSealer := by
  refine ⟨nodup_singleton _, ?_, ?_, ⟨_, mem_singleton_self _, rfl⟩, ?_, ?_⟩ <;>
    · intro node hnode
      obtain rfl := mem_singleton.mp hnode
      decide +kernel

def secondNode : Bytes := List.replicate 128 49

/-- The second node joins as an observer. -/
theorem oneSealer_addObserver_usable :
    WellFormed 0 oneSealer ∧ InOrder 0 [⟨1, true, .addObserver secondNode⟩] ∧
      Usable 1 (State.run ⟨0, some oneSealer⟩ [⟨1, true, .addObserver secondNode⟩]).row := by
  have horder : InOrder 0 [⟨1, true, .addObserver secondNode⟩] := by simp [InOrder]
  refine ⟨oneSealer_wellFormed, horder, ?_⟩
  refine (usable_run_iff oneSealer_wellFormed horder).mpr ?_ _ [] rfl 1 (Int.le_refl _)
  intro before e after hsplit
  rcases cons_eq_append_iff.mp hsplit with ⟨rfl, hhead⟩ | ⟨before, rfl, hl⟩
  · cases hhead
    exact trivial
  · simp at hl

/-- A weight whose lower 64 bits are all `0`. -/
def wideWeight : BitVec 256 := 0x10000000000000000

/-- The second node joins as a sealer of this weight, which the ledger reads back as
the weight `0`. -/
theorem oneSealer_addSealer_unusable : WellFormed 0 oneSealer ∧
      addSealer 1 (some oneSealer) secondNode wideWeight =
        (.success, some (oneSealer ++ [⟨secondNode, wideWeight, .consensusSealer, 2⟩])) ∧
      ¬ Usable 1 (State.run ⟨0, some oneSealer⟩
        [⟨1, true, .addSealer secondNode wideWeight⟩]).row := by
  have hbad : ¬ Call.WritesNarrowWeight (some oneSealer) true (.addSealer secondNode wideWeight) :=
    fun hnarrow => hnarrow rfl (by decide +kernel) (by decide) (by decide)
  have hunusable : ¬ Usable 1
      (rowAfter 1 (some oneSealer) true (.addSealer secondNode wideWeight)) :=
    WellFormed.not_usable_step oneSealer_wellFormed hbad
  refine ⟨oneSealer_wellFormed, by decide +kernel, ?_⟩
  simpa only [State.run, foldl_cons, foldl_nil, State.step] using hunusable

end FiscoSmart.Precompiled
