import FiscoSmart.Storage.StateRollback

/-!
# Layers of `StateStorage`

Every block is executed in a `StateStorage` of its own, on top of the one of the block
before.  A read goes down to the first layer that holds the row.  `asyncGetPrimaryKeys`
hands its condition down with the limit in it, takes the keys that the layer holds as
deleted out of the answer and appends those that the layer holds as rows, so that only
the backend counts positions.
-/

namespace FiscoSmart.Storage

open Support List SortedMap

variable {key : Key}

/-- A `StateStorage` without its previous storage. -/
structure Layer where
  cache : RowCache
  readOnly : Bool
  enableTraverse : Bool

/-- What the storage under the layers answers. -/
structure BackendStorage where
  getRow : Table → Key → Except Fault (Option Entry)
  getPrimaryKeys : Table → Option Condition → Except Fault (List Key)

/-- `asyncGetRow` through the layers, the topmost first. -/
def stackRow (getRow : Table → Key → Except Fault (Option Entry)) :
    List Layer → Table → Key → Except Fault (Option Entry)
  | [] => getRow
  | layer :: below => fun table key =>
    StateStorage.answer (StateStorage.asyncGetRow table key)
      ⟨stackRow getRow below, layer.readOnly, layer.cache, none⟩

theorem stackRow_cons {getRow : Table → Key → Except Fault (Option Entry)} {layer : Layer}
    {below : List Layer} {table : Table} : stackRow getRow (layer :: below) table key =
      match layer.cache.find table key with
      | some entry => .ok (if entry.status = .deleted then none else some entry)
      | none =>
        match stackRow getRow below table key with
        | .error e => .error (getRowFailed e)
        | .ok row => .ok (row.map (StateStorage.fetched
            ⟨stackRow getRow below, layer.readOnly, layer.cache, none⟩)) :=
  StateStorage.answer_asyncGetRow_cached ..

namespace Layer

/-- The `localKeys` of `asyncGetPrimaryKeys`. -/
def localKeys (layer : Layer) (table : Table) (condition : Option Condition) :
    SortedMap Key Status :=
  if layer.enableTraverse then
    layer.cache.entries.foldl (fun keys row =>
      if row.1.1 = table ∧ condition.all (·.isValid row.1.2) then
        keys.emplace row.1.2 row.2.status
      else keys) .empty
  else .empty

/-- The keys of the rows that are neither deleted nor empty. -/
def resultKeys (localKeys : SortedMap Key Status) : List Key :=
  (localKeys.toList.filter fun row => row.2 = .normal ∨ row.2 = .modified).map (·.1)

/-- What `asyncGetPrimaryKeys` makes of the keys of the previous storage. -/
def mergeKeys : SortedMap Key Status → List Key → List Key
  | localKeys, [] => resultKeys localKeys
  | localKeys, key :: remoteKeys =>
    match localKeys.find? key with
    | none => key :: mergeKeys localKeys remoteKeys
    | some .deleted => mergeKeys (localKeys.erase key) remoteKeys
    | some _ => key :: mergeKeys (localKeys.erase key) remoteKeys

/-- The error a failed listing of the previous storage is turned into. -/
def getPrimaryKeysFailed : Fault → Fault
  | .returned _ => .returned ⟨.readError, "Get primary keys from prev failed!", []⟩
  | e => e

/-- `BaseStorage::asyncGetPrimaryKeys`. -/
def asyncGetPrimaryKeys (layer : Layer)
    (prev : Option (Option Condition → Except Fault (List Key))) (table : Table)
    (condition : Option Condition) : Except Fault (List Key) :=
  match prev with
  | none => .ok (resultKeys (layer.localKeys table condition))
  | some prev =>
    match prev condition with
    | .error e => .error (getPrimaryKeysFailed e)
    | .ok remoteKeys => .ok (mergeKeys (layer.localKeys table condition) remoteKeys)

end Layer

/-- `asyncGetPrimaryKeys` through the layers. -/
def stackKeys (backend : BackendStorage) :
    List Layer → Table → Option Condition → Except Fault (List Key)
  | [] => backend.getPrimaryKeys
  | layer :: below => fun table =>
    layer.asyncGetPrimaryKeys (some (stackKeys backend below table)) table

/-- The read returns a row that is neither deleted nor empty. -/
def liveRow : Except Fault (Option Entry) → Bool
  | .ok (some entry) => entry.visible
  | _ => false

/-- The listing of a table agrees with its reads: whatever the limit, it returns the
window of the keys in their order. -/
def Lists (getRow : Key → Except Fault (Option Entry))
    (getPrimaryKeys : Option Condition → Except Fault (List Key))
    (conditions : List (Comparator × Key)) : Prop :=
  ∃ all : List Key, all.Pairwise (· < ·) ∧ all.length < 2 ^ 64 ∧
    (∀ key, key ∈ all ↔ Condition.isValid ⟨conditions, 0, 0⟩ key ∧ liveRow (getRow key)) ∧
    ∀ limit : UInt64 × UInt64, getPrimaryKeys (some ⟨conditions, limit⟩) =
      .ok ((all.drop limit.1.toNat).take limit.2.toNat)

/-- What a row of a layer does to the listing: it adds its key, takes it out or leaves it. -/
def listedAs : Option Status → Option Bool
  | some .normal => some true
  | some .modified => some true
  | some .deleted => some false
  | some .empty => none
  | none => none

/-- What a layer does to the listing of a key. -/
def Layer.listed (layer : Layer) (table : Table) (key : Key) : Option Bool :=
  if layer.enableTraverse then listedAs ((layer.cache.find table key).map (·.status)) else none

/-- What the topmost layer that has something to do with the key does to its listing. -/
def stackListed (layers : List Layer) (table : Table) (key : Key) : Option Bool :=
  layers.findSome? (·.listed table key)

/-- Among the keys that satisfy the predicates none is added by a layer, a row is read
exactly if the backend has it and no layer takes its key out, and the keys that are taken
out are the last ones of the backend. -/
structure Untouched (backend : BackendStorage) (layers : List Layer) (table : Table)
    (conditions : List (Comparator × Key)) : Prop where
  added : ∀ key, Condition.isValid ⟨conditions, 0, 0⟩ key → stackListed layers table key ≠ some true
  reads : ∀ key, Condition.isValid ⟨conditions, 0, 0⟩ key →
    (liveRow (stackRow backend.getRow layers table key) ↔
      liveRow (backend.getRow table key) ∧ stackListed layers table key = none)
  last : ∀ key key', key < key' →
    Condition.isValid ⟨conditions, 0, 0⟩ key → liveRow (backend.getRow table key) →
    Condition.isValid ⟨conditions, 0, 0⟩ key' → liveRow (backend.getRow table key') →
    stackListed layers table key' = none → stackListed layers table key = none

/-! ## Windows of a list with some elements left out -/

section Window

variable {α : Type*} {p : α → Bool} {l : List α}

theorem filter_window (h : l.Pairwise fun a b => p b → p a) (offset count : ℕ) :
    ((l.drop offset).take count).filter p = ((l.filter p).drop offset).take count := by
  induction l generalizing offset count with
  | nil => simp
  | cons a l ih =>
    obtain ⟨hhead, htail⟩ := pairwise_cons.mp h
    rcases ha : p a with - | -
    · have hnone : ∀ b ∈ a :: l, p b = false := by
        intro b hb
        rcases mem_cons.mp hb with rfl | hb
        · exact ha
        · exact Bool.eq_false_iff.mpr fun hpb => Bool.false_ne_true (ha ▸ hhead b hb hpb)
      rw [filter_eq_nil_iff.mpr fun b hb => by
          simp [hnone b (mem_of_mem_drop (mem_of_mem_take hb))],
        filter_eq_nil_iff.mpr fun b hb => by simp [hnone b hb]]
      simp
    · rcases offset with - | offset
      · rcases count with - | count
        · simp
        · have := ih htail 0 count
          simp_all
      · simpa [ha] using ih htail offset count

theorem pairwise_of_filter_take
    (h : ∀ count ≤ l.length, (l.take count).filter p = (l.filter p).take count) :
    l.Pairwise fun a b => p b → p a := by
  induction l with
  | nil => exact List.Pairwise.nil
  | cons a l ih =>
    rcases ha : p a with - | -
    · -- nothing that is kept may follow an element that is left out
      have hnil : l.filter p = [] := by
        have hone := h 1 (by simp)
        simp only [take_succ_cons, take_zero, filter_cons, ha,
          Bool.false_eq_true, if_false, filter_nil] at hone
        rcases hl : l.filter p with - | ⟨b, rest⟩
        · rfl
        · rw [hl] at hone
          exact absurd hone (by simp)
      refine List.Pairwise.imp_of_mem (R := fun _ _ => True) (fun {b c} hb hc _ hpc => ?_)
        (pairwise_of_forall fun _ _ => trivial)
      rcases mem_cons.mp hc with rfl | hc
      · exact absurd (ha ▸ hpc) Bool.false_ne_true
      · exact absurd hpc (filter_eq_nil_iff.mp hnil c hc)
    · refine pairwise_cons.mpr ⟨fun _ _ _ => ha, ih fun count hcount => ?_⟩
      simpa [ha] using h (count + 1) (by simpa using hcount)

end Window

/-! ## The keys of one layer -/

section Merge

variable {localKeys : SortedMap Key Status} {remoteKeys : List Key}

theorem mem_resultKeys :
    key ∈ Layer.resultKeys localKeys ↔ listedAs (localKeys.find? key) = some true := by
  have hkey : key ∈ Layer.resultKeys localKeys ↔
      localKeys.find? key = some .normal ∨ localKeys.find? key = some .modified := by
    simp [Layer.resultKeys, find?_eq_some, and_or_left, exists_or]
  rw [hkey]
  rcases localKeys.find? key with - | _ | _ | _ | _ <;> simp [listedAs]

theorem mem_mergeKeys (h : remoteKeys.Nodup) : key ∈ Layer.mergeKeys localKeys remoteKeys ↔
      (listedAs (localKeys.find? key)).getD (decide (key ∈ remoteKeys)) = true := by
  induction remoteKeys generalizing localKeys with
  | nil =>
    rw [Layer.mergeKeys, mem_resultKeys]
    rcases listedAs (localKeys.find? key) with - | b <;> simp
  | cons k remoteKeys ih =>
    obtain ⟨hk, hnodup⟩ := nodup_cons.mp h
    rw [Layer.mergeKeys]
    by_cases heq : key = k
    · subst heq
      rcases hfind : localKeys.find? key with - | _ | _ | _ | _ <;>
        simp [ih hnodup, find?_erase, hk, listedAs]
    · rcases hfind : localKeys.find? k with - | _ | _ | _ | _ <;>
        simp [ih hnodup, find?_erase, heq]

theorem nodup_mergeKeys (h : remoteKeys.Nodup) : (Layer.mergeKeys localKeys remoteKeys).Nodup := by
  induction remoteKeys generalizing localKeys with
  | nil =>
    exact (localKeys.increasing.filter _).map _ fun _ _ hlt => ne_of_lt hlt
  | cons k remoteKeys ih =>
    obtain ⟨hk, hnodup⟩ := nodup_cons.mp h
    rw [Layer.mergeKeys]
    rcases hfind : localKeys.find? k with - | _ | _ | _ | _ <;>
      simp [ih hnodup, mem_mergeKeys hnodup, find?_erase, hk, hfind, listedAs]

/-- The keys that the layer leaves alone are those of the previous storage. -/
theorem filter_mergeKeys {p : Key → Bool}
    (h : ∀ key, p key → listedAs (localKeys.find? key) = none) :
    (Layer.mergeKeys localKeys remoteKeys).filter p = remoteKeys.filter p := by
  induction remoteKeys generalizing localKeys with
  | nil =>
    refine filter_eq_nil_iff.mpr fun key hkey hp => ?_
    rw [Layer.mergeKeys, mem_resultKeys, h key hp] at hkey
    cases hkey
  | cons k remoteKeys ih =>
    have hrest : ∀ key, p key → listedAs ((localKeys.erase k).find? key) = none := by
      intro key hp
      rw [find?_erase]
      split_ifs
      · rfl
      · exact h key hp
    rw [Layer.mergeKeys]
    rcases hfind : localKeys.find? k with - | _ | _ | _ | _
    case some.deleted =>
      have hk : p k = false := Bool.eq_false_iff.mpr fun hp => by
        have := h k hp
        rw [hfind] at this
        cases this
      simp [ih hrest, hk]
    case none => simp [filter_cons, ih h]
    all_goals simp [filter_cons, ih hrest]

theorem localKeys_find? {layer : Layer} {table : Table} {condition : Option Condition} :
    (layer.localKeys table condition).find? key =
      if layer.enableTraverse ∧ condition.all (·.isValid key) then
        (layer.cache.find table key).map (·.status)
      else none := by
  have hfold (rows : List (Sigma fun _ : Table × Key => Entry)) (keys : SortedMap Key Status) :
      (rows.foldl (fun keys row =>
        if row.1.1 = table ∧ condition.all (·.isValid row.1.2) then
          keys.emplace row.1.2 row.2.status
        else keys) keys).find? key =
      (keys.find? key).or (if condition.all (·.isValid key) then
        (rows.dlookup (table, key)).map (·.status) else none) := by
    induction rows generalizing keys with
    | nil => simp
    | cons row rows ih =>
      obtain ⟨⟨table', key'⟩, entry⟩ := row
      rw [foldl_cons, ih]
      by_cases heq : (table', key') = (table, key)
      · obtain ⟨rfl, rfl⟩ := Prod.mk.inj heq
        by_cases hvalid : condition.all (·.isValid key')
        · rw [if_pos ⟨rfl, hvalid⟩, find?_emplace, if_pos rfl]
          rcases keys.find? key' with - | status <;> simp [hvalid]
        · simp [hvalid]
      · rw [dlookup_cons_ne _ _ fun h => heq h.symm]
        by_cases hrow : table' = table ∧ condition.all (·.isValid key')
        · have hne : key ≠ key' := fun h => heq (Prod.ext hrow.1 h.symm)
          rw [if_pos hrow, find?_emplace, if_neg hne]
        · rw [if_neg hrow]
  rw [Layer.localKeys]
  split_ifs with htraverse hall hall
  · rw [hfold, if_pos hall.2]
    rfl
  · rw [hfold, if_neg fun h => hall ⟨htraverse, h⟩]
    rfl
  · exact absurd hall.1 htraverse
  · rfl

end Merge

/-! ## The keys of all layers -/

section Stack

variable {backend : BackendStorage} {layers : List Layer} {table : Table}
  {conditions : List (Comparator × Key)}

theorem stackListed_cons {layer : Layer} : stackListed (layer :: layers) table key =
      (layer.listed table key).or (stackListed layers table key) := by
  rw [stackListed, findSome?_cons]
  rcases layer.listed table key with - | b <;> rfl

/-- The listing through all layers against the answer of the backend. -/
theorem stackKeys_listed {condition : Condition} {keys : List Key}
    (hkeys : backend.getPrimaryKeys table (some condition) = .ok keys) (hnodup : keys.Nodup)
    (hvalid : ∀ key ∈ keys, condition.isValid key) (layers : List Layer) :
    ∃ listed, stackKeys backend layers table (some condition) = .ok listed ∧ listed.Nodup ∧
      (∀ key, key ∈ listed ↔ condition.isValid key ∧
        (stackListed layers table key).getD (decide (key ∈ keys)) = true) ∧
      ∀ p : Key → Bool, (∀ key, p key → stackListed layers table key = none) →
        listed.filter p = keys.filter p := by
  induction layers with
  | nil =>
    refine ⟨keys, hkeys, hnodup, fun key => ?_, fun _ _ => rfl⟩
    simpa [stackListed] using hvalid key
  | cons layer below ih =>
    obtain ⟨listed, hlisted, hnodup, hmem, hfilter⟩ := ih
    have hlayer (key : Key) : listedAs ((layer.localKeys table (some condition)).find? key) =
        if condition.isValid key then layer.listed table key else none := by
      rw [localKeys_find?, Layer.listed]
      by_cases hkey : condition.isValid key <;> by_cases htraverse : layer.enableTraverse <;>
        simp [hkey, htraverse, listedAs]
    refine ⟨Layer.mergeKeys (layer.localKeys table (some condition)) listed, ?_,
      nodup_mergeKeys hnodup, fun key => ?_, fun p hp => ?_⟩
    · simp [stackKeys, Layer.asyncGetPrimaryKeys, hlisted]
    · rw [mem_mergeKeys hnodup, hlayer, stackListed_cons]
      by_cases hkey : condition.isValid key
      · rcases layer.listed table key with - | b <;> simp [hkey, hmem]
      · simp [hkey, hmem]
    · have hnone (key : Key) (hkey : p key) :=
        Option.or_eq_none_iff.mp (stackListed_cons.symm.trans (hp key hkey))
      rw [filter_mergeKeys fun key hkey => ?_, hfilter p fun key hkey => (hnone key hkey).2]
      rw [hlayer, (hnone key hkey).1, ite_self]

/-- The listing through the layers agrees with the reads through them exactly if the
layers leave the positions of the backend's keys alone. -/
theorem stackKeys_lists_iff
    (hbackend : Lists (backend.getRow table) (backend.getPrimaryKeys table) conditions) :
    Lists (stackRow backend.getRow layers table) (stackKeys backend layers table) conditions ↔
      Untouched backend layers table conditions := by
  obtain ⟨all, hsorted, hlen, hall, hwindow⟩ := hbackend
  have hlisted (limit : UInt64 × UInt64) := stackKeys_listed (hwindow limit)
    ((hsorted.imp ne_of_lt).sublist ((take_sublist _ _).trans (drop_sublist _ _)))
    (fun key hkey => ((hall key).mp (mem_of_mem_drop (mem_of_mem_take hkey))).1) layers
  have huntouched (hadded : ∀ key, Condition.isValid ⟨conditions, 0, 0⟩ key →
      stackListed layers table key ≠ some true) (limit : UInt64 × UInt64) :
      stackKeys backend layers table (some ⟨conditions, limit⟩) =
        .ok (((all.drop limit.1.toNat).take limit.2.toNat).filter fun key =>
          (stackListed layers table key).isNone) := by
    obtain ⟨listed, hkeys, -, hmem, hfilter⟩ := hlisted limit
    rw [hkeys, ← hfilter _ fun key hkey => Option.isNone_iff_eq_none.mp hkey]
    refine congrArg _ (filter_eq_self.mpr fun key hkey => ?_).symm
    have hkey := (hmem key).mp hkey
    rcases hlist : stackListed layers table key with - | _ | _
    · rfl
    · rw [hlist] at hkey
      exact absurd hkey.2 Bool.false_ne_true
    · exact absurd hlist (hadded key hkey.1)
  constructor
  · rintro ⟨all', hsorted', hlen', hall', hwindow'⟩
    have hadded (key : Key) (hkey : Condition.isValid ⟨conditions, 0, 0⟩ key) :
        stackListed layers table key ≠ some true := by
      -- nothing may be listed under the empty limit
      intro htrue
      obtain ⟨listed, hkeys, -, hmem, -⟩ := hlisted (0, 0)
      have hnil : listed = [] := Except.ok.inj (hkeys.symm.trans (hwindow' (0, 0)))
      have := (hmem key).mpr ⟨hkey, by rw [htrue]; rfl⟩
      rw [hnil] at this
      exact absurd this not_mem_nil
    have htake (count : ℕ) (hcount : count < 2 ^ 64) : all'.take count =
        (all.take count).filter fun key => (stackListed layers table key).isNone := by
      have := Except.ok.inj ((hwindow' (0, .ofNat count)).symm.trans
        (huntouched hadded (0, .ofNat count)))
      simpa [UInt64.toNat_ofNat_of_lt' hcount] using this
    have heq : all' = all.filter fun key => (stackListed layers table key).isNone := by
      have := htake (2 ^ 64 - 1) (by omega)
      rwa [take_of_length_le (by omega), take_of_length_le (by omega)] at this
    have hpair : all.Pairwise fun a b => (stackListed layers table b).isNone →
        (stackListed layers table a).isNone :=
      pairwise_of_filter_take fun count hcount => by
        rw [← heq, htake count (lt_of_le_of_lt hcount hlen)]
    refine ⟨hadded, fun key hkey => ?_, fun key key' hlt hkey hlive hkey' hlive' hnone => ?_⟩
    · have hmem := hall' key
      rw [heq, mem_filter, hall key, Option.isNone_iff_eq_none] at hmem
      simpa [hkey] using hmem.symm
    · have hforall := List.Pairwise.forall_of_forall_of_flip
        (R := fun a b => a < b → stackListed layers table b = none →
          stackListed layers table a = none) (l := all) (fun _ _ h => absurd h (lt_irrefl _))
        (hpair.imp fun h _ => by simpa using h) (hsorted.imp fun h h' => absurd h (lt_asymm h'))
      exact hforall ((hall key).mpr ⟨hkey, hlive⟩) ((hall key').mpr ⟨hkey', hlive'⟩) hlt hnone
  · rintro ⟨hadded, hreads, hlast⟩
    have hpair : all.Pairwise fun a b => (stackListed layers table b).isNone →
        (stackListed layers table a).isNone :=
      hsorted.imp_of_mem fun {a b} ha hb hlt hnone => by
        obtain ⟨hvalid, hlive⟩ := (hall a).mp ha
        obtain ⟨hvalid', hlive'⟩ := (hall b).mp hb
        rw [Option.isNone_iff_eq_none] at hnone ⊢
        exact hlast a b hlt hvalid hlive hvalid' hlive' hnone
    refine ⟨all.filter fun key => (stackListed layers table key).isNone, hsorted.filter _,
      lt_of_le_of_lt (length_filter_le _ _) hlen, fun key => ?_, fun limit => ?_⟩
    · rw [mem_filter, hall, Option.isNone_iff_eq_none, and_assoc]
      exact and_congr_right fun hkey => (hreads key hkey).symm
    · rw [huntouched hadded limit, filter_window hpair]

end Stack

/-- A backend with two rows in each table. -/
def twoRows : BackendStorage where
  getRow _ key := .ok (if key = [97] ∨ key = [98] then some ⟨[1], 1, .normal⟩ else none)
  getPrimaryKeys _ condition := .ok (match condition with
    | none => [[97], [98]]
    | some condition => (([[97], [98]].filter condition.isValid).drop
        condition.limit.1.toNat).take condition.limit.2.toNat)

theorem twoRows_live {table : Table} :
    liveRow (twoRows.getRow table key) ↔ key = [97] ∨ key = [98] := by
  rw [twoRows]
  dsimp only
  split_ifs with hkey <;> simp [hkey, liveRow, Entry.visible]

theorem twoRows_lists (table : Table) (conditions : List (Comparator × Key)) :
    Lists (twoRows.getRow table) (twoRows.getPrimaryKeys table) conditions := by
  have hsorted : ([[97], [98]] : List Key).Pairwise (· < ·) := by decide
  refine ⟨[[97], [98]].filter (Condition.isValid ⟨conditions, 0, 0⟩), hsorted.filter _,
    lt_of_le_of_lt (length_filter_le _ _) (by decide), fun key => ?_, fun _ => rfl⟩
  rw [mem_filter, and_comm, twoRows_live]
  simp

/-- A layer that has imported the second row of a table. -/
def secondRow (table : Table) : Layer :=
  ⟨(∅ : RowCache).set table [98] ⟨[1], 1, .normal⟩, false, true⟩

theorem stackKeys_lists_other_table : Lists (stackRow twoRows.getRow [secondRow [117]] [116])
      (stackKeys twoRows [secondRow [117]] [116]) [] := by
  have hfind (key : Key) : (secondRow [117]).cache.find [116] key = none :=
    RowCache.find_set_ne fun heq => absurd (Prod.mk.inj heq).1 (by decide)
  have hlisted (key : Key) : stackListed [secondRow [117]] [116] key = none := by
    rfl
  refine (stackKeys_lists_iff (twoRows_lists [116] [])).mpr ⟨fun key _ => ?_, fun key _ => ?_,
    fun key _ _ _ _ _ _ _ => hlisted key⟩
  · rw [hlisted]
    exact nofun
  · rw [hlisted, stackRow_cons, hfind]
    simp only [stackRow, twoRows]
    split_ifs <;> simp [liveRow, Entry.visible, StateStorage.fetched, secondRow]

/-- Once the second row has been read through a layer, its key is listed beyond any limit. -/
theorem stackKeys_read_not_lists : ¬ Lists (stackRow twoRows.getRow [secondRow [116]] [116])
      (stackKeys twoRows [secondRow [116]] [116]) [] := by
  rintro ⟨all, -, -, -, hwindow⟩
  have hlisted : stackKeys twoRows [secondRow [116]] [116] (some ⟨[], 0, 0⟩) = .ok [[98]] := by
    decide
  exact absurd (hlisted.symm.trans (hwindow (0, 0))) (by simp)

end FiscoSmart.Storage
