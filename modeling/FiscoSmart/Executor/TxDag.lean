import FiscoSmart.Storage.Entry
import FiscoSmart.Support.TaskGraph

/-!
# The graph of conflicting transactions

`TxDAG2` makes a task of every transaction with critical fields.  A table lists,
for every key, the transactions that have it, and a transaction gets an edge from
every one listed under one of its keys.  It is put into the table key by key, so
one that repeats a key finds itself there and gets an edge to itself.
-/

namespace FiscoSmart.Executor

open Storage Function List
open Support

/-- `critical::ID`, a 32-bit number. -/
abbrev ID := ℕ

/-- `CriticalField`, the keys of one transaction. -/
abbrev CriticalField := List Bytes

/-- `m_criticals`, whose pointers may be null. -/
abbrev CriticalFields := List (Option CriticalField)

variable {criticals : CriticalFields} {i j : ID}

namespace CriticalFields

def contains (criticals : CriticalFields) (id : ID) : Bool :=
  match criticals[id]? with
  | some (some _) => true
  | _ => false

/-- The calls of the four handlers of `traverseDag`. -/
inductive Visit
  | conflict (pId id : ID)
  | firstConflict (id : ID)
  | emptyConflict (id : ID)
  | allConflict (id : ID)
deriving DecidableEq

/-- `dependencies`, the transactions that have a key. -/
abbrev Dependencies := Bytes → List ID

/-- One turn of the loop over the keys of a transaction. -/
def collect (id : ID) (acc : Dependencies × Finset ID) (c : Bytes) : Dependencies × Finset ID :=
  (update acc.1 c (acc.1 c ++ [id]), acc.2 ∪ (acc.1 c).toFinset)

/-- One turn of the loop over the transactions. -/
def visit (dependencies : Dependencies) (id : ID) : Option CriticalField → Dependencies × List Visit
  | none => (dependencies, [.allConflict id])
  | some [] => (dependencies, [.emptyConflict id])
  | some criticals =>
    let (dependencies, pIds) := criticals.foldl (collect id) (dependencies, ∅)
    (dependencies,
      if pIds = ∅ then [.firstConflict id]
      else (pIds.sort (· ≤ ·)).map (.conflict · id))

/-- The loop over the transactions from `id` on. -/
def visitFrom (dependencies : Dependencies) (id : ID) : CriticalFields → List Visit
  | [] => []
  | criticals :: rest =>
    (visit dependencies id criticals).2 ++
      visitFrom (visit dependencies id criticals).1 (id + 1) rest

/-- `CriticalFields::traverseDag`.  Its counter has 32 bits, so the loop does not
end for more transactions than it can count. -/
def traverseDag (criticals : CriticalFields) : Option (List Visit) :=
  if criticals.length < 2 ^ 32 then some (visitFrom (fun _ => []) 0 criticals)
  else none

end CriticalFields

open CriticalFields

variable {keys : CriticalField}

/-- The edge that a handler of `TxDAG2::init` makes. -/
def makeEdge : Visit → List (Option ID × ID)
  | .conflict pId id => [(some pId, id)]
  | .firstConflict id => [(none, id)]
  | .emptyConflict id => [(none, id)]
  | .allConflict _ => []

/-- `TxDAG2::init`, with the task of a transaction named by its id. -/
def TxDag.init (criticals : CriticalFields) : Option (TaskGraph ID) := do
  let visits ← criticals.traverseDag
  return ⟨(List.range criticals.length).filter criticals.contains, visits.flatMap makeEdge⟩

/-! ## The edges -/

/-- Transactions `i` and `j` share a key. -/
def Shares (criticals : CriticalFields) (i j : ID) : Prop :=
  ∃ keys keys', criticals[i]? = some (some keys) ∧ criticals[j]? = some (some keys') ∧
    ∃ c, c ∈ keys ∧ c ∈ keys'

/-- The transactions that `j` gets an edge from: the earlier ones with a common
key, and itself if it repeats a key. -/
def Depends (criticals : CriticalFields) (i j : ID) : Prop :=
  (i < j ∧ Shares criticals i j) ∨ (i = j ∧ ∃ keys, criticals[j]? = some (some keys) ∧ ¬ keys.Nodup)

theorem Depends.exists_keys (h : Depends criticals i j) :
    ∃ keys, criticals[j]? = some (some keys) := by
  rcases h with ⟨-, keys, keys', -, hkeys', -⟩ | ⟨-, keys, hkeys, -⟩
  · exact ⟨keys', hkeys'⟩
  · exact ⟨keys, hkeys⟩

namespace CriticalFields

variable {id : ID} {dependencies : Dependencies}

theorem contains_iff :
    criticals.contains id = true ↔ ∃ keys, criticals[id]? = some (some keys) := by
  rw [contains]
  rcases criticals[id]? with - | keys
  · simp
  · cases keys <;> simp

section Visits

variable {pIds : Finset ID}

theorem collect_dependencies {c : Bytes} : i ∈ (keys.foldl (collect id) (dependencies, pIds)).1 c ↔
      i ∈ dependencies c ∨ (i = id ∧ c ∈ keys) := by
  induction keys generalizing dependencies pIds with
  | nil => simp
  | cons c' keys ih =>
    rw [foldl_cons, collect, ih]
    by_cases hc : c = c'
    · subst hc
      grind
    · simp only [update_of_ne hc, mem_cons, hc, false_or]

theorem collect_pIds : i ∈ (keys.foldl (collect id) (dependencies, pIds)).2 ↔
      i ∈ pIds ∨ (∃ c ∈ keys, i ∈ dependencies c) ∨ (i = id ∧ ¬ keys.Nodup) := by
  induction keys generalizing dependencies pIds with
  | nil => simp
  | cons c keys ih =>
    have hlater : (∃ c' ∈ keys, i ∈ update dependencies c (dependencies c ++ [id]) c') ↔
        (∃ c' ∈ keys, i ∈ dependencies c') ∨ (i = id ∧ c ∈ keys) := by
      constructor
      · rintro ⟨c', hc', hi⟩
        by_cases heq : c' = c
        · subst heq
          rw [update_self, mem_append, mem_singleton] at hi
          rcases hi with hi | hi
          · exact .inl ⟨c', hc', hi⟩
          · exact .inr ⟨hi, hc'⟩
        · rw [update_of_ne heq] at hi
          exact .inl ⟨c', hc', hi⟩
      · rintro (⟨c', hc', hi⟩ | ⟨rfl, hc⟩)
        · refine ⟨c', hc', ?_⟩
          by_cases heq : c' = c
          · subst heq
            rw [update_self]
            exact mem_append_left _ hi
          · rw [update_of_ne heq]
            exact hi
        · refine ⟨c, hc, ?_⟩
          rw [update_self]
          exact mem_append_right _ (mem_singleton_self _)
    rw [foldl_cons, collect, ih, hlater]
    simp only [Finset.mem_union, mem_toFinset, nodup_cons, mem_cons,
      exists_eq_or_imp, not_and_or, not_not, and_or_left, or_assoc]

end Visits

/-- The table after the transactions `done`. -/
def Tables (dependencies : Dependencies) (done : CriticalFields) : Prop :=
  ∀ c i, i ∈ dependencies c ↔ ∃ keys, done[i]? = some (some keys) ∧ c ∈ keys

section Traversal

variable {done : CriticalFields}

/-- The transactions that the next one, with these keys, depends on. -/
def Found (done : CriticalFields) (criticals : Option CriticalField) (i : ID) : Prop :=
  ∃ keys, criticals = some keys ∧
    ((∃ keys', done[i]? = some (some keys') ∧ ∃ c, c ∈ keys' ∧ c ∈ keys) ∨
      (i = done.length ∧ ¬ keys.Nodup))

theorem depends_length {criticals : Option CriticalField} {rest : CriticalFields} :
    Depends (done ++ criticals :: rest) i done.length ↔ Found done criticals i := by
  have hlast : (done ++ criticals :: rest)[done.length]? = some criticals := by simp
  constructor
  · rintro (⟨hi, keys, keys', hkeys, hkeys', hc⟩ | ⟨rfl, keys, hkeys, hnodup⟩)
    · rw [hlast] at hkeys'
      rw [getElem?_append_left hi] at hkeys
      exact ⟨keys', Option.some.inj hkeys', .inl ⟨keys, hkeys, hc⟩⟩
    · rw [hlast] at hkeys
      exact ⟨keys, Option.some.inj hkeys, .inr ⟨rfl, hnodup⟩⟩
  · rintro ⟨keys, rfl, ⟨keys', hkeys', hc⟩ | ⟨rfl, hnodup⟩⟩
    · have hi : i < done.length := (List.getElem?_eq_some_iff.mp hkeys').1
      refine .inl ⟨hi, keys', keys, ?_, hlast, hc⟩
      rw [getElem?_append_left hi]
      exact hkeys'
    · exact .inr ⟨rfl, keys, hlast, hnodup⟩

theorem visit_of_ne_nil (h : keys ≠ []) :
    CriticalFields.visit dependencies id (some keys) =
      ((keys.foldl (collect id) (dependencies, ∅)).1,
        if (keys.foldl (collect id) (dependencies, ∅)).2 = ∅ then [.firstConflict id]
        else ((keys.foldl (collect id) (dependencies, ∅)).2.sort (· ≤ ·)).map
          (.conflict · id)) := by
  rcases keys with - | ⟨c, keys⟩
  · exact absurd rfl h
  · rfl

variable (h : Tables dependencies done)

include h

theorem Tables.visit (criticals : Option CriticalField) :
    Tables (CriticalFields.visit dependencies done.length criticals).1 (done ++ [criticals]) := by
  intro c i
  have hsnoc : (∃ keys, (done ++ [criticals])[i]? = some (some keys) ∧ c ∈ keys) ↔
      (∃ keys, done[i]? = some (some keys) ∧ c ∈ keys) ∨
        (i = done.length ∧ ∃ keys, criticals = some keys ∧ c ∈ keys) := by
    rcases Nat.lt_trichotomy i done.length with hi | rfl | hi
    · rw [getElem?_append_left hi]
      simp [Nat.ne_of_lt hi]
    · simp
    · rw [getElem?_eq_none (by simp; omega), getElem?_eq_none (by omega)]
      simp [Nat.ne_of_gt hi]
  rw [hsnoc, ← h c i]
  rcases criticals with - | keys
  · simp [CriticalFields.visit]
  · by_cases hkeys : keys = []
    · subst hkeys
      simp [CriticalFields.visit]
    · rw [visit_of_ne_nil hkeys, collect_dependencies]
      simp

theorem Tables.mem_edges_visit {criticals : Option CriticalField} :
    (some i, j) ∈ (CriticalFields.visit dependencies done.length criticals).2.flatMap
        makeEdge ↔ j = done.length ∧ Found done criticals i := by
  rcases criticals with - | keys
  · simp [CriticalFields.visit, makeEdge, Found]
  · by_cases hkeys : keys = []
    · subst hkeys
      simp [CriticalFields.visit, makeEdge, Found]
    · have hpIds : ∀ i, i ∈ (keys.foldl (collect done.length) (dependencies, ∅)).2 ↔
          Found done (some keys) i := by
        intro i
        rw [collect_pIds]
        simp only [h _ i, Finset.notMem_empty, false_or]
        constructor
        · rintro (⟨c, hc, keys', hkeys', hc'⟩ | hself)
          · exact ⟨keys, rfl, .inl ⟨keys', hkeys', c, hc', hc⟩⟩
          · exact ⟨keys, rfl, .inr hself⟩
        · rintro ⟨_, heq, hfound⟩
          cases heq
          rcases hfound with ⟨keys', hkeys', c, hc', hc⟩ | hself
          · exact .inl ⟨c, hc, keys', hkeys', hc'⟩
          · exact .inr hself
      rw [visit_of_ne_nil hkeys]
      by_cases hempty : (keys.foldl (collect done.length) (dependencies, ∅)).2 = ∅
      · have hnone : ¬ Found done (some keys) i := by
          rw [← hpIds i, hempty]
          exact Finset.notMem_empty i
        simp [hempty, hnone, makeEdge]
      · rw [← hpIds i]
        simp only [if_neg hempty, mem_flatMap, mem_map, Finset.mem_sort]
        constructor
        · rintro ⟨v, ⟨p, hp, rfl⟩, hv⟩
          simp only [makeEdge, mem_singleton, Prod.mk.injEq, Option.some.injEq] at hv
          exact ⟨hv.2, hv.1 ▸ hp⟩
        · rintro ⟨rfl, hi⟩
          exact ⟨_, ⟨i, hi, rfl⟩, by simp [makeEdge]⟩

theorem Tables.mem_edges_visitFrom (rest : CriticalFields) (i j : ID) :
    (some i, j) ∈ (visitFrom dependencies done.length rest).flatMap makeEdge ↔
      done.length ≤ j ∧ Depends (done ++ rest) i j := by
  induction rest generalizing dependencies done with
  | nil =>
    constructor
    · intro hmem
      exact absurd hmem not_mem_nil
    · rintro ⟨hj, hdepends⟩
      obtain ⟨keys, hkeys⟩ := hdepends.exists_keys
      rw [append_nil, getElem?_eq_none hj] at hkeys
      cases hkeys
  | cons criticals rest ih =>
    have hnext := ih (h.visit criticals)
    rw [length_append, length_singleton, append_assoc, singleton_append] at hnext
    rw [visitFrom, flatMap_append, mem_append, h.mem_edges_visit, hnext,
      ← depends_length]
    constructor
    · rintro (⟨rfl, hdepends⟩ | ⟨hj, hdepends⟩)
      · exact ⟨Nat.le_refl _, hdepends⟩
      · exact ⟨by omega, hdepends⟩
    · rintro ⟨hj, hdepends⟩
      rcases Nat.eq_or_lt_of_le hj with rfl | hlt
      · exact .inl ⟨rfl, hdepends⟩
      · exact .inr ⟨hlt, hdepends⟩

end Traversal

end CriticalFields

namespace TxDag

/-- The graph that `init` makes. -/
def graph (criticals : CriticalFields) : TaskGraph ID :=
  ⟨(List.range criticals.length).filter criticals.contains,
    (visitFrom (fun _ => []) 0 criticals).flatMap makeEdge⟩

theorem init_eq : init criticals =
      if criticals.length < 2 ^ 32 then some (graph criticals) else none := by
  rw [init, traverseDag]
  split_ifs <;> rfl

theorem mem_tasks : i ∈ (graph criticals).tasks ↔ criticals.contains i = true := by
  rw [graph, mem_filter, mem_range, and_iff_right_iff_imp, contains_iff]
  rintro ⟨keys, hkeys⟩
  exact (List.getElem?_eq_some_iff.mp hkeys).1

theorem mem_edges : (some i, j) ∈ (graph criticals).edges ↔ Depends criticals i j := by
  have htables : Tables (fun _ => []) [] := by
    intro c i
    simp
  have hmem := htables.mem_edges_visitFrom criticals i j
  rw [nil_append, length_nil, and_iff_right (Nat.zero_le j)] at hmem
  exact hmem

/-- The run of a graph executes its transactions as it should: it comes to rest,
and then every transaction with critical fields has been executed once; no other
transaction is executed; and of two transactions with a common key the first has
finished before the second starts. -/
structure Executes (criticals : CriticalFields) (dag : TaskGraph ID) : Prop where
  rests : ∀ s, dag.Reachable s → ∃ s', dag.Complete s' ∧ Relation.ReflTransGen dag.Step s s'
  once : ∀ s, dag.Reachable s → dag.Complete s → ∀ id, criticals.contains id →
    s.log.count (.start id) = 1 ∧ s.log.count (.finish id) = 1
  others : ∀ s, dag.Reachable s → ∀ id, .start id ∈ s.log → criticals.contains id
  ordered : ∀ s, dag.Reachable s → ∀ i j, i < j → Shares criticals i j →
    ∀ newer older, s.log = newer ++ .start j :: older → .finish i ∈ older

theorem executes_of_nodup (h : ∀ keys, some keys ∈ criticals → keys.Nodup) :
    Executes criticals (graph criticals) where
  rests _ hreach := TaskGraph.exists_complete hreach
  once s hreach hcomplete id hid := by
    have hinv := hreach.inv
    have hedges : ∀ p t, (some p, t) ∈ (graph criticals).edges →
        p ∈ (graph criticals).tasks ∧ p < t := by
      intro p t hedge
      rcases mem_edges.mp hedge with ⟨hlt, keys, -, hkeys, -⟩ | ⟨-, keys, hkeys, hdup⟩
      · exact ⟨mem_tasks.mpr (contains_iff.mpr ⟨keys, hkeys⟩), hlt⟩
      · exact absurd (h keys (mem_of_getElem? hkeys)) hdup
    have hfinish := hinv.finished_of_complete hcomplete hedges id (mem_tasks.mpr hid)
    have hnodup := hinv.history.nodup
    exact ⟨count_eq_one_of_mem hnodup (hinv.history.started hfinish),
      count_eq_one_of_mem hnodup hfinish⟩
  others s hreach id hstart := mem_tasks.mp (hreach.inv.history.mem_tasks hstart)
  ordered s hreach i j hlt hshares newer older hlog := by
    have hhistory := hreach.inv.history
    rw [hlog] at hhistory
    exact hhistory.ordered (mem_edges.mpr (.inl ⟨hlt, hshares⟩))

theorem nodup_of_executes (h : Executes criticals (graph criticals))
    (hkeys : some keys ∈ criticals) : keys.Nodup := by
  by_contra hdup
  obtain ⟨id, hid⟩ := mem_iff_getElem?.mp hkeys
  obtain ⟨s, hcomplete, hrun⟩ := h.rests _ Relation.ReflTransGen.refl
  have honce := (h.once s hrun hcomplete id (contains_iff.mpr ⟨keys, hid⟩)).1
  have hloop := (TaskGraph.Reachable.inv hrun).history.not_start_of_loop
    (mem_edges.mpr (.inr ⟨rfl, keys, hid, hdup⟩))
  rw [count_eq_zero_of_not_mem hloop] at honce
  cases honce

/-- `init` and `run` execute the transactions as they should exactly if no
transaction repeats a key, and there are no more of them than the counter of the
loop can count. -/
theorem init_executes_iff (criticals : CriticalFields) :
    (∃ dag, init criticals = some dag ∧ Executes criticals dag) ↔
      criticals.length < 2 ^ 32 ∧ ∀ keys, some keys ∈ criticals → keys.Nodup := by
  rw [init_eq]
  constructor
  · rintro ⟨dag, hinit, hexecutes⟩
    split_ifs at hinit with hlen
    cases hinit
    exact ⟨hlen, fun keys hkeys => nodup_of_executes hexecutes hkeys⟩
  · rintro ⟨hlen, hnodup⟩
    exact ⟨graph criticals, if_pos hlen, executes_of_nodup hnodup⟩

/-- One transaction that names a key twice: there is a run that has come to rest
without executing it. -/
theorem repeated_key_not_executed : ∃ dag s, init [some [[1], [1]]] = some dag ∧ dag.tasks = [0] ∧
      dag.Reachable s ∧ dag.Complete s ∧ .start 0 ∉ s.log := by
  obtain ⟨s, hcomplete, hrun⟩ :=
    TaskGraph.exists_complete (g := graph [some [[1], [1]]]) Relation.ReflTransGen.refl
  have hloop : (some 0, 0) ∈ (graph [some [[1], [1]]]).edges :=
    mem_edges.mpr (.inr ⟨rfl, [[1], [1]], rfl, by decide⟩)
  exact ⟨_, s, rfl, rfl, hrun, hcomplete,
    (TaskGraph.Reachable.inv hrun).history.not_start_of_loop hloop⟩

/-- Transactions that commute unless they have a common key add up to what they do one after the
other, however the tasks are scheduled and whenever each one takes effect, if none of them
repeats a key. -/
theorem takeEffect_eq_serial {dag : TaskGraph ID} (hinit : init criticals = some dag)
    (hnodup : ∀ keys, some keys ∈ criticals → keys.Nodup) {σ : Type} {op : ID → σ → σ}
    (hcommute : ∀ i ∈ dag.tasks, ∀ j ∈ dag.tasks, ¬ Shares criticals i j →
      ∀ s, op j (op i s) = op i (op j s))
    {run : TaskGraph.State ID} (hreach : dag.Reachable run) (hcomplete : dag.Complete run)
    {order : List ID} (horder : dag.TakeEffect run.log order) (s : σ) :
    order.foldl (fun s id => op id s) s = dag.tasks.foldl (fun s id => op id s) s := by
  rw [init_eq] at hinit
  split_ifs at hinit
  cases hinit
  have hexecutes := executes_of_nodup hnodup
  refine TaskGraph.foldl_eq_foldl_sorted horder.perm (pairwise_lt_range.filter _) ?_ s
  refine horder.respects.imp_of_mem fun {i j} hi hj hbefore => ?_
  by_cases hshares : Shares criticals i j
  · rcases Nat.lt_trichotomy i j with hlt | rfl | hlt
    · exact .inl hlt
    · exact .inr fun _ => rfl
    · -- `j` has finished when `i` starts, so `i` does not take effect first
      have htask := mem_tasks.mp (horder.perm.mem_iff.mp hi)
      have honce := (hexecutes.once run hreach hcomplete i htask).1
      obtain ⟨newer, older, hlog⟩ := append_of_mem (count_pos_iff.mp (honce ▸ Nat.one_pos))
      obtain ⟨keys, keys', hkeys, hkeys', c, hc, hc'⟩ := hshares
      have hfinish := hexecutes.ordered run hreach j i hlt
        ⟨keys', keys, hkeys', hkeys, c, hc', hc⟩ newer older hlog
      exact absurd ⟨newer, older, hlog, hfinish⟩ hbefore
  · have hi := horder.perm.mem_iff.mp hi
    have hj := horder.perm.mem_iff.mp hj
    exact .inr (hcommute i hi j hj hshares)

/-- Two transactions with a common key, one that adds `1` and one that doubles. -/
def addOrDouble (id : ID) (s : ℕ) : ℕ := if id = 0 then s + 1 else 2 * s

theorem takeEffect_eq_serial_conflict : ∃ dag run, init [some [[1]], some [[1]]] = some dag ∧
    dag.Reachable run ∧ dag.Complete run ∧ dag.TakeEffect run.log [0, 1] ∧
      [0, 1].foldl (fun s id => addOrDouble id s) 3 =
        dag.tasks.foldl (fun s id => addOrDouble id s) 3 := by
  have hinit : init [some [[1]], some [[1]]] = some (graph [some [[1]], some [[1]]]) := rfl
  obtain ⟨run, hcomplete, hreach⟩ :=
    TaskGraph.exists_complete (g := graph [some [[1]], some [[1]]]) Relation.ReflTransGen.refl
  have hshares : ∀ i ∈ [0, 1], ∀ j ∈ [0, 1], Shares [some [[1]], some [[1]]] i j := by
    intro i hi j hj
    have hkeys : ∀ k ∈ [0, 1], ([some [[1]], some [[1]]] : CriticalFields)[k]? =
        some (some [[1]]) := by decide
    exact ⟨[[1]], [[1]], hkeys i hi, hkeys j hj, [1], by simp⟩
  have hedge : (some 0, 1) ∈ (graph [some [[1]], some [[1]]]).edges :=
    mem_edges.mpr (.inl ⟨by decide, hshares 0 (by decide) 1 (by decide)⟩)
  have horder : (graph [some [[1]], some [[1]]]).TakeEffect run.log [0, 1] := by
    refine ⟨.refl _, ?_⟩
    have hbefore := (TaskGraph.Reachable.inv hreach).history.not_before hedge
    simpa using hbefore
  refine ⟨_, run, hinit, hreach, hcomplete, horder, takeEffect_eq_serial hinit (by simp) ?_
    hreach hcomplete horder 3⟩
  intro i hi j hj hnot
  exact absurd (hshares i hi j hj) hnot

end TxDag

end FiscoSmart.Executor
