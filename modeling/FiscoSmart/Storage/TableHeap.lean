import FiscoSmart.Storage.TableOperations
import FiscoSmart.Support.Runs

/-!
# The container as a map of records

A well-formed heap never shares an object between two container keys, so the
state of a table is described by two functions of the key: the address stored
under it and the record found there.  `Sees ok s f c` says that `s` is described by
`f` and `c`, and that no fatal error is logged in it if `ok` holds; every primitive
access of `TableM` is specified by how it changes this description.
-/

namespace FiscoSmart.Storage

open Support Function

variable {d : Data} {s s' : TableState} {f : Key → Option Address} {c : Key → Option Data}
  {k new old : Key} {a : Address} {ok : Prop}

/-- Container entries are allocated and not shared, and unused addresses are
free. -/
structure HeapOk (s : TableState) : Prop where
  allocated : ∀ k a, s.find k = some a → ∃ d, s.heap a = some d
  injective : ∀ k k' a, s.find k = some a → s.find k' = some a → k = k'
  fresh : ∀ a, s.next ≤ a → s.heap a = none

/-- `s` stores under each key the address given by `f`, where the record given
by `c` lives. -/
structure Sees (ok : Prop) (s : TableState) (f : Key → Option Address)
    (c : Key → Option Data) : Prop where
  heapOk : HeapOk s
  find : ∀ k, s.find k = f k
  cached : ∀ k, s.cached k = c k
  quiet : ok → s.fatals = []

namespace Sees

theorem self (h : HeapOk s) (hquiet : ok → s.fatals = []) : Sees ok s s.find s.cached :=
  ⟨h, fun _ => rfl, fun _ => rfl, hquiet⟩

theorem functions (h : Sees ok s f c) : f = s.find ∧ c = s.cached :=
  ⟨funext (fun k => (h.find k).symm), funext (fun k => (h.cached k).symm)⟩

theorem empty : Sees ok TableState.empty (fun _ => none) (fun _ => none) := by
  refine ⟨⟨?_, ?_, fun _ _ => rfl⟩, fun _ => rfl, fun _ => rfl, fun _ => rfl⟩
  · intro k a h
    cases h
  · intro k k' a h
    cases h

variable (h : Sees ok s f c)

include h

theorem heap_eq (hf : f k = some a) (hc : c k = some d) : s.heap a = some d := by
  have hcache := h.cached k
  rw [TableState.cached, h.find k, hf, hc] at hcache
  exact hcache

theorem find_eq_none (k : Key) : f k = none ↔ c k = none := by
  rw [← h.find k, ← h.cached k, TableState.cached]
  rcases hk : s.find k with - | a
  · simp
  · obtain ⟨d, hd⟩ := h.heapOk.allocated k a hk
    simp [hd]

theorem exists_address (hc : c k = some d) : ∃ a, f k = some a := by
  rcases hf : f k with - | a
  · rw [(h.find_eq_none k).mp hf] at hc
    cases hc
  · exact ⟨a, rfl⟩

theorem exists_record (hf : f k = some a) : ∃ d, c k = some d := by
  rcases hc : c k with - | d
  · rw [(h.find_eq_none k).mpr hc] at hf
    cases hf
  · exact ⟨d, rfl⟩

theorem injective {k' : Key} (hk : f k = some a) (hk' : f k' = some a) : k = k' :=
  h.heapOk.injective k k' a ((h.find k).trans hk) ((h.find k').trans hk')

theorem lt_next (hf : f k = some a) : a < s.next := by
  obtain ⟨d, hd⟩ := h.heapOk.allocated k a ((h.find k).trans hf)
  by_contra hle
  rw [h.heapOk.fresh a (not_lt.mp hle)] at hd
  cases hd

theorem congr {f' : Key → Option Address}
    {c' : Key → Option Data} (hf : ∀ k, f k = f' k) (hc : ∀ k, c k = c' k) : Sees ok s f' c' :=
  ⟨h.heapOk, fun k => (h.find k).trans (hf k),
    fun k => (h.cached k).trans (hc k), h.quiet⟩

end Sees

/-! ## State changes -/

namespace TableState

@[simp]
theorem find_store : (s.store a d).find k = s.find k := rfl

/-- The key `k` is bound to the address `a`, which no other key has, and the record that was
stored under it is released. -/
theorem sees_rebind (h : Sees ok s f c) {g : Key → Option Address}
    (hg : ∀ x b, g x = some b → f x = some b ∧ b ≠ a)
    (hfind : ∀ x, s'.find x = update g k (some a) x)
    (hheap : ∀ b, s'.heap b = if b = a then some d else if f k = some b then none else s.heap b)
    (ha : a < s'.next) (hnext : s.next ≤ s'.next) (hfatals : s'.fatals = s.fatals) :
    Sees ok s' (update g k (some a)) (update (fun x => (g x).bind s.heap) k (some d)) := by
  have hkeep : ∀ x b, x ≠ k → g x = some b → s'.heap b = s.heap b := by
    intro x b hx hb
    obtain ⟨hfx, hne⟩ := hg x b hb
    rw [hheap, if_neg hne, if_neg]
    intro hk
    exact hx (h.injective hfx hk)
  refine ⟨⟨?_, ?_, ?_⟩, hfind, ?_, hfatals ▸ h.quiet⟩
  · intro x b hx
    rw [hfind, update_apply] at hx
    split_ifs at hx with hxk
    · cases hx
      exact ⟨d, by simp [hheap]⟩
    · rw [hkeep x b hxk hx]
      exact h.heapOk.allocated x b ((h.find x).trans (hg x b hx).1)
  · intro x y b hx hy
    rw [hfind, update_apply] at hx hy
    split_ifs at hx hy with hxk hyk hyk
    · rw [hxk, hyk]
    · cases hx
      exact absurd rfl (hg y _ hy).2
    · cases hy
      exact absurd rfl (hg x _ hx).2
    · exact h.injective (hg x b hx).1 (hg y b hy).1
  · intro b hb
    rw [hheap, if_neg (ha.trans_le hb).ne', h.heapOk.fresh b (hnext.trans hb), ite_self]
  · intro x
    rw [update_apply, cached, hfind, update_apply]
    split_ifs with hx
    · simp [hheap]
    · rcases hgx : g x with - | b
      · rfl
      · exact hkeep x b hx hgx

/-- Another key than `k` does not have its address. -/
theorem update_none_spec (h : Sees ok s f c) (hf : f k = some a) {x : Key} {b : Address}
    (hb : update f k none x = some b) : f x = some b ∧ b ≠ a := by
  rw [update_apply] at hb
  split_ifs at hb with hx
  refine ⟨hb, ?_⟩
  rintro rfl
  exact hx (h.injective hb hf)

theorem sees_store (h : Sees ok s f c) (hf : f k = some a) :
    Sees ok (s.store a d) f (update c k (some d)) := by
  obtain ⟨rfl, rfl⟩ := h.functions
  have hfind : update (update s.find k none) k (some a) = s.find := by
    rw [update_idem, ← hf, update_eq_self]
  refine Sees.congr (s := s.store a d)
    (sees_rebind (d := d) h (fun _ _ => update_none_spec h hf) ?_ ?_ (h.lt_next hf) le_rfl
      rfl) (congrFun hfind) ?_
  · intro x
    rw [hfind, find_store]
  · intro b
    simp only [store, update_apply, hf, Option.some.injEq, eq_comm]
    split_ifs <;> rfl
  · intro x
    simp only [update_apply]
    split_ifs <;> rfl

theorem find_insertOrAssign {x : Key} :
    (s.insertOrAssign k d).find x = if x = k then some s.next else s.find x := by
  by_cases hx : x = k
  · subst hx
    simp [find, insertOrAssign]
  · simp [find, insertOrAssign, hx, AList.lookup_insert_ne hx]

theorem sees_insertOrAssign (h : Sees ok s f c) (k : Key) (d : Data) :
    Sees ok (s.insertOrAssign k d) (update f k (some s.next)) (update c k (some d)) := by
  obtain ⟨rfl, rfl⟩ := h.functions
  refine sees_rebind h (fun x b hb => ⟨hb, (h.lt_next hb).ne⟩) ?_ ?_ (Nat.lt_succ_self _)
    (Nat.le_succ _) rfl
  · intro x
    rw [find_insertOrAssign, update_apply]
  · intro b
    rcases hk : s.find k with - | old
    · simp [insertOrAssign, hk, update_apply]
    · simp [insertOrAssign, hk, update_apply, eq_comm]

theorem find_rename {x : Key} : (s.rename old new a d).find x =
      if x = new then some a else if x = old then none else s.find x := by
  by_cases hx : x = new
  · subst hx
    simp [find, rename]
  · by_cases hold : x = old
    · subst hold
      simp [find, rename, hx, AList.lookup_insert_ne hx]
    · simp [find, rename, hx, hold, AList.lookup_insert_ne hx, AList.lookup_erase_ne hold]

theorem sees_rename (h : Sees ok s f c) (hne : old ≠ new) (hf : f old = some a) :
    Sees ok (s.rename old new a d) (update (update f old none) new (some a))
      (update (update c old none) new (some (d.withKey new))) := by
  obtain ⟨rfl, rfl⟩ := h.functions
  have hlookup : (s.container.erase old).lookup new = s.find new :=
    AList.lookup_erase_ne (Ne.symm hne)
  refine Sees.congr (s := s.rename old new a d)
    (sees_rebind (d := d.withKey new) h (fun _ _ => update_none_spec h hf) ?_ ?_ (h.lt_next hf)
      le_rfl rfl) (fun _ => rfl) ?_
  · intro x
    rw [find_rename, update_apply, update_apply]
  · intro b
    rcases hk : s.find new with - | stale
    · simp [rename, hlookup, hk, update_apply]
    · simp [rename, hlookup, hk, update_apply, eq_comm]
  · intro x
    simp only [update_apply]
    split_ifs <;> rfl

end TableState

/-! ## Accesses -/

namespace TableM

variable (h : Sees ok s f c) (hf : f k = some a) (hc : c k = some d)

include h hf hc

theorem deref_runs : Runs (deref a) s d s := by
  refine Runs.get_bind ?_
  rw [h.heap_eq hf hc]
  exact .of_pure

variable {p : Page}

theorem pageAt_runs (hd : d.data = .page p) : Runs (pageAt a) s p s := by
  refine (deref_runs h hf hc).bind ?_
  rw [hd]
  exact .of_pure

theorem metaAt_runs {m : TableMeta} (hd : d.data = .tableMeta m) : Runs (metaAt a) s m s := by
  refine (deref_runs h hf hc).bind ?_
  rw [hd]
  exact .of_pure

theorem setPage_runs (p : Page) :
    ∃ s', Runs (setPage a p) s () s' ∧ Sees ok s' f (update c k (some (d.withPage p))) :=
  ⟨_, (deref_runs h hf hc).bind .of_modify, TableState.sees_store h hf⟩

theorem setMeta_runs (m : TableMeta) :
    ∃ s', Runs (setMeta a m) s () s' ∧ Sees ok s' f (update c k (some (d.withMeta m))) :=
  ⟨_, (deref_runs h hf hc).bind .of_modify, TableState.sees_store h hf⟩

theorem setStatus_runs (status : Status) :
    ∃ s', Runs (setStatus a status) s () s' ∧
      Sees ok s' f (update c k (some (d.withStatus status))) :=
  ⟨_, (deref_runs h hf hc).bind .of_modify, TableState.sees_store h hf⟩

omit hc hf

omit h

variable {b : Prop} {x : TableM Unit} {env : TableEnv}

theorem guarded_runs [Decidable b]
    (hpos : b → ∃ s', Runs x s () s' ∧ Sees ok s' f c) (h : Sees ok s f c) :
    ∃ s', Runs (guarded b x) s () s' ∧ Sees ok s' f c := by
  unfold guarded
  by_cases hb : b
  · simpa [hb] using hpos hb
  · exact ⟨s, by simpa [hb] using .of_pure, h⟩

theorem guarded_true [Decidable b] (hb : b) (hx : Runs x s () s') : Runs (guarded b x) s () s' := by
  rw [guarded, if_pos hb]
  exact hx

theorem guarded_false [Decidable b] (hb : ¬ b) (x : TableM Unit)
    (s : TableState) : Runs (guarded b x) s () s := by
  rw [guarded, if_neg hb]
  exact .of_pure

include h

/-- A check that does not fail if `ok` holds. -/
theorem fatal_guarded_runs [Decidable b] (hb : ok → ¬ b) (l : Fatal) :
    ∃ s', Runs (guarded b (fatal l)) s () s' ∧ Sees ok s' f c := by
  refine guarded_runs (fun hpos => ⟨s.logFatal l, .of_modify, ?_⟩) h
  exact ⟨⟨h.heapOk.allocated, h.heapOk.injective, h.heapOk.fresh⟩, h.find, h.cached,
    fun hok => absurd hpos (hb hok)⟩

theorem pageOf_eq (hf : f k = some a) (hc : c k = some d)
    (hd : d.data = .page p) : pageOf s a = .ok p := by
  rw [pageOf, h.heap_eq hf hc]
  simp [hd]

theorem getData_found (hf : f k = some a) (env : TableEnv)
    (mustExist : Bool) : Runs (getData env k mustExist) s a s := by
  refine Runs.get_bind ?_
  rw [h.find k, hf]
  exact .of_pure

theorem getData_fetched (hf : f k = none) (hfetch : env.fetch k = .ok (some d)) (mustExist : Bool) :
    ∃ a s', Runs (getData env k mustExist) s a s' ∧
      Sees ok s' (update f k (some a)) (update c k (some d)) := by
  refine ⟨s.next, s.insertOrAssign k d, Runs.get_bind ?_, TableState.sees_insertOrAssign h k d⟩
  rw [h.find k, hf, hfetch]
  exact Runs.of_set.bind Runs.of_pure

theorem getData_created (hf : f k = none) (hfetch : env.fetch k = .ok none) :
    ∃ a s', Runs (getData env k false) s a s' ∧ Sees ok s' (update f k (some a))
        (update c k (some (Data.created k))) := by
  refine ⟨s.next, s.insertOrAssign k (Data.created k), Runs.get_bind ?_,
    TableState.sees_insertOrAssign h k _⟩
  rw [h.find k, hf, hfetch]
  exact (guarded_false (by simp) _ _).bind (Runs.of_modify.bind Runs.of_pure)

theorem changePageKey_runs (hne : old ≠ new)
    (hnew : new ≠ []) (hf : f old = some a) (hc : c old = some d)
    (hd : d.data = .page p) (isRevert : Bool) :
    ∃ s', Runs (changePageKey old new isRevert) s (some a) s' ∧
      Sees ok s' (update (update f old none) new (some a))
        (update (update c old none) new (some (d.withKey new))) := by
  refine ⟨_, ?_, TableState.sees_rename h hne hf⟩
  rw [changePageKey, if_neg (by simp [hnew])]
  refine Runs.get_bind ?_
  rw [h.find old, hf]
  refine (pageAt_runs h hf hc hd).bind ((deref_runs h hf hc).bind ?_)
  rw [if_neg hnew]
  exact Runs.of_modify.bind Runs.of_pure

end TableM

end FiscoSmart.Storage
