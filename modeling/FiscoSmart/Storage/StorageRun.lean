import FiscoSmart.Storage.StorageLayers
import FiscoSmart.Storage.PlainArchive
import FiscoSmart.Support.Simulation

/-!
# Runs of the storage

The calls of a client and the opening of a new storage on top are the steps of
a machine.  A step is admitted if it names a row, and if the first write to a
table without pages does not meet a page record of the storage below.
-/

namespace FiscoSmart.Storage

open Support Function

namespace KeyPageStorage

variable {entries : RowCache}

/-- A call of a client, or a new storage on top of the present one. -/
inductive Step
  | write (table : Table) (key : Key) (entry : Entry)
  | read (table : Table) (key : Key)
  | layer (pageSize : ℕ) (ignoreNotExist : Bool)

namespace Step

def run : Step → M Unit
  | write t key entry => asyncSetRow t key entry
  | read t key => discard (asyncGetRow t key)
  | layer pageSize ignoreNotExist =>
    modify (fun s => s.layer pageSize ignoreNotExist)

/-- The steps under consideration.  Rows of paged tables have a non-empty key,
the previous storage answers reads of other rows, and a storage on top is only
opened while the 16-bit counts of the page index are exact.  The previous
storage has no record under the key of the first write to a table that has no
pages. -/
def Admits (s : KeyPageStorage) : Step → Prop
  | write t key _ => t ∉ s.ignoreTables →
    key ≠ [] ∧ (s.index t = [] → s.prev.getData t key = .ok none)
  | read t key =>
    (t ∉ s.ignoreTables → key ≠ []) ∧ (t ∈ s.ignoreTables → ∃ r, s.prev.asyncGetRow t key = .ok r)
  | layer _ _ => ∀ t ∉ s.ignoreTables, CountsFit (s.env t) (s.table t).cached

end Step

/-! ## Calls on tables that are not paged -/

section Ignored

variable {s : KeyPageStorage} {t : Table} {key : Key} {found : Option Entry}

theorem asyncSetRow_ignored (h : s.Ok) (ht : t ∈ s.ignoreTables) {entry : Entry} :
    Runs (asyncSetRow t key entry) s () (logged { s with
        entries := s.entries.set t key (entry.setStatus .modified) }
        ⟨t, key, s.entries.find t key⟩) := by
  refine Runs.get_bind ?_
  rw [if_neg (by simp [h.writable]), if_pos ht]
  exact Runs.get_bind (Runs.of_set.bind Runs.of_modify)

/-- A read through a row cache: the row found and the cache after the read,
given the answer of the previous storage. -/
def lookThrough (c : RowCache) (t : Table) (key : Key) (found : Option Entry) :
    Option Entry × RowCache :=
  match c.find t key, found with
  | some e, _ => (some e, c)
  | none, none => (none, c)
  | none, some e =>
    (some (e.setStatus .normal), (c.importExistingEntry t key e).1)

theorem getSysTableRawEntry_runs (h : s.Ok)
    (hprev : s.prev.asyncGetRow t key = .ok found) :
    Runs (getSysTableRawEntry t key) s (lookThrough s.entries t key found).1
      { s with entries := (lookThrough s.entries t key found).2 } := by
  refine Runs.get_bind ?_
  unfold lookThrough
  rcases hcache : s.entries.find t key with - | e
  · rw [hprev]
    rcases found with - | e
    · exact Runs.of_pure
    · simp only [h.writable]
      exact Runs.of_set.bind Runs.of_pure
  · exact Runs.of_pure

theorem asyncGetRow_ignored (h : s.Ok) (ht : t ∈ s.ignoreTables)
    (hprev : s.prev.asyncGetRow t key = .ok found) :
    Runs (asyncGetRow t key) s (lookThrough s.entries t key found).1
      { s with entries := (lookThrough s.entries t key found).2 } := by
  refine Runs.get_bind ?_
  rw [if_pos ht]
  exact Runs.tryCatch_of_ok (getSysTableRawEntry_runs h hprev)

theorem Ok.withEntries (h : s.Ok)
    (hentries : ∀ t ∉ s.ignoreTables, ∀ key, entries.find t key = none) :
    ({ s with entries } : KeyPageStorage).Ok :=
  ⟨h.writable, h.prev, h.paged, hentries,
    fun t ht => ⟨(h.table t ht).heap, (h.table t ht).consistent⟩⟩

theorem Ok.setCell (h : s.Ok) (ht : t ∈ s.ignoreTables) {v : Option Entry}
    (hentries : (fun x => entries.lookup x) = update (fun x => s.entries.lookup x) (t, key) v) :
    ({ s with entries } : KeyPageStorage).Ok := by
  apply h.withEntries
  intro t' ht' key'
  have hcell : entries.find t' key' = _ := congrFun hentries (t', key')
  have hne : (t', key') ≠ (t, key) := by
    rintro hEq
    exact ht' ((Prod.mk.inj hEq).1 ▸ ht)
  rw [hcell, update_of_ne hne]
  exact h.unpaged t' ht' key'

theorem Ok.setEntry (h : s.Ok) (ht : t ∈ s.ignoreTables) (entry : Entry) :
    ({ s with entries := s.entries.set t key entry } : KeyPageStorage).Ok :=
  h.setCell ht (s.entries.lookup_insert ..)

theorem lookThrough_cases {c : RowCache} :
    (lookThrough c t key found).2 = c ∨ ∃ e : Entry, c.find t key = none ∧
        (lookThrough c t key found).2 = c.set t key (e.setStatus .normal) := by
  unfold lookThrough
  rcases hcache : c.find t key with - | e
  · rcases found with - | e
    · exact .inl rfl
    · exact .inr ⟨e, rfl, rfl⟩
  · exact .inl rfl

theorem Ok.lookThrough (h : s.Ok) (ht : t ∈ s.ignoreTables) (found : Option Entry) :
    ({ s with entries := (lookThrough s.entries t key found).2 } : KeyPageStorage).Ok := by
  rcases lookThrough_cases with hEq | ⟨e, _, hEq⟩
  · rw [hEq]
    exact h.withEntries h.unpaged
  · rw [hEq]
    exact h.setEntry ht _

theorem Ok.logged (h : s.Ok) (change : Change) : (s.logged change).Ok :=
  { h with table := fun t ht => ⟨(h.table t ht).heap, (h.table t ht).consistent⟩ }

end Ignored

/-! ## Fatal errors -/

/-- No fatal error is logged. -/
def Quiet (s : KeyPageStorage) : Prop := ∀ t, (s.table t).fatals = []

/-- No page of the table has more live rows than the page index can count, if it is paged. -/
def Fits (s : KeyPageStorage) (t : Table) : Prop :=
  t ∉ s.ignoreTables → CountsFit (s.env t) (s.table t).cached

instance (s : KeyPageStorage) (t : Table) : Decidable (s.Fits t) :=
  inferInstanceAs (Decidable (t ∉ s.ignoreTables → ∀ p ∈ segmentsOf _ _, _))

/-- An admitted step on a table whose pages are counted exactly. -/
def Step.Safe (s : KeyPageStorage) (i : Step) : Prop :=
  i.Admits s ∧ match i with
    | write t _ _ | read t _ => s.Fits t
    | layer _ _ => True

section Quiet

variable {s s' : KeyPageStorage} {t : Table} {state : TableState}

theorem create_quiet {archive : Archive} {prev : Prev} {pageSize : ℕ}
    {ignoreTables : Option (List Table)} {ignoreNotExist : Bool} :
    (create archive prev pageSize ignoreTables ignoreNotExist).Quiet :=
  fun _ => rfl

theorem Quiet.setTable (h : s.Quiet) (hstate : state.fatals = []) :
    (s.setTable t state).Quiet := by
  intro t'
  by_cases hEq : t' = t
  · rw [hEq, setTable_table]
    exact hstate
  · rw [setTable_other hEq]
    exact h t'

theorem Ok.read_quiet (hok : s.Ok) (h : s.Quiet) (ht : t ∉ s.ignoreTables) {key : Key}
    (hkey : key ≠ []) (hfits : s.Fits t) {r : Option Entry}
    (hrun : Runs (asyncGetRow t key) s r s') : s'.Quiet := by
  obtain ⟨r', state, hread, -, hquiet, -⟩ := asyncGetRow_runs hok ht hkey
  rw [(hrun.unique hread).2]
  exact h.setTable (hquiet ⟨hfits ht, h t⟩)

theorem Step.Safe.quiet {i : Step} (hsafe : i.Safe s) (hok : s.Ok) (h : s.Quiet)
    (hrun : Runs i.run s () s') : s'.Quiet := by
  cases i with
  | write t key entry =>
    by_cases ht : t ∈ s.ignoreTables
    · rw [(hrun.unique (asyncSetRow_ignored hok ht)).2]
      exact h
    · obtain ⟨hkey, hfirst⟩ := hsafe.1 ht
      obtain ⟨r, state, hwrite, -, hquiet, -⟩ := asyncSetRow_runs hok ht hkey hfirst entry
      rw [(hrun.unique hwrite).2]
      exact h.setTable (hquiet ⟨hsafe.2 ht, h t⟩)
  | read t key =>
    by_cases ht : t ∈ s.ignoreTables
    · obtain ⟨found, hfound⟩ := hsafe.1.2 ht
      rw [(hrun.unique ((asyncGetRow_ignored hok ht hfound).bind .of_pure)).2]
      exact h
    · obtain ⟨r, s₁, hread, hpure⟩ := Runs.of_bind (x := asyncGetRow t key) hrun
      cases hpure
      exact hok.read_quiet h ht (hsafe.1.1 ht) hsafe.2 hread
  | layer pageSize ignoreNotExist =>
    cases hrun
    exact create_quiet

end Quiet

/-! ## An empty backend -/

/-- A storage on a backend without rows. -/
def onEmpty (pageSize : ℕ) : KeyPageStorage :=
  create PlainArchive.archive
    (Prev.ofRows PlainArchive.archive (fun _ _ => .ok none)) pageSize none false

theorem onEmpty_ok {pageSize : ℕ} : (onEmpty pageSize).Ok :=
  create_ok (Prev.ofRows_ok _ _) (fun _ _ => consistent_empty rfl)

/-- A storage on top of one in which the only row of a table was deleted. -/
def emptied : KeyPageStorage :=
  (final ([Step.write [116] [97] ⟨[1], 1, .modified⟩,
    Step.write [116] [97] ⟨[], 0, .deleted⟩].forM Step.run) (onEmpty 2048)).layer 2048 false

end KeyPageStorage

end FiscoSmart.Storage
