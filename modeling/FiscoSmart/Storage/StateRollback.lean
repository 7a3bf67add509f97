import FiscoSmart.Storage.StorageHash
import FiscoSmart.Support.UndoLog

/-!
# Save points of a `StateStorage`

A `StateStorage` caches the rows it reads and writes, and its recoder lists what
the writes replaced.  A row that is not cached is logged as absent, although the
previous storage may hold it; undoing the write drops the row from the cache, and
the next read imports it again.  Rows are therefore compared as a read sees them,
cached or not: in this view importing a row changes nothing, and the recoder is
an undo log.
-/

namespace FiscoSmart.Storage

open Support Function List Option

/-- The previous storage of a `StateStorage`: what it answers to `asyncGetRow`
and `asyncGetRows`.  A row of the second answer is the row the first would
return. -/
structure Previous where
  getRow : Table → Key → Except Fault (Option Entry)
  getRows : Table → List Key → Except Fault (List (Option Entry))
  length_eq : ∀ table keys entries, getRows table keys = .ok entries → entries.length = keys.length
  agrees : ∀ table keys entries, getRows table keys = .ok entries →
    ∀ key entry, (key, some entry) ∈ keys.zip entries → getRow table key = .ok (some entry)

variable {changes : Recoder} {table : Table} {key : Key} {entry : Entry} {s' : StateStorage}
  {previous : Previous} {cache : RowCache} {x : Table × Key}

/-- The error a failed batch read of the previous storage is turned into. -/
def getRowsFailed : Fault → Fault
  | .returned _ => .returned ⟨.readError, "async get perv rows failed!", []⟩
  | e => e

namespace StateStorage

/-! ## Batch reads and rollback -/

variable {s : StateStorage}

/-- `BaseStorage::importExistingEntry`. -/
def importExistingEntry (table : Table) (key : Key) (entry : Entry) : M Entry := do
  let s ← get
  if s.readOnly then return entry
  else
    match s.cache.find table key with
    | some cached => return cached
    | none =>
      let (cache, entry) := s.cache.importExistingEntry table key entry
      set { s with cache }
      return entry

/-- What `asyncGetRows` returns of a cached row. -/
def cachedRow (entry : Entry) : Option Entry :=
  if entry.status = .normal ∨ entry.status = .modified then some entry else none

/-- The answers of a batch read: the cached rows, and in the places of the
missing ones the rows of the previous storage. -/
def fill : List (Option Entry) → List (Option Entry) → List (Option Entry)
  | [], _ => []
  | some entry :: cached, rows => cachedRow entry :: fill cached rows
  | none :: cached, row :: rows => row :: fill cached rows
  | none :: cached, [] => none :: fill cached []

/-- The import of one row of a batch read. -/
def importRow (table : Table) : Key × Option Entry → M (Option Entry)
  | (_, none) => return none
  | (key, some entry) => do return some (← importExistingEntry table key entry)

/-- `BaseStorage::asyncGetRows`. -/
def asyncGetRows (previous : Previous) (table : Table) (keys : List Key) :
    M (List (Option Entry)) := do
  let s ← get
  let missing := keys.filter (fun key => (s.cache.find table key).isNone)
  if missing = [] then return fill (keys.map (s.cache.find table)) []
  else
    match previous.getRows table missing with
    | .error e => throw (getRowsFailed e)
    | .ok entries =>
      let rows ← (missing.zip entries).mapM (importRow table)
      return fill (keys.map (s.cache.find table)) rows

/-- The undo of one recorded change in `BaseStorage::rollback`. -/
def undo (change : Change) : M Unit := do
  let s ← get
  match s.cache.undo change with
  | .error e => throw e
  | .ok cache => set { s with cache }

/-- `BaseStorage::rollback`. -/
def rollback (recoder : Recoder) : M Unit := do
  if (← get).readOnly then return ()
  else recoder.forM undo

def setRecoder (recoder : Option Recoder) (s : StateStorage) : StateStorage :=
  { s with recoder }

@[simp]
theorem withCache_cache : (s.withCache cache).cache = cache := rfl

@[simp]
theorem withCache_prev : (s.withCache cache).prev = s.prev := rfl

/-! ## Rows as a read sees them -/

/-- What importing the row of the previous storage would cache. -/
def imported (prev : Table → Key → Except Fault (Option Entry)) (x : Table × Key) :
    Option Entry :=
  match prev x.1 x.2 with
  | .ok (some entry) => some (entry.setStatus .normal)
  | _ => none

/-- The row under a table and key, cached or still to be imported. -/
def view (s : StateStorage) (x : Table × Key) : Option Entry :=
  (s.cache.find x.1 x.2).or (imported s.prev x)

/-- A change as an item of an undo log of the rows a read sees. -/
def logItem (prev : Table → Key → Except Fault (Option Entry)) (change : Change) :
    (Table × Key) × Option Entry :=
  ((change.table, change.key),
    change.entry.or (imported prev (change.table, change.key)))

/-- The changes can be undone one after the other: a changed row is cached until
the change that inserted it is undone. -/
structure Logged (s : StateStorage) (changes : Recoder) : Prop where
  bound : ∀ c ∈ changes, s.cache.find c.table c.key ≠ none
  inserted : changes.Pairwise (fun newer older =>
    newer.entry = none → (older.table, older.key) ≠ (newer.table, newer.key))

section Views

variable {s : StateStorage} {older : Recoder}

theorem view_of_find (h : s.cache.find table key = some entry) :
    s.view (table, key) = some entry := by
  simp [view, h]

theorem view_withCache {c : RowCache} {v : Option Entry}
    (h : (fun y => c.lookup y) = update (fun y => s.cache.lookup y) x v) :
    (s.withCache c).view = update s.view x (v.or (imported s.prev x)) := by
  funext y
  have hcell : c.find y.1 y.2 = _ := congrFun h y
  rw [view, withCache_cache, withCache_prev, hcell]
  by_cases hy : y = x
  · rw [hy, update_self, update_self]
  · rw [update_of_ne hy, update_of_ne hy]
    rfl

theorem view_insert : (s.withCache (s.cache.insert x entry)).view = update s.view x (some entry) :=
  view_withCache (s.cache.lookup_insert x entry)

theorem Logged.insert (h : s.Logged changes) (x : Table × Key) (entry : Entry) :
    (s.withCache (s.cache.insert x entry)).Logged changes := by
  refine ⟨?_, h.inserted⟩
  intro c hc
  by_cases hx : (c.table, c.key) = x
  · subst hx
    rw [withCache_cache, RowCache.find, AList.lookup_insert]
    exact some_ne_none entry
  · rw [withCache_cache, RowCache.find, AList.lookup_insert_ne hx]
    exact h.bound c hc

theorem Logged.write (h : s.Logged changes) (table : Table) (key : Key) (entry : Entry) :
    (s.withCache (s.cache.set table key entry)).Logged
      (⟨table, key, s.cache.find table key⟩ :: changes) := by
  have hinsert := h.insert (table, key) entry
  constructor
  · intro c hc
    rcases mem_cons.mp hc with rfl | hc
    · rw [withCache_cache, RowCache.find_set_self]
      exact some_ne_none entry
    · exact hinsert.bound c hc
  · apply List.Pairwise.cons _ h.inserted
    intro older holder hnone heq
    obtain ⟨htable, hkey⟩ := Prod.mk.inj heq
    apply h.bound older holder
    rw [htable, hkey]
    exact hnone

theorem Logged.suffix (changes : Recoder) (h : s.Logged (changes ++ older)) : s.Logged older :=
  ⟨fun c hc => h.bound c (mem_append_right _ hc), (pairwise_append.mp h.inserted).2.1⟩

theorem Logged.undo {change : Change} (h : s.Logged (change :: changes)) :
    ∃ cache, Runs (StateStorage.undo change) s () (s.withCache cache) ∧
      (s.withCache cache).Logged changes ∧ (s.withCache cache).view =
        update s.view (change.table, change.key)
          (change.entry.or (imported s.prev (change.table, change.key))) := by
  have hrest : s.Logged changes := Logged.suffix [change] h
  obtain ⟨cache, hundo, hlookup⟩ := RowCache.exists_undo (fun _ =>
    h.bound change (mem_cons_self ..))
  refine ⟨cache, Runs.get_bind ?_, ⟨fun c hc => ?_, hrest.inserted⟩, view_withCache hlookup⟩
  · rw [hundo]
    exact .of_set
  · have hcell : cache.find c.table c.key = _ := congrFun hlookup (c.table, c.key)
    rw [withCache_cache, hcell]
    by_cases hx : (c.table, c.key) = (change.table, change.key)
    · rw [hx, update_self]
      exact fun hnone => (pairwise_cons.mp h.inserted).1 c hc hnone hx
    · rw [update_of_ne hx]
      exact hrest.bound c hc

theorem Logged.undo_all (h : s.Logged (changes ++ older)) :
    ∃ cache, Runs (changes.forM StateStorage.undo) s () (s.withCache cache) ∧
      (s.withCache cache).Logged older ∧ (s.withCache cache).view =
        putBack (changes.map (logItem s.prev)) s.view := by
  induction changes generalizing s with
  | nil => exact ⟨s.cache, .of_pure, h, rfl⟩
  | cons change changes ih =>
    obtain ⟨cache₁, hrun₁, hlogged₁, hview₁⟩ := Logged.undo h
    obtain ⟨cache₂, hrun₂, hlogged₂, hview₂⟩ := ih hlogged₁
    refine ⟨cache₂, hrun₁.bind hrun₂, hlogged₂, ?_⟩
    rw [hview₁] at hview₂
    exact hview₂

/-- A rollback never fails; a read-only storage has nothing to undo. -/
theorem Logged.rollback (h : s.Logged (changes ++ older)) :
    ∃ cache, Runs (StateStorage.rollback changes) s () (s.withCache cache) ∧
      (s.withCache cache).Logged older ∧ (s.readOnly = true → cache = s.cache) ∧
      (s.readOnly = false → (s.withCache cache).view =
        putBack (changes.map (logItem s.prev)) s.view) := by
  rcases hro : s.readOnly with - | -
  · obtain ⟨cache, hundo, hlogged, hview⟩ := h.undo_all
    refine ⟨cache, Runs.get_bind ?_, hlogged, nofun, fun _ => hview⟩
    rw [hro, if_neg (by decide)]
    exact hundo
  · refine ⟨s.cache, Runs.get_bind ?_, h.suffix changes, fun _ => rfl, nofun⟩
    rw [hro, if_pos rfl]
    exact .of_pure

end Views

/-! ## Reads -/

/-- `s'` is `s` with more rows imported from the previous storage. -/
structure Imports (s s' : StateStorage) : Prop where
  prev : s'.prev = s.prev
  readOnly : s'.readOnly = s.readOnly
  recoder : s'.recoder = s.recoder
  cache : s.readOnly = true → s'.cache = s.cache
  view : s'.view = s.view
  logged : ∀ changes, s.Logged changes → s'.Logged changes

theorem Imports.refl (s : StateStorage) : Imports s s :=
  ⟨rfl, rfl, rfl, fun _ => rfl, rfl, fun _ h => h⟩

theorem Imports.trans {s'' : StateStorage} (h : Imports s s') (h' : Imports s' s'') :
    Imports s s'' where
  prev := h'.prev.trans h.prev
  readOnly := h'.readOnly.trans h.readOnly
  recoder := h'.recoder.trans h.recoder
  cache hro := (h'.cache (h.readOnly.trans hro)).trans (h.cache hro)
  view := h'.view.trans h.view
  logged changes hlogged := h'.logged changes (h.logged changes hlogged)

section Reads

variable {s : StateStorage}

theorem imports_row (hwritable : s.readOnly = false) (hfind : s.cache.find table key = none)
    (hprev : s.prev table key = .ok (some entry)) : Imports s
      (s.withCache (s.cache.importExistingEntry table key entry).1) where
  prev := rfl
  readOnly := rfl
  recoder := rfl
  cache hro := by
    rw [hwritable] at hro
    cases hro
  view := by
    have hview : s.view (table, key) = some (entry.setStatus .normal) := by
      simp [view, hfind, imported, hprev]
    rw [RowCache.importExistingEntry, view_insert, ← hview, update_eq_self]
  logged _ hlogged := hlogged.insert (table, key) _

theorem asyncGetRow_imports (s : StateStorage) (table : Table) (key : Key) :
    Imports s (final (asyncGetRow table key) s) := by
  rw [final, asyncGetRow_run]
  rcases hfind : s.cache.find table key with - | entry
  · rcases hprev : s.prev table key with e | - | entry
    · exact Imports.refl s
    · exact Imports.refl s
    · rcases hro : s.readOnly with - | -
      · exact imports_row hro hfind hprev
      · exact Imports.refl s
  · exact Imports.refl s

def written (s : StateStorage) (table : Table) (key : Key) (entry : Entry) :
    StateStorage :=
  { s with
    cache := s.cache.set table key entry
    recoder := s.recoder.map (⟨table, key, s.cache.find table key⟩ :: ·) }

theorem written_recoder (h : s.recoder = some changes) :
    (s.written table key entry).recoder =
      some (⟨table, key, s.cache.find table key⟩ :: changes) := by
  rw [written, h, map_some]

theorem written_view : (s.written table key entry).view = update s.view (table, key) (some entry) :=
  view_insert

theorem asyncSetRow_runs (hwritable : s.readOnly = false) (table : Table)
    (key : Key) (entry : Entry) :
    Runs (asyncSetRow table key entry) s () (s.written table key entry) := by
  apply Runs.get_bind
  rw [if_neg (by simp [hwritable])]
  exact .of_set

theorem asyncSetRow_fails (hro : s.readOnly = true) : Fails (asyncSetRow table key entry) s
      (.returned ⟨.readOnly, "Try to operate a read-only storage", []⟩) s := by
  apply Fails.get_bind
  rw [if_pos hro]
  exact .of_throw

theorem importExistingEntry_runs {u : StateStorage} (himp : Imports s u)
    (hfind : s.cache.find table key = none) (hprev : s.prev table key = .ok (some entry)) :
    ∃ u', Runs (importExistingEntry table key entry) u (fetched s entry) u' ∧ Imports s u' := by
  have hprev' : u.prev table key = .ok (some entry) := himp.prev ▸ hprev
  rcases hro : s.readOnly with - | -
  · have hro' : u.readOnly = false := himp.readOnly.trans hro
    rw [fetched, hro, if_neg Bool.false_ne_true]
    rcases hcache : u.cache.find table key with - | cached
    · refine ⟨_, Runs.get_bind ?_, himp.trans (imports_row hro' hcache hprev')⟩
      rw [if_neg (by simp [hro']), hcache]
      exact Runs.of_set.bind Runs.of_pure
    · -- the row was imported for an earlier place of the same key
      have hview : u.view (table, key) = s.view (table, key) := by rw [himp.view]
      rw [view_of_find hcache, view, hfind, none_or, imported, hprev] at hview
      refine ⟨u, Runs.get_bind ?_, himp⟩
      rw [hro', if_neg Bool.false_ne_true, hcache, ← Option.some.inj hview]
      exact Runs.of_pure
  · refine ⟨u, Runs.get_bind ?_, himp⟩
    rw [himp.readOnly.trans hro, if_pos rfl, fetched, hro, if_pos rfl]
    exact Runs.of_pure

theorem importRows_runs (s : StateStorage) (table : Table) (rows : List (Key × Option Entry))
    (hrows : ∀ row ∈ rows, s.cache.find table row.1 = none ∧
      ∀ entry, row.2 = some entry → s.prev table row.1 = .ok (some entry)) :
    ∃ s', Runs (rows.mapM (importRow table)) s (rows.map fun row => row.2.map (fetched s)) s' ∧
      Imports s s' := by
  refine Runs.mapM (fun row : Key × Option Entry => row.2.map (fetched s)) (Imports.refl s)
    fun row hrow u hu => ?_
  obtain ⟨hfind, hprev⟩ := hrows row hrow
  obtain ⟨key, - | entry⟩ := row
  · exact ⟨u, .of_pure, hu⟩
  · obtain ⟨u', hrun, hu'⟩ := importExistingEntry_runs hu hfind (hprev entry rfl)
    exact ⟨u', hrun.bind .of_pure, hu'⟩

theorem asyncGetRows_imports (hprev : s.prev = previous.getRow)
    {keys : List Key} : Imports s (final (asyncGetRows previous table keys) s) := by
  by_cases hmissing : keys.filter (fun key => (s.cache.find table key).isNone) = []
  · have hrun : Runs (asyncGetRows previous table keys) s
        (fill (keys.map (s.cache.find table)) []) s := by
      apply Runs.get_bind
      simp only [hmissing, if_true]
      exact .of_pure
    rw [← hrun.eq_final]
    exact Imports.refl s
  · cases hrows : previous.getRows table
        (keys.filter (fun key => (s.cache.find table key).isNone)) with
    | error e =>
      have hfails : Fails (asyncGetRows previous table keys) s (getRowsFailed e) s := by
        apply Fails.get_bind
        simp only [if_neg hmissing, hrows]
        exact .of_throw
      rw [final, hfails]
      exact Imports.refl s
    | ok entries =>
      obtain ⟨rows, s', hrun, himp⟩ : ∃ rows s', Runs (List.mapM (importRow table) _) s rows s' ∧
          Imports s s' := ⟨_, importRows_runs s table _ fun row hrow =>
        ⟨isNone_iff_eq_none.mp (mem_filter.mp (of_mem_zip hrow).1).2,
          fun entry hentry => hprev ▸
            previous.agrees table _ entries hrows row.1 entry (hentry ▸ hrow)⟩⟩
      have hall : Runs (asyncGetRows previous table keys) s
          (fill (keys.map (s.cache.find table)) rows) s' := by
        apply Runs.get_bind
        simp only [if_neg hmissing, hrows]
        exact hrun.bind .of_pure
      rw [← hall.eq_final]
      exact himp

end Reads

/-! ## Answers of a storage -/

/-- The answer of a call, whatever it does to the state. -/
def answer {α : Type} (x : M α) (s : StateStorage) : Except Fault α :=
  match x s with
  | .ok a _ => .ok a
  | .error e _ => .error e

/-- Two storages with the same rows to every reader and the same hash. -/
structure AnswersAs (s s' : StateStorage) : Prop where
  asyncGetRow : ∀ table key, answer (StateStorage.asyncGetRow table key) s' =
      answer (StateStorage.asyncGetRow table key) s
  hash : ∀ hashImpl, s'.hash hashImpl = s.hash hashImpl

section Answers

variable {s : StateStorage}

theorem answer_asyncGetRow_cached (s : StateStorage) (table : Table) (key : Key) :
    answer (StateStorage.asyncGetRow table key) s =
      match s.cache.find table key with
      | some entry => .ok (if entry.status = .deleted then none else some entry)
      | none =>
        match s.prev table key with
        | .error e => .error (getRowFailed e)
        | .ok row => .ok (row.map (fetched s)) := by
  rw [answer, asyncGetRow_run]
  rcases s.cache.find table key with - | entry
  · rcases s.prev table key with e | - | entry
    · rfl
    · rfl
    · rfl
  · rfl

/-- A read of a writable storage is a function of the rows a read sees. -/
theorem answer_asyncGetRow (h : s.readOnly = false) (table : Table) (key : Key) :
    answer (StateStorage.asyncGetRow table key) s =
      match s.view (table, key) with
      | some entry => .ok (if entry.status = .deleted then none else some entry)
      | none =>
        match s.prev table key with
        | .error e => .error (getRowFailed e)
        | .ok _ => .ok none := by
  rw [answer_asyncGetRow_cached, view, imported]
  rcases s.cache.find table key with - | entry
  · rcases s.prev table key with e | - | entry
    · rfl
    · rfl
    · simp [fetched, h]
  · rfl

/-- Rows that are only imported do not count in the hash. -/
theorem hash_xorOver_view (s : StateStorage) (hashImpl : Bytes → HashType) :
    XorOver (cellHash hashImpl (fun table key => s.view (table, key))) (s.hash hashImpl) := by
  have hcell : cellHash hashImpl (fun table key => s.view (table, key)) =
      cellHash hashImpl s.cache.find := by
    funext x
    rcases hfind : s.cache.find x.1 x.2 with - | entry
    · simp only [cellHash, hfind, view, imported, none_or]
      rcases s.prev x.1 x.2 with e | row
      · rfl
      · rcases row with - | entry
        · rfl
        · simp [rowHash, Entry.dirty]
    · simp [cellHash, hfind, view, some_or]
  rw [hcell]
  exact s.cache.hash_xorOver

theorem answersAs_of_view (hprev : s'.prev = s.prev) (hreadOnly : s'.readOnly = s.readOnly)
    (hcache : s.readOnly = true → s'.cache = s.cache)
    (hview : s'.view = s.view) : AnswersAs s s' := by
  constructor
  · intro table key
    rcases hro : s.readOnly with - | -
    · rw [answer_asyncGetRow hro, answer_asyncGetRow (hreadOnly.trans hro), hview, hprev]
    · have hfetched : fetched s' = fetched s := by
        funext entry
        rw [fetched, fetched, hreadOnly]
      rw [answer_asyncGetRow_cached, answer_asyncGetRow_cached, hcache hro, hprev, hfetched]
  · intro hashImpl
    have h := hash_xorOver_view s hashImpl
    have h' := hash_xorOver_view s' hashImpl
    rw [hview] at h'
    exact h'.unique h

end Answers

/-! ## Sessions with save points -/

inductive Call
  | asyncSetRow (table : Table) (key : Key) (entry : Entry)
  | asyncGetRow (table : Table) (key : Key)
  | asyncGetRows (table : Table) (keys : List Key)

/-- The state after a call, whatever it answers. -/
def Call.final (previous : Previous) : Call → StateStorage → StateStorage
  | asyncSetRow table key entry =>
    Support.final (StateStorage.asyncSetRow table key entry)
  | asyncGetRow table key => Support.final (StateStorage.asyncGetRow table key)
  | asyncGetRows table keys =>
    Support.final (StateStorage.asyncGetRows previous table keys)

/-- An open save point: the storage at the time it was made, and the recoder it
took the place of. -/
structure SavePoint where
  mark : StateStorage
  outer : Option Recoder

/-- A storage and its open save points, the innermost first. -/
structure Session where
  storage : StateStorage
  savePoints : List SavePoint

/-- A step of a session: a call, a new recoder, or the rollback of the innermost
one, after which the recoder around it is installed again. -/
inductive Command
  | call (c : Call)
  | savePoint
  | rollback

def Session.step (previous : Previous) (s : Session) : Command → Except Fault Session
  | .call c => .ok { s with storage := c.final previous s.storage }
  | .savePoint =>
    .ok ⟨s.storage.setRecoder (some []), ⟨s.storage, s.storage.recoder⟩ :: s.savePoints⟩
  | .rollback =>
    match s.savePoints with
    | [] => .ok s
    | p :: savePoints =>
      match StateStorage.rollback (s.storage.recoder.getD []) s.storage with
      | .ok _ storage => .ok ⟨storage.setRecoder p.outer, savePoints⟩
      | .error e _ => .error e

def Session.run (previous : Previous) (s : Session) (commands : List Command) :
    Except Fault Session :=
  commands.foldlM (Session.step previous) s

namespace Session

/-- The changes recorded since the outermost save point, newest first. -/
def log : Option Recoder → List SavePoint → Recoder
  | _, [] => []
  | recoder, p :: savePoints => recoder.getD [] ++ log p.outer savePoints

/-- Each recoder leads from the rows a read sees back to those at its mark. -/
def Chain (prev : Table → Key → Except Fault (Option Entry)) :
    (Table × Key → Option Entry) → Option Recoder → List SavePoint → Prop
  | _, _, [] => True
  | view, recoder, p :: savePoints =>
    (∃ changes, recoder = some changes ∧ UndoLog p.mark.view (changes.map (logItem prev)) view) ∧
      Chain prev p.mark.view p.outer savePoints

structure Ok (previous : Previous) (s : Session) : Prop where
  prev : s.storage.prev = previous.getRow
  marks : ∀ p ∈ s.savePoints, p.mark.prev = s.storage.prev ∧ p.mark.readOnly = s.storage.readOnly ∧
      (s.storage.readOnly = true → p.mark.cache = s.storage.cache)
  logged : s.storage.Logged (log s.storage.recoder s.savePoints)
  chain : Chain s.storage.prev s.storage.view s.storage.recoder s.savePoints

section Steps

variable {s : Session} {storage : StateStorage}

section

variable (h : s.Ok previous)

include h

theorem Ok.imports (himp : Imports s.storage storage) : Ok previous { s with storage } where
  prev := himp.prev.trans h.prev
  marks p hp := by
    obtain ⟨hprev, hro, hcache⟩ := h.marks p hp
    refine ⟨hprev.trans himp.prev.symm, hro.trans himp.readOnly.symm, ?_⟩
    intro hreadOnly
    have hreadOnly' := himp.readOnly.symm.trans hreadOnly
    exact (hcache hreadOnly').trans (himp.cache hreadOnly').symm
  logged := by
    rw [himp.recoder]
    exact himp.logged _ h.logged
  chain := by
    rw [himp.prev, himp.view, himp.recoder]
    exact h.chain

theorem Ok.write (hwritable : s.storage.readOnly = false)
    (table : Table) (key : Key) (entry : Entry) : Ok previous { s with
      storage := Support.final (StateStorage.asyncSetRow table key entry) s.storage } := by
  rw [← (asyncSetRow_runs hwritable table key entry).eq_final]
  refine ⟨h.prev, ?_, ?_, ?_⟩
  · intro p hp
    obtain ⟨hprev, hro, _⟩ := h.marks p hp
    refine ⟨hprev, hro, ?_⟩
    intro hreadOnly
    cases hwritable.symm.trans hreadOnly
  · rcases hpoints : s.savePoints with - | ⟨p, savePoints⟩
    · exact ⟨fun _ hc => absurd hc not_mem_nil, List.Pairwise.nil⟩
    · have hlogged := h.logged
      have hchain := h.chain
      rw [hpoints] at hlogged hchain
      obtain ⟨changes, hrecoder, -⟩ := hchain.1
      have hwrite := hlogged.write table key entry
      rw [log, hrecoder, getD_some] at hwrite
      rw [log, written_recoder hrecoder, getD_some]
      exact ⟨hwrite.bound, hwrite.inserted⟩
  · rcases hpoints : s.savePoints with - | ⟨p, savePoints⟩
    · trivial
    · have hchain := h.chain
      rw [hpoints] at hchain
      obtain ⟨⟨changes, hrecoder, hlog⟩, hrest⟩ := hchain
      refine ⟨⟨_, written_recoder hrecoder, ?_⟩, hrest⟩
      have hwrite := hlog.write (table, key) entry
      rw [← written_view] at hwrite
      exact hwrite

theorem Ok.call (c : Call) : Ok previous { s with storage := c.final previous s.storage } := by
  rcases c with ⟨table, key, entry⟩ | ⟨table, key⟩ | ⟨table, keys⟩
  · rcases hro : s.storage.readOnly with - | -
    · exact h.write hro table key entry
    · rw [Call.final, Support.final, asyncSetRow_fails hro]
      exact h
  · exact h.imports (asyncGetRow_imports s.storage table key)
  · exact h.imports (asyncGetRows_imports h.prev)

theorem Ok.savePoint : Ok previous ⟨s.storage.setRecoder (some []),
      ⟨s.storage, s.storage.recoder⟩ :: s.savePoints⟩ where
  prev := h.prev
  marks := forall_mem_cons.mpr ⟨⟨rfl, rfl, fun _ => rfl⟩, h.marks⟩
  logged := ⟨h.logged.bound, h.logged.inserted⟩
  chain := ⟨⟨[], rfl, .nil⟩, h.chain⟩

/-- The innermost save point is rolled back without a failure, to the rows at
its mark. -/
theorem Ok.rollback {p : SavePoint} {rest : List SavePoint} (hpoints : s.savePoints = p :: rest) :
    ∃ storage, s.step previous .rollback = .ok ⟨storage, rest⟩ ∧
      Ok previous ⟨storage, rest⟩ ∧ AnswersAs p.mark storage := by
  have hlogged := h.logged
  have hchain := h.chain
  rw [hpoints] at hlogged hchain
  obtain ⟨⟨changes, hrecoder, hlog⟩, hrest⟩ := hchain
  rw [hrecoder] at hlogged
  obtain ⟨hmarkPrev, hmarkRo, hmarkCache⟩ := h.marks p (by simp [hpoints])
  change s.storage.Logged (changes ++ log p.outer rest) at hlogged
  obtain ⟨cache, hrun, hlogged', hcache, hundone⟩ := hlogged.rollback
  have hview : (s.storage.withCache cache).view = p.mark.view := by
    rcases hro : s.storage.readOnly with - | -
    · rw [hundone hro, hlog.putBack_eq]
    · funext x
      simp [view, withCache, hcache hro, hmarkCache hro, hmarkPrev]
  have hview' : ((s.storage.withCache cache).setRecoder p.outer).view =
      p.mark.view := hview
  refine ⟨(s.storage.withCache cache).setRecoder p.outer, ?_, ?_, ?_⟩
  · simp only [step, hpoints, hrecoder, getD_some]
    rw [hrun]
  · refine ⟨h.prev, ?_, ⟨hlogged'.bound, hlogged'.inserted⟩, ?_⟩
    · intro q hq
      obtain ⟨hprev, hro, hqcache⟩ := h.marks q (by simp [hpoints, hq])
      refine ⟨hprev, hro, ?_⟩
      intro hreadOnly
      exact (hqcache hreadOnly).trans (hcache hreadOnly).symm
    · rw [hview']
      exact hrest
  · refine answersAs_of_view hmarkPrev.symm hmarkRo.symm ?_ hview'
    intro hreadOnly
    have hreadOnly' := hmarkRo.symm.trans hreadOnly
    exact (hcache hreadOnly').trans (hmarkCache hreadOnly').symm

theorem Ok.step (command : Command) : ∃ s', s.step previous command = .ok s' ∧ s'.Ok previous := by
  rcases command with c | - | -
  · exact ⟨_, rfl, h.call c⟩
  · exact ⟨_, rfl, h.savePoint⟩
  · rcases hpoints : s.savePoints with - | ⟨p, rest⟩
    · refine ⟨s, ?_, h⟩
      simp [Session.step, hpoints]
    · obtain ⟨storage, hstep, hok, -⟩ := h.rollback hpoints
      exact ⟨_, hstep, hok⟩

theorem Ok.run (commands : List Command) :
    ∃ s', s.run previous commands = .ok s' ∧ s'.Ok previous := by
  induction commands generalizing s with
  | nil => exact ⟨s, rfl, h⟩
  | cons command commands ih =>
    obtain ⟨s₁, hstep, hok₁⟩ := h.step command
    obtain ⟨s₂, hrun, hok₂⟩ := ih hok₁
    refine ⟨s₂, ?_, hok₂⟩
    rw [Session.run, foldlM_cons, hstep]
    exact hrun

end

theorem ok_start (previous : Previous) (readOnly : Bool) (cache : RowCache)
    (recoder : Option Recoder) : Ok previous ⟨⟨previous.getRow, readOnly, cache, recoder⟩, []⟩ where
  prev := rfl
  marks _ hp := absurd hp not_mem_nil
  logged := ⟨fun _ hc => absurd hc not_mem_nil, List.Pairwise.nil⟩
  chain := trivial

end Steps

end Session

/-- Whatever a storage has been through, rolling back its innermost save point
succeeds and leaves a storage that reads and hashes as it did when the save point
was made. -/
theorem rollback_restores (previous : Previous) (readOnly : Bool) (cache : RowCache)
    (recoder : Option Recoder) (commands : List Command) :
    ∃ s, Session.run previous ⟨⟨previous.getRow, readOnly, cache, recoder⟩, []⟩ commands = .ok s ∧
      ∀ p rest, s.savePoints = p :: rest →
        ∃ storage, s.step previous .rollback = .ok ⟨storage, rest⟩ ∧
          AnswersAs p.mark storage := by
  have hstart := Session.ok_start previous readOnly cache recoder
  obtain ⟨s, hrun, hok⟩ := hstart.run commands
  refine ⟨s, hrun, ?_⟩
  intro p rest hpoints
  obtain ⟨storage, hstep, -, hanswers⟩ := hok.rollback hpoints
  exact ⟨storage, hstep, hanswers⟩

end StateStorage

end FiscoSmart.Storage
