import FiscoSmart.Storage.Entry

/-!
# Key locks

`GraphKeyLocks` keeps the locks of a block as the edges of a graph.  An edge from
a key to a context says that the context holds the key, an edge from a context to
a key that it has asked for it.  Every edge carries the sequence number of the
call it was made for, and a call gives up all its edges at once.
-/

namespace FiscoSmart.Scheduler

open Storage List

/-- `ContextID`, the number of a transaction in its block. -/
abbrev ContextID := ℤ

/-- `Seq`, the number of a call in its transaction. -/
abbrev Seq := ℤ

/-- `GraphKeyLocks::KeyLock`, a contract and a key. -/
abbrev KeyLock := Bytes × Bytes

namespace GraphKeyLocks

inductive Vertex
  | context (contextID : ContextID)
  | key (keyLock : KeyLock)
deriving DecidableEq

/-- The edges of the graph, which join contexts and keys only. -/
inductive Edge
  | own (keyLock : KeyLock) (contextID : ContextID) (seq : Seq)
  | request (contextID : ContextID) (keyLock : KeyLock) (seq : Seq)
deriving DecidableEq

namespace Edge

def source : Edge → Vertex
  | .own keyLock _ _ => .key keyLock
  | .request contextID _ _ => .context contextID

def target : Edge → Vertex
  | .own _ contextID _ => .context contextID
  | .request _ keyLock _ => .key keyLock

def seq : Edge → Seq
  | .own _ _ seq => seq
  | .request _ _ seq => seq

end Edge

end GraphKeyLocks

open GraphKeyLocks

/-- `GraphKeyLocks`: `m_vertexes` and the edges of `m_graph`. -/
structure GraphKeyLocks where
  vertexes : Finset Vertex
  edges : List Edge
  closed : ∀ e ∈ edges, e.source ∈ vertexes ∧ e.target ∈ vertexes

namespace GraphKeyLocks

def empty : GraphKeyLocks := ⟨∅, [], by simp⟩

/-- The error of `batchAcquireKeyLock`, "Batch acquire lock failed", with the values
that its message names. -/
structure UnexpectedKeyLockError where
  contract : Bytes
  key : Bytes
  contextID : ContextID
  seq : Seq
deriving DecidableEq

variable (g : GraphKeyLocks)

/-- `touchContext` and `touchKeyLock`. -/
def touch (v : Vertex) : GraphKeyLocks where
  vertexes := insert v g.vertexes
  edges := g.edges
  closed e he := by simp [g.closed e he]

def addEdge (edge : Edge)
    (h : edge.source ∈ g.vertexes ∧ edge.target ∈ g.vertexes) : GraphKeyLocks where
  vertexes := g.vertexes
  edges := if edge ∈ g.edges then g.edges else g.edges ++ [edge]
  closed e he := by
    split at he
    · exact g.closed e he
    · rcases List.mem_append.mp he with hmem | hmem
      · exact g.closed e hmem
      · cases List.mem_singleton.mp hmem
        exact h

/-- `boost::remove_edge` for all edges with a property. -/
def removeEdges (p : Edge → Bool) : GraphKeyLocks where
  vertexes := g.vertexes
  edges := g.edges.filter (fun e => !p e)
  closed e he := g.closed e (List.mem_of_mem_filter he)

/-- `boost::remove_vertex` for a vertex without edges. -/
def removeVertex (v : Vertex) (h : ∀ e ∈ g.edges, e.source ≠ v ∧ e.target ≠ v) : GraphKeyLocks where
  vertexes := g.vertexes.erase v
  edges := g.edges
  closed e he := by
    simp only [Finset.mem_erase]
    exact ⟨⟨(h e he).1, (g.closed e he).1⟩, ⟨(h e he).2, (g.closed e he).2⟩⟩

/-- The graph with the two vertices of a request. -/
def touched (keyLock : KeyLock) (contextID : ContextID) : GraphKeyLocks :=
  (g.touch (.key keyLock)).touch (.context contextID)

theorem mem_touched (keyLock : KeyLock) (cid : ContextID) :
    .key keyLock ∈ (g.touched keyLock cid).vertexes ∧
      .context cid ∈ (g.touched keyLock cid).vertexes := by
  simp [touched, touch]

def acquireKeyLock (contract key : Bytes) (contextID : ContextID) (seq : Seq) :
    Bool × GraphKeyLocks :=
  let keyLock := (contract, key)
  let graph := g.touched keyLock contextID
  if graph.edges.any (fun e => e.source = .key keyLock ∧ e.target ≠ .context contextID) then
    -- the key is held by another context
    (false, graph.addEdge (.request contextID keyLock seq) (g.mem_touched keyLock contextID).symm)
  else
    (true, (graph.removeEdges
        (fun e => e.source = .context contextID ∧ e.target = .key keyLock)).addEdge
      (.own keyLock contextID seq) (g.mem_touched keyLock contextID))

/-- `batchAcquireKeyLock`, which keeps what it has acquired when it throws. -/
def batchAcquireKeyLock (g : GraphKeyLocks) (contract : Bytes) :
    List Bytes → ContextID → Seq → Except UnexpectedKeyLockError Bool × GraphKeyLocks
  | [], _, _ => (.ok true, g)
  | key :: keys, contextID, seq =>
    match g.acquireKeyLock contract key contextID seq with
    | (true, g) => g.batchAcquireKeyLock contract keys contextID seq
    | (false, g) => (.error ⟨contract, key, contextID, seq⟩, g)

def getKeyLocksNotHoldingByContext (contract : Bytes) (excludeContextID : ContextID) :
    List Bytes :=
  (g.edges.filterMap (fun
    | .own keyLock contextID _ =>
      if contextID ≠ excludeContextID ∧ keyLock.1 = contract then some keyLock.2 else none
    | .request _ _ _ => none)).toFinset.sort (· ≤ ·)

def Incident (contextID : ContextID) (e : Edge) : Prop :=
  e.target = .context contextID ∨ e.source = .context contextID

instance (contextID : ContextID) : DecidablePred (Incident contextID) :=
  fun _ => inferInstanceAs (Decidable (_ ∨ _))

def withdrawn (contextID : ContextID) (seq : Seq) : GraphKeyLocks :=
  g.removeEdges (fun e => Incident contextID e ∧ e.seq = seq)

variable {g} {cid : ContextID}

theorem mem_withdrawn {seq : Seq} {e : Edge} : e ∈ (g.withdrawn cid seq).edges ↔
      e ∈ g.edges ∧ ¬ (Incident cid e ∧ e.seq = seq) := by
  simp only [withdrawn, removeEdges, mem_filter, Bool.not_eq_true', decide_eq_false_iff_not]

theorem withdrawn_isolated {seq : Seq}
    (h : ∀ e ∈ g.edges, Incident cid e → e.seq = seq) : ∀ e ∈ (g.withdrawn cid seq).edges,
      e.source ≠ .context cid ∧ e.target ≠ .context cid := by
  intro e he
  obtain ⟨hmem, hkept⟩ := mem_withdrawn.mp he
  constructor
  · intro hsource
    exact hkept ⟨.inr hsource, h e hmem (.inr hsource)⟩
  · intro htarget
    exact hkept ⟨.inl htarget, h e hmem (.inl htarget)⟩

variable (g) {p : Event → Prop}

/-- `releaseKeyLocks`, which removes the vertex with its last edge. -/
def releaseKeyLocks (contextID : ContextID) (seq : Seq) : GraphKeyLocks :=
  if .context contextID ∉ g.vertexes then g
  else if h : ∀ e ∈ g.edges, Incident contextID e → e.seq = seq then
    (g.withdrawn contextID seq).removeVertex (.context contextID) (withdrawn_isolated h)
  else g.withdrawn contextID seq

/-! ## The edges after each call -/

def Holds (keyLock : KeyLock) (contextID : ContextID) : Prop :=
  ∃ seq, .own keyLock contextID seq ∈ g.edges

/-- No other context holds the key. -/
def Free (keyLock : KeyLock) (contextID : ContextID) : Prop :=
  ∀ contextID', g.Holds keyLock contextID' → contextID' = contextID

section Edges

variable {g} {contract key : Bytes} {cid cid' : ContextID} {seq : Seq} {e : Edge}
  {keyLock : KeyLock}

theorem mem_addEdge {edge : Edge} (h : edge.source ∈ g.vertexes ∧ edge.target ∈ g.vertexes) :
    e ∈ (g.addEdge edge h).edges ↔ e ∈ g.edges ∨ e = edge := by
  rw [addEdge]
  split
  · rename_i hmem
    constructor
    · exact .inl
    · rintro (he | rfl)
      · exact he
      · exact hmem
  · simp

theorem any_held_iff (g : GraphKeyLocks) (keyLock : KeyLock) (cid : ContextID) :
    (g.touched keyLock cid).edges.any
        (fun e => e.source = .key keyLock ∧ e.target ≠ .context cid) = true ↔
      ¬ g.Free keyLock cid := by
  simp only [any_eq_true, decide_eq_true_eq, Free, Holds, not_forall]
  constructor
  · rintro ⟨e, he, hsource, htarget⟩
    cases e with
    | own keyLock' cid' seq =>
      obtain rfl : keyLock' = keyLock := by simpa [Edge.source] using hsource
      exact ⟨cid', ⟨seq, he⟩, by simpa [Edge.target] using htarget⟩
    | request _ _ _ => simp [Edge.source] at hsource
  · rintro ⟨cid', ⟨seq, he⟩, hne⟩
    exact ⟨_, he, rfl, by simpa [Edge.target] using hne⟩

theorem acquireKeyLock_iff : (g.acquireKeyLock contract key cid seq).1 = true ↔
      g.Free (contract, key) cid := by
  have hany := any_held_iff g (contract, key) cid
  rw [acquireKeyLock]
  split
  · rename_i hheld
    simp only [Bool.false_eq_true, false_iff]
    exact hany.mp hheld
  · rename_i hfree
    simp only [true_iff]
    by_contra hnot
    exact hfree (hany.mpr hnot)

theorem mem_acquireKeyLock_of_held (h : ¬ g.Free (contract, key) cid) :
    e ∈ (g.acquireKeyLock contract key cid seq).2.edges ↔
      e ∈ g.edges ∨ e = .request cid (contract, key) seq := by
  rw [acquireKeyLock, if_pos ((any_held_iff _ _ _).mpr h)]
  exact mem_addEdge (g.mem_touched (contract, key) cid).symm

theorem mem_acquireKeyLock_of_free (h : g.Free (contract, key) cid) :
    e ∈ (g.acquireKeyLock contract key cid seq).2.edges ↔
      (e ∈ g.edges ∧ ∀ seq', e ≠ .request cid (contract, key) seq') ∨
        e = .own (contract, key) cid seq := by
  have hany := mt (any_held_iff g (contract, key) cid).mp (not_not.mpr h)
  have hedge : (e.source = .context cid ∧ e.target = .key (contract, key)) ↔
      ∃ seq', e = .request cid (contract, key) seq' := by
    rcases e with ⟨-, -, -⟩ | ⟨-, -, -⟩
    · simp [Edge.source]
    · simp [Edge.source, Edge.target]
  rw [acquireKeyLock, if_neg hany]
  refine (mem_addEdge (g.mem_touched (contract, key) cid)).trans ?_
  simp only [removeEdges, mem_filter, Bool.not_eq_true', decide_eq_false_iff_not, hedge, not_exists]
  rfl

theorem mem_releaseKeyLocks : e ∈ (g.releaseKeyLocks cid seq).edges ↔
      e ∈ g.edges ∧ ¬ (Incident cid e ∧ e.seq = seq) := by
  rw [releaseKeyLocks]
  split
  · rename_i hvertex
    simp only [iff_self_and, not_and]
    -- a vertex that is not there has no edges
    rintro he (htarget | hsource)
    · exact absurd (htarget ▸ (g.closed e he).2) hvertex
    · exact absurd (hsource ▸ (g.closed e he).1) hvertex
  · split
    · exact mem_withdrawn
    · exact mem_withdrawn

theorem own_mem_acquireKeyLock {seq' : Seq} :
    .own keyLock cid' seq' ∈ (g.acquireKeyLock contract key cid seq).2.edges ↔
      .own keyLock cid' seq' ∈ g.edges ∨ (g.Free (contract, key) cid ∧ keyLock = (contract, key) ∧
          cid' = cid ∧ seq' = seq) := by
  by_cases hfree : g.Free (contract, key) cid
  · rw [mem_acquireKeyLock_of_free hfree]
    simp [hfree]
  · rw [mem_acquireKeyLock_of_held hfree]
    simp [hfree]

theorem own_mem_releaseKeyLocks {seq' : Seq} :
    .own keyLock cid' seq' ∈ (g.releaseKeyLocks cid seq).edges ↔
      .own keyLock cid' seq' ∈ g.edges ∧ ¬ (cid' = cid ∧ seq' = seq) := by
  rw [mem_releaseKeyLocks]
  simp [Incident, Edge.source, Edge.target, Edge.seq]

end Edges

/-! ## Histories of calls -/

inductive Call
  | acquire (contract key : Bytes) (contextID : ContextID) (seq : Seq)
  | batchAcquire (contract : Bytes) (keys : List Bytes) (contextID : ContextID) (seq : Seq)
  | release (contextID : ContextID) (seq : Seq)
deriving DecidableEq

/-- What has happened: a key was asked for, with or without success, or a call gave
up its locks. -/
inductive Event
  | acquire (keyLock : KeyLock) (contextID : ContextID) (seq : Seq) (granted : Bool)
  | release (contextID : ContextID) (seq : Seq)
deriving DecidableEq

/-- The locks and the events that led to them, the latest first. -/
structure Session where
  locks : GraphKeyLocks
  events : List Event

/-- The requests of `batchAcquireKeyLock`. -/
def batchEvents (g : GraphKeyLocks) (contract : Bytes) : List Bytes → ContextID → Seq → List Event
  | [], _, _ => []
  | key :: keys, contextID, seq =>
    match g.acquireKeyLock contract key contextID seq with
    | (true, g) => g.batchEvents contract keys contextID seq ++
        [.acquire (contract, key) contextID seq true]
    | (false, _) => [.acquire (contract, key) contextID seq false]

namespace Session

def start : Session := ⟨empty, []⟩

def step (session : Session) : Call → Session
  | .acquire contract key contextID seq =>
    let (granted, locks) := session.locks.acquireKeyLock contract key contextID seq
    ⟨locks, .acquire (contract, key) contextID seq granted :: session.events⟩
  | .batchAcquire contract keys contextID seq =>
    ⟨(session.locks.batchAcquireKeyLock contract keys contextID seq).2,
      session.locks.batchEvents contract keys contextID seq ++ session.events⟩
  | .release contextID seq =>
    ⟨session.locks.releaseKeyLocks contextID seq, .release contextID seq :: session.events⟩

theorem events_acquire {session : Session} {contract key : Bytes} {seq : Seq} :
    (session.step (.acquire contract key cid seq)).events = .acquire (contract, key) cid seq
        (session.locks.acquireKeyLock contract key cid seq).1 :: session.events :=
  rfl

def run (calls : List Call) : Session := calls.foldl step start

end Session

/-- The event has occurred, and none with `p` since. -/
def Since (event : Event) (p : Event → Prop) (events : List Event) : Prop :=
  ∃ newer older, events = newer ++ event :: older ∧ ∀ e ∈ newer, ¬ p e

theorem since_cons {event e : Event} {events : List Event} :
    Since event p (e :: events) ↔ e = event ∨ (¬ p e ∧ Since event p events) := by
  constructor
  · rintro ⟨newer, older, heq, hnone⟩
    rcases newer with - | ⟨e', newer⟩
    · exact .inl (List.cons.inj heq).1
    · cases heq
      refine .inr ⟨hnone e mem_cons_self, newer, older, rfl, ?_⟩
      intro e' he'
      exact hnone e' (mem_cons_of_mem _ he')
  · rintro (rfl | ⟨hp, newer, older, rfl, hnone⟩)
    · exact ⟨[], events, rfl, by simp⟩
    · exact ⟨e :: newer, older, rfl, by simpa using ⟨hp, hnone⟩⟩

theorem not_since_nil {event : Event} : ¬ Since event p [] := by
  rintro ⟨newer, older, heq, -⟩
  simp at heq

/-- The call was granted the key and has not given up its locks since. -/
def Unreleased (keyLock : KeyLock) (contextID : ContextID) (seq : Seq)
    (events : List Event) : Prop :=
  Since (.acquire keyLock contextID seq true) (· = .release contextID seq) events

namespace Session

/-- What holds in every session: an edge to a context is there exactly as long as
its call has not given it up, and two contexts do not hold one key. -/
structure Ok (session : Session) : Prop where
  own : ∀ keyLock contextID seq, .own keyLock contextID seq ∈ session.locks.edges ↔
      Unreleased keyLock contextID seq session.events
  exclusive : ∀ keyLock contextID contextID', session.locks.Holds keyLock contextID →
    session.locks.Holds keyLock contextID' → contextID = contextID'

variable {session : Session}

theorem ok_start : start.Ok where
  own keyLock cid seq := by
    simp [start, empty, Unreleased, not_since_nil]
  exclusive keyLock cid cid' h := by
    simp [start, empty, Holds] at h

theorem Ok.acquire (h : session.Ok) (contract key : Bytes) (cid : ContextID)
    (seq : Seq) : (session.step (.acquire contract key cid seq)).Ok := by
  constructor
  · intro keyLock cid' seq'
    simp only [step, own_mem_acquireKeyLock, h.own, Unreleased, since_cons,
      Event.acquire.injEq, acquireKeyLock_iff]
    grind
  · rintro keyLock c c' ⟨s, hs⟩ ⟨s', hs'⟩
    rcases own_mem_acquireKeyLock.mp hs with hold | ⟨hfree, rfl, rfl, rfl⟩
    · rcases own_mem_acquireKeyLock.mp hs' with hold' | ⟨hfree, rfl, rfl, rfl⟩
      · exact h.exclusive keyLock c c' ⟨s, hold⟩ ⟨s', hold'⟩
      · exact hfree c ⟨s, hold⟩
    · rcases own_mem_acquireKeyLock.mp hs' with hold' | ⟨-, -, rfl, -⟩
      · exact (hfree c' ⟨s', hold'⟩).symm
      · rfl

theorem Ok.release (h : session.Ok) (cid : ContextID) (seq : Seq) :
    (session.step (.release cid seq)).Ok := by
  constructor
  · intro keyLock cid' seq'
    simp only [step, own_mem_releaseKeyLocks, h.own, Unreleased, since_cons]
    grind
  · rintro keyLock c c' ⟨s, hs⟩ ⟨s', hs'⟩
    exact h.exclusive keyLock c c' ⟨s, (own_mem_releaseKeyLocks.mp hs).1⟩
      ⟨s', (own_mem_releaseKeyLocks.mp hs').1⟩

/-- A batch is a sequence of requests that ends with the first failure. -/
theorem step_batchAcquire_cons {contract key : Bytes} {keys : List Bytes} {seq : Seq} :
    session.step (.batchAcquire contract (key :: keys) cid seq) =
      let session' := session.step (.acquire contract key cid seq)
      if (session.locks.acquireKeyLock contract key cid seq).1 then
        session'.step (.batchAcquire contract keys cid seq)
      else session' := by
  simp only [step, batchAcquireKeyLock, batchEvents]
  rcases hacquire : session.locks.acquireKeyLock contract key cid seq with
    ⟨granted, locks⟩
  rcases granted with - | -
  · simp
  · simp

/-- What single requests and releases keep holds after every sequence of calls. -/
theorem run_induction {P : Session → Prop} (hstart : P start)
    (hacquire : ∀ session, P session → ∀ contract key cid seq,
      P (session.step (.acquire contract key cid seq)))
    (hrelease : ∀ session, P session → ∀ cid seq,
      P (session.step (.release cid seq))) (calls : List Call) : P (run calls) := by
  have hbatch : ∀ (keys : List Bytes) session, P session → ∀ contract cid seq,
      P (session.step (.batchAcquire contract keys cid seq)) := by
    intro keys
    induction keys with
    | nil => exact fun session h _ _ _ => h
    | cons key keys ih =>
      intro session h contract cid seq
      rw [step_batchAcquire_cons]
      have hfirst := hacquire session h contract key cid seq
      split
      · exact ih _ hfirst contract cid seq
      · exact hfirst
  have hstep : ∀ session, P session → ∀ call, P (session.step call) := by
    intro session h call
    cases call with
    | acquire contract key cid seq =>
      exact hacquire session h contract key cid seq
    | batchAcquire contract keys cid seq =>
      exact hbatch keys session h contract cid seq
    | release cid seq => exact hrelease session h cid seq
  suffices hrun : ∀ session, P session → P (calls.foldl step session) from
    hrun start hstart
  induction calls with
  | nil => exact fun _ h => h
  | cons call calls ih => exact fun session h => ih (session.step call) (hstep session h call)

theorem ok_run (calls : List Call) : (run calls).Ok :=
  run_induction ok_start (fun _ h => h.acquire) (fun _ h => h.release) calls

end Session

/-- After every sequence of calls a key is held by at most one context.  A request
succeeds exactly when no other context holds the key, and leaves no request for it
behind then.  A context holds a key exactly as long as one of its calls that was
granted the key has not given up its locks. -/
theorem keyLocks_exclusive (calls : List Call) : (∀ keyLock contextID contextID',
      (Session.run calls).locks.Holds keyLock contextID →
      (Session.run calls).locks.Holds keyLock contextID' → contextID = contextID') ∧
    (∀ contract key contextID seq,
      ((Session.run calls).locks.acquireKeyLock contract key contextID seq).1 = true ↔
        ∀ contextID', (Session.run calls).locks.Holds (contract, key) contextID' →
          contextID' = contextID) ∧
    (∀ keyLock contextID, (Session.run calls).locks.Holds keyLock contextID ↔ ∃ seq newer older,
        (Session.run calls).events = newer ++ .acquire keyLock contextID seq true :: older ∧
        .release contextID seq ∉ newer) ∧ (∀ contract key contextID seq,
      ((Session.run calls).locks.acquireKeyLock contract key contextID seq).1 = true →
      ∀ seq', .request contextID (contract, key) seq' ∉
        ((Session.run calls).locks.acquireKeyLock contract key contextID seq).2.edges) := by
  have hok := Session.ok_run calls
  refine ⟨hok.exclusive, ?_, ?_, ?_⟩
  · intro contract key contextID seq
    exact acquireKeyLock_iff
  · intro keyLock contextID
    simp only [Holds, hok.own, Unreleased, Since]
    grind
  · intro contract key contextID seq hgranted seq' hmem
    rw [mem_acquireKeyLock_of_free (acquireKeyLock_iff.mp hgranted)] at hmem
    simp at hmem

end GraphKeyLocks

end FiscoSmart.Scheduler
