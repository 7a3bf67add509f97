import FiscoSmart.Scheduler.KeyLocks
import FiscoSmart.Support.DepthFirst

/-!
# Detecting deadlocks

A context that holds a key and waits for another may be part of a deadlock:
`detectDeadLock` looks for a cycle of the lock graph.  If every context of a set
waits for a key that a context of the set holds, the graph has a cycle, and it
runs through a context of the set that holds a key.  The cycle need not run through the
context itself: it is enough that the context holds a key and waits for one that leads
into the cycle.
-/

namespace FiscoSmart.Scheduler.GraphKeyLocks

open Storage
open Support
open Relation

variable (g : GraphKeyLocks) {cid cid' : ContextID} {keyLock : KeyLock}

/-- The targets of the edges that leave a vertex. -/
def targets (v : Vertex) : List Vertex :=
  (g.edges.filter (fun e => e.source = v)).map Edge.target

def detectDeadLock (contextID : ContextID) : Bool :=
  if .context contextID ∉ g.vertexes then false
  else if g.edges.countP (fun e => e.target = .context contextID) = 0 then false
  else DepthFirst.visit g.targets (DepthFirst.budget g.targets g.vertexes) (.context contextID)

/-- The context has asked for the key. -/
def Waits (contextID : ContextID) (keyLock : KeyLock) : Prop :=
  ∃ seq, .request contextID keyLock seq ∈ g.edges

section Requests

variable {g} {contract key : Bytes} {seq : Seq}

theorem Holds.acquireKeyLock (h : g.Holds keyLock cid') :
    (g.acquireKeyLock contract key cid seq).2.Holds keyLock cid' := by
  obtain ⟨seq', hmem⟩ := h
  exact ⟨seq', own_mem_acquireKeyLock.mpr (.inl hmem)⟩

theorem holds_of_acquireKeyLock (h : (g.acquireKeyLock contract key cid seq).2.Holds keyLock cid') :
    g.Holds keyLock cid' ∨ cid' = cid := by
  obtain ⟨seq', hmem⟩ := h
  rcases own_mem_acquireKeyLock.mp hmem with hmem | ⟨-, -, heq, -⟩
  · exact .inl ⟨seq', hmem⟩
  · exact .inr heq

theorem request_mem_acquireKeyLock {seq' : Seq}
    (h : .request cid' keyLock seq' ∈ g.edges) (hne : cid' ≠ cid) :
    .request cid' keyLock seq' ∈ (g.acquireKeyLock contract key cid seq).2.edges := by
  by_cases hfree : g.Free (contract, key) cid
  · refine (mem_acquireKeyLock_of_free hfree).mpr (.inl ⟨h, ?_⟩)
    intro seq'' heq
    exact hne (Edge.request.inj heq).1
  · exact (mem_acquireKeyLock_of_held hfree).mpr (.inl h)

theorem Waits.acquireKeyLock (h : g.Waits cid' keyLock) (hne : cid' ≠ cid) :
    (g.acquireKeyLock contract key cid seq).2.Waits cid' keyLock := by
  obtain ⟨seq', hmem⟩ := h
  exact ⟨seq', request_mem_acquireKeyLock hmem hne⟩

theorem waits_acquireKeyLock (h : ¬ g.Free (contract, key) cid) (seq : Seq) :
    (g.acquireKeyLock contract key cid seq).2.Waits cid (contract, key) :=
  ⟨seq, (mem_acquireKeyLock_of_held h).mpr (.inr rfl)⟩

end Requests

section Cycles

variable {g} {u v : Vertex}

theorem edge_iff : DepthFirst.Edge g.targets u v ↔ ∃ e ∈ g.edges, e.source = u ∧ e.target = v := by
  simp [DepthFirst.Edge, targets, and_assoc]

theorem edge_to_context : DepthFirst.Edge g.targets u (.context cid) ↔
      ∃ keyLock, u = .key keyLock ∧ g.Holds keyLock cid := by
  rw [edge_iff]
  constructor
  · rintro ⟨e, he, rfl, htarget⟩
    cases e with
    | own keyLock cid' seq =>
      obtain rfl : cid' = cid := by simpa [Edge.target] using htarget
      exact ⟨keyLock, rfl, seq, he⟩
    | request _ _ _ => simp [Edge.target] at htarget
  · rintro ⟨keyLock, rfl, seq, he⟩
    exact ⟨_, he, rfl, rfl⟩

/-- A deadlock is reported exactly for a context that holds a key and from which
the graph leads into a cycle. -/
theorem detectDeadLock_iff : g.detectDeadLock cid = true ↔ (∃ keyLock, g.Holds keyLock cid) ∧
        DepthFirst.ReachesCycle g.targets (.context cid) := by
  have hholds : (∃ keyLock, g.Holds keyLock cid) ↔
      ∃ u, DepthFirst.Edge g.targets u (.context cid) := by
    simp only [edge_to_context]
    grind
  have hdegree : g.edges.countP (fun e => e.target = .context cid) = 0 ↔
      ¬ ∃ keyLock, g.Holds keyLock cid := by
    rw [hholds]
    simp [edge_iff, List.countP_eq_zero]
  have hclosed : ∀ u ∈ g.vertexes, ∀ v ∈ g.targets u, v ∈ g.vertexes := by
    intro u _ v hv
    obtain ⟨e, he, -, rfl⟩ := edge_iff.mp hv
    exact (g.closed e he).2
  rw [detectDeadLock]
  split
  · rename_i hvertex
    simp only [Bool.false_eq_true, false_iff, not_and]
    rintro ⟨keyLock, seq, he⟩
    exact absurd (g.closed _ he).2 hvertex
  · rename_i hvertex
    split
    · rename_i hnone
      simp [hdegree.mp hnone]
    · rename_i hsome
      rw [DepthFirst.visit_iff (not_not.mp hvertex) hclosed]
      simp [not_not.mp (mt hdegree.mpr hsome)]

theorem Waits.transGen (hwaits : g.Waits cid keyLock) (hholds : g.Holds keyLock cid') :
    TransGen (DepthFirst.Edge g.targets) (.context cid) (.context cid') := by
  obtain ⟨seq, hreq⟩ := hwaits
  have hkey : DepthFirst.Edge g.targets (.context cid) (.key keyLock) :=
    edge_iff.mpr ⟨_, hreq, rfl, rfl⟩
  have hcontext : DepthFirst.Edge g.targets (.key keyLock) (.context cid') :=
    edge_to_context.mpr ⟨keyLock, rfl, hholds⟩
  exact .tail (.single hkey) hcontext

/-- The context waits for a key that the other one holds. -/
def WaitsFor (g : GraphKeyLocks) (contextID contextID' : ContextID) : Prop :=
  ∃ keyLock, g.Waits contextID keyLock ∧ g.Holds keyLock contextID'

/-- A path from a context leads through contexts that wait for each other. -/
theorem waitsFor_of_path (h : ReflTransGen (DepthFirst.Edge g.targets) (.context cid) v) :
    match v with
    | .context cid' => ReflTransGen g.WaitsFor cid cid'
    | .key keyLock => ∃ cid', ReflTransGen g.WaitsFor cid cid' ∧ g.Waits cid' keyLock := by
  induction h with
  | refl => exact .refl
  | tail _ hedge ih =>
    obtain ⟨e, he, rfl, rfl⟩ := edge_iff.mp hedge
    cases e with
    | own keyLock cid' seq =>
      obtain ⟨cid'', hpath, hwaits⟩ := ih
      exact hpath.tail ⟨keyLock, hwaits, seq, he⟩
    | request cid' keyLock seq => exact ⟨cid', ih, seq, he⟩

theorem reachesCycle_iff : DepthFirst.ReachesCycle g.targets (.context cid) ↔
    ∃ cid', ReflTransGen g.WaitsFor cid cid' ∧ TransGen g.WaitsFor cid' cid' := by
  have hlift : ∀ c c', g.WaitsFor c c' →
      TransGen (DepthFirst.Edge g.targets) (.context c) (.context c') :=
    fun _ _ ⟨_, hwaits, hholds⟩ => hwaits.transGen hholds
  have hcycle : ∀ {keyLock c}, DepthFirst.Edge g.targets (.key keyLock) (.context c) →
      ReflTransGen (DepthFirst.Edge g.targets) (.context c) (.key keyLock) →
      TransGen g.WaitsFor c c := by
    intro keyLock c hedge hback
    obtain ⟨_, heq, hholds⟩ := edge_to_context.mp hedge
    obtain ⟨c', hpath, hwaits⟩ := waitsFor_of_path hback
    exact .tail' hpath ⟨keyLock, hwaits, Vertex.key.inj heq ▸ hholds⟩
  constructor
  · rintro ⟨v, hpath, hround⟩
    cases v with
    | context c =>
      obtain ⟨u, hback, hedge⟩ := TransGen.tail'_iff.mp hround
      obtain ⟨keyLock, rfl, -⟩ := edge_to_context.mp hedge
      exact ⟨c, waitsFor_of_path hpath, hcycle hedge hback⟩
    | key keyLock =>
      obtain ⟨u, hedge, hback⟩ := TransGen.head'_iff.mp hround
      obtain ⟨e, -, hsource, rfl⟩ := edge_iff.mp hedge
      cases e with
      | own keyLock' c seq => exact ⟨c, waitsFor_of_path (hpath.tail hedge), hcycle hedge hback⟩
      | request c keyLock' seq => cases hsource
  · rintro ⟨c, hpath, hround⟩
    exact ⟨.context c, hpath.lift' _ fun c c' h => (hlift c c' h).to_reflTransGen,
      hround.lift' _ hlift⟩

/-- The answer is right exactly if the context holds no key, leads into no deadlock or is
part of one. -/
theorem detectDeadLock_sound_iff (g : GraphKeyLocks) (contextID : ContextID) :
    (g.detectDeadLock contextID = true → TransGen g.WaitsFor contextID contextID) ↔
      ((∃ keyLock, g.Holds keyLock contextID) →
        (∃ contextID', ReflTransGen g.WaitsFor contextID contextID' ∧
          TransGen g.WaitsFor contextID' contextID') →
        TransGen g.WaitsFor contextID contextID) := by
  rw [detectDeadLock_iff, reachesCycle_iff, and_imp]

theorem exists_detectDeadLock {contexts : Finset ContextID} (hne : contexts.Nonempty)
    (hwaits : ∀ cid ∈ contexts, ∃ keyLock, g.Waits cid keyLock ∧
      ∃ cid' ∈ contexts, g.Holds keyLock cid') : ∃ cid ∈ contexts, g.detectDeadLock cid = true := by
  -- without a cycle the finite set would have a member that waits for none of it
  let before : contexts → contexts → Prop := fun c c' =>
    TransGen (DepthFirst.Edge g.targets) (.context c') (.context c)
  have hcycle : ∃ c, before c c := by
    by_contra hnone
    have hirrefl : Std.Irrefl before := ⟨fun c hc => hnone ⟨c, hc⟩⟩
    obtain ⟨cid, hmem⟩ := hne
    obtain ⟨⟨c, hc⟩, -, hmin⟩ := (Finite.wellFounded_of_trans_of_irrefl before).has_min
      Set.univ ⟨⟨cid, hmem⟩, trivial⟩
    obtain ⟨keyLock, hwait, c', hc', hholds⟩ := hwaits c hc
    exact hmin ⟨c', hc'⟩ trivial (hwait.transGen hholds)
  obtain ⟨⟨c, hc⟩, hcc⟩ := hcycle
  obtain ⟨u, -, hedge⟩ := TransGen.tail'_iff.mp hcc
  obtain ⟨keyLock, -, hholds⟩ := edge_to_context.mp hedge
  exact ⟨c, hc, detectDeadLock_iff.mpr ⟨⟨keyLock, hholds⟩, .context c, .refl, hcc⟩⟩

end Cycles

/-! ## Requests that have failed -/

def Event.IsAcquire (contextID : ContextID) : Event → Prop
  | .acquire _ contextID' _ _ => contextID' = contextID
  | .release _ _ => False

/-- The last request of the context, in the call `seq`, was for the key and has
failed, and the call has not given it up. -/
def Failed (contextID : ContextID) (keyLock : KeyLock) (seq : Seq) (events : List Event) : Prop :=
  Since (.acquire keyLock contextID seq false)
    (fun e => e.IsAcquire contextID ∨ e = .release contextID seq) events

namespace Session

/-- The edge of the last request is there. -/
def Requested (session : Session) : Prop :=
  ∀ contextID keyLock seq, Failed contextID keyLock seq session.events →
    .request contextID keyLock seq ∈ session.locks.edges

variable {session : Session}

theorem Requested.acquire (h : session.Requested) (contract key : Bytes)
    (cid : ContextID) (seq : Seq) : (session.step (.acquire contract key cid seq)).Requested := by
  intro cid' keyLock seq' hfailed
  rw [events_acquire] at hfailed
  rcases since_cons.mp hfailed with heq | ⟨hother, hbefore⟩
  · obtain ⟨rfl, rfl, rfl, hgranted⟩ := Event.acquire.inj heq
    have hheld : ¬ session.locks.Free (contract, key) cid := by
      intro hfree
      rw [acquireKeyLock_iff.mpr hfree] at hgranted
      cases hgranted
    exact (mem_acquireKeyLock_of_held hheld).mpr (.inr rfl)
  · have hne : cid ≠ cid' := fun heq => hother (.inl heq)
    exact request_mem_acquireKeyLock (h cid' keyLock seq' hbefore) hne.symm

theorem Requested.release (h : session.Requested) (cid : ContextID) (seq : Seq) :
    (session.step (.release cid seq)).Requested := by
  intro cid' keyLock seq' hfailed
  rcases since_cons.mp hfailed with heq | ⟨hother, hbefore⟩
  · cases heq
  · refine mem_releaseKeyLocks.mpr ⟨h cid' keyLock seq' hbefore, ?_⟩
    rintro ⟨hincident, rfl⟩
    obtain rfl : cid' = cid := by
      simpa [Incident, Edge.source, Edge.target] using hincident
    exact hother (.inr rfl)

theorem requested_run (calls : List Call) : (run calls).Requested := by
  refine run_induction ?_ (fun _ h => h.acquire) (fun _ h => h.release) calls
  intro cid keyLock seq hfailed
  exact absurd hfailed not_since_nil

/-- Context 3 holds a key and waits for one of two contexts that are in a deadlock. -/
def bystander : List Call :=
  [.acquire [] [2] 3 0, .acquire [] [0] 1 0, .acquire [] [1] 2 0, .acquire [] [1] 1 0,
    .acquire [] [0] 2 0, .acquire [] [0] 3 0]

theorem bystander_detected : (run bystander).locks.detectDeadLock 3 = true ∧
    ¬ TransGen (run bystander).locks.WaitsFor 3 3 := by
  refine ⟨by decide +kernel, fun h => ?_⟩
  -- nobody waits for the key that context 3 holds
  obtain ⟨c, -, keyLock, ⟨seq, hwaits⟩, seq', hholds⟩ := TransGen.tail'_iff.mp h
  have hedges : (run bystander).locks.edges = [.own ([], [2]) 3 0, .own ([], [0]) 1 0,
      .own ([], [1]) 2 0, .request 1 ([], [1]) 0, .request 2 ([], [0]) 0,
      .request 3 ([], [0]) 0] := by decide +kernel
  simp only [hedges, List.mem_cons, reduceCtorEq, Edge.own.injEq, Edge.request.injEq]
    at hwaits hholds
  grind

end Session

end FiscoSmart.Scheduler.GraphKeyLocks
