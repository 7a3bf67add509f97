import FiscoSmart.Scheduler.Dmc

/-!
# What a round does to one transaction

The sets of the pools tell transactions apart only by their numbers, so every call
can be described by what it does to one transaction: to the sets it is in, to its
state and to the number of times it was finished.
-/

namespace FiscoSmart.Scheduler

open Support

variable {cid cid' : ContextID} {hint : MessageHint} {others : Finset ContextID}

/-! ## The view of one transaction -/

/-- The sets of a pool that a transaction is in. -/
structure Marks where
  pending : Bool
  needPrepare : Bool
  hasLocked : Bool
  needScheduleOut : Bool
  needSend : Bool
  needRemove : Bool
deriving DecidableEq

namespace Marks

variable (m : Marks)

def none : Marks := ⟨false, false, false, false, false, false⟩

theorem ne_none {m : Marks} (h : m.pending = true) : m ≠ none := by
  rintro rfl
  cases h

def add : Marks := { m with pending := true, needPrepare := true }

def markAs : MessageHint → Marks
  | .needPrepare => { m with needPrepare := true }
  | .locked => { m with hasLocked := true }
  | .needSend => { m with needSend := true }
  | .needScheduleOut => { m with needScheduleOut := true }
  | .ended => { m with needRemove := true }

def refresh : Marks :=
  let gone := m.needRemove || m.needScheduleOut
  ⟨m.pending && !gone, m.needPrepare && !gone, m.hasLocked && !m.needSend && !gone, false,
    m.needSend, false⟩

def prepared : Marks := { m with needPrepare := false }

def sent : Marks := { m with needSend := false }

end Marks

namespace ExecutivePool

variable (pool : ExecutivePool) {cids : Finset ContextID}

def has (contextIDs : Finset ContextID) (contextID : ContextID) : Bool :=
  contextID ∈ contextIDs

theorem has_iff : has cids cid = true ↔ cid ∈ cids := by
  simp [has]

theorem has_insert_self : has (insert cid cids) cid = true := by
  simp [has]

theorem has_insert_of_ne (h : cid' ≠ cid) : has (insert cid cids) cid' = has cids cid' := by
  simp [has, h]

theorem has_sdiff : has (cids \ others) cid =
      (has cids cid && !has others cid) := by
  simp [has]

theorem has_union : has (cids ∪ others) cid =
      (has cids cid || has others cid) := by
  simp [has]

theorem has_empty : has ∅ cid = false := by
  simp [has]

def marks (contextID : ContextID) : Marks where
  pending := has pool.pendingExecutives contextID
  needPrepare := has pool.needPrepare contextID
  hasLocked := has pool.hasLocked contextID
  needScheduleOut := has pool.needScheduleOut contextID
  needSend := has pool.needSend contextID
  needRemove := has pool.needRemove contextID

theorem marks_add : (pool.add cid).marks cid = (pool.marks cid).add := by
  simp [marks, add, Marks.add, has_insert_self]

theorem marks_add_of_ne (h : cid' ≠ cid) : (pool.add cid).marks cid' = pool.marks cid' := by
  simp [marks, add, has_insert_of_ne h]

theorem marks_markAs : (pool.markAs cid hint).marks cid = (pool.marks cid).markAs hint := by
  cases hint <;> simp [marks, markAs, Marks.markAs, has_insert_self]

theorem marks_markAs_of_ne (h : cid' ≠ cid) :
    (pool.markAs cid hint).marks cid' = pool.marks cid' := by
  cases hint <;> simp [marks, markAs, has_insert_of_ne h]

theorem marks_refresh : pool.refresh.marks cid = (pool.marks cid).refresh := by
  simp [marks, refresh, Marks.refresh, has_sdiff, has_union, has_empty]

end ExecutivePool

/-- The sets that a transaction is in, its state, and how often it was finished. -/
structure View where
  marks : Address → Marks
  state : ExecutiveState
  finished : ℕ

namespace View

variable (v : View)

/-- The view with other marks at one address. -/
def mark (address : Address) (f : Marks → Marks) : View :=
  { v with marks := Function.update v.marks address (f (v.marks address)) }

def withState (state : ExecutiveState) : View := { v with state }

variable (addr : Address)

@[simp] theorem mark_marks (f : Marks → Marks) : (v.mark addr f).marks addr = f (v.marks addr) := by
  simp [mark]

@[simp] theorem mark_marks_of_ne {addr x : Address} (f : Marks → Marks)
    (h : x ≠ addr) : (v.mark addr f).marks x = v.marks x := by
  simp [mark, h]

theorem mark_cases (f : Marks → Marks) (x : Address) :
    (x = addr ∧ (v.mark addr f).marks x = f (v.marks x)) ∨
      (x ≠ addr ∧ (v.mark addr f).marks x = v.marks x) := by
  by_cases hx : x = addr
  · exact .inl ⟨hx, hx ▸ v.mark_marks x f⟩
  · exact .inr ⟨hx, v.mark_marks_of_ne f hx⟩

@[simp] theorem mark_state (f : Marks → Marks) : (v.mark addr f).state = v.state := rfl

@[simp] theorem mark_finished {f : Marks → Marks} : (v.mark addr f).finished = v.finished := rfl

variable (state : ExecutiveState)

@[simp] theorem withState_marks : (v.withState state).marks = v.marks := rfl

@[simp] theorem withState_state : (v.withState state).state = state := rfl

@[simp] theorem withState_finished : (v.withState state).finished = v.finished := rfl

end View

namespace BlockExecutive

variable (b : BlockExecutive)

def view (contextID : ContextID) : View where
  marks address := (b.pools address).marks contextID
  state := b.states contextID
  finished := b.results.countP (fun output => output.contextID = contextID)

@[simp] theorem view_state : (b.view cid).state = b.states cid := rfl

variable (addr : Address) {f : ExecutivePool → ExecutivePool} {output : ExecutionMessage}

theorem view_marks : (b.view cid).marks addr = (b.pools addr).marks cid := rfl

theorem view_withPool {addr : Address} {g : Marks → Marks}
    (h : (f (b.pools addr)).marks cid = g ((b.pools addr).marks cid)) :
    (b.withPool addr f).view cid = (b.view cid).mark addr g := by
  simp only [view, withPool, View.mark, View.mk.injEq, and_self, and_true]
  funext x
  by_cases hx : x = addr
  · subst hx
    simp [h]
  · simp [hx]

theorem view_withPool_of_eq {addr : Address}
    (h : (f (b.pools addr)).marks cid = (b.pools addr).marks cid) :
    (b.withPool addr f).view cid = b.view cid := by
  rw [view_withPool b (g := id) h, View.mark, id, Function.update_eq_self]

theorem view_markAs (hint : MessageHint) : (b.withPool addr (·.markAs cid hint)).view cid =
      (b.view cid).mark addr (·.markAs hint) :=
  view_withPool b (ExecutivePool.marks_markAs _)

theorem view_markAs_of_ne (hint : MessageHint) (h : cid' ≠ cid) :
    (b.withPool addr (·.markAs cid hint)).view cid' = b.view cid' :=
  view_withPool_of_eq b (ExecutivePool.marks_markAs_of_ne _ h)

theorem view_refresh : (b.withPool addr ExecutivePool.refresh).view cid =
      (b.view cid).mark addr Marks.refresh :=
  view_withPool b (ExecutivePool.marks_refresh _)

theorem view_prepared : (b.withPool addr ({ · with needPrepare := ∅ })).view cid =
      (b.view cid).mark addr Marks.prepared :=
  view_withPool b (by simp [ExecutivePool.marks, Marks.prepared, ExecutivePool.has_empty])

theorem view_sent : (b.withPool addr ({ · with needSend := ∅ })).view cid =
      (b.view cid).mark addr Marks.sent :=
  view_withPool b (by simp [ExecutivePool.marks, Marks.sent, ExecutivePool.has_empty])

theorem view_withState (state : ExecutiveState) :
    (b.withState cid state).view cid = (b.view cid).withState state := by
  simp [view, withState, View.withState]

theorem view_withState_of_ne (state : ExecutiveState) (h : cid' ≠ cid) :
    (b.withState cid state).view cid' = b.view cid' := by
  simp [view, withState, h]

@[simp] theorem view_withKeyLocks (keyLocks : GraphKeyLocks) :
    (b.withKeyLocks keyLocks).view cid = b.view cid := rfl

theorem view_scheduleIn : (b.scheduleIn cid addr).view cid = (b.view cid).mark addr Marks.add :=
  view_withPool _ (ExecutivePool.marks_add _)

theorem view_scheduleIn_of_ne (h : cid' ≠ cid) : (b.scheduleIn cid addr).view cid' = b.view cid' :=
  view_withPool_of_eq _ (ExecutivePool.marks_add_of_ne _ h)

theorem view_onTxFinish (h : output.contextID = cid) :
    (b.onTxFinish output).view cid = { b.view cid with finished := (b.view cid).finished + 1 } := by
  simp [view, onTxFinish, h]

theorem view_onTxFinish_of_ne (h : output.contextID ≠ cid) :
    (b.onTxFinish output).view cid = b.view cid := by
  simp [view, onTxFinish, h]

/-- Only pools of registered executors are used. -/
def Registered : Prop :=
  ∀ contextID address, (b.view contextID).marks address ≠ .none → address ∈ b.dmcExecutors

/-- A call that works on one transaction: the others do not change, and executors
whose pools are used are registered. -/
structure Local (contextID : ContextID) (b b' : BlockExecutive) : Prop where
  views : ∀ contextID', contextID' ≠ contextID → b'.view contextID' = b.view contextID'
  executors : b.dmcExecutors ⊆ b'.dmcExecutors
  registered : ∀ address, (b'.view contextID).marks address ≠ .none →
    (b.view contextID).marks address ≠ .none ∨ address ∈ b'.dmcExecutors

namespace Local

variable {b} {b' b'' : BlockExecutive} {addr : Address}

theorem refl (cid : ContextID) (b : BlockExecutive) : Local cid b b :=
  ⟨fun _ _ => rfl, subset_rfl, fun _ h => .inl h⟩

theorem trans (h : Local cid b b') (h' : Local cid b' b'') : Local cid b b'' where
  views c hc := (h'.views c hc).trans (h.views c hc)
  executors := h.executors.trans h'.executors
  registered x hx := by
    rcases h'.registered x hx with hx' | hx'
    · rcases h.registered x hx' with hx'' | hx''
      · exact .inl hx''
      · exact .inr (h'.executors hx'')
    · exact .inr hx'

theorem withKeyLocks (keyLocks : GraphKeyLocks) : Local cid b (b.withKeyLocks keyLocks) :=
  ⟨fun _ _ => rfl, subset_rfl, fun _ h => .inl h⟩

theorem withState (state : ExecutiveState) : Local cid b (b.withState cid state) where
  views c hc := view_withState_of_ne b state hc
  executors := subset_rfl
  registered x hx := by
    exact .inl hx

theorem onTxFinish (h : output.contextID = cid) : Local cid b (b.onTxFinish output) where
  views c hc := view_onTxFinish_of_ne b (by rw [h]; exact hc.symm)
  executors := subset_rfl
  registered x hx := by
    exact .inl hx

theorem markAs (hint : MessageHint) (h : (b.view cid).marks addr ≠ .none) :
    Local cid b (b.withPool addr (·.markAs cid hint)) where
  views c hc := view_markAs_of_ne b addr hint hc
  executors := subset_rfl
  registered x hx := by
    rw [view_markAs] at hx
    rcases (b.view cid).mark_cases addr (·.markAs hint) x with ⟨rfl, -⟩ | ⟨-, heq⟩
    · exact .inl h
    · exact .inl (heq ▸ hx)

theorem scheduleIn (addr : Address) : Local cid b (b.scheduleIn cid addr) where
  views c hc := view_scheduleIn_of_ne b addr hc
  executors := Finset.subset_insert _ _
  registered x hx := by
    rw [view_scheduleIn] at hx
    rcases (b.view cid).mark_cases addr Marks.add x with ⟨rfl, -⟩ | ⟨-, heq⟩
    · exact .inr (Finset.mem_insert_self _ _)
    · exact .inl (heq ▸ hx)

theorem registered_of (h : Local cid b b') (hb : b.Registered) : b'.Registered := by
  intro c x hx
  by_cases hc : c = cid
  · subst hc
    rcases h.registered x hx with hx' | hx'
    · exact h.executors (hb c x hx')
    · exact hx'
  · rw [h.views c hc] at hx
    exact h.executors (hb c x hx)

end Local

end BlockExecutive

/-! ## Loops over transactions -/

open BlockExecutive

/-- The exceptions that the source throws. -/
def DmcError.Thrown : DmcError → Prop
  | .unexpectedKeyLock _ => True
  | .noDeadLockDetected => True
  | .nullMessage => False
  | .emptyCallStack => False

/-- Every transaction of a list that is in the pool is changed by `R`, and the others
are left alone. -/
structure EachView (address : Address) (contextIDs : List ContextID)
    (R : ContextID → View → View → Prop) (b b' : BlockExecutive) : Prop where
  changed : ∀ contextID ∈ contextIDs, ((b.view contextID).marks address).pending = true →
    R contextID (b.view contextID) (b'.view contextID)
  same : ∀ contextID, (contextID ∈ contextIDs →
    ((b.view contextID).marks address).pending = false) → b'.view contextID = b.view contextID
  executors : b.dmcExecutors ⊆ b'.dmcExecutors
  registered : b.Registered → b'.Registered

namespace DmcExecutor

variable {addr : Address} {b : BlockExecutive} {E : DmcError → BlockExecutive → Prop}
  {handler : ContextID → DmcM Bool} {cids : List ContextID}

theorem pending_iff : ((b.view cid).marks addr).pending = true ↔
      cid ∈ (b.pools addr).pendingExecutives := by
  simp [view_marks, ExecutivePool.marks, ExecutivePool.has_iff]

/-- A loop over transactions whose body changes what is seen of its own transaction
only.  `T` relates the whole blocks. -/
theorem forEach_each {α : Type} {see : BlockExecutive → ContextID → α}
    (hsee : ∀ b b' cid, see b' cid = see b cid →
      ((b'.view cid).marks addr).pending = ((b.view cid).marks addr).pending)
    {T : BlockExecutive → BlockExecutive → Prop} (hrefl : ∀ b, T b b)
    (htrans : ∀ b b' b'', T b b' → T b' b'' → T b b'') {R : ContextID → α → α → Prop}
    {I : ContextID → α → Prop}
    (hhandler : ∀ cid b, ((b.view cid).marks addr).pending = true → I cid (see b cid) →
      Ensures (· = b) (handler cid) (fun needContinue b' => needContinue = true ∧
        (∀ cid', cid' ≠ cid → see b' cid' = see b cid') ∧
        T b b' ∧ R cid (see b cid) (see b' cid)) E) (hnodup : cids.Nodup)
    (hI : ∀ cid ∈ cids, ((b.view cid).marks addr).pending = true → I cid (see b cid)) :
    Ensures (· = b) (forEach addr handler cids) (fun _ b' =>
        (∀ cid ∈ cids, ((b.view cid).marks addr).pending = true → R cid (see b cid) (see b' cid)) ∧
        (∀ cid, (cid ∈ cids → ((b.view cid).marks addr).pending = false) →
          see b' cid = see b cid) ∧ T b b') E := by
  induction cids generalizing b with
  | nil => exact Ensures.of_pureAt ⟨by simp, by simp, hrefl b⟩
  | cons c cids ih =>
    rw [List.nodup_cons] at hnodup
    have hvisit : Ensures (· = b) (visit addr handler c)
        (fun needContinue b₁ => needContinue = true ∧
          (∀ cid', cid' ≠ c → see b₁ cid' = see b cid') ∧ T b b₁ ∧
          (((b.view c).marks addr).pending = true → R c (see b c) (see b₁ c)) ∧
          (((b.view c).marks addr).pending = false → see b₁ c = see b c)) E := by
      apply Ensures.getAt
      apply Ensures.of_ite
      · intro hmem
        have hpend := pending_iff.mpr hmem
        refine (hhandler c b hpend (hI c List.mem_cons_self hpend)).post ?_
        rintro needContinue b₁ ⟨hcontinue, hother, hT, hR⟩
        refine ⟨hcontinue, hother, hT, fun _ => hR, ?_⟩
        rw [hpend]
        simp
      · intro hmem
        refine Ensures.of_pureAt ⟨rfl, fun _ _ => rfl, hrefl b, ?_, fun _ => rfl⟩
        intro hpend
        exact absurd (pending_iff.mp hpend) hmem
    apply hvisit.bindAt
    rintro needContinue b₁ ⟨rfl, hother, hT, hchanged, hsame⟩
    have hne : ∀ cid ∈ cids, cid ≠ c := fun cid hmem heq =>
      hnodup.1 (heq ▸ hmem)
    have hpend : ∀ cid, cid ≠ c → ((b₁.view cid).marks addr).pending =
          ((b.view cid).marks addr).pending := fun cid hc =>
      hsee b b₁ cid (hother cid hc)
    refine (ih hnodup.2 fun cid hmem hpend₁ => ?_).post ?_
    · rw [hpend cid (hne cid hmem)] at hpend₁
      rw [hother cid (hne cid hmem)]
      exact hI cid (List.mem_cons_of_mem _ hmem) hpend₁
    · rintro _ b₂ ⟨hchanged₂, hsame₂, hT₂⟩
      have hc : see b₂ c = see b₁ c := hsame₂ c fun hmem => absurd hmem hnodup.1
      refine ⟨fun cid hmem hpend' => ?_, fun cid hnot => ?_, htrans b b₁ b₂ hT hT₂⟩
      · rcases List.mem_cons.mp hmem with rfl | hmem
        · rw [hc]
          exact hchanged hpend'
        · have hne' := hne cid hmem
          have hR := hchanged₂ cid hmem (by rw [hpend cid hne']; exact hpend')
          rwa [hother cid hne'] at hR
      · by_cases heq : cid = c
        · subst heq
          rw [hc, hsame (hnot List.mem_cons_self)]
        · rw [← hother cid heq]
          refine hsame₂ cid fun hmem => ?_
          rw [hpend cid heq]
          exact hnot (List.mem_cons_of_mem _ hmem)

theorem forEach_spec {R : ContextID → View → View → Prop} {I : ContextID → View → Prop}
    (hhandler : ∀ cid b, ((b.view cid).marks addr).pending = true → I cid (b.view cid) →
      Ensures (· = b) (handler cid) (fun needContinue b' => needContinue = true ∧
        Local cid b b' ∧ R cid (b.view cid) (b'.view cid)) E) (hnodup : cids.Nodup)
    (hI : ∀ cid ∈ cids, ((b.view cid).marks addr).pending = true →
      I cid (b.view cid)) : Ensures (· = b) (forEach addr handler cids)
      (fun _ b' => EachView addr cids R b b') E := by
  refine (forEach_each (R := R) (T := fun b b' => b.dmcExecutors ⊆ b'.dmcExecutors ∧
    (b.Registered → b'.Registered)) (fun b b' cid h => by rw [h]) (fun b => ⟨subset_rfl, id⟩)
    (fun b b' b'' h h' => ⟨h.1.trans h'.1, fun hb => h'.2 (h.2 hb)⟩)
    (fun cid b' hpend hI' => (hhandler cid b' hpend hI').post ?_) hnodup hI).post ?_
  · rintro needContinue b'' ⟨hcontinue, hlocal, hR⟩
    exact ⟨hcontinue, hlocal.views, ⟨hlocal.executors, hlocal.registered_of⟩, hR⟩
  · rintro _ b' ⟨hchanged, hsame, hexecutors, hreg⟩
    exact ⟨hchanged, hsame, hexecutors, hreg⟩

end DmcExecutor

end FiscoSmart.Scheduler
