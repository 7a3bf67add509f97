import FiscoSmart.Scheduler.DmcView

/-!
# What `prepare` does to one transaction

An executor that is prepared first drops what it has given away or finished.  Then it
handles its messages.  A message may be for another address, and its transaction is
put into the pool there; the pool that it leaves drops it at the end.
-/

namespace FiscoSmart.Scheduler

open BlockExecutive DmcExecutor
open Support

variable {env : Env} {addr : Address} {cid : ContextID} {b : BlockExecutive}
  {E : DmcError → BlockExecutive → Prop} {cids : Finset ContextID} {hint : MessageHint}
  {v v' : View}

/-! ## States of a transaction -/

/-- The transaction has a message that can be handled. -/
def Ready (contextID : ContextID) (state : ExecutiveState) : Prop :=
  ∃ message, state.message = some message ∧ message.contextID = contextID ∧
    (isRequest message.type = true ∨ message.type = .sendBack ∨ state.callStack ≠ [])

/-- The transaction has a message that can be sent. -/
def Sendable (contextID : ContextID) (state : ExecutiveState) : Prop :=
  state.callStack ≠ [] ∧ ∃ message, state.message = some message ∧ message.contextID = contextID

/-- The address that the message of a transaction goes to. -/
def destination (env : Env) (contextID : ContextID) (state : ExecutiveState) : Address :=
  match state.message with
  | some message => (handleCreateMessage env contextID state message).2.toAddress
  | none => []

/-- What `handleExecutiveMessage` makes of a transaction. -/
inductive Handled (env : Env) (address : Address) (contextID : ContextID) (v : View) :
    MessageHint → View → Prop
  | scheduleOut (state : ExecutiveState) (message : ExecutionMessage)
      (hmessage : state.message = some message) (hready : Ready contextID state)
      (hne : message.toAddress ≠ address)
      (hfrom : message.toAddress = destination env contextID v.state)
      (hto : message.toAddress = destination env contextID state) :
      Handled env address contextID v .needScheduleOut (v.withState state)
  | send (state : ExecutiveState) (h : Sendable contextID state) :
      Handled env address contextID v .needSend (v.withState state)
  | locked (state : ExecutiveState) (h : Sendable contextID state) :
      Handled env address contextID v .locked (v.withState state)
  | ended (state : ExecutiveState) :
      Handled env address contextID v .ended ⟨v.marks, state, v.finished + 1⟩

theorem Handled.marks_eq (h : Handled env addr cid v hint v') : v'.marks = v.marks := by
  cases h <;> rfl

section Handling

variable {state : ExecutiveState} {msg : ExecutionMessage}

theorem createAddress_eq (env : Env) (cid : ContextID) (state : ExecutiveState)
    (msg : ExecutionMessage) : ∃ toAddress, createAddress env cid state msg =
      { msg with toAddress := toAddress } := by
  rw [createAddress]
  split
  · exact ⟨_, rfl⟩
  · exact ⟨msg.toAddress, rfl⟩

theorem handleCreateMessage_ready (hid : msg.contextID = cid)
    (h : isRequest msg.type = true ∨ msg.type = .sendBack ∨ state.callStack ≠ []) :
    (handleCreateMessage env cid state msg).2.contextID = cid ∧
      (isRequest (handleCreateMessage env cid state msg).2.type = true ∨
        ((handleCreateMessage env cid state msg).2.type ≠ .sendBack ∧
          (handleCreateMessage env cid state msg).1.callStack ≠ [])) := by
  obtain ⟨toAddress, hcreate⟩ := createAddress_eq env cid (restart state msg).1
    (restart state msg).2
  simp only [handleCreateMessage, hcreate]
  rw [restart]
  by_cases hback : msg.type = .sendBack
  · rw [if_pos hback]
    refine ⟨hid, .inl ?_⟩
    split <;> rfl
  · rw [if_neg hback]
    refine ⟨hid, ?_⟩
    rcases h with hreq | hback' | hstack
    · exact .inl hreq
    · exact absurd hback' hback
    · exact .inr ⟨hback, hstack⟩

theorem handleCreateMessage_idem : (handleCreateMessage env cid
        { (handleCreateMessage env cid state msg).1 with
          message := some (handleCreateMessage env cid state msg).2 }
        (handleCreateMessage env cid state msg).2).2.toAddress =
      (handleCreateMessage env cid state msg).2.toAddress := by
  have hnot : ∀ (s : ExecutiveState) (m : ExecutionMessage), m.type ≠ .sendBack →
      (handleCreateMessage env cid { s with message := some (createAddress env cid s m) }
        (createAddress env cid s m)).2.toAddress = (createAddress env cid s m).toAddress := by
    intro s m hm
    simp only [createAddress]
    split
    · rename_i hnew
      simp only [handleCreateMessage, restart, if_neg hm, createAddress]
      split <;> rfl
    · rename_i hold
      simp [handleCreateMessage, restart, if_neg hm, createAddress, if_neg hold]
  simp only [handleCreateMessage, restart]
  by_cases hback : msg.type = .sendBack
  · simp only [if_pos hback]
    refine hnot _ _ ?_
    split <;> simp
  · simp only [if_neg hback]
    exact hnot _ _ hback

theorem acquireKeyLocks_spec : Ensures (· = b) (acquireKeyLocks msg)
      (fun _ b' => ∃ keyLocks, b' = b.withKeyLocks keyLocks) (fun e _ => e.Thrown) := by
  apply Ensures.getAt
  split
  · exact Ensures.setAt ⟨_, rfl⟩
  · refine (Ensures.setAt (Q := fun _ _ => True) trivial).bindAt ?_
    intro _ s _
    exact .of_throwAt trivial

theorem handled_withState {keyLocks : GraphKeyLocks}
    (h : Handled env addr cid (b.view cid) hint ((b.view cid).withState state)) :
    Local cid b ((b.withKeyLocks keyLocks).withState cid state) ∧
      Handled env addr cid (b.view cid) hint
        (((b.withKeyLocks keyLocks).withState cid state).view cid) := by
  refine ⟨(Local.withKeyLocks keyLocks).trans (.withState state), ?_⟩
  rw [view_withState, view_withKeyLocks]
  exact h

theorem handleReturn_spec (hid : msg.contextID = cid) (hstack : state.callStack ≠ []) :
    Ensures (· = b) (handleReturn cid state msg) (fun hint b' => Local cid b b' ∧
        Handled env addr cid (b.view cid) hint (b'.view cid)) (fun e _ => e.Thrown) := by
  rw [handleReturn]
  split
  · rename_i hnil
    exact absurd hnil hstack
  · apply Ensures.modify_bindAt
    apply Ensures.of_pureAt
    refine ⟨(Local.withState _).trans (.onTxFinish hid), ?_⟩
    rw [view_onTxFinish _ hid, view_withState]
    exact .ended _
  · rename_i seq callStack heq
    apply Ensures.modify_bindAt
    apply Ensures.of_pureAt
    exact handled_withState (.send _ ⟨List.cons_ne_nil _ _, _, rfl, hid⟩)

theorem handleMessage_spec (hid : msg.contextID = cid)
    (hready : isRequest msg.type = true ∨ (msg.type ≠ .sendBack ∧ state.callStack ≠ []))
    (hfrom : msg.toAddress = destination env cid (b.states cid))
    (hto : msg.toAddress = destination env cid { state with message := some msg }) :
    Ensures (· = b) (handleMessage addr cid state msg) (fun hint b' => Local cid b b' ∧
        Handled env addr cid (b.view cid) hint (b'.view cid)) (fun e _ => e.Thrown) := by
  rw [handleMessage]
  apply Ensures.of_ite
  · intro hne
    apply Ensures.modify_bindAt
    apply Ensures.of_pureAt
    refine handled_withState (.scheduleOut _ msg rfl ?_ hne hfrom hto)
    refine ⟨msg, rfl, hid, ?_⟩
    rcases hready with hreq | ⟨-, hstack⟩
    · exact .inl hreq
    · exact .inr (.inr hstack)
  · intro _
    -- the lock is taken, then the state changes
    have hacquire : ∀ (state' : ExecutiveState) (hint : MessageHint),
        Handled env addr cid (b.view cid) hint ((b.view cid).withState state') → Ensures (· = b) (do
            acquireKeyLocks msg
            modify (·.withState cid state')
            return hint)
          (fun hint b' => Local cid b b' ∧ Handled env addr cid (b.view cid) hint (b'.view cid))
          (fun e _ => e.Thrown) := by
      intro state' hint h
      apply acquireKeyLocks_spec.bindAt
      rintro _ _ ⟨keyLocks, rfl⟩
      apply Ensures.modify_bindAt
      apply Ensures.of_pureAt
      exact handled_withState h
    rcases htype : msg.type with - | - | - | - | - | -
    · exact hacquire _ _ (.send _ ⟨List.cons_ne_nil _ _, _, rfl, hid⟩)
    · exact hacquire _ _ (.send _ ⟨List.cons_ne_nil _ _, _, rfl, hid⟩)
    · rw [htype] at hready
      simp only [isRequest, Bool.false_eq_true, false_or] at hready
      exact handleReturn_spec hid hready.2
    · rw [htype] at hready
      simp only [isRequest, Bool.false_eq_true, false_or] at hready
      exact hacquire _ _ (.locked _ ⟨hready.2, _, rfl, hid⟩)
    · simp [htype, isRequest] at hready
    · rw [htype] at hready
      simp only [isRequest, Bool.false_eq_true, false_or] at hready
      exact handleReturn_spec hid hready.2

theorem message_spec (h : (b.states cid).message = some msg) :
    Ensures (· = b) (DmcExecutor.message cid)
      (fun msg' b' => msg' = msg ∧ b' = b) (fun e _ => e.Thrown) := by
  apply Ensures.getAt
  rw [h]
  exact .of_pureAt ⟨rfl, rfl⟩

/-- A transaction may have no message; the block is not changed. -/
theorem message_reads (hE : (b.states cid).message = none → E .nullMessage b) :
    Ensures (· = b) (DmcExecutor.message cid)
      (fun msg b' => b' = b ∧ (b.states cid).message = some msg) E := by
  apply Ensures.getAt
  split
  · exact .of_pureAt ⟨rfl, ‹_›⟩
  · exact .of_throwAt (hE ‹_›)

theorem handleExecutiveMessage_spec (h : Ready cid (b.states cid)) :
    Ensures (· = b) (handleExecutiveMessage env addr cid) (fun hint b' => Local cid b b' ∧
        Handled env addr cid (b.view cid) hint (b'.view cid)) (fun e _ => e.Thrown) := by
  obtain ⟨msg, hmsg, hid, hready⟩ := h
  apply (message_spec hmsg).bindAt
  rintro _ _ ⟨rfl, rfl⟩
  apply Ensures.getAt
  obtain ⟨hid', hready'⟩ := handleCreateMessage_ready hid hready
  apply handleMessage_spec hid' hready'
  · rw [destination, hmsg]
  · exact handleCreateMessage_idem.symm

end Handling

/-! ## The four parts of `prepare` -/

namespace View

/-- The transaction is put into the pool that its message is for. -/
def scheduledOut (v : View) (address : Address) : View :=
  if (v.marks address).needScheduleOut = true ∧ (v.marks address).pending = true then
    v.mark ((v.state.message.map ExecutionMessage.toAddress).getD []) Marks.add
  else v

end View

/-- The message of the transaction is handled if it has to be. -/
def PreparedMessage (env : Env) (address : Address) (contextID : ContextID) (v v' : View) : Prop :=
  ((v.marks address).needPrepare = true → (v.marks address).pending = true →
    ∃ hint v₁, Handled env address contextID v hint v₁ ∧
      v' = (v₁.mark address (·.markAs hint)).mark address Marks.prepared) ∧
  ((v.marks address).needPrepare = false ∨ (v.marks address).pending = false →
    v' = v.mark address Marks.prepared)

/-- `prepare` for one transaction, and whether it is moved. -/
def PreparedView (env : Env) (address : Address) (contextID : ContextID) (v : View)
    (moved : Bool) (v' : View) : Prop :=
  ∃ v₁, PreparedMessage env address contextID (v.mark address Marks.refresh) v₁ ∧
    moved = (v₁.marks address).needScheduleOut ∧
    v' = (v₁.scheduledOut address).mark address Marks.refresh

theorem mem_elements : cid ∈ elements cids ↔ cid ∈ cids := by
  simp [elements]

theorem nodup_elements : (elements cids).Nodup :=
  Finset.sort_nodup _ _

theorem registered_withPool {f : ExecutivePool → ExecutivePool}
    (h : ∀ cid, (b.pools addr).marks cid = .none →
      (f (b.pools addr)).marks cid = .none) (hb : b.Registered) :
    (b.withPool addr f).Registered := by
  intro cid x hx
  by_cases hxa : x = addr
  · subst hxa
    apply hb cid x
    intro hnone
    apply hx
    rw [view_marks] at hnone ⊢
    simpa [withPool] using h cid hnone
  · apply hb cid x
    rw [view_marks] at hx ⊢
    simpa [withPool, hxa] using hx

theorem refresh_spec :
    Ensures (· = b) (DmcExecutor.refresh addr) (fun _ b' => (∀ cid,
          b'.view cid = (b.view cid).mark addr Marks.refresh) ∧
        b'.dmcExecutors = b.dmcExecutors ∧ (b.Registered → b'.Registered)) E := by
  apply Ensures.modifyAt
  refine ⟨fun cid => view_refresh b addr, rfl, registered_withPool ?_⟩
  intro cid hnone
  rw [ExecutivePool.marks_refresh, hnone]
  rfl

theorem prepareMessage_spec (hpend : ((b.view cid).marks addr).pending = true)
    (h : Ready cid (b.view cid).state) : Ensures (· = b) (prepareMessage env addr cid)
      (fun needContinue b' => needContinue = true ∧ Local cid b b' ∧
        ∃ hint v₁, Handled env addr cid (b.view cid) hint v₁ ∧
          b'.view cid = v₁.mark addr (·.markAs hint)) (fun e _ => e.Thrown) := by
  apply (handleExecutiveMessage_spec h).bindAt
  rintro hint b₁ ⟨hlocal, hhandled⟩
  apply Ensures.modify_bindAt
  apply Ensures.of_pureAt
  refine ⟨rfl, hlocal.trans (.markAs hint ?_), hint, b₁.view cid, hhandled,
    view_markAs b₁ addr hint⟩
  rw [hhandled.marks_eq]
  exact Marks.ne_none hpend

theorem prepareMessages_spec (h : ∀ cid, ((b.view cid).marks addr).needPrepare = true →
      ((b.view cid).marks addr).pending = true →
      Ready cid (b.view cid).state) : Ensures (· = b) (prepareMessages env addr)
      (fun _ b' => (∀ cid, PreparedMessage env addr cid (b.view cid) (b'.view cid)) ∧
        b.dmcExecutors ⊆ b'.dmcExecutors ∧ (b.Registered → b'.Registered))
      (fun e _ => e.Thrown) := by
  apply Ensures.getAt
  have hneed : ∀ cid, ((b.view cid).marks addr).needPrepare = true ↔
      cid ∈ elements (b.pools addr).needPrepare := by
    intro cid
    rw [mem_elements, view_marks, ExecutivePool.marks, ExecutivePool.has_iff]
  apply (forEach_spec (I := fun cid v => Ready cid v.state)
    (R := fun cid v v' => ∃ hint v₁, Handled env addr cid v hint v₁ ∧
      v' = v₁.mark addr (·.markAs hint))
    (fun cid b' => prepareMessage_spec) nodup_elements ?_).bindAt
  · intro _ b₁ hrun
    refine Ensures.modifyAt ⟨?_, hrun.executors, ?_⟩
    · intro cid
      rw [view_prepared]
      constructor
      · intro hprep hpend
        obtain ⟨hint, v₁, hhandled, hview⟩ :=
          hrun.changed cid ((hneed cid).mp hprep) hpend
        exact ⟨hint, v₁, hhandled, by rw [hview]⟩
      · intro hnot
        rw [hrun.same cid]
        intro hmem
        rcases hnot with hprep | hpend
        · rw [(hneed cid).mpr hmem] at hprep
          cases hprep
        · exact hpend
    · intro hb
      refine registered_withPool ?_ (hrun.registered hb)
      intro cid hnone
      have hmarks : ∀ pool : ExecutivePool, ({ pool with needPrepare := ∅ } :
          ExecutivePool).marks cid = (pool.marks cid).prepared := by
        simp [ExecutivePool.marks, Marks.prepared, ExecutivePool.has_empty]
      rw [hmarks, hnone]
      rfl
  · intro cid hmem hpend
    exact h cid ((hneed cid).mpr hmem) hpend

theorem scheduleOut_spec (h : (b.view cid).state.message ≠ none) :
    Ensures (· = b) (scheduleOut cid) (fun needContinue b' => needContinue = true ∧ Local cid b b' ∧
        b'.view cid = (b.view cid).mark
          (((b.view cid).state.message.map ExecutionMessage.toAddress).getD []) Marks.add)
      (fun e _ => e.Thrown) := by
  obtain ⟨msg, hmsg⟩ := Option.ne_none_iff_exists'.mp h
  apply (message_spec hmsg).bindAt
  rintro msg b ⟨rfl, rfl⟩
  apply Ensures.modify_bindAt
  apply Ensures.of_pureAt
  refine ⟨rfl, .scheduleIn _, ?_⟩
  rw [view_scheduleIn, hmsg]
  rfl

theorem scheduleOuts_spec (h : ∀ cid, ((b.view cid).marks addr).needScheduleOut = true →
      (b.view cid).state.message ≠ none) : Ensures (· = b) (scheduleOuts addr)
      (fun hasScheduleOut b' =>
        (∀ cid, b'.view cid = (b.view cid).scheduledOut addr) ∧
        (hasScheduleOut = true ↔ ∃ cid, ((b.view cid).marks addr).needScheduleOut = true) ∧
        b.dmcExecutors ⊆ b'.dmcExecutors ∧ (b.Registered → b'.Registered))
      (fun e _ => e.Thrown) := by
  apply Ensures.getAt
  have hneed : ∀ cid, ((b.view cid).marks addr).needScheduleOut = true ↔
      cid ∈ (b.pools addr).needScheduleOut := by
    intro cid
    rw [view_marks, ExecutivePool.marks, ExecutivePool.has_iff]
  apply (forEach_spec (I := fun _ v => v.state.message ≠ none) (R := fun _ v v' => v' = v.mark
      ((v.state.message.map ExecutionMessage.toAddress).getD []) Marks.add)
    (fun cid b' _ => scheduleOut_spec) nodup_elements ?_).bindAt
  · intro _ b₁ hrun
    refine .of_pureAt ⟨?_, ?_, hrun.executors, hrun.registered⟩
    · intro cid
      rw [View.scheduledOut]
      split
      · rename_i hout
        exact hrun.changed cid (mem_elements.mpr ((hneed cid).mp hout.1)) hout.2
      · rename_i hnot
        apply hrun.same
        intro hmem
        have hout := (hneed cid).mpr (mem_elements.mp hmem)
        simpa [hout] using hnot
    · rw [decide_eq_true_iff, ← Finset.nonempty_iff_ne_empty]
      simp [Finset.Nonempty, hneed]
  · intro cid hmem _
    exact h cid ((hneed cid).mpr (mem_elements.mp hmem))

/-- No mark is left where a message was handled, or it is one that was made. -/
theorem PreparedMessage.message_ne_none
    (h : PreparedMessage env addr cid (v.mark addr Marks.refresh) v')
    (hout : (v'.marks addr).needScheduleOut = true) : v'.state.message ≠ none := by
  by_cases hneed : ((v.mark addr Marks.refresh).marks addr).needPrepare = true ∧
      ((v.mark addr Marks.refresh).marks addr).pending = true
  · obtain ⟨hint, v₁, hhandled, rfl⟩ := h.1 hneed.1 hneed.2
    rcases hhandled with ⟨state, msg, hmsg, -, -, -, -⟩ | ⟨state, -⟩ | ⟨state, -⟩ | state
    · simp [hmsg]
    · simp [Marks.markAs, Marks.prepared, Marks.refresh] at hout
    · simp [Marks.markAs, Marks.prepared, Marks.refresh] at hout
    · simp [Marks.markAs, Marks.prepared, Marks.refresh] at hout
  · have hview := h.2 (by simpa [← Bool.not_eq_true, ← not_and_or] using hneed)
    subst hview
    simp [Marks.prepared, Marks.refresh] at hout

theorem prepare_spec (h : ∀ cid,
      (((b.view cid).mark addr Marks.refresh).marks addr).needPrepare = true →
      (((b.view cid).mark addr Marks.refresh).marks addr).pending = true →
      Ready cid (b.view cid).state) : Ensures (· = b) (prepare env addr)
      (fun hasScheduleOut b' => (∃ moved : ContextID → Bool,
          (∀ cid, PreparedView env addr cid (b.view cid) (moved cid) (b'.view cid)) ∧
          (hasScheduleOut = true ↔ ∃ cid, moved cid = true)) ∧
        b.dmcExecutors ⊆ b'.dmcExecutors ∧ (b.Registered → b'.Registered))
      (fun e _ => e.Thrown) := by
  apply refresh_spec.bindAt
  rintro _ b₁ ⟨hviews₁, hexecutors₁, hreg₁⟩
  apply (prepareMessages_spec (by simpa only [hviews₁, View.mark_state] using h)).bindAt
  rintro _ b₂ ⟨hviews₂, hexecutors₂, hreg₂⟩
  simp only [hviews₁] at hviews₂
  apply (scheduleOuts_spec (fun cid => (hviews₂ cid).message_ne_none)).bindAt
  rintro hasScheduleOut b₃ ⟨hviews₃, hout, hexecutors₃, hreg₃⟩
  apply refresh_spec.bindAt
  rintro _ b₄ ⟨hviews₄, hexecutors₄, hreg₄⟩
  refine .of_pureAt ⟨⟨fun cid =>
    ((b₂.view cid).marks addr).needScheduleOut, ?_, hout⟩, ?_, ?_⟩
  · intro cid
    exact ⟨b₂.view cid, hviews₂ cid, rfl, by rw [hviews₄, hviews₃]⟩
  · rw [hexecutors₄, ← hexecutors₁]
    exact hexecutors₂.trans hexecutors₃
  · exact fun hb => hreg₄ (hreg₃ (hreg₂ (hreg₁ hb)))

end FiscoSmart.Scheduler
