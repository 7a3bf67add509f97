import FiscoSmart.Scheduler.DmcFrameRounds

/-!
# Call frames along an execution

An execution is followed together with the messages that the scheduler and the
executors exchange for each transaction.  An executor answers a message with a
message of the frame that the message was for: a call, a request for a lock, or the
result of the frame.  The executors of the DAG may also send a transaction back as it
came.

In every such execution the frames are well bracketed, and `callStack` is never
popped when it is empty.
-/

namespace FiscoSmart.Scheduler

open BlockExecutive DmcExecutor Function List
open Support
open GraphKeyLocks (Edge)

variable {log : List Exchange} {edges : Set Edge} {state : ExecutiveState} {msg : ExecutionMessage}
  {b : BlockExecutive} {cids : Finset ContextID} {cid : ContextID} {v : View}

/-! ## Executions with their exchanges -/

/-- The exchanges for every transaction, the last one first. -/
abbrev Logs := ContextID → List Exchange

/-- The messages of `go` are sent. -/
def enterSent (messages : List ExecutionMessage) (logs : Logs) : Logs := fun contextID =>
  (messages.filter fun message => message.contextID = contextID).map .sent ++ logs contextID

def enterAnswer (message : ExecutionMessage) (logs : Logs) : Logs :=
  update logs message.contextID (.answered message :: logs message.contextID)

/-- The DAG sends the messages of its transactions and gets the answers. -/
def enterDag (b : BlockExecutive) (responses : ContextID → ExecutionMessage) (logs : Logs) :
    Logs := fun contextID =>
  if (b.states contextID).enableDAG ∧
      ∃ address ∈ b.dmcExecutors, contextID ∈ (b.pools address).pendingExecutives then
    .answered (responses contextID) ::
      ((b.states contextID).message.toList.map .sent ++ logs contextID)
  else logs contextID

/-- The answer is a message of the frame that the last message was for. -/
def Answers (log : List Exchange) (answer : ExecutionMessage) : Prop :=
  ∃ message before, log = .sent message :: before ∧ answer.seq = message.seq ∧
    answer.type ≠ .sendBack

/-- The answer of the DAG is a message of the frame, or the message is sent back. -/
def AnswersDag (message answer : ExecutionMessage) : Prop :=
  answer.seq = message.seq ∧ (answer.type = .sendBack → answer.keyLocks = message.keyLocks)

structure Tracked where
  execution : Execution
  logs : Logs

variable {answer : ExecutionMessage} {b' : BlockExecutive} {logs : Logs} {env : Env}

namespace Tracked

/-- The steps of an execution in which the executors answer as they should. -/
inductive Step (env : Env) : Tracked → Tracked → Prop
  | prepare {b b' : BlockExecutive} {logs : Logs} (h : SerialPrepared env b b') :
      Step env ⟨⟨b, .built⟩, logs⟩ ⟨⟨b', .ready⟩, logs⟩
  | call {b : BlockExecutive} {logs : Logs} : Step env ⟨⟨b, .built⟩, logs⟩ ⟨⟨b, .ready⟩, logs⟩
  | dag {b : BlockExecutive} {logs : Logs} (responses : ContextID → ExecutionMessage)
      (h : ∀ contextID, (responses contextID).contextID = contextID)
      (hanswers : ∀ contextID message, (b.states contextID).message = some message →
        AnswersDag message (responses contextID)) : Step env ⟨⟨b, .built⟩, logs⟩
        ⟨⟨b.dagExecute responses, .ready⟩, enterDag b responses logs⟩
  | round {b b' : BlockExecutive} {logs : Logs} (h : SerialPrepared env b b') :
      Step env ⟨⟨b, .ready⟩, logs⟩ ⟨⟨b', .sending b'.dmcExecutors [] false⟩, logs⟩
  | go {b b' : BlockExecutive} {logs : Logs} {toGo : Finset Address}
      {inFlight : List (Address × ContextID)} {paused : Bool} (address : Address)
      (status : DmcExecutor.Status) (haddress : address ∈ toGo)
      (h : DmcExecutor.go address b = .ok status b') :
      Step env ⟨⟨b, .sending toGo inFlight paused⟩, logs⟩ ⟨⟨b', .sending (toGo.erase address)
          ((Execution.sentMessages status).map (fun m => (address, m.contextID)) ++ inFlight)
          (paused || status ≠ .finished)⟩, enterSent (Execution.sentMessages status) logs⟩
  | output {b b' : BlockExecutive} {logs : Logs} {toGo : Finset Address}
      {inFlight : List (Address × ContextID)} {paused : Bool} (address : Address)
      (message : ExecutionMessage) (hsent : (address, message.contextID) ∈ inFlight)
      (hanswers : Answers (logs message.contextID) message)
      (h : DmcExecutor.handleExecutiveOutput address message b = .ok PUnit.unit b') :
      Step env ⟨⟨b, .sending toGo inFlight paused⟩, logs⟩
        ⟨⟨b', .sending toGo (inFlight.erase (address, message.contextID)) paused⟩,
          enterAnswer message logs⟩
  | next {b : BlockExecutive} {logs : Logs} :
      Step env ⟨⟨b, .sending ∅ [] true⟩, logs⟩ ⟨⟨b, .ready⟩, logs⟩
  | finish {b : BlockExecutive} {logs : Logs} :
      Step env ⟨⟨b, .sending ∅ [] false⟩, logs⟩ ⟨⟨b, .finished⟩, logs⟩

theorem Step.execution (h : Step env t t') : Execution.Step env t.execution t'.execution := by
  cases h with
  | prepare h => exact .prepare h
  | call => exact .call
  | dag responses h _ => exact .dag responses h
  | round h => exact .round h
  | go addr status haddr h => exact .go addr status haddr h
  | output addr msg hsent _ h => exact .output addr msg hsent h
  | next => exact .next
  | finish => exact .finish

def Reachable (env : Env) (startContextID : ContextID) (txs : List Submission)
    (t : Tracked) : Prop :=
  Relation.ReflTransGen (Step env) ⟨Execution.start startContextID txs, fun _ => []⟩ t

end Tracked

/-! ## Messages that are sent and answered -/

section Exchanged

variable {before : List Exchange}

theorem Stacked.sent (h : Stacked log edges state) (hfollows : Follows log msg)
    (hstack : state.callStack = openFrames (.sent msg :: log))
    (hhead : (openFrames (.sent msg :: log)).head? = some msg.seq) :
    Stacked (.sent msg :: log) edges { state with message := none } := by
  refine ⟨h.bracketed.sent hfollows, .exact hstack, fun seq hopened => ?_, h.bounded, h.locks,
    fun msg' before' hlog => ?_⟩
  · rcases opened_cons_sent hopened with hopened | ⟨-, rfl⟩
    · exact h.opened seq hopened
    · refine h.bounded msg.seq ?_
      rw [hstack]
      exact mem_of_mem_head? hhead
  · obtain ⟨hsent, -⟩ := List.cons.inj hlog
    cases hsent
    exact ⟨hstack, hhead⟩

theorem Stacked.answered (h : Stacked (.sent msg :: before) edges state)
    (hseq : answer.seq = msg.seq) (hback : answer.type = .sendBack →
      state.callStack = [answer.seq] ∧ answer.keyLocks = [] ∧ edges = ∅) :
    Stacked (.answered answer :: .sent msg :: before) edges { state with message := some answer } ∧
      Unhandled (.answered answer :: .sent msg :: before) edges
        { state with message := some answer } := by
  obtain ⟨hstack, hhead⟩ := h.running msg before rfl
  rw [← hseq] at hhead
  have hstacked : Chain (.answered answer :: .sent msg :: before)
      { state with message := some answer } →
      Stacked (.answered answer :: .sent msg :: before) edges
        { state with message := some answer } := fun hchain =>
    ⟨h.bracketed.answered hhead, hchain, fun seq hopened =>
      h.opened seq (opened_cons_answered hopened), h.bounded, h.locks,
      fun msg' before' hlog => by cases (List.cons.inj hlog).1⟩
  by_cases hreturn : isReturn answer.type = true
  · -- the frame is closed
    obtain ⟨frames, hframes⟩ := head?_eq_some_iff.mp hhead
    have hopen : openFrames (.answered answer :: .sent msg :: before) = frames := by
      rw [openFrames, if_pos hreturn, hframes, erase_cons_head]
    have hcall : state.callStack = answer.seq ::
        openFrames (.answered answer :: .sent msg :: before) := by
      rw [hstack, hframes, hopen]
    exact ⟨hstacked (.returning answer _ rfl (.inl hreturn) hcall),
      .returned answer answer _ rfl rfl rfl hreturn rfl (by rw [hopen, hframes]) hcall⟩
  · by_cases hsendBack : answer.type = .sendBack
    · obtain ⟨hone, hkeys, hedges⟩ := hback hsendBack
      have hopen : openFrames (.answered answer :: .sent msg :: before) = [] := by
        rw [openFrames, hsendBack]
        rfl
      refine ⟨hstacked (.returning answer _ rfl (.inr hsendBack) ?_),
        .sentBack answer rfl hsendBack hopen hkeys hedges⟩
      rw [hopen]
      exact hone
    · have hopen : openFrames (.answered answer :: .sent msg :: before) =
          openFrames (.sent msg :: before) :=
        openFrames_answered (by simpa using hreturn) hsendBack
      have hkind : isRequest answer.type = true ∨ answer.type = .keyLock := by
        cases htype : answer.type <;> simp_all [isReturn, isRequest]
      exact ⟨hstacked (.exact (hstack.trans hopen.symm)),
        .asked answer answer _ rfl rfl rfl hkind rfl (hstack.trans hopen.symm)
          (by rw [hopen]; exact hhead)⟩

end Exchanged

/-! ## The beginning -/

/-- A transaction before the first round. -/
structure Starting (contextID : ContextID) (state : ExecutiveState) : Prop where
  stack : state.callStack = []
  seq : state.currentSeq = 0
  message : ∀ message, state.message = some message → message.contextID = contextID ∧
    message.seq = 0 ∧ message.keyLocks = [] ∧ isRequest message.type = true

theorem starting_build (startContextID : ContextID) (txs : List Submission) :
    (∀ cid, Starting cid ((build startContextID txs).states cid)) ∧
      (build startContextID txs).keyLocks = .empty := by
  induction txs generalizing startContextID with
  | nil => exact ⟨fun cid => ⟨rfl, rfl, fun _ h => by cases h⟩, rfl⟩
  | cons tx txs ih =>
    obtain ⟨hstarting, hlocks⟩ := ih (startContextID + 1)
    refine ⟨fun cid => ?_, hlocks⟩
    have hstates : (build startContextID (tx :: txs)).states = update
        (build (startContextID + 1) txs).states startContextID
        ⟨[], some (buildMessage startContextID tx), 0, tx.enableDAG⟩ := rfl
    rw [hstates]
    by_cases hc : cid = startContextID
    · subst hc
      rw [update_self]
      refine ⟨rfl, rfl, fun msg hmsg => ?_⟩
      cases hmsg
      refine ⟨rfl, rfl, rfl, ?_⟩
      rw [buildMessage]
      split <;> rfl
    · rw [update_of_ne hc]
      exact hstarting cid

theorem edgesOf_empty : GraphKeyLocks.empty.edgesOf cid = ∅ := by
  simp [GraphKeyLocks.edgesOf, GraphKeyLocks.empty]

theorem Built.marks_eq (h : Built cids b) (cid : ContextID) (x : Address) :
    ((b.view cid).marks x).needSend = false ∧ ((b.view cid).marks x = .none ∨
        (cid ∈ cids ∧ ((b.view cid).marks x).needPrepare = true)) := by
  by_cases hc : cid ∈ cids
  · obtain ⟨addr, hat, hout⟩ := h.placed cid hc
    by_cases hx : x = addr
    · subst hx
      exact ⟨by simp [hat.fits.needSend], .inr ⟨hc, by simp [hat.fits.needPrepare]⟩⟩
    · have hnone := (hat.stale x hx).eq_none (hout x)
      exact ⟨by rw [hnone]; rfl, .inl hnone⟩
  · have hnone := (h.absent cid hc).1 x
    exact ⟨by rw [hnone]; rfl, .inl hnone⟩

theorem Built.frameOk (h : Built cids b) (hmarks : v.marks = (b.view cid).marks)
    (hnamed : Named cid v.state)
    (hstacked : Stacked log edges v.state) (hunhandled : cid ∈ cids → Unhandled log edges v.state) :
    FrameOk False cid log edges v := by
  have hprep : ∀ x, (v.marks x).pending = true → cid ∈ cids ∧ (v.marks x).needPrepare = true := by
    intro x hpend
    rw [hmarks] at hpend ⊢
    exact (h.marks_eq cid x).2.resolve_left (Marks.ne_none hpend)
  refine ⟨hnamed, hstacked, fun x _ hpend _ =>
    ⟨hunhandled (hprep x hpend).1, False.elim⟩, fun x hsend => ?_,
    fun x _ hpend _ hnot _ _ => ?_⟩
  · rw [hmarks, (h.marks_eq cid x).1] at hsend
    cases hsend
  · rw [(hprep x hpend).2] at hnot
    cases hnot

theorem Built.message (h : Built cids b) (hc : cid ∈ cids) :
    ∃ msg, (b.states cid).message = some msg := by
  obtain ⟨addr, hat, -⟩ := h.placed cid hc
  obtain ⟨msg, hmsg, -⟩ := hat.state
  exact ⟨msg, hmsg⟩

theorem Starting.stacked (h : Starting cid state) : Stacked [] ∅ state := by
  refine ⟨bracketed_nil, .exact h.stack, ?_, fun seq hseq => ?_, fun e he => he.elim, ?_⟩
  · rintro seq ⟨msg, hmem, -⟩
    exact absurd hmem not_mem_nil
  · rw [h.stack] at hseq
    exact absurd hseq not_mem_nil
  · intro msg before hlog
    cases hlog

theorem Built.frames (h : Built cids b) (hstarting : ∀ cid, Starting cid (b.states cid))
    (hlocks : b.keyLocks = .empty) : Frames False (fun _ => []) b := by
  intro cid
  rw [hlocks, edgesOf_empty]
  refine h.frameOk rfl (fun msg hmsg =>
    ((hstarting cid).message msg hmsg).1) (hstarting cid).stacked fun hc => ?_
  obtain ⟨msg, hmsg⟩ := h.message hc
  obtain ⟨-, -, hkeys, hreq⟩ := (hstarting cid).message msg hmsg
  exact .fresh msg hmsg hreq (hstarting cid).stack rfl hkeys

/-- A transaction of the DAG: its first frame has been opened and has answered. -/
theorem Starting.dag (h : Starting cid state) (hmsg : state.message = some msg)
    (hanswers : AnswersDag msg answer) : Stacked [.answered answer, .sent msg] ∅
        ⟨state.currentSeq :: state.callStack, some answer, state.currentSeq + 1, state.enableDAG⟩ ∧
      Unhandled [.answered answer, .sent msg] ∅
        ⟨state.currentSeq :: state.callStack, some answer, state.currentSeq + 1,
          state.enableDAG⟩ := by
  obtain ⟨-, hseq, hkeys, hreq⟩ := h.message msg hmsg
  have hopen : openFrames [.sent msg] = [state.currentSeq] := by
    rw [openFrames_sent_request hreq, hseq, h.seq]
    rfl
  have hnew : ∀ seq, ¬ Opened [] seq := by
    rintro seq ⟨msg', hmem, -⟩
    exact absurd hmem not_mem_nil
  -- the frame is pushed, its msg is sent, and the answer comes
  have hpushed : Stacked [] ∅ ⟨state.currentSeq :: state.callStack, some msg,
      state.currentSeq + 1, state.enableDAG⟩ := by
    refine ⟨bracketed_nil, .calling msg rfl hreq ?_, fun seq hopened =>
      absurd hopened (hnew seq), fun seq hmem => ?_, fun e he => he.elim, fun _ _ hlog => by
        cases hlog⟩
    · rw [hseq, h.seq, h.stack]
      rfl
    · rw [h.stack, mem_singleton] at hmem
      rw [hmem]
      exact Int.lt_succ _
  have hsent := hpushed.sent (.root hreq rfl fun seq hopened => absurd hopened (hnew seq))
    (by rw [hopen, h.stack]) (by rw [hopen, hseq, h.seq]; rfl)
  refine hsent.answered hanswers.1 fun hback => ⟨?_, (hanswers.2 hback).trans hkeys, rfl⟩
  rw [hanswers.1, hseq, h.seq, h.stack]

theorem Built.frames_dag (h : Built cids b) (hstarting : ∀ cid, Starting cid (b.states cid))
    (hlocks : b.keyLocks = .empty) {responses : ContextID → ExecutionMessage}
    (hids : ∀ cid, (responses cid).contextID = cid)
    (hanswers : ∀ cid msg, (b.states cid).message = some msg → AnswersDag msg (responses cid)) :
    Frames False (enterDag b responses fun _ => []) (b.dagExecute responses) := by
  intro cid
  have hmarks : ((b.dagExecute responses).view cid).marks = (b.view cid).marks := rfl
  have hedges : (b.dagExecute responses).keyLocks.edgesOf cid = ∅ := by
    rw [BlockExecutive.dagExecute, hlocks, edgesOf_empty]
  rw [hedges]
  by_cases hdag : (b.states cid).enableDAG ∧
      ∃ addr ∈ b.dmcExecutors, cid ∈ (b.pools addr).pendingExecutives
  · have hc : cid ∈ cids := by
      by_contra hc
      obtain ⟨-, addr, -, hmem⟩ := hdag
      have hpend := pending_iff.mpr hmem
      rw [(h.absent cid hc).1] at hpend
      cases hpend
    obtain ⟨msg, hmsg⟩ := h.message hc
    have hstate : (b.dagExecute responses).states cid =
        ⟨(b.states cid).currentSeq :: (b.states cid).callStack,
          some (responses cid), (b.states cid).currentSeq + 1, (b.states cid).enableDAG⟩ := by
      exact if_pos hdag
    have hlog : enterDag b responses (fun _ => []) cid =
        [.answered (responses cid), .sent msg] := by
      rw [enterDag, if_pos hdag, hmsg]
      rfl
    obtain ⟨hstacked, hunhandled⟩ := (hstarting cid).dag hmsg (hanswers cid msg hmsg)
    rw [← hstate, ← hlog] at hstacked hunhandled
    exact h.frameOk hmarks (named_some (by rw [view_state, hstate]) (hids cid)) hstacked
      fun _ => hunhandled
  · have hstate : (b.dagExecute responses).states cid = b.states cid := by
      exact if_neg hdag
    have hlog : enterDag b responses (fun _ => []) cid = [] := by
      rw [enterDag, if_neg hdag]
    have hframe := h.frames hstarting hlocks cid
    rw [hlocks, edgesOf_empty] at hframe
    have hview : (b.dagExecute responses).view cid = b.view cid := by
      rw [view, hstate]
      rfl
    rw [hlog, hview]
    exact hframe

/-! ## Within a round -/

section Round

variable {lossy : Prop} {toGo : Finset Address} {inFlight : List (Address × ContextID)}
  {paused : Bool} {addr : Address}

theorem FrameOk.sent {msg' : ExecutionMessage} (h : FrameOk False cid log edges v)
    (hat : At lossy cid v addr .send) (hmsg : v.state.message = some msg')
    (htype : msg.type = msg'.type) (hseq : msg.seq = msg'.seq) :
    FrameOk False cid (.sent msg :: log) edges (sentView addr v) := by
  have hsend : (v.marks addr).needSend = true := by simp [hat.fits.needSend]
  obtain ⟨msg'', hmsg'', hfollows, hstack, hhead⟩ := h.send addr hsend
  cases hmsg.symm.trans hmsg''
  have hopen : openFrames (.sent msg :: log) = openFrames (.sent msg' :: log) := by
    rw [openFrames, openFrames, htype, hseq]
  have hhead' : (openFrames (.sent msg :: log)).head? = some msg.seq := by
    rw [hopen, hhead, hseq]
  have hstacked := h.stacked.sent (hfollows.congr htype hseq) (hstack.trans hopen.symm) hhead'
  have hnamed : Named cid { v.state with message := none } := fun _ hnone => by
    cases hnone
  rw [sentView, if_pos hsend]
  refine ⟨hnamed, hstacked, fun x => ?_, fun x => ?_,
    fun x _ _ _ _ _ hnone => absurd rfl hnone⟩
  · by_cases hx : x = addr
    · subst hx
      simp [Marks.sent, hat.fits.needPrepare]
    · rw [View.mark_marks_of_ne _ _ hx]
      intro hprep _ hout
      rw [View.withState_marks] at hprep hout
      rw [((hat.stale x hx).needPrepare hprep).2] at hout
      cases hout
  · by_cases hx : x = addr
    · subst hx
      simp [Marks.sent]
    · rw [View.mark_marks_of_ne _ _ hx, View.withState_marks, (hat.stale x hx).needSend]
      exact fun hfalse => by cases hfalse

theorem enterSent_eq {msgs : List ExecutionMessage}
    (hnodup : (msgs.map ExecutionMessage.contextID).Nodup) :
    (∀ msg ∈ msgs, enterSent msgs logs msg.contextID = .sent msg :: logs msg.contextID) ∧
    ∀ cid ∉ msgs.map ExecutionMessage.contextID, enterSent msgs logs cid = logs cid := by
  have hnone : ∀ (msgs : List ExecutionMessage), ∀ cid ∉ msgs.map ExecutionMessage.contextID,
      msgs.filter (fun msg => msg.contextID = cid) = [] := by
    intro msgs cid hnot
    refine filter_eq_nil_iff.mpr fun msg hmem heq => hnot ?_
    exact mem_map.mpr ⟨msg, hmem, by simpa using heq⟩
  refine ⟨?_, fun cid hnot => ?_⟩
  · induction msgs with
    | nil => simp
    | cons head msgs ih =>
      rw [map_cons, nodup_cons] at hnodup
      intro msg hmem
      rcases mem_cons.mp hmem with rfl | hmem
      · rw [enterSent, filter_cons_of_pos (by simp), hnone msgs _ hnodup.1]
        rfl
      · have hne : head.contextID ≠ msg.contextID := fun heq =>
          hnodup.1 (heq ▸ mem_map_of_mem hmem)
        have hrest := ih hnodup.2 msg hmem
        rw [enterSent, filter_cons_of_neg (by simpa using hne)]
        exact hrest
  · rw [enterSent, hnone msgs cid hnot]
    rfl

theorem go_frames (hsending : Sending lossy cids toGo inFlight paused b)
    (h : Frames False logs b) : Ensures (· = b) (DmcExecutor.go addr)
      (fun status b' => Frames False (enterSent (Execution.sentMessages status) logs) b')
      NotEmptyPop := by
  refine (hsending.go_spec.fail notEmptyPop_of_thrown).post ?_
  rintro status b' ⟨hsent, -⟩ cid
  obtain ⟨hentered, hnot⟩ := enterSent_eq hsent.nodup
  rw [hsent.keyLocks, hsent.views]
  by_cases hmem : cid ∈ (Execution.sentMessages status).map ExecutionMessage.contextID
  · obtain ⟨msg, hmsg, rfl⟩ := mem_map.mp hmem
    obtain ⟨-, hat, -⟩ := hsending.send_of_needSend ((hsent.mem _).mp hmem)
    obtain ⟨msg', hmsg', htype, hseq⟩ := hsent.taken msg hmsg
    rw [hentered msg hmsg]
    exact (h msg.contextID).sent hat hmsg' htype hseq
  · rw [hnot cid hmem, sentView, if_neg (fun hneed => hmem ((hsent.mem _).mpr hneed))]
    exact h cid

theorem FrameOk.answered (h : FrameOk False msg.contextID log edges v)
    (hat : At lossy msg.contextID v addr .answer) (hanswers : Answers log msg) :
    FrameOk False msg.contextID (.answered msg :: log) edges (answeredView addr msg v) := by
  obtain ⟨sent, before, rfl, hseq, hback⟩ := hanswers
  obtain ⟨hstacked, hunhandled⟩ := h.stacked.answered hseq fun hsendBack =>
    absurd hsendBack hback
  have hstate : (answeredView addr msg v).state = { v.state with message := some msg } := by
    rw [answeredView]
    split <;> rfl
  have hnotSend : ∀ x, (v.marks x).needSend = false := by
    intro x
    by_cases hx : x = addr
    · subst hx
      simp [hat.fits.needSend]
    · exact (hat.stale x hx).needSend
  have hmarks : ∀ x, ((answeredView addr msg v).marks x).needSend = false ∧
      (((answeredView addr msg v).marks x).hasLocked = true →
        ((answeredView addr msg v).marks x).needPrepare = false →
        ((answeredView addr msg v).marks x).needScheduleOut = true) := by
    intro x
    rw [answeredView]
    split
    · by_cases hx : x = addr
      · subst hx
        simp [Marks.markAs, hnotSend]
      · rw [View.mark_marks_of_ne _ _ hx]
        exact ⟨hnotSend x, fun hlocked _ => (hat.stale x hx).hasLocked hlocked⟩
    · by_cases hto : x = msg.toAddress
      · subst hto
        rename_i hne
        simp [Marks.add, hne, hnotSend]
      · rw [View.mark_marks_of_ne _ _ hto]
        by_cases hx : x = addr
        · subst hx
          simp [Marks.markAs, hnotSend]
        · rw [View.mark_marks_of_ne _ _ hx]
          exact ⟨hnotSend x, fun hlocked _ => (hat.stale x hx).hasLocked hlocked⟩
  rw [← hstate] at hstacked hunhandled
  refine ⟨named_some (by rw [hstate]) rfl, hstacked, fun x _ _ _ => ⟨hunhandled, False.elim⟩,
    fun x hsend => ?_, fun x hlocked _ _ hprep hout => ?_⟩
  · rw [(hmarks x).1] at hsend
    cases hsend
  · rw [(hmarks x).2 hlocked hprep] at hout
    cases hout

theorem output_frames (hsending : Sending lossy cids toGo inFlight paused b)
    (h : Frames False logs b) (hsent : (addr, msg.contextID) ∈ inFlight)
    (hanswers : Answers (logs msg.contextID) msg) : Ensures (· = b) (handleExecutiveOutput addr msg)
      (fun _ b' => Frames False (enterAnswer msg logs) b') NotEmptyPop := by
  obtain ⟨hc, hat, hout, -⟩ := hsending.flights _ hsent
  refine (handleExecutiveOutput_spec hat.fits.pending).post ?_
  rintro _ b' ⟨hlocal, hlocks, hview⟩ cid
  rw [hlocks]
  by_cases heq : cid = msg.contextID
  · subst heq
    rw [enterAnswer, update_self, hview]
    exact (h msg.contextID).answered hat hanswers
  · rw [enterAnswer, update_of_ne heq, hlocal.views cid heq]
    exact h cid

end Round

/-! ## Executions -/

namespace Tracked

variable {startContextID : ContextID} {txs : List Submission} {t t' : Tracked}

/-- What holds of the frames in every state of an execution. -/
structure Inv (startContextID : ContextID) (txs : List Submission) (t : Tracked) : Prop where
  places : t.execution.Inv True (numbers startContextID txs)
  frames : Frames False t.logs t.execution.block
  built : t.execution.phase = .built → t = ⟨Execution.start startContextID txs, fun _ => []⟩

theorem inv_start (startContextID : ContextID) (txs : List Submission) :
    Inv startContextID txs ⟨Execution.start startContextID txs, fun _ => []⟩ := by
  have hbuilt := built_build startContextID txs
  obtain ⟨hstarting, hlocks⟩ := starting_build startContextID txs
  exact ⟨hbuilt, hbuilt.frames hstarting hlocks, fun _ => rfl⟩

theorem Inv.step (h : Inv startContextID txs t) (hstep : Step env t t') :
    Inv startContextID txs t' := by
  have hplaces := h.places.step (.inl trivial) hstep.execution
  cases hstep with
  | prepare hprepared =>
    have hresting : Resting True (numbers startContextID txs) _ := Built.resting h.places
    exact ⟨hplaces, serialPrepared_frames (hresting.preparing (.inl trivial)) h.frames
      hprepared, fun hbuilt => by cases hbuilt⟩
  | call => exact ⟨hplaces, h.frames, fun hbuilt => by cases hbuilt⟩
  | dag responses hids hanswers =>
    obtain ⟨hstart, rfl⟩ := Tracked.mk.inj (h.built rfl)
    obtain ⟨rfl, -⟩ := Execution.mk.inj hstart
    obtain ⟨hstarting, hlocks⟩ := starting_build startContextID txs
    exact ⟨hplaces, Built.frames_dag h.places hstarting hlocks hids hanswers,
      fun hbuilt => by cases hbuilt⟩
  | round hprepared =>
    have hresting : Resting True (numbers startContextID txs) _ := h.places
    exact ⟨hplaces, serialPrepared_frames (hresting.preparing (.inl trivial)) h.frames
      hprepared, fun hbuilt => by cases hbuilt⟩
  | go addr status _ hgo =>
    exact ⟨hplaces, (go_frames h.places h.frames).ok rfl hgo, fun hbuilt => by cases hbuilt⟩
  | output addr msg hsent hanswers houtput =>
    exact ⟨hplaces, (output_frames h.places h.frames hsent hanswers).ok rfl houtput,
      fun hbuilt => by cases hbuilt⟩
  | next => exact ⟨hplaces, h.frames, fun hbuilt => by cases hbuilt⟩
  | finish => exact ⟨hplaces, h.frames, fun hbuilt => by cases hbuilt⟩

theorem Reachable.inv (h : Reachable env startContextID txs t) : Inv startContextID txs t := by
  induction h with
  | refl => exact inv_start startContextID txs
  | tail _ hstep ih => exact ih.step hstep

/-- The frames of a transaction are well bracketed. -/
structure WellBracketed (log : List Exchange) (state : ExecutiveState) (edges : Set Edge) :
    Prop where
  /-- The numbers of new frames are larger than all numbers given before. -/
  increasing : ∀ message before, .sent message :: before <:+ log →
    isRequest message.type = true → ∀ seq, Opened before seq → seq < message.seq
  /-- Calls go to new frames on top of the caller, results to the frame below the one
  that has returned, and locks to the frame that has asked for them. -/
  delivered : ∀ message before, .sent message :: before <:+ log → Follows before message
  /-- The call stack is the chain of the open frames. -/
  chain : Chain log state
  /-- Locks are recorded with open frames only. -/
  locks : ∀ e ∈ edges, e.seq ∈ state.callStack

/-- Any number of turns of the first loop of `serialPrepareExecutor`. -/
def Passed (env : Env) : BlockExecutive → BlockExecutive → Prop :=
  Relation.ReflTransGen fun b b' => preparePass env b = .ok true b'

theorem Passed.frames (h : Passed env b b') (hpreparing : Preparing True env cids b)
    (hframes : Frames False logs b) : Preparing True env cids b' ∧ Frames False logs b' := by
  induction h with
  | refl => exact ⟨hpreparing, hframes⟩
  | tail _ hpass ih =>
    exact ⟨((preparePass_spec ih.1).ok rfl hpass).1, (preparePass_frames ih.1 ih.2).ok rfl hpass⟩

/-- In every execution in which the executors answer with messages of the frame that
the message was for, the frames of all transactions are well bracketed, and no turn
of `serialPrepareExecutor` pops an empty call stack. -/
theorem frames_wellBracketed (h : Reachable env startContextID txs t) :
    (∀ contextID, WellBracketed (t.logs contextID) (t.execution.block.states contextID)
      (t.execution.block.keyLocks.edgesOf contextID)) ∧
    (t.execution.phase = .built ∨ t.execution.phase = .ready → ∀ b, Passed env t.execution.block b →
        ∀ b', preparePass env b ≠ .error .emptyCallStack b') := by
  have hinv := h.inv
  refine ⟨fun contextID => ?_, fun hphase b hpassed b' herror => ?_⟩
  · have hstacked := (hinv.frames contextID).stacked
    exact ⟨fun message before hsuffix hreq seq hopened =>
      (hstacked.bracketed.follows message before hsuffix).lt_of_opened hreq hopened,
      hstacked.bracketed.follows, hstacked.chain, hstacked.locks⟩
  · have hresting : Resting True (numbers startContextID txs) t.execution.block := by
      have hplaces := hinv.places
      rw [Execution.Inv] at hplaces
      rcases hphase with hbuilt | hready
      · rw [hbuilt] at hplaces
        exact Built.resting hplaces
      · rw [hready] at hplaces
        exact hplaces
    obtain ⟨hpreparing, hframes⟩ :=
      hpassed.frames (hresting.preparing (.inl trivial)) hinv.frames
    have hspec := preparePass_frames hpreparing hframes b rfl
    rw [herror] at hspec
    exact hspec rfl

/-- A transfer of contract `[7]`, which calls itself in the DAG, and the result of the call. -/
def transfer : Submission := ⟨true, [], [7], false, 1, [], true⟩

def transferCall (contextID : ContextID) : ExecutionMessage :=
  ⟨.message, contextID, 0, [7], [7], false, none, 0, [], [], []⟩

def transferResult : ExecutionMessage := ⟨.finished, 0, 1, [7], [7], false, none, 0, [], [], []⟩

def transferPrepared (b : BlockExecutive) : BlockExecutive :=
  (serialPrepare Execution.oneAddress [[7]] b).getD b

/-- The block after the DAG, after the delivery of the call, its answer, and the delivery of the
result. -/
def transferStarted : BlockExecutive := (build 0 [transfer]).dagExecute transferCall

def transferCalled : BlockExecutive := final (go [7]) (transferPrepared transferStarted)

def transferAnswered : BlockExecutive :=
  final (handleExecutiveOutput [7] transferResult) transferCalled

def transferReturned : BlockExecutive := final (go [7]) (transferPrepared transferAnswered)

theorem transferPrepared_spec (h : serialPrepare Execution.oneAddress [[7]] b ≠ none) :
    SerialPrepared Execution.oneAddress b (transferPrepared b) :=
  serialPrepared_of_serialPrepare (Option.getD_of_ne_none h b).symm

/-- The call and its result are delivered: the frame of the call is closed again. -/
theorem transfer_wellBracketed : ∃ log, openFrames log = [0] ∧ log.length = 5 ∧
    (transferReturned.states 0).callStack = [0] ∧
    WellBracketed log (transferReturned.states 0) (transferReturned.keyLocks.edgesOf 0) := by
  have hstarted : Reachable Execution.oneAddress 0 [transfer] ⟨⟨transferStarted, .ready⟩,
      enterDag (build 0 [transfer]) transferCall fun _ => []⟩ := by
    refine .tail .refl (.dag transferCall (fun _ => rfl) fun contextID message hmsg => ?_)
    obtain ⟨-, hseq, -⟩ := ((starting_build 0 [transfer]).1 contextID).message message hmsg
    exact ⟨hseq.symm, fun hback => by cases hback⟩
  have hcalled := (hstarted.tail (.round (transferPrepared_spec (by decide +kernel)))).tail
    (.go [7] (.sent [{ transferCall 0 with seq := 1 }]) (by decide +kernel)
      (eq_ok_final (by decide +kernel)))
  have hanswered := hcalled.tail (.output [7] transferResult (by decide +kernel)
    ⟨{ transferCall 0 with seq := 1 }, _, rfl, rfl, by decide⟩ (eq_ok_final (by decide +kernel)))
  have hgone : (transferPrepared transferStarted).dmcExecutors.erase [7] = ∅ := by decide +kernel
  rw [hgone] at hanswered
  have hreturned := ((hanswered.tail .next).tail
    (.round (transferPrepared_spec (b := transferAnswered) (by decide +kernel)))).tail
    (.go [7] (.sent [{ transferResult with seq := 0 }]) (by decide +kernel)
      (eq_ok_final (by decide +kernel)))
  exact ⟨_, by decide +kernel, by decide +kernel, by decide +kernel,
    (frames_wellBracketed hreturned).1 0⟩

end Tracked

end FiscoSmart.Scheduler
