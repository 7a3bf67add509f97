import FiscoSmart.Scheduler.DmcDeadLock

/-!
# Call frames

An executor runs a frame for every call of a contract.  The scheduler numbers the
frames of a transaction, keeps the numbers of the open ones in `callStack`, and
passes calls and results between them.  What the frames are is read off the
messages that are exchanged with the executors: a request that is sent opens a
frame, and an answer that is a result closes it.

This module says what the scheduler may send after the messages exchanged so far,
how the call stack follows them, and what handling one message does.
-/

namespace FiscoSmart.Scheduler

open BlockExecutive DmcExecutor List
open Support

/-! ## Exchanges -/

/-- A message between the scheduler and an executor. -/
inductive Exchange
  | sent (message : ExecutionMessage)
  | answered (message : ExecutionMessage)

variable {log : List Exchange} {msg : ExecutionMessage} {seq : Seq} {cid : ContextID}
  {keys : List Bytes}

/-- The types that pop the call stack. -/
def isReturn : MessageType → Bool
  | .finished => true
  | .revert => true
  | _ => false

/-- The frames of a transaction that are open, the running one first, after the
exchanges for it, the last one first. -/
def openFrames : List Exchange → List Seq
  | [] => []
  | .sent message :: log =>
    if isRequest message.type then message.seq :: openFrames log else openFrames log
  | .answered message :: log =>
    if isReturn message.type then (openFrames log).erase message.seq
    else if message.type = .sendBack then []
    else openFrames log

def Opened (log : List Exchange) (seq : Seq) : Prop :=
  ∃ message, .sent message ∈ log ∧ isRequest message.type = true ∧ message.seq = seq

/-- What the scheduler may send after the exchanges for a transaction. -/
inductive Follows (log : List Exchange) (message : ExecutionMessage) : Prop
  -- the first frame of the transaction, or of a transaction that was sent back
  | root (hrequest : isRequest message.type = true) (hopen : openFrames log = [])
      (hnew : ∀ seq, Opened log seq → seq < message.seq)
  -- a frame that the running frame has called
  | call (call : ExecutionMessage) (before : List Exchange)
      (hlog : log = .answered call :: before) (hcall : isRequest call.type = true)
      (hcaller : (openFrames log).head? = some call.seq) (hrequest : isRequest message.type = true)
      (hnew : ∀ seq, Opened log seq → seq < message.seq)
  -- the result of a frame, for the frame below it
  | result (result : ExecutionMessage) (before : List Exchange) (frames : List Seq)
      (hlog : log = .answered result :: before) (hresult : isReturn result.type = true)
      (htype : message.type = result.type)
      (hframes : openFrames before = result.seq :: message.seq :: frames)
  -- the lock that the running frame has asked for, or the end of a deadlock
  | lock (request : ExecutionMessage) (before : List Exchange)
      (hlog : log = .answered request :: before) (hlock : request.type = .keyLock)
      (htype : message.type = .keyLock ∨ message.type = .revert) (hseq : message.seq = request.seq)
      (hframe : (openFrames log).head? = some message.seq)

/-- Every message that was sent follows the exchanges before it, and every answer
comes from the running frame. -/
structure Bracketed (log : List Exchange) : Prop where
  follows : ∀ message before, .sent message :: before <:+ log → Follows before message
  running : ∀ message before, .answered message :: before <:+ log →
    (openFrames before).head? = some message.seq

/-- The call stack of a transaction is the chain of its open frames, with the frame
whose result is yet to be handled, or whose request is yet to be sent. -/
inductive Chain (log : List Exchange) (state : ExecutiveState) : Prop
  | exact (h : state.callStack = openFrames log)
  | returning (result : ExecutionMessage) (before : List Exchange)
      (hlog : log = .answered result :: before)
      (hresult : isReturn result.type = true ∨ result.type = .sendBack)
      (h : state.callStack = result.seq :: openFrames log)
  | calling (message : ExecutionMessage) (hmessage : state.message = some message)
      (hrequest : isRequest message.type = true)
      (h : state.callStack = message.seq :: openFrames log)

section Exchanges

variable {type : MessageType}

theorem openFrames_sent_request (h : isRequest msg.type = true) :
    openFrames (.sent msg :: log) = msg.seq :: openFrames log :=
  if_pos h

theorem openFrames_sent (h : isRequest msg.type = false) :
    openFrames (.sent msg :: log) = openFrames log :=
  if_neg (by simp [h])

theorem openFrames_answered (hreturn : isReturn msg.type = false) (hback : msg.type ≠ .sendBack) :
    openFrames (.answered msg :: log) = openFrames log := by
  rw [openFrames, if_neg (by simp [hreturn]), if_neg hback]

theorem isReturn_of_isRequest (h : isRequest type = true) : isReturn type = false := by
  cases type <;> first | rfl | cases h

theorem isRequest_of_isReturn (h : isReturn type = true) : isRequest type = false := by
  cases type <;> first | rfl | cases h

theorem opened_cons_sent (h : Opened (.sent msg :: log) seq) :
    Opened log seq ∨ (isRequest msg.type = true ∧ msg.seq = seq) := by
  obtain ⟨msg', hmem, hreq, hseq⟩ := h
  rcases mem_cons.mp hmem with heq | hmem
  · cases heq
    exact .inr ⟨hreq, hseq⟩
  · exact .inl ⟨msg', hmem, hreq, hseq⟩

theorem opened_cons_answered (h : Opened (.answered msg :: log) seq) : Opened log seq := by
  obtain ⟨msg', hmem, hrest⟩ := h
  rcases mem_cons.mp hmem with heq | hmem
  · cases heq
  · exact ⟨msg', hmem, hrest⟩

theorem bracketed_nil : Bracketed [] where
  follows _ _ h := absurd (suffix_nil.mp h) (cons_ne_nil _ _)
  running _ _ h := absurd (suffix_nil.mp h) (cons_ne_nil _ _)

theorem Bracketed.sent (h : Bracketed log) (hfollows : Follows log msg) :
    Bracketed (.sent msg :: log) := by
  refine ⟨fun msg' before hsuffix => ?_, fun msg' before hsuffix => ?_⟩
  · rcases suffix_cons_iff.mp hsuffix with heq | hsuffix
    · obtain ⟨hsent, rfl⟩ := List.cons.inj heq
      cases hsent
      exact hfollows
    · exact h.follows msg' before hsuffix
  · rcases suffix_cons_iff.mp hsuffix with heq | hsuffix
    · cases (List.cons.inj heq).1
    · exact h.running msg' before hsuffix

theorem Bracketed.answered (h : Bracketed log) (hrunning : (openFrames log).head? = some msg.seq) :
    Bracketed (.answered msg :: log) := by
  refine ⟨fun msg' before hsuffix => ?_, fun msg' before hsuffix => ?_⟩
  · rcases suffix_cons_iff.mp hsuffix with heq | hsuffix
    · cases (List.cons.inj heq).1
    · exact h.follows msg' before hsuffix
  · rcases suffix_cons_iff.mp hsuffix with heq | hsuffix
    · obtain ⟨hanswered, rfl⟩ := List.cons.inj heq
      cases hanswered
      exact hrunning
    · exact h.running msg' before hsuffix

theorem Follows.congr {msg' : ExecutionMessage} (h : Follows log msg)
    (htype : msg'.type = msg.type) (hseq : msg'.seq = msg.seq) : Follows log msg' := by
  cases h with
  | root hreq hopen hnew => exact .root (htype ▸ hreq) hopen (hseq ▸ hnew)
  | call call before hlog hcall hcaller hreq hnew =>
    exact .call call before hlog hcall hcaller (htype ▸ hreq) (hseq ▸ hnew)
  | result result before frames hlog hres htype' hframes =>
    exact .result result before frames hlog hres (htype.trans htype') (hseq ▸ hframes)
  | lock request before hlog hlock htype' hseq' hframe =>
    exact .lock request before hlog hlock (htype ▸ htype') (hseq.trans hseq') (hseq ▸ hframe)

theorem Follows.lt_of_opened (h : Follows log msg)
    (hreq : isRequest msg.type = true) (hopened : Opened log seq) : seq < msg.seq := by
  cases h with
  | root _ _ hnew => exact hnew seq hopened
  | call _ _ _ _ _ _ hnew => exact hnew seq hopened
  | result result _ _ _ hres htype _ =>
    rw [htype, isRequest_of_isReturn hres] at hreq
    cases hreq
  | lock _ _ _ _ htype _ _ =>
    rcases htype with htype | htype <;> · rw [htype] at hreq; cases hreq

end Exchanges

/-! ## The locks of a transaction -/

namespace GraphKeyLocks

def edgesOf (g : GraphKeyLocks) (contextID : ContextID) : Set Edge :=
  {e | e ∈ g.edges ∧ Incident contextID e}

section EdgesOf

variable {g : GraphKeyLocks} {contract key : Bytes} {cid' : ContextID} {e : Edge}
  {keyLock : KeyLock}

theorem incident_own : Incident cid' (.own keyLock cid seq) ↔ cid = cid' := by
  simp [Incident, Edge.source, Edge.target]

theorem incident_request : Incident cid' (.request cid keyLock seq) ↔ cid = cid' := by
  simp [Incident, Edge.source, Edge.target]

theorem mem_acquireKeyLock (he : e ∈ (g.acquireKeyLock contract key cid seq).2.edges) :
    e ∈ g.edges ∨ (Incident cid e ∧ e.seq = seq) := by
  by_cases hfree : g.Free (contract, key) cid
  · rcases (mem_acquireKeyLock_of_free hfree).mp he with ⟨hmem, -⟩ | rfl
    · exact .inl hmem
    · exact .inr ⟨incident_own.mpr rfl, rfl⟩
  · rcases (mem_acquireKeyLock_of_held hfree).mp he with hmem | rfl
    · exact .inl hmem
    · exact .inr ⟨incident_request.mpr rfl, rfl⟩

theorem eq_of_incident (h : Incident cid e) (h' : Incident cid' e) : cid = cid' := by
  rcases e with ⟨keyLock, c, s⟩ | ⟨c, keyLock, s⟩
  · exact (incident_own.mp h).symm.trans (incident_own.mp h')
  · exact (incident_request.mp h).symm.trans (incident_request.mp h')

theorem edgesOf_acquireKeyLock (hne : cid' ≠ cid) :
    (g.acquireKeyLock contract key cid seq).2.edgesOf cid' =
      g.edgesOf cid' := by
  ext e
  constructor
  · rintro ⟨he, hincident⟩
    rcases mem_acquireKeyLock he with hmem | ⟨hown, -⟩
    · exact ⟨hmem, hincident⟩
    · exact absurd (eq_of_incident hincident hown) hne
  · rintro ⟨he, hincident⟩
    refine ⟨?_, hincident⟩
    by_cases hfree : g.Free (contract, key) cid
    · refine (mem_acquireKeyLock_of_free hfree).mpr (.inl ⟨he, ?_⟩)
      rintro seq' rfl
      exact hne (incident_request.mp hincident).symm
    · exact (mem_acquireKeyLock_of_held hfree).mpr (.inl he)

theorem mem_edgesOf_acquireKeyLock
    (he : e ∈ (g.acquireKeyLock contract key cid seq).2.edgesOf cid) :
    e ∈ g.edgesOf cid ∨ e.seq = seq := by
  rcases mem_acquireKeyLock he.1 with hmem | ⟨-, hseq⟩
  · exact .inl ⟨hmem, he.2⟩
  · exact .inr hseq

theorem edgesOf_batchAcquireKeyLock (hne : cid' ≠ cid) :
    (g.batchAcquireKeyLock contract keys cid seq).2.edgesOf cid' =
      g.edgesOf cid' := by
  induction keys generalizing g with
  | nil => rfl
  | cons key keys ih =>
    have hacquire : (g.acquireKeyLock contract key cid seq).2.edgesOf cid' =
        g.edgesOf cid' := edgesOf_acquireKeyLock hne
    rw [batchAcquireKeyLock]
    split
    · rename_i g' heq
      rw [ih, ← hacquire, heq]
    · rename_i g' heq
      rw [← hacquire, heq]

theorem mem_edgesOf_batchAcquireKeyLock
    (he : e ∈ (g.batchAcquireKeyLock contract keys cid seq).2.edgesOf cid) :
    e ∈ g.edgesOf cid ∨ (keys ≠ [] ∧ e.seq = seq) := by
  induction keys generalizing g with
  | nil => exact .inl he
  | cons key keys ih =>
    have hacquire : e ∈ (g.acquireKeyLock contract key cid seq).2.edgesOf cid →
        e ∈ g.edgesOf cid ∨ (key :: keys ≠ [] ∧ e.seq = seq) := fun hmem =>
      (mem_edgesOf_acquireKeyLock hmem).imp_right fun hseq => ⟨cons_ne_nil _ _, hseq⟩
    rw [batchAcquireKeyLock] at he
    split at he
    · rename_i g' heq
      rw [heq] at hacquire
      rcases ih he with hmem | ⟨-, hseq⟩
      · exact hacquire hmem
      · exact .inr ⟨cons_ne_nil _ _, hseq⟩
    · rename_i g' heq
      rw [heq] at hacquire
      exact hacquire he

theorem mem_edgesOf_releaseKeyLocks : e ∈ (g.releaseKeyLocks cid seq).edgesOf cid' ↔
      e ∈ g.edgesOf cid' ∧ ¬ (cid' = cid ∧ e.seq = seq) := by
  constructor
  · rintro ⟨he, hincident⟩
    obtain ⟨hmem, hkept⟩ := mem_releaseKeyLocks.mp he
    exact ⟨⟨hmem, hincident⟩, fun h => hkept ⟨h.1 ▸ hincident, h.2⟩⟩
  · rintro ⟨⟨hmem, hincident⟩, hkept⟩
    refine ⟨mem_releaseKeyLocks.mpr ⟨hmem, fun h => hkept ⟨?_, h.2⟩⟩, hincident⟩
    exact eq_of_incident hincident h.1

end EdgesOf

end GraphKeyLocks

/-! ## The frames of a transaction in the scheduler -/

open GraphKeyLocks (Edge)

/-- What holds of a transaction at all times: its call stack is the chain of its
open frames, new numbers are larger than the old ones, and its locks belong to open
frames. -/
structure Stacked (log : List Exchange) (edges : Set Edge) (state : ExecutiveState) : Prop where
  bracketed : Bracketed log
  chain : Chain log state
  opened : ∀ seq, Opened log seq → seq < state.currentSeq
  bounded : ∀ seq ∈ state.callStack, seq < state.currentSeq
  locks : ∀ e ∈ edges, e.seq ∈ state.callStack
  running : ∀ message before, log = .sent message :: before →
    state.callStack = openFrames log ∧ (openFrames log).head? = some message.seq

/-- The transaction has a message that is to be handled. -/
inductive Unhandled (log : List Exchange) (edges : Set Edge) (state : ExecutiveState) : Prop
  -- the request that starts the transaction
  | fresh (message : ExecutionMessage) (hmessage : state.message = some message)
      (hrequest : isRequest message.type = true) (hstack : state.callStack = [])
      (hopen : openFrames log = []) (hlocks : message.keyLocks = [])
  -- the running frame makes a call or asks for a lock
  | asked (message answer : ExecutionMessage) (before : List Exchange)
      (hmessage : state.message = some message) (hlog : log = .answered answer :: before)
      (htype : message.type = answer.type)
      (hkind : isRequest answer.type = true ∨ answer.type = .keyLock)
      (hseq : message.seq = answer.seq) (hstack : state.callStack = openFrames log)
      (hframe : (openFrames log).head? = some answer.seq)
  -- the running frame has returned
  | returned (message answer : ExecutionMessage) (before : List Exchange)
      (hmessage : state.message = some message) (hlog : log = .answered answer :: before)
      (htype : message.type = answer.type) (hkind : isReturn answer.type = true)
      (hseq : message.seq = answer.seq) (hframes : openFrames before = answer.seq :: openFrames log)
      (hstack : state.callStack = answer.seq :: openFrames log)
  -- the transaction was sent back
  | sentBack (message : ExecutionMessage) (hmessage : state.message = some message)
      (htype : message.type = .sendBack) (hopen : openFrames log = [])
      (hlocks : message.keyLocks = []) (hedges : edges = ∅)

/-- The locks of a frame that has returned have been released. -/
def Released (edges : Set Edge) (state : ExecutiveState) : Prop :=
  ∀ message, state.message = some message → isReturn message.type = true →
    ∀ e ∈ edges, e.seq ≠ message.seq

/-- The transaction has a message that can be sent. -/
def Outgoing (log : List Exchange) (state : ExecutiveState) : Prop :=
  ∃ message, state.message = some message ∧ Follows log message ∧
    state.callStack = openFrames (.sent message :: log) ∧
    (openFrames (.sent message :: log)).head? = some message.seq

/-- The transaction waits for a lock. -/
def Locked (log : List Exchange) (state : ExecutiveState) : Prop :=
  ∃ message request before, state.message = some message ∧ log = .answered request :: before ∧
    request.type = .keyLock ∧ message.type = .keyLock ∧ message.seq = request.seq ∧
    state.callStack = openFrames log ∧ (openFrames log).head? = some message.seq

/-- What the hint says about a transaction whose message was handled. -/
def Turned (log : List Exchange) (edges : Set Edge) (state : ExecutiveState) : MessageHint → Prop
  | .needPrepare => False
  | .locked => Locked log state
  | .needSend => Outgoing log state
  | .needScheduleOut => Unhandled log edges state ∧ Released edges state
  | .ended => state.message = none

section Handlers

variable {edges edges' : Set Edge} {state : ExecutiveState} {env : Env} {addr : Address}
  {b : BlockExecutive}

section

variable (h : Unhandled log edges state)

include h

theorem Unhandled.not_sent (hstacked : Stacked log edges state)
    {before : List Exchange} : log ≠ .sent msg :: before := by
  intro hsent
  have hhead := (hstacked.running msg before hsent).2
  cases h with
  | fresh _ _ _ _ hopen _ => simp [hopen] at hhead
  | asked _ _ _ _ hlog _ _ _ _ _ =>
    rw [hlog] at hsent
    cases (List.cons.inj hsent).1
  | returned _ _ _ _ hlog _ _ _ _ _ =>
    rw [hlog] at hsent
    cases (List.cons.inj hsent).1
  | sentBack _ _ _ hopen _ _ => simp [hopen] at hhead

theorem Unhandled.stacked {state' : ExecutiveState} (hstacked : Stacked log edges state)
    (hchain : Chain log state')
    (hseq : state.currentSeq ≤ state'.currentSeq)
    (hbounded : ∀ seq ∈ state'.callStack, seq < state'.currentSeq)
    (hlocks : ∀ e ∈ edges', e.seq ∈ state'.callStack) : Stacked log edges' state' :=
  ⟨hstacked.bracketed, hchain,
    fun seq hopened => lt_of_lt_of_le (hstacked.opened seq hopened) hseq, hbounded, hlocks,
    fun _ _ hlog => absurd hlog (h.not_sent hstacked)⟩

theorem Unhandled.chain
    (hback : ∀ msg, state.message = some msg → msg.type ≠ .sendBack) : Chain log state := by
  cases h with
  | fresh _ _ _ hstack hopen _ => exact .exact (hstack.trans hopen.symm)
  | asked _ _ _ _ _ _ _ _ hstack _ => exact .exact hstack
  | returned _ answer before _ hlog _ hkind _ _ hstack =>
    exact .returning answer before hlog (.inl hkind) hstack
  | sentBack msg hmsg htype _ _ _ => exact absurd htype (hback msg hmsg)

theorem Unhandled.readdress (hmsg : state.message = some msg) (toAddress : Address) :
    Unhandled log edges
      { state with message := some { msg with toAddress := toAddress } } := by
  cases h with
  | fresh m hm hreq hstack hopen hlocks =>
    cases hm.symm.trans hmsg
    exact .fresh _ rfl hreq hstack hopen hlocks
  | asked m answer before hm hlog htype hkind hseq hstack hframe =>
    cases hm.symm.trans hmsg
    exact .asked _ answer before rfl hlog htype hkind hseq hstack hframe
  | returned m answer before hm hlog htype hkind hseq hframes hstack =>
    cases hm.symm.trans hmsg
    exact .returned _ answer before rfl hlog htype hkind hseq hframes hstack
  | sentBack m hm htype hopen hlocks hedges =>
    cases hm.symm.trans hmsg
    exact .sentBack _ rfl htype hopen hlocks hedges

end

/-- What holds of a transaction whose message is about to be handled. -/
structure Due (log : List Exchange) (edges : Set Edge) (state : ExecutiveState) : Prop where
  unhandled : Unhandled log edges state
  released : Released edges state
  stacked : Stacked log edges state

theorem Due.restart (h : Due log edges state) (hmsg : state.message = some msg) :
    (restart state msg).2.type ≠ .sendBack ∧ (restart state msg).2.contextID = msg.contextID ∧
      Due log edges { (restart state msg).1 with
        message := some (restart state msg).2 } := by
  rw [DmcExecutor.restart]
  by_cases hback : msg.type = .sendBack
  · rw [if_pos hback]
    cases h.unhandled with
    | sentBack m hm htype hopen hlocks hedges =>
      obtain rfl := Option.some.inj (hm.symm.trans hmsg)
      have hreq : isRequest (if m.transactionHash ≠ 0 then MessageType.txHash
          else .message) = true := by
        split <;> rfl
      have hne : (if m.transactionHash ≠ 0 then MessageType.txHash else .message) ≠
          .sendBack := by
        split <;> simp
      refine ⟨hne, rfl, .fresh _ rfl hreq rfl hopen hlocks, ?_, ?_⟩
      · rintro msg' - - e he
        rw [hedges] at he
        exact he.elim
      · refine h.unhandled.stacked h.stacked (.exact hopen.symm) le_rfl
          (fun _ hseq => absurd hseq not_mem_nil) fun e he => ?_
        rw [hedges] at he
        exact he.elim
    | fresh m hm hreq _ _ _ =>
      cases hm.symm.trans hmsg
      rw [hback] at hreq
      cases hreq
    | asked m answer _ hm _ htype hkind _ _ _ =>
      cases hm.symm.trans hmsg
      rw [← htype, hback] at hkind
      rcases hkind with hkind | hkind <;> cases hkind
    | returned m answer _ hm _ htype hkind _ _ _ =>
      cases hm.symm.trans hmsg
      rw [← htype, hback] at hkind
      cases hkind
  · rw [if_neg hback]
    have hstate : { state with message := some msg } = state := by rw [← hmsg]
    exact ⟨hback, rfl, by rw [hstate]; exact h⟩

theorem Due.create (h : Due log edges state) (hmsg : state.message = some msg)
    (env : Env) (cid : ContextID) : (handleCreateMessage env cid state msg).2.type ≠ .sendBack ∧
      (handleCreateMessage env cid state msg).2.contextID = msg.contextID ∧
      Due log edges { (handleCreateMessage env cid state msg).1 with
        message := some (handleCreateMessage env cid state msg).2 } := by
  obtain ⟨hback, hid, hdue⟩ := h.restart hmsg
  obtain ⟨toAddress, hcreate⟩ := createAddress_eq env cid
    (DmcExecutor.restart state msg).1 (DmcExecutor.restart state msg).2
  simp only [handleCreateMessage, hcreate]
  have hunhandled := hdue.unhandled.readdress rfl toAddress
  refine ⟨hback, hid, hunhandled, ?_, ?_⟩
  · rintro msg' hmsg' hreturn
    cases hmsg'
    exact hdue.released (DmcExecutor.restart state msg).2 rfl hreturn
  · refine hdue.unhandled.stacked hdue.stacked (hunhandled.chain ?_) le_rfl hdue.stacked.bounded
      hdue.stacked.locks
    rintro msg' hmsg'
    cases hmsg'
    exact hback

/-- Nothing pops an empty call stack. -/
def NotEmptyPop (error : DmcError) (_ : BlockExecutive) : Prop := error ≠ .emptyCallStack

theorem notEmptyPop_of_thrown (error : DmcError) (b : BlockExecutive) (h : error.Thrown) :
    NotEmptyPop error b := by
  rintro rfl
  exact h

theorem acquireKeyLocks_frames : Ensures (· = b) (acquireKeyLocks msg)
      (fun _ b' => ∃ keyLocks, b' = b.withKeyLocks keyLocks ∧ (∀ cid', cid' ≠ msg.contextID →
          keyLocks.edgesOf cid' = b.keyLocks.edgesOf cid') ∧
        ∀ e ∈ keyLocks.edgesOf msg.contextID, e ∈ b.keyLocks.edgesOf msg.contextID ∨
            (msg.keyLocks ≠ [] ∧ e.seq = msg.seq)) NotEmptyPop := by
  apply Ensures.getAt
  split
  · rename_i keyLocks heq
    refine Ensures.setAt ⟨keyLocks, rfl, fun cid' hne => ?_, fun e he => ?_⟩
    · have hkeyLocks : keyLocks = (b.keyLocks.batchAcquireKeyLock msg.fromAddress
          msg.keyLocks msg.contextID msg.seq).2 := by rw [heq]
      rw [hkeyLocks, GraphKeyLocks.edgesOf_batchAcquireKeyLock hne]
    · exact GraphKeyLocks.mem_edgesOf_batchAcquireKeyLock (by rw [heq]; exact he)
  · refine (Ensures.setAt (Q := fun _ _ => True) trivial).bindAt ?_
    intro _ s _
    exact .of_throwAt (by simp [NotEmptyPop])

def Named (contextID : ContextID) (state : ExecutiveState) : Prop :=
  ∀ message, state.message = some message → message.contextID = contextID

/-- The result of handling the message of a transaction. -/
structure HandledFrames (log : List Exchange) (contextID : ContextID) (b : BlockExecutive)
    (hint : MessageHint) (b' : BlockExecutive) : Prop where
  others : ∀ contextID', contextID' ≠ contextID →
    b'.keyLocks.edgesOf contextID' = b.keyLocks.edgesOf contextID'
  named : Named contextID (b'.states contextID)
  stacked : Stacked log (b'.keyLocks.edgesOf contextID) (b'.states contextID)
  turned : Turned log (b'.keyLocks.edgesOf contextID) (b'.states contextID) hint

theorem named_some (hmsg : state.message = some msg)
    (hid : msg.contextID = cid) : Named cid state := by
  intro msg' hmsg'
  cases hmsg.symm.trans hmsg'
  exact hid

theorem handledFrames_withState {hint : MessageHint} {keyLocks : GraphKeyLocks}
    (hother : ∀ cid', cid' ≠ cid → keyLocks.edgesOf cid' = b.keyLocks.edgesOf cid')
    (hnamed : Named cid state) (hstacked : Stacked log (keyLocks.edgesOf cid) state)
    (hturned : Turned log (keyLocks.edgesOf cid) state hint) :
    HandledFrames log cid b hint ((b.withKeyLocks keyLocks).withState cid state) := by
  have hstate : ((b.withKeyLocks keyLocks).withState cid state).states cid =
      state := Function.update_self ..
  refine ⟨hother, ?_, ?_, ?_⟩
  · rw [hstate]
    exact hnamed
  · rw [hstate]
    exact hstacked
  · rw [hstate]
    exact hturned

section

variable (h : Unhandled log edges { state with message := some msg })

include h

theorem Unhandled.request (hreq : isRequest msg.type = true) : state.callStack = openFrames log ∧
      ((openFrames log = [] ∧ msg.keyLocks = []) ∨
        ∃ answer before, log = .answered answer :: before ∧ isRequest answer.type = true ∧
          msg.seq = answer.seq ∧ (openFrames log).head? = some answer.seq) := by
  cases h with
  | fresh m hm _ hstack hopen hlocks =>
    cases hm
    exact ⟨hstack.trans hopen.symm, .inl ⟨hopen, hlocks⟩⟩
  | asked m answer before hm hlog htype _ hseq hstack hframe =>
    cases hm
    exact ⟨hstack, .inr ⟨answer, before, hlog, htype ▸ hreq, hseq, hframe⟩⟩
  | returned m answer _ hm _ htype hkind _ _ _ =>
    cases hm
    rw [← htype, isReturn_of_isRequest hreq] at hkind
    cases hkind
  | sentBack m hm htype _ _ _ =>
    cases hm
    rw [htype] at hreq
    cases hreq

theorem Unhandled.keyLock (htype : msg.type = .keyLock) : state.callStack = openFrames log ∧
      ∃ answer before, log = .answered answer :: before ∧ answer.type = .keyLock ∧
        msg.seq = answer.seq ∧ (openFrames log).head? = some answer.seq := by
  cases h with
  | fresh m hm hreq _ _ _ =>
    cases hm
    rw [htype] at hreq
    cases hreq
  | asked m answer before hm hlog htype' _ hseq hstack hframe =>
    cases hm
    exact ⟨hstack, answer, before, hlog, htype'.symm.trans htype, hseq, hframe⟩
  | returned m answer _ hm _ htype' hkind _ _ _ =>
    cases hm
    rw [← htype', htype] at hkind
    cases hkind
  | sentBack m hm htype' _ _ _ =>
    cases hm
    cases htype.symm.trans htype'

theorem Unhandled.return
    (hreturn : isReturn msg.type = true) : state.callStack = msg.seq :: openFrames log ∧
      ∃ answer before, log = .answered answer :: before ∧ msg.type = answer.type ∧
        openFrames before = answer.seq :: openFrames log := by
  cases h with
  | fresh m hm hreq _ _ _ =>
    cases hm
    rw [isRequest_of_isReturn hreturn] at hreq
    cases hreq
  | asked m answer before hm hlog htype hkind hseq hstack hframe =>
    cases hm
    rcases hkind with hkind | hkind
    · rw [← htype, isRequest_of_isReturn hreturn] at hkind
      cases hkind
    · rw [htype, hkind] at hreturn
      cases hreturn
  | returned m answer before hm hlog htype _ hseq hframes hstack =>
    cases hm
    exact ⟨hseq ▸ hstack, answer, before, hlog, htype, hframes⟩
  | sentBack m hm htype _ _ _ =>
    cases hm
    rw [htype] at hreturn
    cases hreturn

end

section

variable (h : Due log edges { state with message := some msg })

include h

theorem Due.push (hreq : isRequest msg.type = true)
    (hedges : ∀ e ∈ edges', e ∈ edges ∨ (msg.keyLocks ≠ [] ∧ e.seq = msg.seq)) :
    Stacked log edges' (pushed state msg) ∧ Turned log edges' (pushed state msg) .needSend := by
  obtain ⟨hstack, hcaller⟩ := h.unhandled.request hreq
  have hnew : ∀ seq, Opened log seq → seq < state.currentSeq := h.stacked.opened
  have hfollows : Follows log { msg with seq := state.currentSeq } := by
    rcases hcaller with ⟨hopen, -⟩ | ⟨answer, before, hlog, hcall, -, hframe⟩
    · exact .root hreq hopen hnew
    · exact .call answer before hlog hcall hframe hreq hnew
  have hopen : openFrames (.sent { msg with seq := state.currentSeq } :: log) =
      state.currentSeq :: openFrames log := openFrames_sent_request hreq
  have hframes : (pushed state msg).callStack = state.currentSeq :: openFrames log := by
    rw [pushed, hstack]
  have hbounded : ∀ seq ∈ (pushed state msg).callStack, seq < state.currentSeq + 1 :=
    forall_mem_cons.mpr ⟨Int.lt_succ _, fun seq hseq =>
      (h.stacked.bounded seq hseq).trans (Int.lt_succ _)⟩
  refine ⟨h.unhandled.stacked h.stacked (.calling _ rfl hreq hframes)
    (Int.lt_succ _).le hbounded fun e he => mem_cons_of_mem _ ?_, _, rfl,
    hfollows, hframes.trans hopen.symm, by rw [hopen]; rfl⟩
  rcases hedges e he with hmem | ⟨hne, hseq⟩
  · exact h.stacked.locks e hmem
  · rcases hcaller with ⟨-, hlocks⟩ | ⟨answer, before, -, -, hseq', hframe⟩
    · exact absurd hlocks hne
    · rw [hstack, hseq, hseq']
      exact mem_of_mem_head? hframe

theorem Due.lock (htype : msg.type = .keyLock)
    (hedges : ∀ e ∈ edges', e ∈ edges ∨ (msg.keyLocks ≠ [] ∧ e.seq = msg.seq)) :
    Stacked log edges' { state with message := some msg } ∧
      Turned log edges' { state with message := some msg } .locked := by
  obtain ⟨hstack, answer, before, hlog, hanswer, hseq, hframe⟩ := h.unhandled.keyLock htype
  refine ⟨h.unhandled.stacked h.stacked (.exact hstack) le_rfl h.stacked.bounded fun e he => ?_,
    msg, answer, before, rfl, hlog, hanswer, htype, hseq, hstack, hseq ▸ hframe⟩
  rcases hedges e he with hmem | ⟨-, hseq'⟩
  · exact h.stacked.locks e hmem
  · rw [hseq', hseq]
    exact hstack ▸ mem_of_mem_head? hframe

/-- The locks that are left belong to the frames below the one that has returned. -/
theorem Due.locks_of_return
    (hreturn : isReturn msg.type = true) : ∀ e ∈ edges, e.seq ∈ openFrames log := by
  obtain ⟨hstack, -⟩ := h.unhandled.return hreturn
  intro e he
  have hmem : e.seq ∈ state.callStack := h.stacked.locks e he
  rw [hstack] at hmem
  exact (mem_cons.mp hmem).resolve_left (h.released msg rfl hreturn e he)

end

/-- The running frame has returned: its result goes to the frame below, or the
transaction is finished. -/
theorem handleReturn_frames (hid : msg.contextID = cid) (hreturn : isReturn msg.type = true)
    (h : Due log (b.keyLocks.edgesOf cid) { state with message := some msg }) :
    Ensures (· = b) (handleReturn cid state msg) (HandledFrames log cid b) NotEmptyPop := by
  obtain ⟨hstack, answer, before, hlog, htype, hframes⟩ := h.unhandled.return hreturn
  have hlocks := h.locks_of_return hreturn
  rw [handleReturn, hstack]
  rcases hopen : openFrames log with - | ⟨seq, frames⟩
  · apply Ensures.modify_bindAt
    have hend : HandledFrames log cid b .ended ((b.withKeyLocks b.keyLocks).withState
        cid { state with callStack := [], message := none }) :=
      handledFrames_withState (fun _ _ => rfl) (fun _ hnone => by cases hnone)
        (h.unhandled.stacked h.stacked (.exact hopen.symm) le_rfl
          (fun _ hseq => absurd hseq not_mem_nil) fun e he =>
          absurd (hopen ▸ hlocks e he) not_mem_nil) rfl
    exact Ensures.of_pureAt { hend with }
  · apply Ensures.modify_bindAt
    apply Ensures.of_pureAt
    have hbounded : ∀ seq' ∈ seq :: frames, seq' < state.currentSeq := fun seq' hseq' =>
      h.stacked.bounded seq' (by
        rw [← hopen] at hseq'
        exact hstack ▸ mem_cons_of_mem _ hseq')
    have hsent : openFrames (.sent { msg with seq, create := false } :: log) = seq :: frames := by
      refine (openFrames_sent ?_).trans hopen
      exact isRequest_of_isReturn hreturn
    refine handledFrames_withState (fun _ _ => rfl) (named_some rfl hid)
      (h.unhandled.stacked h.stacked (.exact hopen.symm) le_rfl hbounded ?_)
      ⟨_, rfl, ?_, hsent.symm, by rw [hsent]; rfl⟩
    · intro e he
      exact hopen ▸ hlocks e he
    · exact .result answer before frames hlog (htype ▸ hreturn) htype (hopen ▸ hframes)

theorem handleMessage_frames (hid : msg.contextID = cid) (hback : msg.type ≠ .sendBack)
    (h : Due log (b.keyLocks.edgesOf cid) { state with message := some msg }) :
    Ensures (· = b) (handleMessage addr cid state msg) (HandledFrames log cid b) NotEmptyPop := by
  rw [handleMessage]
  apply Ensures.of_ite
  · intro _
    apply Ensures.modify_bindAt
    exact Ensures.of_pureAt (handledFrames_withState (fun _ _ => rfl)
      (named_some rfl hid) h.stacked ⟨h.unhandled, h.released⟩)
  · intro _
    -- the locks are recorded, then the state changes
    have hacquire : ∀ (state' : ExecutiveState) (hint : MessageHint), Named cid state' →
        (∀ edges' : Set Edge, (∀ e ∈ edges', e ∈ b.keyLocks.edgesOf cid ∨
            (msg.keyLocks ≠ [] ∧ e.seq = msg.seq)) →
          Stacked log edges' state' ∧ Turned log edges' state' hint) → Ensures (· = b) (do
            acquireKeyLocks msg
            modify (·.withState cid state')
            return hint)
          (HandledFrames log cid b) NotEmptyPop := by
      intro state' hint hnamed hstate'
      apply acquireKeyLocks_frames.bindAt
      rintro _ _ ⟨keyLocks, rfl, hother, hedges⟩
      rw [hid] at hother hedges
      apply Ensures.modify_bindAt
      obtain ⟨hstacked, hturned⟩ := hstate' _ hedges
      exact Ensures.of_pureAt (handledFrames_withState hother hnamed hstacked hturned)
    have hnamed : Named cid { state with message := some msg } := named_some rfl hid
    have hpushed : Named cid (pushed state msg) := named_some rfl hid
    rcases htype : msg.type with - | - | - | - | - | -
    · exact hacquire _ _ hpushed fun _ => h.push (by rw [htype]; rfl)
    · exact hacquire _ _ hpushed fun _ => h.push (by rw [htype]; rfl)
    · exact handleReturn_frames hid (by rw [htype]; rfl) h
    · exact hacquire _ _ hnamed fun _ => h.lock htype
    · exact absurd htype hback
    · exact handleReturn_frames hid (by rw [htype]; rfl) h

theorem handleExecutiveMessage_frames
    (hid : ∃ msg, (b.states cid).message = some msg ∧ msg.contextID = cid)
    (h : Due log (b.keyLocks.edgesOf cid) (b.states cid)) :
    Ensures (· = b) (handleExecutiveMessage env addr cid)
      (HandledFrames log cid b) NotEmptyPop := by
  obtain ⟨msg, hmsg, hid⟩ := hid
  apply ((message_spec hmsg).fail notEmptyPop_of_thrown).bindAt
  rintro _ _ ⟨rfl, rfl⟩
  apply Ensures.getAt
  obtain ⟨hback, hid', hdue⟩ := h.create hmsg env cid
  exact handleMessage_frames (hid'.trans hid) hback hdue

end Handlers

end FiscoSmart.Scheduler
