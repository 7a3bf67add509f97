import FiscoSmart.Scheduler.DmcSettle

/-!
# Within a round

Between two rounds each transaction is at one address or gone.  In a round the
executors send what is ready.  While messages are under way, a transaction may be
waiting for an answer; the answer puts it into the pool that it is for, which has not
given it away in this round.
-/

namespace FiscoSmart.Scheduler

open BlockExecutive DmcExecutor List
open Support

variable {lossy : Prop} {env : Env} {cids : Finset ContextID} {b b : BlockExecutive}
  {cid : ContextID} {msg : ExecutionMessage}

/-! ## Before a round -/

/-- No pool has given the transaction away. -/
def NotOut (v : View) : Prop := ∀ x, (v.marks x).needScheduleOut = false

/-- Where a transaction is between two rounds. -/
inductive Between (lossy : Prop) (contextID : ContextID) (v : View) : Prop
  | gone (h : Gone lossy v)
  | prepare (address : Address) (h : At lossy contextID v address .prepare) (hto : NotOut v ∨
        ∀ message, v.state.message = some message → message.toAddress = address)
  | send (address : Address) (h : At lossy contextID v address .send)
  | locked (address : Address) (h : At lossy contextID v address .locked)

/-- The address of the new contract that the message of a transaction creates. -/
def createdAddress (env : Env) (contextID : ContextID) (state : ExecutiveState) :
    Option Address :=
  match state.message with
  | some message =>
    let (state, message) := restart state message
    if isRequest message.type ∧ message.toAddress = [] then
      some (newAddress env contextID state message)
    else none
  | none => none

/-- No transaction creates a contract with the address of an executor that has given
it away and not been prepared since. -/
def Fresh (env : Env) (b : BlockExecutive) : Prop :=
  ∀ contextID address created, contextID ∈ (b.pools address).needPrepare →
    createdAddress env contextID (b.states contextID) = some created →
    contextID ∉ (b.pools created).needScheduleOut

theorem destination_cases {state : ExecutiveState} (h : state.message = some msg) :
    createdAddress env cid state = some (destination env cid state) ∨
      destination env cid state = msg.toAddress := by
  have hto : (restart state msg).2.toAddress = msg.toAddress := by
    rw [restart]
    split <;> rfl
  simp only [createdAddress, destination, h, handleCreateMessage, createAddress]
  split
  · exact .inl rfl
  · exact .inr hto

/-- What holds between two rounds. -/
structure Resting (lossy : Prop) (contextIDs : Finset ContextID) (b : BlockExecutive) :
    Prop where
  between : ∀ contextID ∈ contextIDs, Between lossy contextID (b.view contextID)
  absent : ∀ contextID ∉ contextIDs, Absent (b.view contextID)
  registered : b.Registered

theorem Resting.preparing (h : Resting lossy cids b)
    (hfresh : lossy ∨ Fresh env b) : Preparing lossy env cids b := { h with
  waiting c hc := by
    rcases h.between c hc with hgone | ⟨addr, hat, hto⟩ | ⟨addr, hat⟩ | ⟨addr, hat⟩
    · exact .gone hgone
    · refine .prepare addr hat ?_
      intro hout
      rcases hfresh with hlossy | hfresh
      · exact hlossy
      obtain ⟨msg, hmsg, -⟩ := hat.state
      rcases hto with hnone | hto
      · rw [hnone] at hout
        cases hout
      rcases destination_cases hmsg with hcreated | heq
      · have hprep : c ∈ (b.pools addr).needPrepare := by
          have hneed := hat.fits.needPrepare
          exact ExecutivePool.has_iff.mp hneed
        exact absurd (ExecutivePool.has_iff.mp hout) (hfresh c addr _ hprep hcreated)
      · rw [heq, hto msg hmsg, hat.fits.notOut] at hout
        cases hout
    · exact .send addr hat
    · exact .locked addr hat }

theorem Settling.resting (h : Settling lossy env cids b) :
    Resting lossy cids b := { h with
  between c hc := by
    rcases h.waiting c hc with hgone | ⟨addr, hat, -⟩ | ⟨addr, hat⟩ | ⟨addr, hat⟩
    · exact .gone hgone
    · exact .prepare addr hat (.inl (fun x => (h.clean c x).2.1))
    · exact .send addr hat
    · exact .locked addr hat }

/-! ## Within a round -/

/-- Where a transaction is within a round, with the executors that have not gone yet,
the messages under way and whether an executor has paused. -/
inductive Within (lossy : Prop) (toGo : Finset Address)
    (inFlight : List (Address × ContextID)) (paused : Bool) (contextID : ContextID)
    (v : View) : Prop
  | gone (h : Gone lossy v)
  | send (address : Address) (h : At lossy contextID v address .send)
      (hout : NotOut v) (hgo : address ∈ toGo)
  | locked (address : Address) (h : At lossy contextID v address .locked)
      (hout : NotOut v) (hgo : address ∈ toGo ∨ paused = true)
  | answer (address : Address) (h : At lossy contextID v address .answer)
      (hout : NotOut v) (hflight : (address, contextID) ∈ inFlight) (hpaused : paused = true)
  | prepare (address : Address) (h : At lossy contextID v address .prepare)
      (hto : ∀ message, v.state.message = some message → message.toAddress = address)
      (hpaused : paused = true)

/-- What holds within a round. -/
structure Sending (lossy : Prop) (contextIDs : Finset ContextID) (toGo : Finset Address)
    (inFlight : List (Address × ContextID)) (paused : Bool) (b : BlockExecutive) :
    Prop where
  within : ∀ contextID ∈ contextIDs, Within lossy toGo inFlight paused contextID (b.view contextID)
  flights : ∀ p ∈ inFlight, p.2 ∈ contextIDs ∧
    At lossy p.2 (b.view p.2) p.1 .answer ∧ NotOut (b.view p.2) ∧ paused = true
  nodup : (inFlight.map Prod.snd).Nodup
  absent : ∀ contextID ∉ contextIDs, Absent (b.view contextID)
  registered : b.Registered

section Round

variable {b' : BlockExecutive} {toGo : Finset Address} {inFlight : List (Address × ContextID)}
  {paused : Bool} {addr : Address}

theorem Settling.sending (h : Settling lossy env cids b) :
    Sending lossy cids b.dmcExecutors [] false b := { h with
  within c hc := by
    have hreg : ∀ {x status}, At lossy c (b.view c) x status → x ∈ b.dmcExecutors := by
      intro x status hat
      exact h.registered c x (Marks.ne_none hat.fits.pending)
    have hout : NotOut (b.view c) := fun x => (h.clean c x).2.1
    rcases h.waiting c hc with hgone | ⟨x, hat, -⟩ | ⟨x, hat⟩ | ⟨x, hat⟩
    · exact .gone hgone
    · have hprep := hat.fits.needPrepare
      rw [(h.clean c x).1] at hprep
      simp at hprep
    · exact .send x hat hout (hreg hat)
    · exact .locked x hat hout (.inl (hreg hat))
  flights p hp := absurd hp not_mem_nil
  nodup := nodup_nil }

theorem Sending.send_of_needSend (h : Sending lossy cids toGo inFlight paused b)
    (hsend : ((b.view cid).marks addr).needSend = true) :
    cid ∈ cids ∧ At lossy cid (b.view cid) addr .send ∧ NotOut (b.view cid) := by
  have hc : cid ∈ cids := by
    by_contra hc
    rw [(h.absent cid hc).1] at hsend
    cases hsend
  have haddr : ∀ {x status}, At lossy cid (b.view cid) x status → x = addr ∧ status = .send := by
    intro x status hat
    have hx : x = addr := by
      by_contra hne
      rw [(hat.stale addr (Ne.symm hne)).needSend] at hsend
      cases hsend
    subst hx
    exact ⟨rfl, by simpa [hat.fits.needSend] using hsend⟩
  refine ⟨hc, ?_⟩
  cases h.within cid hc with
  | gone hgone =>
    rw [(hgone.stale addr).needSend] at hsend
    cases hsend
  | send x hat hout _ =>
    obtain ⟨rfl, -⟩ := haddr hat
    exact ⟨hat, hout⟩
  | locked x hat _ _ => cases (haddr hat).2
  | answer x hat _ _ _ => cases (haddr hat).2
  | prepare x hat _ _ => cases (haddr hat).2

/-- The message is the one that the transaction has, with other locks. -/
def TakenFrom (b : BlockExecutive) (message : ExecutionMessage) : Prop :=
  ∃ message', (b.states message.contextID).message = some message' ∧
    message.type = message'.type ∧ message.seq = message'.seq

theorem take_spec (h : Sendable cid (b.view cid).state) : Ensures (· = b) (take cid)
      (fun msg b' => msg.contextID = cid ∧ TakenFrom b msg ∧
        b'.keyLocks = b.keyLocks ∧ Local cid b b' ∧ b'.view cid = (b.view cid).withState
          { (b.view cid).state with message := none }) (fun e _ => e.Thrown) := by
  obtain ⟨-, msg, hmsg, rfl⟩ := h
  apply (message_spec hmsg).bindAt
  rintro msg b ⟨rfl, rfl⟩
  apply Ensures.getAt
  apply Ensures.set_bindAt
  refine .of_pureAt ⟨rfl, ⟨msg, hmsg, rfl, rfl⟩, rfl, .withState _, ?_⟩
  rw [view_withState]
  rfl

/-- The messages that `takeAll` moves out, and the block afterwards. -/
structure TakenAll (toSend : List ContextID) (b : BlockExecutive)
    (messages : List ExecutionMessage) (b' : BlockExecutive) : Prop where
  ids : messages.map ExecutionMessage.contextID = toSend
  taken : ∀ message ∈ messages, TakenFrom b message
  keyLocks : b'.keyLocks = b.keyLocks
  views : ∀ contextID, b'.view contextID =
    if contextID ∈ toSend then (b.view contextID).withState
      { (b.view contextID).state with message := none }
    else b.view contextID
  registered : b.Registered → b'.Registered

theorem takeAll_spec {toSend : List ContextID} (hnodup : toSend.Nodup)
    (h : ∀ cid ∈ toSend, ((b.view cid).marks addr).pending = true ∧
      Sendable cid (b.view cid).state) :
    Ensures (· = b) (takeAll addr toSend) (TakenAll toSend b) (fun e _ => e.Thrown) := by
  induction toSend generalizing b with
  | nil => exact .of_pureAt ⟨rfl, by simp, rfl, by simp, id⟩
  | cons c toSend ih =>
    rw [nodup_cons] at hnodup
    obtain ⟨hpend, hsendable⟩ := h c mem_cons_self
    apply Ensures.getAt
    rw [if_pos (pending_iff.mp hpend)]
    apply (take_spec hsendable).bindAt
    rintro msg b₁ ⟨hid, htaken, hlocks, hlocal, hview⟩
    have hother : ∀ cid ∈ toSend, b₁.view cid = b.view cid := by
      intro cid hmem
      exact hlocal.views cid (fun heq => hnodup.1 (heq ▸ hmem))
    apply (ih hnodup.2 ?_).bindAt
    · intro msgs b₂ h₂
      refine .of_pureAt ⟨by simp [hid, h₂.ids], ?_, h₂.keyLocks.trans hlocks, ?_,
        fun hb => h₂.registered (hlocal.registered_of hb)⟩
      · intro msg' hmem
        rcases mem_cons.mp hmem with rfl | hmem
        · exact htaken
        · have hstate : b₁.states msg'.contextID = b.states msg'.contextID :=
            congrArg View.state (hother _ (h₂.ids ▸ mem_map_of_mem hmem))
          have htaken' := h₂.taken msg' hmem
          rwa [TakenFrom, hstate] at htaken'
      · intro cid
        rw [h₂.views cid]
        by_cases hmem : cid ∈ toSend
        · rw [if_pos hmem, if_pos (mem_cons_of_mem _ hmem), hother cid hmem]
        · rw [if_neg hmem]
          by_cases heq : cid = c
          · subst heq
            rw [if_pos mem_cons_self, hview]
          · rw [if_neg (by simp [heq, hmem]), hlocal.views cid heq]
    · intro cid hmem
      rw [hother cid hmem]
      exact h cid (mem_cons_of_mem _ hmem)

theorem Sending.go_finished (h : Sending lossy cids toGo inFlight paused b)
    (hempty : ∀ cid, ((b.view cid).marks addr).pending = false) :
    Sending lossy cids (toGo.erase addr) inFlight paused b := { h with
  within c hc := by
    have hne : ∀ {x status}, At lossy c (b.view c) x status → x ≠ addr := by
      rintro x status hat rfl
      have hpend := hat.fits.pending
      rw [hempty c] at hpend
      cases hpend
    cases h.within c hc with
    | gone hgone => exact .gone hgone
    | send x hat hout hgo => exact .send x hat hout (Finset.mem_erase.mpr ⟨hne hat, hgo⟩)
    | locked x hat hout hgo =>
      refine .locked x hat hout ?_
      rcases hgo with hgo | hpaused
      · exact .inl (Finset.mem_erase.mpr ⟨hne hat, hgo⟩)
      · exact .inr hpaused
    | answer x hat hout hflight hpaused => exact .answer x hat hout hflight hpaused
    | prepare x hat hto hpaused => exact .prepare x hat hto hpaused }

/-- The view of a transaction after an executor has sent. -/
def sentView (address : Address) (v : View) : View :=
  if (v.marks address).needSend = true then
    (v.withState { v.state with message := none }).mark address Marks.sent
  else v

variable {v : View} {msgs : List ExecutionMessage}

theorem sentView_of_send (h : At lossy cid v addr .send) :
    At lossy cid (sentView addr v) addr .answer := by
  have hsend : (v.marks addr).needSend = true := by simp [h.fits.needSend]
  have hstack : v.state.callStack ≠ [] := h.state.1
  rw [sentView, if_pos hsend]
  refine ⟨?_, ?_, ⟨rfl, hstack⟩, h.finished⟩
  · have hfits := h.fits
    constructor <;> simp [Marks.sent, hfits.pending, hfits.notOut, hfits.notRemoved,
      hfits.needPrepare]
  · intro x hx
    simpa [hx] using h.stale x hx

theorem sentView_out (h : NotOut v) : NotOut (sentView addr v) := by
  intro x
  rw [sentView]
  split
  · by_cases hx : x = addr
    · subst hx
      simpa [Marks.sent] using h x
    · simpa [hx] using h x
  · exact h x

theorem Sending.go_sent (h : Sending lossy cids toGo inFlight paused b)
    (hnodup : (msgs.map ExecutionMessage.contextID).Nodup)
    (hmsgs : ∀ cid, cid ∈ msgs.map ExecutionMessage.contextID ↔
      ((b.view cid).marks addr).needSend = true)
    (hviews : ∀ cid, b'.view cid = sentView addr (b.view cid))
    (hreg : b'.Registered) : Sending lossy cids (toGo.erase addr)
      (msgs.map (fun m => (addr, m.contextID)) ++ inFlight) true b' := by
  have hkeep : ∀ c, ((b.view c).marks addr).needSend = false → b'.view c = b.view c := by
    intro c hsend
    rw [hviews, sentView, if_neg (by simp [hsend])]
  have hflight : ∀ p, p ∈ msgs.map (fun m => (addr, m.contextID)) ↔
      p.1 = addr ∧ ((b.view p.2).marks addr).needSend = true := by
    rintro ⟨x, c⟩
    rw [← hmsgs]
    simp only [mem_map, Prod.mk.injEq]
    constructor
    · rintro ⟨m, hm, rfl, rfl⟩
      exact ⟨rfl, m, hm, rfl⟩
    · rintro ⟨rfl, m, hm, rfl⟩
      exact ⟨m, hm, rfl, rfl⟩
  -- a transaction under way is not sent again
  have hapart : ∀ p ∈ inFlight, ((b.view p.2).marks addr).needSend = false := by
    intro p hp
    obtain ⟨-, hat, -⟩ := h.flights p hp
    by_cases hx : p.1 = addr
    · subst hx
      simp [hat.fits.needSend]
    · exact (hat.stale addr (Ne.symm hx)).needSend
  refine ⟨?_, ?_, ?_, ?_, hreg⟩
  · intro c hc
    rcases hsend : ((b.view c).marks addr).needSend with - | -
    · rw [hkeep c hsend]
      cases h.within c hc with
      | gone hgone => exact .gone hgone
      | send x hat hout hgo =>
        refine .send x hat hout (Finset.mem_erase.mpr ⟨?_, hgo⟩)
        rintro rfl
        rw [hat.fits.needSend] at hsend
        simp at hsend
      | locked x hat hout _ => exact .locked x hat hout (.inr rfl)
      | answer x hat hout hmem _ =>
        exact .answer x hat hout (mem_append_right _ hmem) rfl
      | prepare x hat hto _ => exact .prepare x hat hto rfl
    · obtain ⟨-, hat, hout⟩ := h.send_of_needSend hsend
      rw [hviews]
      refine .answer addr (sentView_of_send hat) (sentView_out hout) ?_ rfl
      exact mem_append_left _ ((hflight _).mpr ⟨rfl, hsend⟩)
  · intro p hp
    rcases mem_append.mp hp with hnew | hold
    · obtain ⟨hx, hsend⟩ := (hflight p).mp hnew
      obtain ⟨hc, hat, hout⟩ := h.send_of_needSend hsend
      rw [hviews, hx]
      exact ⟨hc, sentView_of_send hat, sentView_out hout, rfl⟩
    · obtain ⟨hc, hat, hout, -⟩ := h.flights p hold
      rw [hkeep p.2 (hapart p hold)]
      exact ⟨hc, hat, hout, rfl⟩
  · rw [map_append, map_map]
    refine nodup_append.mpr ⟨hnodup, h.nodup, ?_⟩
    rintro c hc c' hc' rfl
    obtain ⟨p, hp, rfl⟩ := mem_map.mp hc'
    have hsend := (hmsgs p.2).mp hc
    rw [hapart p hp] at hsend
    cases hsend
  · intro c hc
    rw [hkeep c]
    · exact h.absent c hc
    · rw [(h.absent c hc).1]
      rfl

/-- What sending messages does to the transactions. -/
structure SentBy (address : Address) (b : BlockExecutive) (messages : List ExecutionMessage)
    (b' : BlockExecutive) : Prop where
  nodup : (messages.map ExecutionMessage.contextID).Nodup
  mem : ∀ contextID, contextID ∈ messages.map ExecutionMessage.contextID ↔
    ((b.view contextID).marks address).needSend = true
  taken : ∀ message ∈ messages, TakenFrom b message
  keyLocks : b'.keyLocks = b.keyLocks
  views : ∀ contextID, b'.view contextID = sentView address (b.view contextID)
  registered : b.Registered → b'.Registered

theorem sentBy_nil (h : ∀ cid, ((b.view cid).marks addr).needSend = false) :
    SentBy addr b [] b where
  nodup := nodup_nil
  mem cid := by simp [h cid]
  taken := by simp
  keyLocks := rfl
  views cid := by
    rw [sentView, if_neg]
    simp [h cid]
  registered := id

theorem sentBy_takenAll
    (h : TakenAll (elements (b.pools addr).needSend) b msgs b') :
    SentBy addr b msgs (b'.withPool addr ({ · with needSend := ∅ })) := by
  have hsend : ∀ cid, ((b.view cid).marks addr).needSend = true ↔
      cid ∈ elements (b.pools addr).needSend := by
    intro cid
    rw [mem_elements, view_marks, ExecutivePool.marks, ExecutivePool.has_iff]
  refine ⟨?_, ?_, h.taken, h.keyLocks, ?_, fun hb => registered_withPool ?_ (h.registered hb)⟩
  · rw [h.ids]
    exact nodup_elements
  · intro cid
    rw [h.ids, hsend]
  · intro cid
    rw [view_sent, h.views, sentView]
    simp only [← hsend]
    split
    · rfl
    · rename_i hnot
      have hmarks : ((b.view cid).marks addr).sent = (b.view cid).marks addr := by
        rw [Marks.sent, ← Bool.eq_false_iff.mpr hnot]
      simp only [View.mark]
      rw [hmarks, Function.update_eq_self]
  · intro cid hnone
    have hmarks : ({ b'.pools addr with needSend := ∅ } : ExecutivePool).marks cid =
        ((b'.pools addr).marks cid).sent := by
      simp [ExecutivePool.marks, Marks.sent, ExecutivePool.has_empty]
    rw [hmarks, hnone]
    rfl

/-- `go` sends what is to be sent; it reports at once if there is nothing. -/
theorem Sending.go_spec (h : Sending lossy cids toGo inFlight paused b) :
    Ensures (· = b) (DmcExecutor.go addr)
      (fun status b' => SentBy addr b (Execution.sentMessages status) b' ∧
        (status = .finished → b' = b ∧ ∀ cid, ((b.view cid).marks addr).pending = false))
      (fun e _ => e.Thrown) := by
  have hsend : ∀ cid, ((b.view cid).marks addr).needSend = true ↔
      cid ∈ (b.pools addr).needSend := by
    intro cid
    rw [view_marks, ExecutivePool.marks, ExecutivePool.has_iff]
  apply Ensures.getAt
  apply Ensures.of_ite
  · intro hempty
    have hpend : ∀ cid, ((b.view cid).marks addr).pending = false := by
      intro cid
      rw [Bool.eq_false_iff, ne_eq, pending_iff]
      simp only [ExecutivePool.isEmpty, decide_eq_true_eq] at hempty
      simp [hempty.1]
    refine Ensures.of_pureAt ⟨sentBy_nil fun cid => ?_, fun _ => ⟨rfl, hpend⟩⟩
    by_contra hne
    obtain ⟨-, hat, -⟩ := h.send_of_needSend (by simpa using hne)
    have hhere := hat.fits.pending
    rw [hpend cid] at hhere
    cases hhere
  · intro _
    apply Ensures.of_ite
    · intro hnone
      refine Ensures.of_pureAt ⟨sentBy_nil fun cid => ?_, by simp⟩
      rw [Bool.eq_false_iff, ne_eq, hsend]
      simp [hnone]
    · intro _
      apply (takeAll_spec nodup_elements ?_).bindAt
      · intro msgs b₁ htaken
        apply Ensures.modify_bindAt
        exact Ensures.of_pureAt ⟨sentBy_takenAll htaken, by simp⟩
      · intro cid hmem
        obtain ⟨-, hat, -⟩ := h.send_of_needSend ((hsend cid).mpr (mem_elements.mp hmem))
        exact ⟨hat.fits.pending, hat.state⟩

theorem Sending.go (h : Sending lossy cids toGo inFlight paused b) :
    Ensures (· = b) (DmcExecutor.go addr) (fun status b' => Sending lossy cids (toGo.erase addr)
        ((Execution.sentMessages status).map (fun m => (addr, m.contextID)) ++ inFlight)
        (paused || status ≠ .finished) b') (fun e _ => e.Thrown) := by
  refine h.go_spec.post ?_
  rintro status b' ⟨hsent, hfin⟩
  have hgo := h.go_sent hsent.nodup hsent.mem hsent.views (hsent.registered h.registered)
  rcases status with - | - | msgs
  · obtain ⟨rfl, hpend⟩ := hfin rfl
    simpa [Execution.sentMessages] using h.go_finished hpend
  · simpa [Execution.sentMessages] using hgo
  · simpa [Execution.sentMessages] using hgo

/-- The view of a transaction after its answer has come. -/
def answeredView (address : Address) (message : ExecutionMessage) (v : View) : View :=
  let v := v.withState { v.state with message := some message }
  if message.toAddress = address then v.mark address (·.markAs .needPrepare)
  else (v.mark address (·.markAs .needScheduleOut)).mark message.toAddress Marks.add

theorem answeredView_at (h : At lossy cid v addr .answer) (hout : NotOut v)
    (hid : msg.contextID = cid) :
    At lossy cid (answeredView addr msg v) msg.toAddress .prepare := by
  have hfits := h.fits
  have hready : Ready cid { v.state with message := some msg } :=
    ⟨msg, rfl, hid, .inr (.inr h.state.2)⟩
  rw [answeredView]
  split
  · rename_i heq
    rw [heq]
    refine ⟨?_, ?_, hready, h.finished⟩
    · rw [View.mark_marks]
      constructor <;> simp [Marks.markAs, hfits.pending, hfits.notOut, hfits.notRemoved,
        hfits.needSend]
    · intro x hx
      simpa [hx] using h.stale x hx
  · rename_i hne
    have hnone := (h.stale msg.toAddress hne).eq_none (hout _)
    refine ⟨?_, ?_, hready, h.finished⟩
    · rw [View.mark_marks, View.mark_marks_of_ne _ _ hne, View.withState_marks, hnone]
      constructor <;> simp [Marks.add, Marks.none]
    · intro x hx
      rw [View.mark_marks_of_ne _ _ hx]
      by_cases hxa : x = addr
      · -- the pool that the transaction has left
        subst hxa
        constructor <;> simp [Marks.markAs, hfits.needPrepare, hfits.needSend, hfits.notRemoved]
      · rw [View.mark_marks_of_ne _ _ hxa]
        exact h.stale x hxa

theorem not_mem_erase_of_snd {p : Address × ContextID}
    (hnodup : (inFlight.map Prod.snd).Nodup) (hp : p ∈ inFlight) :
    ∀ q ∈ inFlight.erase p, q.2 ≠ p.2 := by
  have hperm := (perm_cons_erase hp).map Prod.snd
  have hcons := hperm.nodup_iff.mp hnodup
  intro q hq heq
  exact (nodup_cons.mp hcons).1 (heq ▸ mem_map_of_mem hq)

theorem handleExecutiveOutput_spec {E : DmcError → BlockExecutive → Prop}
    (hpend : ((b.view msg.contextID).marks addr).pending = true) :
    Ensures (· = b) (handleExecutiveOutput addr msg)
      (fun _ b' => Local msg.contextID b b' ∧ b'.keyLocks = b.keyLocks ∧
        b'.view msg.contextID = answeredView addr msg (b.view msg.contextID)) E := by
  have hmarks : (b.view msg.contextID).marks addr ≠ .none := Marks.ne_none hpend
  apply Ensures.getAt
  apply Ensures.of_ite
  · intro hnot
    exact absurd (pending_iff.mp hpend) hnot
  · intro _
    apply Ensures.of_ite
    · intro heq
      refine Ensures.setAt ⟨(Local.withState _).trans (.markAs _ ?_), rfl, ?_⟩
      · rwa [view_withState]
      · rw [view_markAs, view_withState, answeredView, if_pos heq]
        rfl
    · intro hne
      refine Ensures.setAt ⟨((Local.withState _).trans (.markAs _ ?_)).trans
        (.scheduleIn _), rfl, ?_⟩
      · rwa [view_withState]
      · rw [view_scheduleIn, view_markAs, view_withState, answeredView, if_neg hne]
        rfl

theorem Sending.output (h : Sending lossy cids toGo inFlight paused b)
    (hsent : (addr, msg.contextID) ∈ inFlight) : Ensures (· = b) (handleExecutiveOutput addr msg)
      (fun _ b' => Sending lossy cids toGo
        (inFlight.erase (addr, msg.contextID)) paused b') (fun e _ => e.Thrown) := by
  obtain ⟨hc, hat, hout, hpaused⟩ := h.flights _ hsent
  have hapart := not_mem_erase_of_snd h.nodup hsent
  refine (handleExecutiveOutput_spec hat.fits.pending).post ?_
  rintro _ b' ⟨hlocal, -, hview⟩
  refine ⟨?_, ?_, ?_, ?_, hlocal.registered_of h.registered⟩
  · intro c hc'
    by_cases heq : c = msg.contextID
    · subst heq
      rw [hview]
      refine .prepare _ (answeredView_at hat hout rfl) ?_ hpaused
      intro msg' hmsg'
      have hstate : (answeredView addr msg (b.view msg.contextID)).state.message =
          some msg := by
        rw [answeredView]
        split <;> rfl
      rw [hstate] at hmsg'
      cases hmsg'
      rfl
    · rw [hlocal.views c heq]
      cases h.within c hc' with
      | gone hgone => exact .gone hgone
      | send x hat hout hgo => exact .send x hat hout hgo
      | locked x hat hout hgo => exact .locked x hat hout hgo
      | answer x hat hout hflight hpaused =>
        refine .answer x hat hout ((mem_erase_of_ne ?_).mpr hflight) hpaused
        simp [heq]
      | prepare x hat hto hpaused => exact .prepare x hat hto hpaused
  · intro p hp
    rw [hlocal.views p.2 (hapart p hp)]
    exact h.flights p (mem_of_mem_erase hp)
  · exact h.nodup.sublist ((erase_sublist ).map _)
  · intro c hc'
    rw [hlocal.views c (fun heq => hc' (heq ▸ hc))]
    exact h.absent c hc'

theorem Sending.resting (h : Sending lossy cids ∅ [] paused b) : Resting lossy cids b := { h with
  between c hc := by
    cases h.within c hc with
    | gone hgone => exact .gone hgone
    | send x hat _ _ => exact .send x hat
    | locked x hat _ _ => exact .locked x hat
    | answer x _ _ hflight _ => exact absurd hflight not_mem_nil
    | prepare x hat hto _ => exact .prepare x hat (.inr hto) }

theorem Sending.gone (h : Sending lossy cids ∅ [] false b)
    (hc : cid ∈ cids) : Gone lossy (b.view cid) := by
  cases h.within cid hc with
  | gone hgone => exact hgone
  | send _ _ _ hgo => exact absurd hgo (Finset.notMem_empty _)
  | locked _ _ _ hgo => simp at hgo
  | answer _ _ _ hflight _ => exact absurd hflight not_mem_nil
  | prepare _ _ _ hpaused => cases hpaused

end Round

end FiscoSmart.Scheduler
