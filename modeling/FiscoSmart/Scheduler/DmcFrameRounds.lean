import FiscoSmart.Scheduler.DmcFrames

/-!
# Call frames over a round

The marks of a transaction in the pools say what is to be done with its message, and
so which of the frame conditions it meets.  This module follows them through the
preparation of a round: the locks of the frames that have returned are released, the
messages are handled, and the locked transactions are unlocked or reverted.
-/

namespace FiscoSmart.Scheduler

open BlockExecutive DmcExecutor Function
open Support
open GraphKeyLocks (Edge)

variable {lossy released : Prop} {env : Env} {cids : Finset ContextID} {addrs : List Address}
  {cid : ContextID} {log : List Exchange} {edges edges' : Set Edge} {v v' : View} {addr : Address}
  {state : ExecutiveState} {b b' : BlockExecutive} {logs : ContextID → List Exchange}

/-! ## One transaction -/

/-- The frames of a transaction and the marks that it has.  `released` says that the
locks of the frames that have returned are released. -/
structure FrameOk (released : Prop) (contextID : ContextID) (log : List Exchange)
    (edges : Set Edge) (v : View) : Prop where
  named : Named contextID v.state
  stacked : Stacked log edges v.state
  prepare : ∀ x, (v.marks x).needPrepare = true → (v.marks x).pending = true →
    (v.marks x).needScheduleOut = false →
    Unhandled log edges v.state ∧ (released → Released edges v.state)
  send : ∀ x, (v.marks x).needSend = true → Outgoing log v.state
  locked : ∀ x, (v.marks x).hasLocked = true → (v.marks x).pending = true →
    (v.marks x).needSend = false → (v.marks x).needPrepare = false →
    (v.marks x).needScheduleOut = false → v.state.message ≠ none → Locked log v.state

def Frames (released : Prop) (logs : ContextID → List Exchange) (b : BlockExecutive) : Prop :=
  ∀ contextID, FrameOk released contextID (logs contextID) (b.keyLocks.edgesOf contextID)
    (b.view contextID)

section

variable (h : FrameOk released cid log edges v)

include h

theorem FrameOk.weaken : FrameOk False cid log edges v :=
  { h with
    prepare := fun x hprep hpend hout => ⟨(h.prepare x hprep hpend hout).1, False.elim⟩ }

theorem FrameOk.mark {f : Marks → Marks}
    (hprep : (f (v.marks addr)).needPrepare = true → (f (v.marks addr)).pending = true →
      (f (v.marks addr)).needScheduleOut = false →
      Unhandled log edges v.state ∧ (released → Released edges v.state))
    (hsend : (f (v.marks addr)).needSend = true → Outgoing log v.state)
    (hlocked : (f (v.marks addr)).hasLocked = true → (f (v.marks addr)).pending = true →
      (f (v.marks addr)).needSend = false → (f (v.marks addr)).needPrepare = false →
      (f (v.marks addr)).needScheduleOut = false → v.state.message ≠ none → Locked log v.state) :
    FrameOk released cid log edges (v.mark addr f) := by
  refine ⟨h.named, h.stacked, fun x => ?_, fun x => ?_, fun x => ?_⟩
  · rcases v.mark_cases addr f x with ⟨rfl, heq⟩ | ⟨-, heq⟩ <;> rw [heq]
    · exact hprep
    · exact h.prepare x
  · rcases v.mark_cases addr f x with ⟨rfl, heq⟩ | ⟨-, heq⟩ <;> rw [heq]
    · exact hsend
    · exact h.send x
  · rcases v.mark_cases addr f x with ⟨rfl, heq⟩ | ⟨-, heq⟩ <;> rw [heq]
    · exact hlocked
    · exact h.locked x

theorem FrameOk.refresh (addr : Address) :
    FrameOk released cid log edges (v.mark addr Marks.refresh) := by
  refine h.mark (fun hprep hpend _ => ?_) (h.send addr) (fun hlocked hpend hsend hprep _ hmsg => ?_)
  · simp only [Marks.refresh, Bool.and_eq_true, Bool.not_eq_true', Bool.or_eq_false_iff]
      at hprep hpend
    exact h.prepare addr hprep.1 hpend.1 hprep.2.2
  · simp only [Marks.refresh, Bool.and_eq_true, Bool.not_eq_true', Bool.or_eq_false_iff]
      at hlocked hpend
    refine h.locked addr hlocked.1.1 hpend.1 hlocked.1.2 ?_ hlocked.2.2 hmsg
    simpa [Marks.refresh, hlocked.2.1, hlocked.2.2] using hprep

end

theorem Unhandled.mono (h : Unhandled log edges state)
    (hsub : edges' ⊆ edges) : Unhandled log edges' state := by
  cases h with
  | fresh msg hmsg hreq hstack hopen hlocks =>
    exact .fresh msg hmsg hreq hstack hopen hlocks
  | asked msg answer before hmsg hlog htype hkind hseq hstack hframe =>
    exact .asked msg answer before hmsg hlog htype hkind hseq hstack hframe
  | returned msg answer before hmsg hlog htype hkind hseq hframes hstack =>
    exact .returned msg answer before hmsg hlog htype hkind hseq hframes hstack
  | sentBack msg hmsg htype hopen hlocks hedges =>
    exact .sentBack msg hmsg htype hopen hlocks (Set.subset_eq_empty hsub hedges)

theorem Stacked.mono (h : Stacked log edges state)
    (hlocks : ∀ e ∈ edges', e ∈ edges ∨ e.seq ∈ state.callStack) : Stacked log edges' state :=
  { h with locks := fun e he => (hlocks e he).elim (h.locks e) id }

theorem FrameOk.mono (h : FrameOk False cid log edges v) (hsub : edges' ⊆ edges) :
    FrameOk False cid log edges' v :=
  ⟨h.named, h.stacked.mono fun _ he => .inl (hsub he), fun x hprep hpend hout =>
    ⟨(h.prepare x hprep hpend hout).1.mono hsub, False.elim⟩, h.send, h.locked⟩

/-! ## The locks of frames that have returned -/

/-- What is seen of a transaction: its marks, its state and its locks. -/
def BlockExecutive.sight (b : BlockExecutive) (contextID : ContextID) : View × Set Edge :=
  (b.view contextID, b.keyLocks.edgesOf contextID)

theorem sight_pending (addr : Address) (b b' : BlockExecutive) (cid : ContextID)
    (h : b'.sight cid = b.sight cid) : ((b'.view cid).marks addr).pending =
      ((b.view cid).marks addr).pending := by
  rw [(Prod.mk.inj h).1]

theorem releaseLock_frames (hnamed : Named cid (b.states cid)) :
    Ensures (· = b) (releaseLock cid) (fun needContinue b' => needContinue = true ∧
        (∀ cid', cid' ≠ cid → b'.sight cid' = b.sight cid') ∧
        True ∧ (b'.sight cid).1 = (b.sight cid).1 ∧ (b'.sight cid).2 ⊆ (b.sight cid).2 ∧
        Released (b'.sight cid).2 (b.sight cid).1.state) NotEmptyPop := by
  apply (message_reads fun _ => by simp [NotEmptyPop]).bindAt
  rintro msg b ⟨rfl, hmsg⟩
  have hid : msg.contextID = cid := hnamed msg hmsg
  apply Ensures.of_ite
  · intro hreturn
    apply Ensures.modify_bindAt
    refine Ensures.of_pureAt ⟨rfl, fun cid' hne => ?_, trivial, rfl, fun e he => ?_,
      fun msg' hmsg' _ e he => ?_⟩
    · refine Prod.ext rfl (Set.ext fun e => ?_)
      refine GraphKeyLocks.mem_edgesOf_releaseKeyLocks.trans (and_iff_left fun h => ?_)
      exact hne (h.1.trans hid)
    · exact (GraphKeyLocks.mem_edgesOf_releaseKeyLocks.mp he).1
    · cases hmsg.symm.trans hmsg'
      exact fun hseq => (GraphKeyLocks.mem_edgesOf_releaseKeyLocks.mp he).2 ⟨hid.symm, hseq⟩
  · intro hnot
    refine Ensures.of_pureAt ⟨rfl, fun _ _ => rfl, trivial, rfl, subset_rfl,
      fun msg' hmsg' hreturn => ?_⟩
    cases hmsg.symm.trans hmsg'
    exact absurd hreturn (by
      cases htype : msg.type <;> simp [htype, isReturn] at hnot ⊢)

/-- What is known after some executors have released locks. -/
structure Releasing (logs : ContextID → List Exchange) (addresses : List Address)
    (b b' : BlockExecutive) : Prop where
  frames : Frames False logs b'
  views : ∀ contextID, b'.view contextID = b.view contextID
  sub : ∀ contextID, b'.keyLocks.edgesOf contextID ⊆ b.keyLocks.edgesOf contextID
  released : ∀ x ∈ addresses, ∀ contextID, ((b.view contextID).marks x).needPrepare = true →
    ((b.view contextID).marks x).pending = true →
    Released (b'.keyLocks.edgesOf contextID) (b.view contextID).state

theorem releaseOutdatedLock_frames (h : Frames False logs b) :
    Ensures (· = b) (releaseOutdatedLock addr) (fun _ b' => Releasing logs [addr] b b')
      NotEmptyPop := by
  apply Ensures.getAt
  refine (forEach_each (sight_pending addr) (T := fun _ _ => True)
    (R := fun _ s s' => s'.1 = s.1 ∧ s'.2 ⊆ s.2 ∧ Released s'.2 s.1.state)
    (I := fun cid s => Named cid s.1.state) (fun _ => trivial)
    (fun _ _ _ _ _ => trivial) (fun cid b' _ => releaseLock_frames) nodup_elements
    (fun cid _ _ => (h cid).named)).post ?_
  rintro _ b' ⟨hchanged, hsame, -⟩
  have hall : ∀ cid, b'.view cid = b.view cid ∧
      b'.keyLocks.edgesOf cid ⊆ b.keyLocks.edgesOf cid := by
    intro cid
    by_cases hmem : cid ∈ elements (b.pools addr).needPrepare ∧
        ((b.view cid).marks addr).pending = true
    · obtain ⟨hview, hsub, -⟩ := hchanged cid hmem.1 hmem.2
      exact ⟨hview, hsub⟩
    · have hsight := hsame cid fun hc => by simpa [hc] using hmem
      exact ⟨(Prod.mk.inj hsight).1, (Prod.mk.inj hsight).2.le⟩
  refine ⟨fun cid => ?_, fun cid => (hall cid).1,
    fun cid => (hall cid).2, fun x hx cid hprep hpend => ?_⟩
  · rw [(hall cid).1]
    exact (h cid).mono (hall cid).2
  · obtain rfl := List.mem_singleton.mp hx
    refine (hchanged cid (mem_elements.mpr ?_) hpend).2.2
    rw [view_marks, ExecutivePool.marks, ExecutivePool.has_iff] at hprep
    exact hprep

theorem releaseAll_frames (h : Frames False logs b) :
    Ensures (· = b) (eachExecutor releaseOutdatedLock addrs)
      (fun _ b' => Releasing logs addrs b b') NotEmptyPop := by
  induction addrs generalizing b with
  | nil => exact .of_pureAt ⟨h, fun _ => rfl, fun _ => subset_rfl, by simp⟩
  | cons addr addrs ih =>
    apply (releaseOutdatedLock_frames h).bindAt
    intro _ b₁ h₁
    refine (ih h₁.frames).post ?_
    intro _ b₂ h₂
    refine ⟨h₂.frames, fun cid => (h₂.views cid).trans (h₁.views cid),
      fun cid => (h₂.sub cid).trans (h₁.sub cid), ?_⟩
    intro x hx cid hprep hpend
    rcases List.mem_cons.mp hx with rfl | hx
    · intro msg hmsg hreturn e he
      exact h₁.released x List.mem_cons_self cid hprep hpend msg hmsg hreturn e (h₂.sub cid he)
    · have hview := h₁.views cid
      have hreleased := h₂.released x hx cid (by rw [hview]; exact hprep)
        (by rw [hview]; exact hpend)
      rwa [hview] at hreleased

/-- When all executors have released locks, every frame that has returned has no
locks. -/
theorem Releasing.all (h : Releasing logs b.addresses b b')
    (hreg : b.Registered) : Frames True logs b' := by
  intro cid
  have hframe := h.frames cid
  refine { hframe with
    prepare := fun x hprep hpend hout =>
    ⟨(hframe.prepare x hprep hpend hout).1, fun _ => ?_⟩ }
  rw [h.views] at hprep hpend ⊢
  exact h.released x (mem_addresses.mpr (hreg cid x (Marks.ne_none hpend))) cid hprep hpend

/-! ## Handling the messages -/

/-- A transaction between the handling of the messages of an address and the moves
from there. -/
structure Partway (address : Address) (contextID : ContextID) (log : List Exchange)
    (edges : Set Edge) (v : View) : Prop extends FrameOk True contextID log edges v where
  out : (v.marks address).needScheduleOut = true →
    Unhandled log edges v.state ∧ Released edges v.state

section Prepare

theorem Preparing.at_of_needPrepare (h : Preparing lossy env cids b)
    (hprep : ((b.view cid).marks addr).refresh.needPrepare = true) :
    At lossy cid (b.view cid) addr .prepare := by
  rcases h.stale_or_at cid addr with hstale | ⟨status, -, hat⟩
  · rw [hstale.refresh] at hprep
    cases hprep
  · exact hat.fits.eq_prepare hprep ▸ hat

theorem partway_of_turned {hint : MessageHint} (hnamed : Named cid v'.state)
    (hstacked : Stacked log edges' v'.state) (hturned : Turned log edges' v'.state hint)
    (hat : At lossy cid v addr .prepare) (hmarks : v'.marks = update v.marks addr
      ((v.marks addr).refresh.markAs hint).prepared) : Partway addr cid log edges' v' := by
  have hm := hat.fits
  have hhere : v'.marks addr = ((v.marks addr).refresh.markAs hint).prepared := by
    rw [hmarks, update_self]
  have hthere : ∀ x, x ≠ addr → v'.marks x = v.marks x := fun x hx => by
    rw [hmarks, update_of_ne hx]
  refine ⟨⟨hnamed, hstacked, fun x => ?_, fun x => ?_, fun x => ?_⟩, ?_⟩
  · by_cases hx : x = addr
    · subst hx
      rw [hhere]
      intro hprep
      simp [Marks.prepared] at hprep
    · rw [hthere x hx]
      intro hprep _ hout
      rw [((hat.stale x hx).needPrepare hprep).2] at hout
      cases hout
  · by_cases hx : x = addr
    · subst hx
      rw [hhere]
      cases hint with
      | needSend => exact fun _ => hturned
      | _ => simp [Marks.prepared, Marks.markAs, Marks.refresh, hm.needSend]
    · rw [hthere x hx, (hat.stale x hx).needSend]
      exact fun hfalse => by cases hfalse
  · by_cases hx : x = addr
    · subst hx
      rw [hhere]
      rcases hint with - | - | - | - | -
      · exact hturned.elim
      · exact fun _ _ _ _ _ _ => hturned
      · simp [Marks.prepared, Marks.markAs]
      · simp [Marks.prepared, Marks.markAs]
      · exact fun _ _ _ _ _ hmsg => absurd hturned hmsg
    · rw [hthere x hx]
      intro hlocked _ _ _ hout
      rw [(hat.stale x hx).hasLocked hlocked] at hout
      cases hout
  · rw [hhere]
    cases hint with
    | needScheduleOut => exact fun _ => hturned
    | _ => simp [Marks.prepared, Marks.markAs, Marks.refresh]

theorem FrameOk.partway (h : FrameOk True cid log edges v)
    (hidle : (v.marks addr).refresh.needPrepare = false ∨
      (v.marks addr).refresh.pending = false) : Partway addr cid log edges
      ((v.mark addr Marks.refresh).mark addr Marks.prepared) := by
  refine ⟨(h.refresh addr).mark ?_ ?_ ?_, ?_⟩
  · intro hprep
    simp [Marks.prepared] at hprep
  · exact (h.refresh addr).send addr
  · rw [View.mark_marks]
    intro hlocked hpend hsend _ hout hmsg
    have hpend' : (v.marks addr).refresh.pending = true := hpend
    have hprep := hidle.resolve_right (by simp [hpend'])
    have hrefreshed := (h.refresh addr).locked addr
    rw [View.mark_marks] at hrefreshed
    exact hrefreshed hlocked hpend hsend hprep hout hmsg
  · simp [Marks.prepared, Marks.refresh]

theorem Partway.scheduledOut (h : Partway addr cid log edges v) :
    FrameOk True cid log edges (v.scheduledOut addr) := by
  rw [View.scheduledOut]
  split
  · rename_i hout
    obtain ⟨hunhandled, hreleased⟩ := h.out hout.1
    refine h.toFrameOk.mark (fun _ _ _ => ⟨hunhandled, fun _ => hreleased⟩) (h.send _) ?_
    intro _ _ _ hprep
    simp [Marks.add] at hprep
  · exact h.toFrameOk

theorem prepareMessage_frames (hready : Ready cid (b.view cid).state)
    (h : Due log (b.keyLocks.edgesOf cid) (b.states cid)) :
    Ensures (· = b) (prepareMessage env addr cid) (fun needContinue b' => needContinue = true ∧
        (∀ cid', cid' ≠ cid → b'.sight cid' = b.sight cid') ∧
        True ∧ ∃ hint, Named cid (b'.sight cid).1.state ∧
          Stacked log (b'.sight cid).2 (b'.sight cid).1.state ∧
          Turned log (b'.sight cid).2 (b'.sight cid).1.state hint ∧
          (b'.sight cid).1.marks = update (b.sight cid).1.marks addr
            (((b.sight cid).1.marks addr).markAs hint)) NotEmptyPop := by
  have hid : ∃ msg, (b.states cid).message = some msg ∧ msg.contextID = cid := by
    obtain ⟨msg, hmsg, hid, -⟩ := hready
    exact ⟨msg, hmsg, hid⟩
  have hhandle : Ensures (· = b) (handleExecutiveMessage env addr cid) _ _ :=
    (handleExecutiveMessage_spec hready).and (handleExecutiveMessage_frames hid h)
  apply (hhandle.fail fun _ _ herror => herror.2).bindAt
  rintro hint b₁ ⟨⟨hlocal, hhandled⟩, hframes⟩
  apply Ensures.modify_bindAt
  apply Ensures.of_pureAt
  have hview : (b₁.withPool addr (·.markAs cid hint)).view cid =
      (b₁.view cid).mark addr (·.markAs hint) := view_markAs b₁ addr hint
  refine ⟨rfl, fun cid' hne => ?_, trivial, hint, ?_, ?_, ?_, ?_⟩
  · refine Prod.ext ?_ (hframes.others cid' hne)
    exact (view_markAs_of_ne b₁ addr hint hne).trans (hlocal.views cid' hne)
  · exact hframes.named
  · exact hframes.stacked
  · exact hframes.turned
  · rw [sight, hview, View.mark, hhandled.marks_eq]
    rfl

theorem prepareMessages_frames (hpreparing : Preparing lossy env cids b)
    (h : Frames True logs b) {b₁ : BlockExecutive}
    (hviews : ∀ cid, b₁.view cid = (b.view cid).mark addr Marks.refresh)
    (hlocks : b₁.keyLocks = b.keyLocks) : Ensures (· = b₁) (prepareMessages env addr)
      (fun _ b' => ∀ cid, Partway addr cid (logs cid)
        (b'.keyLocks.edgesOf cid) (b'.view cid)) NotEmptyPop := by
  have hneed : ∀ cid, ((b.view cid).marks addr).refresh.needPrepare = true ↔
      cid ∈ elements (b₁.pools addr).needPrepare := by
    intro cid
    have hmarks := congrArg (fun v => (v.marks addr).needPrepare) (hviews cid)
    simp only [View.mark_marks] at hmarks
    rw [← hmarks, mem_elements, view_marks, ExecutivePool.marks, ExecutivePool.has_iff]
  have hpend : ∀ cid, ((b₁.view cid).marks addr).pending =
      ((b.view cid).marks addr).refresh.pending := by
    intro cid
    rw [hviews, View.mark_marks]
  apply Ensures.getAt
  apply (forEach_each (sight_pending addr) (T := fun _ _ => True)
    (R := fun cid s s' => ∃ hint, Named cid s'.1.state ∧
      Stacked (logs cid) s'.2 s'.1.state ∧ Turned (logs cid) s'.2 s'.1.state hint ∧
      s'.1.marks = update s.1.marks addr ((s.1.marks addr).markAs hint))
    (I := fun cid s => Ready cid s.1.state ∧ Due (logs cid) s.2 s.1.state)
    (fun _ => trivial) (fun _ _ _ _ _ => trivial)
    (fun cid b' _ hI => prepareMessage_frames hI.1 hI.2) nodup_elements ?_).bindAt
  · rintro _ b₂ ⟨hchanged, hsame, -⟩
    refine Ensures.modifyAt fun cid => ?_
    rw [view_prepared]
    by_cases hmem : cid ∈ elements (b₁.pools addr).needPrepare ∧
        ((b₁.view cid).marks addr).pending = true
    · obtain ⟨hint, hnamed, hstacked, hturned, hmarks⟩ := hchanged cid hmem.1 hmem.2
      have hat := hpreparing.at_of_needPrepare ((hneed cid).mpr hmem.1)
      refine partway_of_turned hnamed hstacked hturned hat ?_
      have hsight : (b₁.sight cid).1 = (b.view cid).mark addr Marks.refresh :=
        hviews cid
      have hmarks₂ : (b₂.view cid).marks = _ := hmarks
      rw [View.mark, hmarks₂, hsight]
      simp [View.mark]
    · have hsight := hsame cid fun hc => by simpa [hc] using hmem
      have hview : b₂.view cid = (b.view cid).mark addr Marks.refresh :=
        (Prod.mk.inj hsight).1.trans (hviews cid)
      have hedges : b₂.keyLocks.edgesOf cid = b.keyLocks.edgesOf cid :=
        (Prod.mk.inj hsight).2.trans (by rw [hlocks])
      have hidle : ((b.view cid).marks addr).refresh.needPrepare = false ∨
          ((b.view cid).marks addr).refresh.pending = false := by
        rw [← hneed, hpend] at hmem
        simpa [← Bool.not_eq_true, ← not_and_or] using hmem
      have hpartway := (h cid).partway hidle
      rw [← hview, ← hedges] at hpartway
      exact hpartway
  · intro cid hmem _
    have hat := hpreparing.at_of_needPrepare ((hneed cid).mpr hmem)
    obtain ⟨hunhandled, hreleased⟩ := (h cid).prepare addr
      (by simp [hat.fits.needPrepare]) hat.fits.pending hat.fits.notOut
    have hready : Ready cid (b₁.view cid).state := by
      rw [hviews]
      exact hat.state
    refine ⟨hready, ?_⟩
    have hdue : Due (logs cid) (b.keyLocks.edgesOf cid) (b.view cid).state :=
      ⟨hunhandled, hreleased trivial, (h cid).stacked⟩
    rw [sight, hlocks, hviews]
    exact hdue

theorem Unhandled.message_ne_none (h : Unhandled log edges state) : state.message ≠ none := by
  cases h with
  | fresh msg hmsg => simp [hmsg]
  | asked msg _ _ hmsg => simp [hmsg]
  | returned msg _ _ hmsg => simp [hmsg]
  | sentBack msg hmsg => simp [hmsg]

theorem scheduleOuts_keyLocks :
    Ensures (· = b) (scheduleOuts addr) (fun _ b' => b'.keyLocks = b.keyLocks)
      (fun _ _ => True) := by
  apply Ensures.getAt
  apply (forEach_invariant (P := fun b' => b'.keyLocks = b.keyLocks)
    (fun cid b' hb' _ => ?_) rfl _).bindAt
  · intro _ b' hb'
    exact .of_pureAt hb'
  · apply (message_reads fun _ => trivial).bindAt
    rintro msg b'' ⟨rfl, -⟩
    refine (Ensures.modifyAt (Q := fun _ b₁ => b₁.keyLocks = b''.keyLocks) rfl).bindAt ?_
    intro _ b₁ hb₁
    exact .of_pureAt (hb₁.trans hb')

variable (hpreparing : Preparing lossy env cids b)

include hpreparing

theorem prepare_frames (h : Frames True logs b) :
    Ensures (· = b) (prepare env addr) (fun _ b' => Frames True logs b') NotEmptyPop := by
  have hrefresh : ∀ b : BlockExecutive, Ensures (· = b) (DmcExecutor.refresh addr)
      (fun _ b' => (∀ cid, b'.view cid = (b.view cid).mark addr Marks.refresh) ∧
        b'.keyLocks = b.keyLocks) NotEmptyPop := fun b =>
    Ensures.modifyAt ⟨fun cid => view_refresh b addr, rfl⟩
  apply (hrefresh b).bindAt
  rintro _ b₁ ⟨hviews₁, hlocks₁⟩
  apply (prepareMessages_frames hpreparing h hviews₁ hlocks₁).bindAt
  intro _ b₂ h₂
  have hmsgs : ∀ cid, ((b₂.view cid).marks addr).needScheduleOut = true →
      (b₂.view cid).state.message ≠ none := fun cid hout =>
    ((h₂ cid).out hout).1.message_ne_none
  apply (((scheduleOuts_spec hmsgs).and scheduleOuts_keyLocks).fail
    fun error b' herror => notEmptyPop_of_thrown error b' herror.1).bindAt
  rintro _ b₃ ⟨⟨hviews₃, -⟩, hlocks₃⟩
  apply (hrefresh b₃).bindAt
  rintro _ b₄ ⟨hviews₄, hlocks₄⟩
  refine .of_pureAt fun cid => ?_
  rw [hlocks₄, hlocks₃, hviews₄, hviews₃]
  exact (h₂ cid).scheduledOut.refresh addr

theorem prepareAll_frames (h : Frames True logs b) :
    Ensures (· = b) (anyExecutor (prepare env) addrs) (fun _ b' => Frames True logs b')
      NotEmptyPop := by
  induction addrs generalizing b with
  | nil => exact .of_pureAt h
  | cons addr addrs ih =>
    have hprep : Ensures (· = b) (prepare env addr) _ _ :=
      (prepare_preparing hpreparing).and (prepare_frames hpreparing h)
    apply (hprep.fail fun _ _ herror => herror.2).bindAt
    rintro _ b₁ ⟨⟨hpreparing₁, -⟩, h₁⟩
    apply (ih hpreparing₁ h₁).bindAt
    intro _ b₂ h₂
    exact .of_pureAt h₂

/-- One turn of the first loop keeps the frames, and no empty call stack is popped. -/
theorem preparePass_frames (h : Frames False logs b) :
    Ensures (· = b) (preparePass env) (fun _ b' => Frames False logs b') NotEmptyPop := by
  apply Ensures.getAt
  have hrelease : Ensures (· = b) (eachExecutor releaseOutdatedLock b.addresses) _ _ :=
    (eachExecutor_spec (E := Fails lossy) (P := fun b' => Preparing lossy env cids b')
      (fun addr b' hb' => (releaseOutdatedLock_spec hb').post
        fun _ b'' hb'' => hb'.of_views hb''.1 (hb''.2 hb'.registered)) hpreparing
      b.addresses).and (releaseAll_frames h)
  apply (hrelease.fail fun _ _ herror => herror.2).bindAt
  rintro _ b₁ ⟨hpreparing₁, h₁⟩
  refine (prepareAll_frames hpreparing₁ (h₁.all hpreparing.registered)).post ?_
  exact fun _ b₂ h₂ cid => (h₂ cid).weaken

theorem preparePasses_frames (h : Frames False logs b)
    (hpasses : PreparePasses env b b') : Frames False logs b' := by
  induction hpasses with
  | last hpass => exact (preparePass_frames hpreparing h).ok rfl hpass
  | again hpass _ ih =>
    exact ih ((preparePass_spec hpreparing).ok rfl hpass).1
      ((preparePass_frames hpreparing h).ok rfl hpass)

end Prepare

/-! ## The locks -/

section Settle

variable {msg : ExecutionMessage}

theorem Locked.outgoing {state' : ExecutiveState}
    (h : Locked log state) (hstack : state'.callStack = state.callStack)
    (hmsg : state'.message = some msg)
    (hsame : ∀ msg', state.message = some msg' → msg.seq = msg'.seq)
    (htype : msg.type = .keyLock ∨ msg.type = .revert) : Outgoing log state' := by
  obtain ⟨msg', request, before, hmsg', hlog, hreq, -, hseq, hstack', hframe⟩ := h
  have hopen : openFrames (.sent msg :: log) = openFrames log :=
    openFrames_sent (by rcases htype with htype | htype <;> rw [htype] <;> rfl)
  rw [← hsame msg' hmsg'] at hseq hframe
  refine ⟨msg, hmsg, .lock request before hlog hreq htype hseq hframe, ?_, ?_⟩
  · rw [hstack, hstack', hopen]
  · rw [hopen]
    exact hframe

/-- The transactions that are locked wait for their locks. -/
def AwaitLocks (logs : ContextID → List Exchange) (b : BlockExecutive) : Prop :=
  ∀ contextID x, ((b.view contextID).marks x).hasLocked = true →
    ((b.view contextID).marks x).pending = true → Locked (logs contextID) (b.view contextID).state

/-- A transaction of a pool has a message that can be sent, or will have. -/
theorem Settling.outgoing (hsettling : Settling lossy env cids b) (h : Frames False logs b)
    (hpend : ((b.view cid).marks addr).pending = true) :
    Outgoing (logs cid) (b.view cid).state := by
  have hmem := hsettling.pending_mem hpend
  rcases (hsettling.waiting cid hmem).at_of_pending (hsettling.clean cid) hpend with hat | hat
  · exact (h cid).send addr (by simp [hat.fits.needSend])
  · obtain ⟨-, msg, hmsg, -⟩ : Sendable cid (b.view cid).state := hat.state
    have hlocked := (h cid).locked addr (hat.fits.hasLocked rfl) hpend
      (by simp [hat.fits.needSend]) (by simp [hat.fits.needPrepare]) hat.fits.notOut
      (by rw [hmsg]; simp)
    have htype : msg.type = .keyLock := by
      obtain ⟨msg', -, -, hmsg', -, -, htype, -⟩ := hlocked
      rwa [Option.some.inj (hmsg.symm.trans hmsg')]
    refine Locked.outgoing hlocked rfl hmsg (fun msg' hmsg' => ?_) (.inl htype)
    rw [Option.some.inj (hmsg.symm.trans hmsg')]

/-- A transaction gets a lock, with or without a mark to be sent. -/
theorem FrameOk.acquire (h : FrameOk False cid log edges v) (hclean : Clean v)
    (houtgoing : Outgoing log v.state) (hedges : ∀ e ∈ edges', e ∈ edges ∨
      ∃ msg, v.state.message = some msg ∧ e.seq = msg.seq) : FrameOk False cid log edges' v := by
  refine ⟨h.named, h.stacked.mono fun e he => ?_, fun x hprep => ?_, h.send, h.locked⟩
  · rcases hedges e he with hmem | ⟨msg, hmsg, hseq⟩
    · exact .inl hmem
    · obtain ⟨msg', hmsg', -, hstack, hhead⟩ := houtgoing
      cases hmsg.symm.trans hmsg'
      rw [hstack, hseq]
      exact .inr (List.mem_of_mem_head? hhead)
  · rw [(hclean x).1] at hprep
    cases hprep

theorem FrameOk.markSend (h : FrameOk False cid log edges v)
    (houtgoing : Outgoing log v.state) (addr : Address) :
    FrameOk False cid log edges (v.mark addr (·.markAs .needSend)) := by
  refine h.mark (h.prepare addr) (fun _ => houtgoing) fun _ _ hsend => ?_
  simp [Marks.markAs] at hsend

theorem unlock_frames (hsettling : Settling lossy env cids b) (h : Frames False logs b)
    (hawait : AwaitLocks logs b) (hpend : ((b.view cid).marks addr).pending = true) :
    Ensures (· = b) (unlock addr cid)
      (fun _ b' => Frames False logs b' ∧ AwaitLocks logs b') NotEmptyPop := by
  have houtgoing := hsettling.outgoing h hpend
  obtain ⟨-, msg, hmsg, hid⟩ := hsettling.sendable hpend
  apply ((message_spec hmsg).fail notEmptyPop_of_thrown).bindAt
  rintro msg b ⟨rfl, rfl⟩
  apply Ensures.getAt
  -- the edges of the transaction and of the others after the attempt
  have hframes : ∀ c, FrameOk False c (logs c) ((b.keyLocks.acquireKeyLock msg.fromAddress
      msg.keyLockAcquired cid msg.seq).2.edgesOf c) (b.view c) := by
    intro c
    by_cases hc : c = cid
    · subst hc
      refine (h c).acquire (hsettling.clean c) houtgoing fun e he => ?_
      exact (GraphKeyLocks.mem_edgesOf_acquireKeyLock he).imp_right fun hseq =>
        ⟨msg, hmsg, hseq⟩
    · rw [GraphKeyLocks.edgesOf_acquireKeyLock hc]
      exact h c
  split
  · rename_i keyLocks hacquire
    rw [hacquire] at hframes
    apply Ensures.set_bindAt
    have hview : ((b.withKeyLocks keyLocks).withPool addr (·.markAs cid .needSend)).view cid =
          (b.view cid).mark addr (·.markAs .needSend) := view_markAs _ addr _
    have hviews : ∀ c, c ≠ cid → ((b.withKeyLocks keyLocks).withPool addr
        (·.markAs cid .needSend)).view c = b.view c := fun c hc =>
      view_markAs_of_ne _ addr _ hc
    refine .of_pureAt ⟨fun c => ?_, fun c x => ?_⟩
    · by_cases hc : c = cid
      · subst hc
        rw [hview]
        exact (hframes c).markSend houtgoing addr
      · rw [hviews c hc]
        exact hframes c
    · by_cases hc : c = cid
      · subst hc
        rw [hview]
        rcases (b.view c).mark_cases addr (·.markAs .needSend) x with ⟨-, heq⟩ | ⟨-, heq⟩ <;>
          exact heq ▸ hawait c x
      · rw [hviews c hc]
        exact hawait c x
  · rename_i keyLocks hacquire
    rw [hacquire] at hframes
    apply Ensures.set_bindAt
    exact .of_pureAt ⟨hframes, hawait⟩

theorem FrameOk.revert (h : FrameOk False cid log edges v)
    (hclean : Clean v) (hlock : Locked log v.state) (hmsg : v.state.message = some msg)
    (helsewhere : ∀ x, x ≠ addr → (v.marks x).hasLocked = false) :
    FrameOk False cid log edges ((v.withState
      { v.state with message := some (reverted msg) }).mark addr (·.markAs .needSend)) := by
  have houtgoing : Outgoing log { v.state with message := some (reverted msg) } := by
    refine Locked.outgoing hlock rfl rfl (fun msg' hmsg' => ?_) (.inr rfl)
    rw [← Option.some.inj (hmsg.symm.trans hmsg')]
    rfl
  obtain ⟨_, request, before, -, hlog, -, -, -, hstack, -⟩ := hlock
  refine ⟨named_some rfl (h.named msg hmsg), ⟨h.stacked.bracketed, .exact hstack,
    h.stacked.opened, h.stacked.bounded, h.stacked.locks, fun msg' before' hsent => ?_⟩,
    fun x hprep => ?_, fun x _ => houtgoing, fun x hlocked _ hsend => ?_⟩
  · rw [hlog] at hsent
    cases (List.cons.inj hsent).1
  · rcases View.mark_cases _ addr (·.markAs .needSend) x with ⟨-, heq⟩ | ⟨-, heq⟩ <;>
      rw [heq] at hprep
    · exact absurd hprep (by simp [Marks.markAs, (hclean x).1])
    · exact absurd hprep (by simp [(hclean x).1])
  · rcases View.mark_cases _ addr (·.markAs .needSend) x with ⟨-, heq⟩ | ⟨hx, heq⟩
    · rw [heq] at hsend
      cases hsend
    · rw [heq] at hlocked
      exact absurd hlocked (by simp [helsewhere x hx])

/-- A deadlock is ended with the revert of a frame that waits for a lock. -/
theorem revertAt_frames (hsettling : Settling lossy env cids b) (h : Frames False logs b)
    (hawait : AwaitLocks logs b) (hlocked : cid ∈ (b.pools addr).hasLocked)
    (hpend : ((b.view cid).marks addr).pending = true)
    (hmsg : (b.view cid).state.message = some msg) :
    Frames False logs (revertAt b addr cid msg) := by
  have helsewhere : ∀ x, x ≠ addr → ((b.view cid).marks x).hasLocked = false := by
    intro x hx
    by_contra hne
    have hpend' := hsettling.pending_of_hasLocked (by simpa using hne)
    exact hx (hsettling.single cid x addr hpend' hpend)
  intro c
  rw [revertAt]
  by_cases hc : c = cid
  · subst hc
    rw [view_markAs, view_withState]
    exact (h c).revert (hsettling.clean c) (hawait c addr (hasLocked_iff.mpr hlocked) hpend) hmsg
      helsewhere
  · rw [view_markAs_of_ne _ _ _ hc, view_withState_of_ne _ _ hc]
    exact h c

theorem settleLocks_frames (hsettling : Settling lossy env cids b) (h : Frames False logs b)
    (hawait : AwaitLocks logs b) :
    Ensures (· = b) settleLocks (fun _ b' => Frames False logs b') NotEmptyPop := by
  refine settleLocks_invariant
    (P := fun b' => Settling lossy env cids b' ∧ Frames False logs b' ∧ AwaitLocks logs b')
    (fun _ hb => hb.1) (fun addr cid b' hb' hpend => ?_)
    (fun addr cid b' msg hb hlocked hpend hmsg =>
      revertAt_frames hb.1 hb.2.1 hb.2.2 hlocked hpend hmsg)
    (fun _ hb => hb.2.1) (fun _ => by simp [NotEmptyPop]) ⟨hsettling, h, hawait⟩
  have hboth : Ensures (· = b') (unlock addr cid) _ _ :=
    (unlock_settling hb'.1 hpend).and (unlock_frames hb'.1 hb'.2.1 hb'.2.2 hpend)
  refine (hboth.fail fun _ _ herror => herror.2).post ?_
  rintro _ b'' ⟨⟨-, hsettling', -⟩, hrest⟩
  exact ⟨hsettling', hrest⟩

theorem serialPrepared_frames (hpreparing : Preparing lossy env cids b)
    (h : Frames False logs b) (hprepared : SerialPrepared env b b') : Frames False logs b' := by
  obtain ⟨b₁, hpasses, hlocks⟩ := hprepared
  obtain ⟨hpreparing₁, hsettled⟩ := preparePasses_spec hpreparing hpasses
  have hsettling := Settling.of_settled hpreparing₁ hsettled
  have h₁ := preparePasses_frames hpreparing h hpasses
  refine (settleLocks_frames hsettling h₁ fun cid x hlocked hpend => ?_).ok rfl hlocks
  obtain ⟨-, msg, hmsg, -⟩ := hsettling.sendable hpend
  exact (h₁ cid).locked x hlocked hpend ((hsettled x cid).hasLocked hlocked)
    (hsettled x cid).needPrepare (hsettled x cid).notOut (by rw [hmsg]; simp)

end Settle

end FiscoSmart.Scheduler
