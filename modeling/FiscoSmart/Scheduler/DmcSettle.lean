import FiscoSmart.Scheduler.DmcPlace

/-!
# Preparing a round

`serialPrepareExecutor` prepares the executors until no transaction is moved any
more, and then settles the locks.  Afterwards every transaction is in one pool, where
it is to be sent or waits for a lock, or it is gone.
-/

namespace FiscoSmart.Scheduler

open BlockExecutive DmcExecutor
open Support

variable {lossy : Prop} {env : Env} {cids : Finset ContextID} {addresses : List Address}
  {b b' : BlockExecutive} {E : DmcError → BlockExecutive → Prop} {addr : Address} {cid : ContextID}
  {P : BlockExecutive → Prop} {state : ExecutiveState}

/-- What ends a call early: an exception, or the message of a transaction that was
lost. -/
def Fails (lossy : Prop) (error : DmcError) (_ : BlockExecutive) : Prop :=
  lossy ∨ error.Thrown

/-- What holds while the executors are prepared. -/
structure Preparing (lossy : Prop) (env : Env) (contextIDs : Finset ContextID)
    (b : BlockExecutive) : Prop where
  waiting : ∀ contextID ∈ contextIDs, Waiting lossy env contextID (b.view contextID)
  absent : ∀ contextID ∉ contextIDs, Absent (b.view contextID)
  registered : b.Registered

def SettledAt (b : BlockExecutive) (address : Address) : Prop :=
  ∀ contextID, Settled ((b.view contextID).marks address)

/-! ## Loops over executors -/

theorem eachExecutor_spec {f : Address → DmcM PUnit}
    (hf : ∀ addr b, P b → Ensures (· = b) (f addr) (fun _ b' => P b') E) (hb : P b)
    (addresses : List Address) :
    Ensures (· = b) (eachExecutor f addresses) (fun _ b' => P b') E := by
  induction addresses generalizing b with
  | nil => exact .of_pureAt hb
  | cons addr addresses ih =>
    apply (hf addr b hb).bindAt
    intro _ b₁ hb₁
    exact ih hb₁

theorem mem_addresses : addr ∈ b.addresses ↔ addr ∈ b.dmcExecutors := by
  simp [addresses]

/-! ## The first loop -/

section Passes

theorem Preparing.of_views (h : Preparing lossy env cids b)
    (hviews : ∀ cid, b'.view cid = b.view cid)
    (hreg : b'.Registered) : Preparing lossy env cids b' where
  waiting c hc := by
    rw [hviews]
    exact h.waiting c hc
  absent c hc := by
    rw [hviews]
    exact h.absent c hc
  registered := hreg

theorem Preparing.stale_or_at (h : Preparing lossy env cids b) (cid : ContextID) (x : Address) :
    Stale lossy ((b.view cid).marks x) ∨
      ∃ status ≠ .answer, At lossy cid (b.view cid) x status := by
  by_cases hc : cid ∈ cids
  · exact (h.waiting cid hc).stale_or_at x
  · rw [(h.absent cid hc).1]
    exact .inl stale_none

theorem Preparing.message (h : Preparing lossy env cids b)
    (hprep : ((b.view cid).marks addr).needPrepare = true) :
    lossy ∨ (b.view cid).state.message ≠ none := by
  rcases h.stale_or_at cid addr with hstale | ⟨status, -, hat⟩
  · exact .inl (hstale.needPrepare hprep).1
  · obtain rfl : status = .prepare := by simpa [hat.fits.needPrepare] using hprep
    obtain ⟨msg, hmsg, -⟩ := hat.state
    exact .inr (by rw [hmsg]; exact Option.some_ne_none _)

theorem releaseLock_spec (h : lossy ∨ (b.view cid).state.message ≠ none) :
    Ensures (· = b) (releaseLock cid) (fun needContinue b' => needContinue = true ∧ Local cid b b' ∧
        b'.view cid = b.view cid) (Fails lossy) := by
  apply (message_reads fun hnone => .inl (h.resolve_right fun hne => hne hnone)).bindAt
  rintro msg b ⟨rfl, -⟩
  apply Ensures.of_ite
  · intro _
    apply Ensures.modify_bindAt
    exact Ensures.of_pureAt ⟨rfl, .withKeyLocks _, rfl⟩
  · intro _
    exact Ensures.of_pureAt ⟨rfl, .refl _ _, rfl⟩

variable (h : Preparing lossy env cids b)

include h

theorem releaseOutdatedLock_spec : Ensures (· = b) (releaseOutdatedLock addr)
      (fun _ b' => (∀ cid, b'.view cid = b.view cid) ∧
        (b.Registered → b'.Registered)) (Fails lossy) := by
  apply Ensures.getAt
  refine (forEach_spec (I := fun _ v => lossy ∨ v.state.message ≠ none)
    (R := fun _ v v' => v' = v) (fun cid b' _ => releaseLock_spec)
    nodup_elements ?_).post ?_
  · intro cid hmem _
    have hprep : ((b.view cid).marks addr).needPrepare = true := by
      rw [view_marks, ExecutivePool.marks, ExecutivePool.has_iff]
      exact mem_elements.mp hmem
    exact h.message hprep
  · intro _ b' hrun
    refine ⟨?_, hrun.registered⟩
    intro cid
    by_cases hmem : cid ∈ elements (b.pools addr).needPrepare ∧
        ((b.view cid).marks addr).pending = true
    · exact hrun.changed cid hmem.1 hmem.2
    · apply hrun.same
      intro hc
      simpa [hc] using hmem

theorem prepare_preparing : Ensures (· = b) (prepare env addr)
      (fun hasScheduleOut b' => Preparing lossy env cids b' ∧ SettledAt b' addr ∧
        (hasScheduleOut = false → ∀ cid x, x ≠ addr →
          (b'.view cid).marks x = (b.view cid).marks x)) (Fails lossy) := by
  refine ((prepare_spec ?_).fail (fun _ _ h => .inr h)).post ?_
  · intro cid hprep _
    by_cases hc : cid ∈ cids
    · exact (h.waiting cid hc).ready hprep
    · rw [View.mark_marks, (h.absent cid hc).1] at hprep
      cases hprep
  · rintro hasScheduleOut b' ⟨⟨moved, hviews, hmoved⟩, -, hreg⟩
    have hstay : hasScheduleOut = false → ∀ cid, moved cid = false := by
      intro hnone cid
      by_contra hmove
      rw [hmoved.mpr ⟨cid, by simpa using hmove⟩] at hnone
      cases hnone
    refine ⟨⟨?_, ?_, hreg h.registered⟩, ?_, ?_⟩
    · intro c hc
      exact ((h.waiting c hc).prepared (hviews c)).1
    · intro c hc
      exact ((h.absent c hc).prepared (hviews c)).1
    · intro c
      by_cases hc : c ∈ cids
      · exact ((h.waiting c hc).prepared (hviews c)).2.1
      · exact ((h.absent c hc).prepared (hviews c)).2.1
    · intro hnone c
      by_cases hc : c ∈ cids
      · exact ((h.waiting c hc).prepared (hviews c)).2.2 (hstay hnone c)
      · exact ((h.absent c hc).prepared (hviews c)).2.2 (hstay hnone c)

theorem prepareAll_preparing : Ensures (· = b) (anyExecutor (prepare env) addresses)
      (fun hasScheduleOut b' => Preparing lossy env cids b' ∧
        (hasScheduleOut = false → ∀ x, x ∈ addresses ∨ SettledAt b x → SettledAt b' x))
      (Fails lossy) := by
  induction addresses generalizing b with
  | nil =>
    refine .of_pureAt ⟨h, ?_⟩
    intro _ x hx
    simpa using hx
  | cons addr addresses ih =>
    apply (prepare_preparing h).bindAt
    rintro answer b₁ ⟨h₁, hsettled, hsame⟩
    apply (ih h₁).bindAt
    rintro answers b₂ ⟨h₂, hrest⟩
    refine .of_pureAt ⟨h₂, ?_⟩
    intro hnone x hx
    rw [Bool.or_eq_false_iff] at hnone
    apply hrest hnone.2
    by_cases hxa : x = addr
    · subst hxa
      exact .inr hsettled
    · rcases hx with hmem | hx
      · exact .inl ((List.mem_cons.mp hmem).resolve_left hxa)
      · refine .inr (fun cid => ?_)
        rw [hsame hnone.1 cid x hxa]
        exact hx cid

/-- One turn of the first loop.  If nothing was moved, everything is settled. -/
theorem preparePass_spec : Ensures (· = b) (preparePass env)
      (fun hasScheduleOut b' => Preparing lossy env cids b' ∧
        (hasScheduleOut = false → ∀ x, SettledAt b' x)) (Fails lossy) := by
  apply Ensures.getAt
  have hrelease := eachExecutor_spec (E := Fails lossy) (b := b)
    (f := releaseOutdatedLock) (P := fun b' => Preparing lossy env cids b' ∧
      ∀ cid, b'.view cid = b.view cid) (fun addr b' hb' => (releaseOutdatedLock_spec hb'.1).post
      (fun _ b'' hb'' => ⟨hb'.1.of_views hb''.1 (hb''.2 hb'.1.registered),
        fun cid => (hb''.1 cid).trans (hb'.2 cid)⟩)) ⟨h, fun _ => rfl⟩ b.addresses
  apply hrelease.bindAt
  rintro _ b₁ ⟨h₁, hviews⟩
  refine (prepareAll_preparing h₁).post ?_
  rintro hasScheduleOut b₂ ⟨h₂, hsettled⟩
  refine ⟨h₂, ?_⟩
  intro hnone x
  apply hsettled hnone
  by_cases hx : x ∈ b.dmcExecutors
  · exact .inl (mem_addresses.mpr hx)
  · refine .inr (fun cid => ?_)
    have hempty : (b.view cid).marks x = .none := by
      by_contra hne
      exact hx (h.registered cid x hne)
    rw [hviews, hempty]
    exact settled_none

theorem preparePasses_spec (hpasses : PreparePasses env b b') :
    Preparing lossy env cids b' ∧ ∀ x, SettledAt b' x := by
  induction hpasses with
  | last hpass =>
    obtain ⟨h', hsettled⟩ := (preparePass_spec h).ok rfl hpass
    exact ⟨h', hsettled rfl⟩
  | again hpass _ ih => exact ih ((preparePass_spec h).ok rfl hpass).1

end Passes

/-! ## The locks -/

/-- No transaction has something left to prepare. -/
def Clean (v : View) : Prop :=
  ∀ x, (v.marks x).needPrepare = false ∧ (v.marks x).needScheduleOut = false ∧
    (v.marks x).needRemove = false

/-- What holds after the first loop. -/
structure Settling (lossy : Prop) (env : Env) (contextIDs : Finset ContextID)
    (b : BlockExecutive) : Prop extends Preparing lossy env contextIDs b where
  clean : ∀ contextID, Clean (b.view contextID)

section Settling

variable {v : View}

theorem Settling.of_settled (h : Preparing lossy env cids b)
    (hsettled : ∀ x, SettledAt b x) : Settling lossy env cids b where
  toPreparing := h
  clean c x := ⟨(hsettled x c).needPrepare, (hsettled x c).notOut, (hsettled x c).notRemoved⟩

section

variable (h : Waiting lossy env cid v)

include h

theorem Waiting.at_of_pending (hclean : Clean v) (hpend : (v.marks addr).pending = true) :
    At lossy cid v addr .send ∨ At lossy cid v addr .locked := by
  rcases h.stale_or_at addr with hstale | ⟨status, hstat, hat⟩
  · have hout := hstale.pending hpend
    rw [(hclean addr).2.1] at hout
    cases hout
  · cases status with
    | prepare =>
      have hprep := hat.fits.needPrepare
      rw [(hclean addr).1] at hprep
      simp at hprep
    | send => exact .inl hat
    | locked => exact .inr hat
    | answer => exact absurd rfl hstat

theorem Waiting.sendable (hclean : Clean v)
    (hpend : (v.marks addr).pending = true) : Sendable cid v.state := by
  rcases h.at_of_pending hclean hpend with hat | hat
  · exact hat.state
  · exact hat.state

theorem Waiting.markSend (hclean : Clean v)
    (hpend : (v.marks addr).pending = true) (hstate : Sendable cid state) :
    At lossy cid ((v.mark addr (·.markAs .needSend)).withState state) addr .send ∧
      Clean ((v.mark addr (·.markAs .needSend)).withState state) := by
  constructor
  · rcases h.at_of_pending hclean hpend with hat | hat
    · refine hat.mark ?_ hstate
      constructor <;> simp [Marks.markAs, hpend, hclean addr]
    · refine hat.mark ?_ hstate
      constructor <;> simp [Marks.markAs, hpend, hclean addr]
  · intro x
    by_cases hx : x = addr
    · subst hx
      simpa [Marks.markAs] using hclean x
    · simpa [hx] using hclean x

end

section

variable (h : Settling lossy env cids b)

include h

theorem Settling.pending_mem (hpend : ((b.view cid).marks addr).pending = true) : cid ∈ cids := by
  by_contra hc
  rw [(h.absent cid hc).1] at hpend
  cases hpend

theorem Settling.sendable (hpend : ((b.view cid).marks addr).pending = true) :
    Sendable cid (b.view cid).state :=
  (h.waiting cid (h.pending_mem hpend)).sendable (h.clean cid) hpend

/-- A call that leaves a transaction of a pool alone or marks it to be sent. -/
theorem Settling.local (hlocal : Local cid b b') (hpend : ((b.view cid).marks addr).pending = true)
    (hstate : Sendable cid state) (hview : b'.view cid =
      ((b.view cid).mark addr (·.markAs .needSend)).withState state) :
    Settling lossy env cids b' := by
  have hmem := h.pending_mem hpend
  obtain ⟨hat, hclean⟩ := (h.waiting cid hmem).markSend (h.clean cid) hpend hstate
  rw [← hview] at hat hclean
  refine ⟨⟨?_, ?_, hlocal.registered_of h.registered⟩, ?_⟩
  · intro c hc
    by_cases heq : c = cid
    · subst heq
      exact .send addr hat
    · rw [hlocal.views c heq]
      exact h.waiting c hc
  · intro c hc
    rw [hlocal.views c (fun heq => hc (heq ▸ hmem))]
    exact h.absent c hc
  · intro c
    by_cases heq : c = cid
    · subst heq
      exact hclean
    · rw [hlocal.views c heq]
      exact h.clean c

theorem Settling.withKeyLocks
    (keyLocks : GraphKeyLocks) : Settling lossy env cids (b.withKeyLocks keyLocks) :=
  ⟨{ h with }, h.clean⟩

theorem unlock_settling (hpend : ((b.view cid).marks addr).pending = true) :
    Ensures (· = b) (unlock addr cid)
      (fun needContinue b' => needContinue = true ∧ Settling lossy env cids b' ∧
        b'.dmcExecutors = b.dmcExecutors) (Fails lossy) := by
  obtain ⟨hstack, msg, hmsg, hid⟩ := h.sendable hpend
  apply ((message_spec hmsg).fail (fun _ _ h => .inr h)).bindAt
  rintro msg b ⟨rfl, rfl⟩
  apply Ensures.getAt
  split
  · rename_i keyLocks _
    apply Ensures.set_bindAt
    refine .of_pureAt ⟨rfl, ?_, rfl⟩
    refine (h.withKeyLocks keyLocks).local (.markAs _ (Marks.ne_none hpend)) hpend
      (h.sendable hpend) ?_
    rw [view_markAs]
    rfl
  · rename_i keyLocks _
    apply Ensures.set_bindAt
    exact .of_pureAt ⟨rfl, h.withKeyLocks keyLocks, rfl⟩

end

theorem forEach_invariant {handler : ContextID → DmcM Bool}
    (hhandler : ∀ cid b, P b → ((b.view cid).marks addr).pending = true →
      Ensures (· = b) (handler cid) (fun _ b' => P b') E) (hb : P b) (cids : List ContextID) :
    Ensures (· = b) (forEach addr handler cids) (fun _ b' => P b') E := by
  induction cids generalizing b with
  | nil => exact Ensures.of_pureAt hb
  | cons c cids ih =>
    have hvisit : Ensures (· = b) (visit addr handler c) (fun _ b' => P b') E := by
      apply Ensures.getAt
      apply Ensures.of_ite
      · intro hmem
        exact hhandler c b hb (pending_iff.mpr hmem)
      · intro _
        exact Ensures.of_pureAt hb
    apply hvisit.bindAt
    intro needContinue b₁ hb₁
    apply Ensures.of_ite
    · intro _
      exact ih hb₁
    · intro _
      exact Ensures.of_pureAt hb₁

/-- The second loop of `serialPrepareExecutor` keeps what `unlock` keeps. -/
theorem unlockExecutors_invariant
    (hunlock : ∀ addr cid b, P b → ((b.view cid).marks addr).pending = true →
      Ensures (· = b) (unlock addr cid) (fun _ b' => P b') E) (hb : P b) :
    Ensures (· = b) (unlockExecutors addresses) (fun _ b' => P b') E := by
  induction addresses generalizing b with
  | nil => exact Ensures.of_pureAt hb
  | cons addr addresses ih =>
    have hexecutor : Ensures (· = b) (unlockExecutor addr) (fun _ b' => P b') E := by
      apply Ensures.getAt
      apply Ensures.of_ite
      · intro _
        exact Ensures.of_pureAt hb
      · intro _
        have hprep : Ensures (· = b) (unlockPrepare addr) (fun _ b' => P b') E := by
          apply Ensures.getAt
          apply (forEach_invariant (fun cid b' => hunlock addr cid b') hb _).bindAt
          intro _ b' hb'
          exact Ensures.getAt (Ensures.of_pureAt hb')
        apply hprep.bindAt
        intro _ b₁ hb₁
        exact Ensures.of_pureAt hb₁
    apply hexecutor.bindAt
    intro _ b₁ hb₁
    apply (ih hb₁).bindAt
    intro _ b₂ hb₂
    exact Ensures.of_pureAt hb₂

/-- The block after the revert of a transaction that waits for a lock. -/
def revertAt (b : BlockExecutive) (address : Address) (contextID : ContextID)
    (msg : ExecutionMessage) : BlockExecutive :=
  (b.withState contextID { b.states contextID with message := some (reverted msg) }).withPool
    address (·.markAs contextID .needSend)

/-- One of the transactions that wait is reverted, or none of them is in a deadlock. -/
inductive Detected (b : BlockExecutive) (Waits : Address → ContextID → Prop) :
    Bool → BlockExecutive → Prop
  | reverted {address contextID msg} : Waits address contextID →
      contextID ∈ (b.pools address).pendingExecutives →
      (b.states contextID).message = some msg →
      Detected b Waits true (revertAt b address contextID msg)
  | none : (∀ address contextID, Waits address contextID →
      contextID ∈ (b.pools address).pendingExecutives →
      b.keyLocks.detectDeadLock contextID = false) → Detected b Waits false b

section Detect

variable (hmessage : ∀ cid x, cid ∈ (b.pools x).pendingExecutives →
  (b.states cid).message = none → E .nullMessage b)

include hmessage

theorem detectFirst_cases {locked : List ContextID} : Ensures (· = b) (detectFirst addr locked)
    (Detected b fun x cid => x = addr ∧ cid ∈ locked) E := by
  induction locked with
  | nil => exact .of_pureAt (.none (by simp))
  | cons c locked ih =>
    apply Ensures.getAt
    apply Ensures.of_ite
    · rintro ⟨hpend, -⟩
      apply (message_reads (hmessage c addr hpend)).bindAt
      rintro msg b ⟨rfl, hmsg⟩
      apply Ensures.set_bindAt
      exact .of_pureAt (.reverted ⟨rfl, List.mem_cons_self⟩ hpend hmsg)
    · intro hnot
      refine ih.post ?_
      rintro _ _ (⟨⟨rfl, hc⟩, hpend, hmsg⟩ | hnone)
      · exact .reverted ⟨rfl, List.mem_cons_of_mem _ hc⟩ hpend hmsg
      · refine .none ?_
        rintro x cid ⟨rfl, hc⟩ hpend
        rcases List.mem_cons.mp hc with rfl | hc
        · simpa [hpend] using hnot
        · exact hnone x cid ⟨rfl, hc⟩ hpend

theorem detectExecutors_cases : Ensures (· = b) (detectExecutors addresses)
    (Detected b fun x cid => x ∈ addresses ∧ cid ∈ (b.pools x).hasLocked) E := by
  induction addresses with
  | nil => exact .of_pureAt (.none (by simp))
  | cons addr addresses ih =>
    have hdetect : Ensures (· = b) (detectLockAndRevert addr) _ E :=
      Ensures.getAt (detectFirst_cases hmessage)
    apply hdetect.bindAt
    rintro _ _ (⟨⟨rfl, hc⟩, hpend, hmsg⟩ | hfirst)
    · exact .of_pureAt (.reverted ⟨List.mem_cons_self, mem_elements.mp hc⟩ hpend hmsg)
    · refine Ensures.post ih ?_
      rintro _ _ (⟨⟨hx, hc⟩, hpend, hmsg⟩ | hrest)
      · exact .reverted ⟨List.mem_cons_of_mem _ hx, hc⟩ hpend hmsg
      · refine .none ?_
        rintro x cid ⟨hx, hc⟩ hpend
        rcases List.mem_cons.mp hx with rfl | hx
        · exact hfirst x cid ⟨rfl, mem_elements.mpr hc⟩ hpend
        · exact hrest x cid ⟨hx, hc⟩ hpend

end Detect

theorem Settling.not_nullMessage (h : Settling lossy env cids b) (cid : ContextID) (x : Address)
    (hpend : cid ∈ (b.pools x).pendingExecutives) (hnone : (b.states cid).message = none) :
    E .nullMessage b := by
  obtain ⟨-, msg, hmsg, -⟩ := h.sendable (pending_iff.mpr hpend)
  cases hmsg.symm.trans hnone

/-- The locks are settled by attempts to get keys and at most one revert. -/
theorem settleLocks_invariant {Q : BlockExecutive → Prop}
    (hsettling : ∀ b, P b → Settling lossy env cids b)
    (hunlock : ∀ addr cid b, P b → ((b.view cid).marks addr).pending = true →
      Ensures (· = b) (unlock addr cid) (fun _ b' => P b') E)
    (hrevert : ∀ addr cid b msg, P b → cid ∈ (b.pools addr).hasLocked →
      ((b.view cid).marks addr).pending = true → (b.view cid).state.message = some msg →
      Q (revertAt b addr cid msg))
    (hkept : ∀ b, P b → Q b) (hnone : ∀ b, E .noDeadLockDetected b) (hb : P b) :
    Ensures (· = b) settleLocks (fun _ b' => Q b') E := by
  apply Ensures.getAt
  apply (unlockExecutors_invariant hunlock hb).bindAt
  intro answers b₁ hb₁
  apply Ensures.of_ite
  · intro _
    apply (detectExecutors_cases (hsettling b₁ hb₁).not_nullMessage).bindAt
    rintro _ _ (⟨⟨-, hc⟩, hpend, hmsg⟩ | -)
    · exact .of_pureAt (hrevert _ _ b₁ _ hb₁ hc (pending_iff.mpr hpend) hmsg)
    · exact .of_throwAt (hnone b₁)
  · intro _
    exact .of_pureAt (hkept b₁ hb₁)

theorem Settling.revertAt {msg : ExecutionMessage} (h : Settling lossy env cids b)
    (hpend : ((b.view cid).marks addr).pending = true)
    (hmsg : (b.view cid).state.message = some msg) :
    Settling lossy env cids (revertAt b addr cid msg) := by
  obtain ⟨hstack, msg', hmsg', hid⟩ := h.sendable hpend
  cases hmsg.symm.trans hmsg'
  have hmarks : ((b.withState cid { b.states cid with
      message := some (reverted msg) }).view cid).marks addr ≠ .none := by
    rw [view_withState]
    exact Marks.ne_none hpend
  refine h.local ((Local.withState _).trans (.markAs _ hmarks)) hpend
    (show Sendable cid { b.states cid with message := some (reverted msg) } from
      ⟨hstack, _, rfl, hid⟩) ?_
  rw [Scheduler.revertAt, view_markAs, view_withState]
  rfl

theorem settleLocks_settling (h : Settling lossy env cids b) : Ensures (· = b) settleLocks
    (fun _ b' => Settling lossy env cids b') (Fails lossy) := by
  refine settleLocks_invariant (fun _ hb => hb) (fun addr cid b hb hpend => ?_)
    (fun addr cid b msg hb _ hpend hmsg => hb.revertAt hpend hmsg) (fun _ hb => hb)
    (fun _ => .inr trivial) h
  exact (unlock_settling hb hpend).post fun _ _ h => h.2.1

theorem serialPrepared_settling (h : Preparing lossy env cids b)
    (hprepared : SerialPrepared env b b') : Settling lossy env cids b' := by
  obtain ⟨b₁, hpasses, hlocks⟩ := hprepared
  obtain ⟨h₁, hsettled⟩ := preparePasses_spec h hpasses
  exact (settleLocks_settling (.of_settled h₁ hsettled)).ok rfl hlocks

end Settling

end FiscoSmart.Scheduler
