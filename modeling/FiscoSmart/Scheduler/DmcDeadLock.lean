import FiscoSmart.Scheduler.DmcRun

/-!
# A blocked round has a victim

When no executor has a message to send, every transaction that is left has asked for
a key and failed.  If all keys are held by such transactions, one of them is reported
by `detectDeadLock`, so that `serialPrepareExecutor` finds a call to revert.
-/

namespace FiscoSmart.Scheduler

open BlockExecutive DmcExecutor List Finset
open Support

variable {lossy : Prop} {env : Env} {cids : Finset ContextID} {b b' : BlockExecutive}
  {cid : ContextID}

/-- The transaction has asked for a key that is held. -/
def Blocked (b : BlockExecutive) (contextID : ContextID) : Prop :=
  ∃ keyLock, b.keyLocks.Waits contextID keyLock ∧ ∃ contextID', b.keyLocks.Holds keyLock contextID'

/-- What the attempts of some transactions to get their keys do: keys stay with their
holders, the requests of the others stay, and transactions are marked to be sent. -/
structure Unlocking (S : ContextID → Prop) (b b' : BlockExecutive) : Prop where
  holds : ∀ keyLock contextID, b.keyLocks.Holds keyLock contextID →
    b'.keyLocks.Holds keyLock contextID
  waits : ∀ keyLock contextID, ¬ S contextID → b.keyLocks.Waits contextID keyLock →
    b'.keyLocks.Waits contextID keyLock
  holders : ∀ keyLock contextID, b'.keyLocks.Holds keyLock contextID →
    b.keyLocks.Holds keyLock contextID ∨ S contextID
  marks : ∀ contextID x, (b'.view contextID).marks x = (b.view contextID).marks x ∨
    (b'.view contextID).marks x = ((b.view contextID).marks x).markAs .needSend

namespace Unlocking

variable {S T : ContextID → Prop} {b'' : BlockExecutive}

theorem refl (S : ContextID → Prop) (b : BlockExecutive) : Unlocking S b b :=
  ⟨fun _ _ h => h, fun _ _ _ h => h, fun _ _ h => .inl h, fun _ _ => .inl rfl⟩

variable (h : Unlocking S b b')

include h

theorem trans (h' : Unlocking T b' b'') : Unlocking (fun cid => S cid ∨ T cid) b b'' where
  holds k c hc := h'.holds k c (h.holds k c hc)
  waits k c hnot hc := by
    rw [not_or] at hnot
    exact h'.waits k c hnot.2 (h.waits k c hnot.1 hc)
  holders k c hc := by
    rcases h'.holders k c hc with hc' | hT
    · rcases h.holders k c hc' with hc'' | hS
      · exact .inl hc''
      · exact .inr (.inl hS)
    · exact .inr (.inr hT)
  marks c x := by
    have hidem : ∀ m : Marks, (m.markAs .needSend).markAs .needSend = m.markAs .needSend :=
      fun _ => rfl
    rcases h.marks c x with heq | heq
    · rw [← heq]
      exact h'.marks c x
    · rcases h'.marks c x with heq' | heq'
      · exact .inr (heq'.trans heq)
      · exact .inr (by rw [heq', heq, hidem])

theorem mono (hS : ∀ cid, S cid → T cid) : Unlocking T b b' := { h with
  waits k c hnot hc := h.waits k c (fun hc' => hnot (hS c hc')) hc
  holders k c hc := (h.holders k c hc).imp_right (hS c) }

theorem blocked (hnot : ¬ S cid) (hblocked : Blocked b cid) : Blocked b' cid := by
  obtain ⟨keyLock, hwaits, cid', hholds⟩ := hblocked
  exact ⟨keyLock, h.waits keyLock cid hnot hwaits, cid', h.holds keyLock cid' hholds⟩

theorem pending (cid : ContextID) (x : Address) :
    ((b'.view cid).marks x).pending = ((b.view cid).marks x).pending := by
  rcases h.marks cid x with heq | heq <;> rw [heq]
  rfl

theorem hasLocked (cid : ContextID) (x : Address) :
    ((b'.view cid).marks x).hasLocked = ((b.view cid).marks x).hasLocked := by
  rcases h.marks cid x with heq | heq <;> rw [heq]
  rfl

theorem needSend {x : Address} (hnone : ((b'.view cid).marks x).needSend = false) :
    ((b.view cid).marks x).needSend = false := by
  rcases h.marks cid x with heq | heq
  · rw [← heq]
    exact hnone
  · rw [heq] at hnone
    cases hnone

end Unlocking

/-- Every end but that no deadlock is detected. -/
def OtherError (error : DmcError) (_ : BlockExecutive) : Prop :=
  error ≠ .noDeadLockDetected

section Unlock

variable {addr : Address}

theorem unlock_unlocking : Ensures (· = b) (unlock addr cid)
      (fun needContinue b' => needContinue = true ∧ Unlocking (· = cid) b b' ∧
        (((b'.view cid).marks addr).needSend = true ∨ Blocked b' cid))
      OtherError := by
  apply (message_reads fun _ => by simp [OtherError]).bindAt
  rintro msg b ⟨rfl, -⟩
  apply Ensures.getAt
  have hiff : (b.keyLocks.acquireKeyLock msg.fromAddress msg.keyLockAcquired cid msg.seq).1 = true ↔
      b.keyLocks.Free (msg.fromAddress, msg.keyLockAcquired) cid :=
    GraphKeyLocks.acquireKeyLock_iff
  have hholds : ∀ keyLock c, b.keyLocks.Holds keyLock c →
      (b.keyLocks.acquireKeyLock msg.fromAddress msg.keyLockAcquired cid
        msg.seq).2.Holds keyLock c := fun _ _ h => h.acquireKeyLock
  have hwaits : ∀ keyLock c, c ≠ cid → b.keyLocks.Waits c keyLock →
      (b.keyLocks.acquireKeyLock msg.fromAddress msg.keyLockAcquired cid
        msg.seq).2.Waits c keyLock := fun _ _ hne h => h.acquireKeyLock hne
  have hholders : ∀ keyLock c, (b.keyLocks.acquireKeyLock msg.fromAddress
      msg.keyLockAcquired cid msg.seq).2.Holds keyLock c → b.keyLocks.Holds keyLock c ∨ c = cid :=
    fun _ _ h => GraphKeyLocks.holds_of_acquireKeyLock h
  split
  · rename_i keyLocks hacquire
    rw [hacquire] at hholds hwaits hholders
    apply Ensures.set_bindAt
    refine .of_pureAt ⟨rfl, ⟨hholds, hwaits, hholders, ?_⟩, .inl ?_⟩
    · intro c x
      by_cases hc : c = cid
      · subst hc
        rw [view_markAs]
        exact ((b.view c).mark_cases addr _ x).symm.imp And.right And.right
      · rw [view_markAs_of_ne _ _ _ hc]
        exact .inl rfl
    · rw [view_markAs, View.mark_marks]
      rfl
  · rename_i keyLocks hacquire
    have hheld : ¬ b.keyLocks.Free (msg.fromAddress, msg.keyLockAcquired)
        cid := by
      rw [← hiff, hacquire]
      simp
    have hwait := GraphKeyLocks.waits_acquireKeyLock hheld msg.seq
    simp only [GraphKeyLocks.Free, not_forall] at hheld
    obtain ⟨c, hc, -⟩ := hheld
    rw [hacquire] at hholds hwaits hholders hwait
    apply Ensures.set_bindAt
    exact .of_pureAt ⟨rfl, ⟨hholds, hwaits, hholders, fun _ _ => .inl rfl⟩,
      .inr ⟨_, hwait, c, hholds _ c hc⟩⟩

theorem forEach_unlocking {locked : List ContextID} (hnodup : locked.Nodup) :
    Ensures (· = b) (forEach addr (unlock addr) locked)
      (fun _ b' => Unlocking (fun cid => cid ∈ locked ∧
          ((b.view cid).marks addr).pending = true) b b' ∧
        ∀ cid ∈ locked, ((b.view cid).marks addr).pending = true →
          ((b'.view cid).marks addr).needSend = true ∨ Blocked b' cid)
      OtherError := by
  induction locked generalizing b with
  | nil => exact Ensures.of_pureAt ⟨.refl _ b, by simp⟩
  | cons c locked ih =>
    rw [nodup_cons] at hnodup
    have hvisit : Ensures (· = b) (visit addr (unlock addr) c)
        (fun needContinue b₁ => needContinue = true ∧ Unlocking (fun cid => cid = c ∧
            ((b.view cid).marks addr).pending = true) b b₁ ∧
          (((b.view c).marks addr).pending = true →
            ((b₁.view c).marks addr).needSend = true ∨ Blocked b₁ c)) OtherError := by
      apply Ensures.getAt
      apply Ensures.of_ite
      · intro hmem
        refine unlock_unlocking.post ?_
        rintro needContinue b₁ ⟨hcontinue, hunlocking, hdone⟩
        refine ⟨hcontinue, hunlocking.mono ?_, fun _ => hdone⟩
        rintro cid rfl
        exact ⟨rfl, pending_iff.mpr hmem⟩
      · intro hmem
        refine Ensures.of_pureAt ⟨rfl, .refl _ b, ?_⟩
        intro hpend
        exact absurd (pending_iff.mp hpend) hmem
    apply hvisit.bindAt
    rintro needContinue b₁ ⟨rfl, hfirst, hdone⟩
    refine (ih hnodup.2).post ?_
    rintro _ b₂ ⟨hrest, hothers⟩
    constructor
    · refine (hfirst.trans hrest).mono ?_
      rintro cid (⟨rfl, hpend⟩ | ⟨hmem, hpend⟩)
      · exact ⟨mem_cons_self, hpend⟩
      · rw [hfirst.pending] at hpend
        exact ⟨mem_cons_of_mem _ hmem, hpend⟩
    · intro cid hmem hpend
      rcases mem_cons.mp hmem with rfl | hmem
      · rcases hdone hpend with hsend | hblocked
        · refine .inl ?_
          by_contra hnone
          rw [hrest.needSend (by simpa using hnone)] at hsend
          cases hsend
        · exact .inr (hrest.blocked (fun h => hnodup.1 h.1) hblocked)
      · exact hothers cid hmem (by rw [hfirst.pending]; exact hpend)

theorem hasLocked_iff : ((b.view cid).marks addr).hasLocked = true ↔
      cid ∈ (b.pools addr).hasLocked := by
  rw [view_marks, ExecutivePool.marks, ExecutivePool.has_iff]

/-- What is known of an executor after `unlockPrepare`: without a message to send, all
its locked transactions are blocked. -/
structure UnlockedAt (address : Address) (finished need : Bool) (b b' : BlockExecutive) :
    Prop where
  unlocking : Unlocking (fun contextID =>
    ((b.view contextID).marks address).pending = true) b b'
  busy : finished = false → ∃ contextID, ((b.view contextID).marks address).pending = true ∨
      ((b.view contextID).marks address).hasLocked = true
  blocked : need = true → ∀ contextID, ((b.view contextID).marks address).pending = true →
      ((b.view contextID).marks address).needSend = false ∧
        (((b.view contextID).marks address).hasLocked = true → Blocked b' contextID)

theorem unlockExecutor_spec : Ensures (· = b) (unlockExecutor addr)
      (fun answer b' => UnlockedAt addr answer.1 answer.2 b b') OtherError := by
  apply Ensures.getAt
  apply Ensures.of_ite
  · intro hempty
    simp only [ExecutivePool.isEmpty, decide_eq_true_eq] at hempty
    refine Ensures.of_pureAt ⟨.refl _ b, by simp, ?_⟩
    intro _ cid hpend
    rw [pending_iff, hempty.1] at hpend
    exact absurd hpend (notMem_empty _)
  · intro hempty
    have hbusy : ∃ cid, ((b.view cid).marks addr).pending = true ∨
        ((b.view cid).marks addr).hasLocked = true := by
      simp only [pending_iff, hasLocked_iff]
      by_contra hnone
      simp only [not_exists, not_or] at hnone
      apply hempty
      simp only [ExecutivePool.isEmpty, decide_eq_true_eq, eq_empty_iff_forall_notMem]
      exact ⟨fun c => (hnone c).1, fun c => (hnone c).2⟩
    have hunlock : Ensures (· = b) (unlockPrepare addr)
        (fun need b' => UnlockedAt addr false need b b') OtherError := by
      apply Ensures.getAt
      apply (forEach_unlocking nodup_elements).bindAt
      rintro _ b₁ ⟨hunlocking, hdone⟩
      apply Ensures.getAt
      refine Ensures.of_pureAt ⟨hunlocking.mono (fun _ h => h.2), fun _ => hbusy, ?_⟩
      intro hneed cid hpend
      have hsend : ((b₁.view cid).marks addr).needSend = false := by
        rw [decide_eq_true_eq] at hneed
        rw [Bool.eq_false_iff, ne_eq, view_marks, ExecutivePool.marks, ExecutivePool.has_iff, hneed]
        exact notMem_empty _
      refine ⟨hunlocking.needSend hsend, ?_⟩
      intro hlocked
      rcases hdone cid (mem_elements.mpr (hasLocked_iff.mp hlocked)) hpend with
        hsend' | hblocked
      · rw [hsend] at hsend'
        cases hsend'
      · exact hblocked
    apply hunlock.bindAt
    intro need b₁ h₁
    exact Ensures.of_pureAt h₁

/-- A transaction is in one pool at most. -/
def Single (b : BlockExecutive) : Prop :=
  ∀ contextID x y, ((b.view contextID).marks x).pending = true →
    ((b.view contextID).marks y).pending = true → x = y

theorem unlockExecutors_spec {addrs : List Address} (hnodup : addrs.Nodup)
    (hsingle : Single b) : Ensures (· = b) (unlockExecutors addrs)
      (fun answers b' => Unlocking (fun cid => ∃ x ∈ addrs,
          ((b.view cid).marks x).pending = true) b b' ∧ (answers.1 = false → ∃ x ∈ addrs, ∃ cid,
          ((b.view cid).marks x).pending = true ∨ ((b.view cid).marks x).hasLocked = true) ∧
        (answers.2 = true → ∀ x ∈ addrs, ∀ cid, ((b.view cid).marks x).pending = true →
            ((b.view cid).marks x).needSend = false ∧
              (((b.view cid).marks x).hasLocked = true → Blocked b' cid)))
      OtherError := by
  induction addrs generalizing b with
  | nil => exact .of_pureAt ⟨.refl _ b, by simp, by simp⟩
  | cons addr addrs ih =>
    rw [nodup_cons] at hnodup
    apply unlockExecutor_spec.bindAt
    intro answer b₁ hfirst
    have hpend := hfirst.unlocking.pending
    have hsingle₁ : Single b₁ := by
      intro cid x y hx hy
      rw [hpend] at hx hy
      exact hsingle cid x y hx hy
    apply (ih hnodup.2 hsingle₁).bindAt
    rintro answers b₂ ⟨hrest, hbusy, hblocked⟩
    refine .of_pureAt ⟨?_, ?_, ?_⟩
    · refine (hfirst.unlocking.trans hrest).mono ?_
      rintro cid (hc | ⟨x, hx, hc⟩)
      · exact ⟨addr, mem_cons_self, hc⟩
      · rw [hpend] at hc
        exact ⟨x, mem_cons_of_mem _ hx, hc⟩
    · intro hnot
      rcases Bool.and_eq_false_iff.mp hnot with hnot | hnot
      · exact ⟨addr, mem_cons_self, hfirst.busy hnot⟩
      · obtain ⟨x, hx, cid, hc⟩ := hbusy hnot
        rw [hpend, hfirst.unlocking.hasLocked] at hc
        exact ⟨x, mem_cons_of_mem _ hx, cid, hc⟩
    · intro hneed x hx cid hc
      rw [Bool.and_eq_true] at hneed
      rcases mem_cons.mp hx with rfl | hx
      · obtain ⟨hsend, hlocked⟩ := hfirst.blocked hneed.1 cid hc
        refine ⟨hsend, fun hl => hrest.blocked ?_ (hlocked hl)⟩
        rintro ⟨y, hy, hcy⟩
        rw [hpend] at hcy
        exact hnodup.1 (hsingle cid x y hc hcy ▸ hy)
      · obtain ⟨hsend, hlocked⟩ := hblocked hneed.2 x hx cid (by rw [hpend]; exact hc)
        exact ⟨hfirst.unlocking.needSend hsend, fun hl =>
          hlocked (by rw [hfirst.unlocking.hasLocked]; exact hl)⟩

end Unlock

/-! ## The victim -/

section Victim

variable (h : Settling lossy env cids b)

include h

theorem Settling.single : Single b := by
  have hstat : ∀ {cid x}, ((b.view cid).marks x).pending = true →
      ∃ status, At lossy cid (b.view cid) x status := by
    intro cid x hpend
    rcases (h.waiting cid (h.pending_mem hpend)).at_of_pending (h.clean cid) hpend with hat | hat
    · exact ⟨_, hat⟩
    · exact ⟨_, hat⟩
  intro cid x y hx hy
  obtain ⟨_, hat⟩ := hstat hx
  by_contra hne
  have hout := (hat.stale y (Ne.symm hne)).pending hy
  rw [(h.clean cid y).2.1] at hout
  cases hout

theorem Settling.pending_of_hasLocked {x : Address}
    (hlocked : ((b.view cid).marks x).hasLocked = true) :
    ((b.view cid).marks x).pending = true := by
  rcases h.stale_or_at cid x with hstale | ⟨status, -, hat⟩
  · have hout := hstale.hasLocked hlocked
    rw [(h.clean cid x).2.1] at hout
    cases hout
  · exact hat.fits.pending

/-- If every key is held by a transaction of a pool, the locks are settled without
the exception that no deadlock was detected. -/
theorem Settling.settleLocks (hholders : ∀ keyLock cid, b.keyLocks.Holds keyLock cid →
      ∃ x, cid ∈ (b.pools x).pendingExecutives) :
    Ensures (· = b) BlockExecutive.settleLocks (fun _ _ => True) OtherError := by
  classical
  apply Ensures.getAt
  have hnodup : b.addresses.Nodup := sort_nodup _ _
  apply (unlockExecutors_spec hnodup h.single).bindAt
  rintro ⟨allFinished, need⟩ b₁ ⟨hunlocking, hbusy, hblocked⟩
  apply Ensures.of_ite
  swap
  · intro _
    exact Ensures.of_pureAt True.intro
  rintro ⟨hneed, hunfinished⟩
  have hreg : ∀ {cid x}, ((b.view cid).marks x).pending = true → x ∈ b.addresses := by
    intro cid x hpend
    exact mem_addresses.mpr (h.registered cid x (Marks.ne_none hpend))
  -- the transactions of the pools wait for each other
  let waiting : Finset ContextID := cids.filter (fun cid =>
    ∃ x, ((b.view cid).marks x).pending = true)
  have hmem : ∀ {cid x}, ((b.view cid).marks x).pending = true → cid ∈ waiting := by
    intro cid x hpend
    exact mem_filter.mpr ⟨h.pending_mem hpend, x, hpend⟩
  have hlocked : ∀ cid ∈ waiting, ∃ x ∈ b.addresses, ((b.view cid).marks x).pending = true ∧
        ((b.view cid).marks x).hasLocked = true ∧ Blocked b₁ cid := by
    intro cid hc
    obtain ⟨hc', x, hpend⟩ := mem_filter.mp hc
    have hx := hreg hpend
    obtain ⟨hsend, hblock⟩ := hblocked hneed x hx cid hpend
    rcases (h.waiting cid hc').at_of_pending (h.clean cid) hpend with
      hat | hat
    · rw [hat.fits.needSend] at hsend
      simp at hsend
    · exact ⟨x, hx, hpend, hat.fits.hasLocked rfl, hblock (hat.fits.hasLocked rfl)⟩
  have hne : waiting.Nonempty := by
    obtain ⟨x, -, cid, hc⟩ := hbusy (by simpa using hunfinished)
    refine ⟨cid, hmem (x := x) ?_⟩
    rcases hc with hpend | hlocked
    · exact hpend
    · exact h.pending_of_hasLocked hlocked
  obtain ⟨victim, hvictim, hdetect⟩ :=
    GraphKeyLocks.exists_detectDeadLock (g := b₁.keyLocks) hne (by
      intro cid hc
      obtain ⟨-, -, -, -, keyLock, hwaits, holder, hholds⟩ := hlocked cid hc
      refine ⟨keyLock, hwaits, holder, ?_, hholds⟩
      rcases hunlocking.holders keyLock holder hholds with hbefore | ⟨x, -, hpend⟩
      · obtain ⟨x, hx⟩ := hholders keyLock holder hbefore
        exact hmem (pending_iff.mpr hx)
      · exact hmem hpend)
  apply (detectExecutors_cases fun _ _ _ _ => by simp [OtherError]).bindAt
  rintro _ _ (- | hnone)
  · exact .of_pureAt True.intro
  · obtain ⟨x, hx, hpend, hlocked', -⟩ := hlocked victim hvictim
    rw [← hunlocking.pending] at hpend
    rw [← hunlocking.hasLocked] at hlocked'
    have hfalse := hnone x victim ⟨hx, hasLocked_iff.mp hlocked'⟩ (pending_iff.mp hpend)
    rw [hdetect] at hfalse
    cases hfalse

end Victim

namespace Execution

def Reachable (env : Env) (startContextID : ContextID) (txs : List Submission)
    (e : Execution) : Prop :=
  Relation.ReflTransGen (Step env) (start startContextID txs) e

theorem Reachable.inv {startContextID : ContextID} {txs : List Submission} {e : Execution}
    (h : Reachable env startContextID txs e) : Inv True (numbers startContextID txs) e := by
  induction h with
  | refl => exact built_build startContextID txs
  | tail _ hstep ih => exact ih.step (.inl trivial) hstep

open GraphKeyLocks in
/-- In every state of the locks, a set of contexts whose last requests have failed, for
keys that contexts of the set hold, has a context for which `detectDeadLock` answers
yes.  In an execution `serialPrepareExecutor` does not fail to detect a deadlock if
every key is held by a pending transaction when the locks are settled. -/
theorem deadLock_detected :
    (∀ (calls : List Call) (contexts : Finset ContextID), contexts.Nonempty →
      (∀ contextID ∈ contexts, ∃ keyLock seq,
        Failed contextID keyLock seq (Session.run calls).events) →
      (∀ contextID ∈ contexts, ∀ keyLock seq,
        Failed contextID keyLock seq (Session.run calls).events →
        ∃ contextID' ∈ contexts, (Session.run calls).locks.Holds keyLock contextID') →
      ∃ contextID ∈ contexts, (Session.run calls).locks.detectDeadLock contextID = true) ∧
    (∀ (env : Env) (startContextID : ContextID) (txs : List Submission) (e : Execution),
      Reachable env startContextID txs e → e.phase = .built ∨ e.phase = .ready →
      ∀ b, PreparePasses env e.block b → (∀ keyLock contextID, b.keyLocks.Holds keyLock contextID →
        ∃ address, contextID ∈ (b.pools address).pendingExecutives) →
      ∀ b', settleLocks b ≠ .error .noDeadLockDetected b') := by
  constructor
  · intro calls contexts hne hfailed hheld
    apply exists_detectDeadLock hne
    intro contextID hc
    obtain ⟨keyLock, seq, hlast⟩ := hfailed contextID hc
    obtain ⟨contextID', hc', hholds⟩ := hheld contextID hc keyLock seq hlast
    exact ⟨keyLock, ⟨seq, Session.requested_run calls contextID keyLock seq hlast⟩,
      contextID', hc', hholds⟩
  · intro env startContextID txs e hreachable hphase b hpasses hholders b' herror
    have hresting : Resting True (numbers startContextID txs) e.block := by
      have hinv := hreachable.inv
      rw [Inv] at hinv
      rcases hphase with hbuilt | hready
      · rw [hbuilt] at hinv
        exact Built.resting hinv
      · rw [hready] at hinv
        exact hinv
    have hprep : Preparing True env (numbers startContextID txs) e.block :=
      hresting.preparing (.inl trivial)
    obtain ⟨hpreparing, hsettled⟩ := preparePasses_spec hprep hpasses
    have hspec := (Settling.of_settled hpreparing hsettled).settleLocks hholders b rfl
    rw [herror] at hspec
    exact hspec rfl

open GraphKeyLocks in
/-- Two contexts hold a key each and have asked for the key of the other. -/
def crossing : List Call :=
  [.acquire [] [0] 1 0, .acquire [] [1] 2 0, .acquire [] [1] 1 0, .acquire [] [0] 2 0]

/-- Transaction 0 goes from contract `[7]` to `[8]` and transaction 1 the other way; each leaves
a locked key behind and then asks for the key of the other. -/
def crossingMoves : List Move :=
  let call (contextID : ContextID) (fromAddress toAddress : Address) (key : Bytes) :=
    { exchanged .message 0 fromAddress toAddress with contextID, keyLocks := [key] }
  let wait (contextID : ContextID) (address : Address) (key : Bytes) :=
    { exchanged .keyLock 1 address address with contextID, keyLockAcquired := key }
  [.prepare [[7], [8]], .round [[7], [8]], .go [7], .go [8],
    .output [7] (call 0 [7] [8] [1]), .output [8] (call 1 [8] [7] [2]), .report,
    .round [[7], [8]], .go [7], .go [8], .output [8] (wait 0 [8] [2]),
    .output [7] (wait 1 [7] [1]), .report]

def crossed : Execution :=
  let e := start 0 [payment, { payment with toAddress := [8] }]
  (play crossingMoves e).getD e

def crossedPrepared : BlockExecutive :=
  (prepareOnce oneAddress [[7], [8]] crossed.block).getD crossed.block

open GraphKeyLocks in
theorem deadLock_detected_crossing : (∃ contextID ∈ ({1, 2} : Finset ContextID),
      (Session.run crossing).locks.detectDeadLock contextID = true) ∧
    (crossedPrepared.pools [7]).hasLocked = {1} ∧ (crossedPrepared.pools [8]).hasLocked = {0} ∧
    ∀ b, settleLocks crossedPrepared ≠ .error .noDeadLockDetected b := by
  have hevents : (Session.run crossing).events =
      [.acquire ([], [0]) 2 0 false, .acquire ([], [1]) 1 0 false,
        .acquire ([], [1]) 2 0 true, .acquire ([], [0]) 1 0 true] := by decide
  have hfirst : (Session.run crossing).locks.Holds ([], [0]) 1 := ⟨0, by decide⟩
  have hsecond : (Session.run crossing).locks.Holds ([], [1]) 2 := ⟨0, by decide⟩
  have hreached : Reached oneAddress 0 [payment, { payment with toAddress := [8] }] crossed :=
    reached_of_play .refl (Option.getD_of_ne_none (by decide +kernel) _).symm
  have hpasses : PreparePasses oneAddress crossed.block crossedPrepared :=
    preparePasses_of_prepareOnce (Option.getD_of_ne_none (by decide +kernel) _).symm
  have hedges : crossedPrepared.keyLocks.edges =
      [.own ([8], [2]) 1 0, .own ([7], [1]) 0 0] := by decide +kernel
  refine ⟨?_, by decide +kernel, by decide +kernel, ?_⟩
  · apply deadLock_detected.1 crossing {1, 2} (by decide)
    · intro contextID hc
      rcases mem_insert.mp hc with rfl | hc
      · refine ⟨([], [1]), 0, ?_⟩
        exact ⟨[.acquire ([], [0]) 2 0 false], _, rfl, by simp [Event.IsAcquire]⟩
      · cases Finset.mem_singleton.mp hc
        refine ⟨([], [0]), 0, ?_⟩
        exact ⟨[], _, rfl, by simp⟩
    · intro contextID hc keyLock seq hfailed
      rw [hevents] at hfailed
      rcases mem_insert.mp hc with rfl | hc
      · simp [Failed, since_cons, not_since_nil, Event.IsAcquire] at hfailed
        exact ⟨2, by decide, hfailed.1 ▸ hsecond⟩
      · cases Finset.mem_singleton.mp hc
        simp [Failed, since_cons, not_since_nil, Event.IsAcquire] at hfailed
        exact ⟨1, by decide, hfailed.1 ▸ hfirst⟩
  · refine deadLock_detected.2 oneAddress 0 _ crossed
      (Relation.ReflTransGen.mono (fun _ _ h => h.2) _ _ hreached)
      (.inr (by decide +kernel)) crossedPrepared hpasses ?_
    rintro keyLock contextID ⟨seq, hedge⟩
    rw [hedges] at hedge
    rcases List.mem_cons.mp hedge with heq | hmem
    · cases heq
      exact ⟨[7], by decide +kernel⟩
    · cases List.mem_singleton.mp hmem
      exact ⟨[8], by decide +kernel⟩

end Execution

end FiscoSmart.Scheduler
