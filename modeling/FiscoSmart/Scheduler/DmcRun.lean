import FiscoSmart.Scheduler.DmcRound

/-!
# No transaction is lost or finished twice

Along every execution of a block each transaction is at one address or has been
finished once.
-/

namespace FiscoSmart.Scheduler

open BlockExecutive DmcExecutor
open Support

variable {lossy : Prop} {env : Env} {cids : Finset ContextID} {b : BlockExecutive}
  {startContextID : ContextID} {txs : List Submission} {v : View}

/-! ## The transactions of a block -/

/-- What holds before the first round. -/
structure Built (contextIDs : Finset ContextID) (b : BlockExecutive) : Prop where
  placed : ∀ contextID ∈ contextIDs, ∃ address,
    At False contextID (b.view contextID) address .prepare ∧ NotOut (b.view contextID)
  absent : ∀ contextID ∉ contextIDs, Absent (b.view contextID)
  registered : b.Registered

variable {cid : ContextID} {addr : Address} {status : Status}

theorem At.of_lossless (h : At False cid v addr status) : At lossy cid v addr status := { h with
  stale x hx := by
    have hstale := h.stale x hx
    exact { hstale with
      needPrepare := fun hprep => (hstale.needPrepare hprep).1.elim } }

theorem Built.resting (h : Built cids b) : Resting lossy cids b := { h with
  between c hc := by
    obtain ⟨addr, hat, hout⟩ := h.placed c hc
    exact .prepare addr hat.of_lossless (.inl hout) }

theorem Built.submit (h : Built cids b) {msg : ExecutionMessage}
    (hnew : msg.contextID ∉ cids) (hreq : isRequest msg.type = true)
    (withDAG : Bool) : Built (insert msg.contextID cids) (b.submit msg withDAG) := by
  have hlocal : Local msg.contextID b (b.submit msg withDAG) :=
    (Local.withState _).trans (.scheduleIn _)
  have hview : (b.submit msg withDAG).view msg.contextID =
      ((b.view msg.contextID).withState ⟨[], some msg, 0, withDAG⟩).mark
        msg.toAddress Marks.add := by
    rw [BlockExecutive.submit, view_scheduleIn, view_withState]
  obtain ⟨hnone, hfin⟩ := h.absent msg.contextID hnew
  refine ⟨?_, ?_, hlocal.registered_of h.registered⟩
  · intro c hc
    by_cases heq : c = msg.contextID
    · subst heq
      have hmarks : ∀ x, ((b.submit msg withDAG).view msg.contextID).marks x =
          if x = msg.toAddress then Marks.none.add else .none := by
        intro x
        rw [hview]
        by_cases hx : x = msg.toAddress
        · subst hx
          simp [hnone]
        · simp [hx, hnone]
      refine ⟨msg.toAddress, ⟨?_, ?_, ?_, ?_⟩, ?_⟩
      · rw [hmarks, if_pos rfl]
        constructor <;> simp [Marks.add, Marks.none]
      · intro x hx
        rw [hmarks, if_neg hx]
        exact stale_none
      · rw [hview]
        exact ⟨msg, rfl, rfl, .inl hreq⟩
      · rw [hview]
        exact hfin
      · intro x
        rw [hmarks]
        split <;> rfl
    · rw [hlocal.views c heq]
      exact h.placed c (Finset.mem_of_mem_insert_of_ne hc heq)
  · intro c hc
    rw [Finset.mem_insert, not_or] at hc
    rw [hlocal.views c hc.1]
    exact h.absent c hc.2

theorem add_one_add_ne {start : ℤ} {i : ℕ} : start + 1 + i ≠ start := by
  omega

theorem exists_lt_succ {start c : ℤ} {n : ℕ} :
    (∃ i < n + 1, start + (i : ℕ) = c) ↔ c = start ∨ ∃ i < n, start + 1 + (i : ℕ) = c := by
  constructor
  · rintro ⟨_ | i, hi, rfl⟩
    · left
      simp
    · exact .inr ⟨i, by omega, by omega⟩
  · rintro (rfl | ⟨i, hi, rfl⟩)
    · exact ⟨0, by omega, by simp⟩
    · exact ⟨i + 1, by omega, by omega⟩

/-- The numbers of the transactions of a block. -/
def numbers (startContextID : ContextID) (txs : List Submission) : Finset ContextID :=
  (Finset.range txs.length).image (fun i : ℕ => startContextID + i)

theorem numbers_cons {tx : Submission} :
    numbers startContextID (tx :: txs) =
      insert startContextID (numbers (startContextID + 1) txs) := by
  ext c
  simp only [numbers, List.length_cons, Finset.mem_insert, Finset.mem_image, Finset.mem_range]
  exact exists_lt_succ

theorem built_build (startContextID : ContextID) (txs : List Submission) :
    Built (numbers startContextID txs) (build startContextID txs) := by
  induction txs generalizing startContextID with
  | nil =>
    have habsent : ∀ cid, Absent (BlockExecutive.empty.view cid) := by
      intro cid
      refine ⟨fun x => ?_, rfl⟩
      simp [view_marks, BlockExecutive.empty, ExecutivePool.marks, ExecutivePool.has_empty,
        Marks.none]
    refine ⟨by simp [numbers], fun cid _ => habsent cid, ?_⟩
    intro cid x hx
    exact absurd ((habsent cid).1 x) hx
  | cons tx txs ih =>
    rw [numbers_cons]
    have hnew : (buildMessage startContextID tx).contextID ∉ numbers (startContextID + 1) txs := by
      simp only [numbers, Finset.mem_image, not_exists, not_and, buildMessage]
      intro i _
      exact add_one_add_ne
    refine (ih (startContextID + 1)).submit hnew ?_ tx.enableDAG
    rw [buildMessage]
    split <;> rfl

theorem Built.dagExecute (h : Built cids b) {responses : ContextID → ExecutionMessage}
    (hresponses : ∀ cid, (responses cid).contextID = cid) :
    Built cids (b.dagExecute responses) := { h with
  placed c hc := by
    obtain ⟨addr, hat, hout⟩ := h.placed c hc
    refine ⟨addr, { hat with state := ?_ }, hout⟩
    rw [view_state, BlockExecutive.dagExecute]
    dsimp only
    split
    · exact ⟨responses c, rfl, hresponses c, .inr (.inr (List.cons_ne_nil _ _))⟩
    · exact hat.state }

/-! ## Executions -/

/-- The transaction is in the pool and not on its way out of it. -/
def Pending (b : BlockExecutive) (contextID : ContextID) (address : Address) : Prop :=
  contextID ∈ (b.pools address).pendingExecutives ∧ contextID ∉ (b.pools address).needScheduleOut ∧
    contextID ∉ (b.pools address).needRemove

theorem pending_iff_marks : Pending b cid addr ↔ ((b.view cid).marks addr).pending = true ∧
        ((b.view cid).marks addr).needScheduleOut = false ∧
        ((b.view cid).marks addr).needRemove = false := by
  simp [Pending, view_marks, ExecutivePool.marks, ExecutivePool.has]

theorem at_pending (h : At False cid (b.view cid) addr status) : ∃! x, Pending b cid x := by
  refine ⟨addr, pending_iff_marks.mpr ⟨h.fits.pending, h.fits.notOut, h.fits.notRemoved⟩, ?_⟩
  intro x hx
  obtain ⟨hpend, hout, -⟩ := pending_iff_marks.mp hx
  by_contra hne
  rw [(h.stale x hne).pending hpend] at hout
  cases hout

theorem Resting.pending (h : Resting False cids b) (hc : cid ∈ cids)
    (hfin : (b.view cid).finished = 0) : ∃! x, Pending b cid x := by
  cases h.between cid hc with
  | gone hgone =>
    rcases hgone.finished with hone | ⟨hfalse, -⟩
    · omega
    · exact hfalse.elim
  | prepare _ hat _ => exact at_pending hat
  | send _ hat => exact at_pending hat
  | locked _ hat => exact at_pending hat

theorem Gone.finished_eq (h : Gone False v) : v.finished = 1 :=
  h.finished.resolve_right (fun hfalse => hfalse.1)

/-! ## Runs that are computed -/

/-- What a call returns and the block that it leaves. -/
def returned {α : Type} (x : DmcM α) (b : BlockExecutive) : Option (α × BlockExecutive) :=
  match x b with
  | .ok a b' => some (a, b')
  | .error _ _ => none

theorem eq_ok_of_returned {α : Type} {x : DmcM α} {a : α} {b' : BlockExecutive}
    (h : returned x b = some (a, b')) : x b = .ok a b' := by
  rw [returned] at h
  split at h
  · cases h
    assumption
  · cases h

theorem eq_ok_final {α : Type} {x : DmcM α} {a : α}
    (h : (returned x b).map Prod.fst = some a) : x b = .ok a (final x b) := by
  obtain ⟨⟨_, b'⟩, hreturned, rfl⟩ := Option.map_eq_some_iff.mp h
  rw [final, eq_ok_of_returned hreturned]

/-- The list is that of the executors, so that `addresses` need not be computed. -/
def Lists (b : BlockExecutive) (addresses : List Address) : Prop :=
  b.dmcExecutors = addresses.toFinset ∧ addresses.Pairwise (· < ·)

instance (addresses : List Address) : Decidable (Lists b addresses) :=
  inferInstanceAs (Decidable (_ ∧ _))

variable {addresses : List Address} {b' : BlockExecutive}

theorem Lists.addresses_eq (h : Lists b addresses) : b.addresses = addresses := by
  rw [BlockExecutive.addresses, h.1]
  exact (List.toFinset_sort _ (h.2.imp ne_of_lt)).mpr (h.2.imp le_of_lt)

/-- The first loop of `serialPrepareExecutor`, if it ends at once. -/
def prepareOnce (env : Env) (addresses : List Address) (b : BlockExecutive) :
    Option BlockExecutive :=
  if Lists b addresses then do
    let (again, b') ← returned (do
      eachExecutor DmcExecutor.releaseOutdatedLock addresses
      anyExecutor (DmcExecutor.prepare env) addresses) b
    if again then none else some b'
  else none

theorem preparePasses_of_prepareOnce (h : prepareOnce env addresses b = some b') :
    PreparePasses env b b' := by
  obtain ⟨hlists, h⟩ := Option.ite_none_right_eq_some.mp h
  obtain ⟨⟨again, b₁⟩, hpass, hend⟩ := Option.bind_eq_some_iff.mp h
  obtain ⟨hlast, hend⟩ := Option.ite_none_left_eq_some.mp hend
  cases hend
  rw [Bool.not_eq_true] at hlast
  rw [hlast] at hpass
  refine .last ((eq_ok_of_returned hpass).symm ▸ ?_)
  rw [← hlists.addresses_eq]
  rfl

/-- `serialPrepareExecutor`, if no transaction is moved and no call reverted. -/
def serialPrepare (env : Env) (addresses : List Address) (b : BlockExecutive) :
    Option BlockExecutive := do
  let b₁ ← prepareOnce env addresses b
  if Lists b₁ addresses then do
    let (answers, b₂) ← returned (unlockExecutors addresses) b₁
    if answers.2 ∧ ¬ answers.1 then none else some b₂
  else none

theorem serialPrepared_of_serialPrepare (h : serialPrepare env addresses b = some b') :
    SerialPrepared env b b' := by
  obtain ⟨b₁, hpasses, h⟩ := Option.bind_eq_some_iff.mp h
  obtain ⟨hlists, h⟩ := Option.ite_none_right_eq_some.mp h
  obtain ⟨⟨⟨allFinished, needDetectDeadlock⟩, b₂⟩, hunlock, hend⟩ := Option.bind_eq_some_iff.mp h
  obtain ⟨hnone, hend⟩ := Option.ite_none_left_eq_some.mp hend
  cases hend
  refine ⟨b₁, preparePasses_of_prepareOnce hpasses, ?_⟩
  rw [← hlists.addresses_eq] at hunlock
  refine Runs.get_bind (Runs.bind (eq_ok_of_returned hunlock) ?_)
  simp only [if_neg hnone]
  rfl

namespace Execution

/-- What holds in every state of an execution. -/
def Inv (lossy : Prop) (contextIDs : Finset ContextID) (e : Execution) : Prop :=
  match e.phase with
  | .built => Built contextIDs e.block
  | .ready => Resting lossy contextIDs e.block
  | .sending toGo inFlight paused =>
    Sending lossy contextIDs toGo inFlight paused e.block
  | .finished => (∀ contextID ∈ contextIDs, Gone lossy (e.block.view contextID)) ∧
    ∀ contextID ∉ contextIDs, Absent (e.block.view contextID)

variable {e : Execution}

theorem Inv.step {e' : Execution} (h : Inv lossy cids e)
    (hfresh : lossy ∨ Fresh env e.block) (hstep : Step env e e') : Inv lossy cids e' := by
  cases hstep with
  | prepare hprepared =>
    have hbuilt : Resting lossy cids _ := Built.resting h
    exact (serialPrepared_settling (hbuilt.preparing hfresh) hprepared).resting
  | call => exact Built.resting h
  | dag responses hresponses => exact (Built.dagExecute h hresponses).resting
  | round hprepared =>
    exact (serialPrepared_settling (Resting.preparing h hfresh) hprepared).sending
  | go addr status _ hgo => exact (Sending.go h).ok rfl hgo
  | output addr msg hsent houtput => exact (Sending.output h hsent).ok rfl houtput
  | next => exact Sending.resting h
  | finish => exact ⟨fun _ hc => Sending.gone h hc, h.absent⟩

/-- The states of the executions in which new contracts get new addresses. -/
def Reached (env : Env) (startContextID : ContextID) (txs : List Submission)
    (e : Execution) : Prop :=
  Relation.ReflTransGen (fun e e' => Fresh env e.block ∧ Step env e e') (start startContextID txs) e

theorem Reached.inv
    (h : Reached env startContextID txs e) : Inv False (numbers startContextID txs) e := by
  induction h with
  | refl => exact built_build startContextID txs
  | tail _ hstep ih => exact ih.step (.inr hstep.1) hstep.2

def Finished (e : Execution) (contextID : ContextID) : Prop :=
  ∃ output ∈ e.block.results, output.contextID = contextID

theorem not_finished_iff : ¬ e.Finished cid ↔ (e.block.view cid).finished = 0 := by
  simp [Finished, view, List.countP_eq_zero]

theorem Inv.finished_le (h : Inv False cids e) : (e.block.view cid).finished ≤ 1 ∧
      (cid ∉ cids → (e.block.view cid).finished = 0) := by
  obtain ⟨b, phase⟩ := e
  have hat : ∀ {addr status}, At False cid (b.view cid) addr status →
      (b.view cid).finished ≤ 1 := by
    intro addr status hat
    rw [hat.finished]
    omega
  by_cases hc : cid ∈ cids
  · refine ⟨?_, fun hnot => absurd hc hnot⟩
    rcases phase with - | - | ⟨toGo, inFlight, paused⟩ | -
    · obtain ⟨_, hplace, -⟩ := Built.placed h cid hc
      exact hat hplace
    · cases Resting.between h cid hc with
      | gone hgone => exact hgone.finished_eq.le
      | prepare _ hplace _ => exact hat hplace
      | send _ hplace => exact hat hplace
      | locked _ hplace => exact hat hplace
    · cases Sending.within h cid hc with
      | gone hgone => exact hgone.finished_eq.le
      | send _ hplace _ _ => exact hat hplace
      | locked _ hplace _ _ => exact hat hplace
      | answer _ hplace _ _ _ => exact hat hplace
      | prepare _ hplace _ _ => exact hat hplace
    · exact (h.1 cid hc).finished_eq.le
  · have habsent : Absent (b.view cid) := by
      rcases phase with - | - | ⟨toGo, inFlight, paused⟩ | -
      · exact Built.absent h cid hc
      · exact Resting.absent h cid hc
      · exact Sending.absent h cid hc
      · exact h.2 cid hc
    exact ⟨habsent.2 ▸ Nat.zero_le 1, fun _ => habsent.2⟩

theorem go_finished (addr : Address) (b : BlockExecutive) :
    Ensures (· = b) (DmcExecutor.go addr) (fun status _ => status = .finished →
        (b.pools addr).pendingExecutives = ∅ ∧ (b.pools addr).hasLocked = ∅) (fun _ _ => True) := by
  apply Ensures.getAt
  apply Ensures.of_ite
  · intro hempty
    refine Ensures.of_pureAt (fun _ => ?_)
    simpa [ExecutivePool.isEmpty] using hempty
  · intro _
    apply Ensures.of_ite
    · intro _
      exact Ensures.of_pureAt (by simp)
    · intro _
      refine (Ensures.trivial _ _).bindAt ?_
      intro msgs b₁ _
      refine (Ensures.trivial _ _).bindAt ?_
      intro _ b₂ _
      exact Ensures.of_pureAt (by simp)

/-- In every execution in which new contracts get new addresses: between two rounds a
transaction that is not finished is pending at exactly one address, and after the
preparation of a round it is in no other pool at all; a transaction is finished at
most once, and exactly once when the block is; an executor that reports that it has
finished has no transaction that is pending or locked. -/
theorem transactions_kept (env : Env) (startContextID : ContextID)
    (txs : List Submission) (e : Execution) (h : Reached env startContextID txs e) :
    (e.phase = .ready → ∀ contextID ∈ numbers startContextID txs,
      ¬ e.Finished contextID → ∃! address, Pending e.block contextID address) ∧
    (e.phase = .ready → Fresh env e.block → ∀ b', SerialPrepared env e.block b' →
      ∀ contextID ∈ numbers startContextID txs,
        (∀ output ∈ b'.results, output.contextID ≠ contextID) →
        ∃! address, contextID ∈ (b'.pools address).pendingExecutives) ∧
    (∀ contextID, e.block.results.countP (fun output => output.contextID = contextID) ≤ 1 ∧
      (e.Finished contextID → contextID ∈ numbers startContextID txs)) ∧
    (e.phase = .finished → ∀ contextID ∈ numbers startContextID txs,
      e.block.results.countP (fun output => output.contextID = contextID) = 1) ∧
    (∀ address b', DmcExecutor.go address e.block = .ok .finished b' →
      (e.block.pools address).pendingExecutives = ∅ ∧ (e.block.pools address).hasLocked = ∅) := by
  have hinv := h.inv
  obtain ⟨b, phase⟩ := e
  refine ⟨?_, ?_, ?_, ?_, ?_⟩
  · rintro hphase contextID hc hfin
    obtain rfl : phase = .ready := hphase
    exact Resting.pending hinv hc (not_finished_iff.mp hfin)
  · rintro hphase hfresh b' hprepared contextID hc hfin
    obtain rfl : phase = .ready := hphase
    have hsettling := serialPrepared_settling (Resting.preparing hinv (.inr hfresh)) hprepared
    have hnot : (b'.view contextID).finished = 0 := by
      simpa [view, List.countP_eq_zero] using hfin
    have hiff : ∀ x, Pending b' contextID x ↔ contextID ∈ (b'.pools x).pendingExecutives := by
      intro x
      rw [pending_iff_marks, ← DmcExecutor.pending_iff]
      simp [hsettling.clean contextID x]
    simpa only [hiff] using hsettling.resting.pending hc hnot
  · intro contextID
    obtain ⟨hle, hnone⟩ := hinv.finished_le
    refine ⟨hle, fun hfin => ?_⟩
    by_contra hc
    exact not_finished_iff.mpr (hnone hc) hfin
  · rintro hphase contextID hc
    obtain rfl : phase = .finished := hphase
    exact (hinv.1 contextID hc).finished_eq
  · intro address b' hgo
    exact (go_finished address b).ok rfl hgo rfl

/-- What happens next in an execution without the DAG. -/
inductive Move
  | prepare (addresses : List Address)
  | round (addresses : List Address)
  | go (address : Address)
  | output (address : Address) (message : ExecutionMessage)
  | report

def move (env : Env) : Execution → Move → Option Execution
  | ⟨b, .built⟩, .prepare addresses => (serialPrepare env addresses b).map (⟨·, .ready⟩)
  | ⟨b, .ready⟩, .round addresses =>
    (serialPrepare env addresses b).map fun b => ⟨b, .sending b.dmcExecutors [] false⟩
  | ⟨b, .sending toGo inFlight paused⟩, .go address =>
    if address ∈ toGo then
      (returned (DmcExecutor.go address) b).map fun (status, b') =>
        ⟨b', .sending (toGo.erase address)
          ((sentMessages status).map (fun m => (address, m.contextID)) ++ inFlight)
          (paused || status ≠ .finished)⟩
    else none
  | ⟨b, .sending toGo inFlight paused⟩, .output address message =>
    if (address, message.contextID) ∈ inFlight then
      (returned (DmcExecutor.handleExecutiveOutput address message) b).map fun (_, b') =>
        ⟨b', .sending toGo (inFlight.erase (address, message.contextID)) paused⟩
    else none
  | ⟨b, .sending toGo [] paused⟩, .report =>
    if toGo = ∅ then some ⟨b, if paused then .ready else .finished⟩ else none
  | _, _ => none

theorem step_of_move {m : Move} (h : e.move env m = some e') : Step env e e' := by
  rw [move.eq_def] at h
  split at h
  · obtain ⟨b', hprepare, rfl⟩ := Option.map_eq_some_iff.mp h
    exact .prepare (serialPrepared_of_serialPrepare hprepare)
  · obtain ⟨b', hprepare, rfl⟩ := Option.map_eq_some_iff.mp h
    exact .round (serialPrepared_of_serialPrepare hprepare)
  · obtain ⟨hmem, hgo⟩ := Option.ite_none_right_eq_some.mp h
    obtain ⟨⟨status, b'⟩, hstatus, rfl⟩ := Option.map_eq_some_iff.mp hgo
    exact .go _ status hmem (eq_ok_of_returned hstatus)
  · obtain ⟨hmem, houtput⟩ := Option.ite_none_right_eq_some.mp h
    obtain ⟨⟨_, b'⟩, hreturned, rfl⟩ := Option.map_eq_some_iff.mp houtput
    exact .output _ _ hmem (eq_ok_of_returned hreturned)
  · rename_i paused
    obtain ⟨rfl, hnext⟩ := Option.ite_none_right_eq_some.mp h
    cases hnext
    cases paused with
    | true => exact .next
    | false => exact .finish
  · cases h

/-- An environment in which every new contract gets the address `[0]`. -/
def oneAddress : Env := ⟨1, fun _ _ _ => [0], fun _ _ _ => [0]⟩

theorem fresh_oneAddress (h : (b.pools [0]).needScheduleOut = ∅) : Fresh oneAddress b := by
  intro cid addr created _ hcreated
  have haddress : created = [0] := by
    rw [createdAddress] at hcreated
    split at hcreated
    · obtain ⟨-, hnew⟩ := Option.ite_none_right_eq_some.mp hcreated
      rw [newAddress] at hnew
      split at hnew <;> exact (Option.some_inj.mp hnew).symm
    · cases hcreated
  rw [haddress, h]
  exact Finset.notMem_empty cid

/-- The moves are made one after the other, from blocks that `Fresh` holds of. -/
def play (moves : List Move) (e : Execution) : Option Execution :=
  moves.foldlM (fun e m =>
    if (e.block.pools [0]).needScheduleOut = ∅ then e.move oneAddress m else none) e

theorem reached_of_play {moves : List Move} (hreached : Reached oneAddress startContextID txs e)
    (h : play moves e = some e') : Reached oneAddress startContextID txs e' := by
  induction moves generalizing e with
  | nil =>
    cases h
    exact hreached
  | cons m moves ih =>
    rw [play, List.foldlM_cons] at h
    obtain ⟨e₁, hmove, hrest⟩ := Option.bind_eq_some_iff.mp h
    obtain ⟨hfresh, hmove⟩ := Option.ite_none_right_eq_some.mp hmove
    exact ih (hreached.tail ⟨fresh_oneAddress hfresh, step_of_move hmove⟩) hrest

/-- A transaction for the contract `[7]`. -/
def payment : Submission := ⟨true, [], [7], false, 1, [], false⟩

/-- A message of transaction 0, from one contract to another. -/
def exchanged (type : MessageType) (seq : Seq) (fromAddress toAddress : Address) :
    ExecutionMessage :=
  ⟨type, 0, seq, fromAddress, toAddress, false, none, 1, [], [], []⟩

/-- Contract `[7]` calls contract `[8]`: the first round and the answer of `[7]`. -/
def calling : List Move :=
  [.prepare [[7]], .round [[7]], .go [7], .output [7] (exchanged .message 0 [7] [8]), .report]

/-- Contract `[8]` returns to `[7]`, and `[7]` finishes the transaction. -/
def returning : List Move :=
  [.round [[7], [8]], .go [8], .go [7], .output [8] (exchanged .finished 1 [8] [7]), .report,
    .round [[7], [8]], .go [7], .output [7] (exchanged .finished 0 [7] [7]), .go [8], .report,
    .round [[7], [8]], .go [7], .go [8], .report]

/-- The execution after `calling`, its block in the next round, and the execution at its end. -/
def called : Execution := (play calling (start 0 [payment])).getD (start 0 [payment])

def delivered : BlockExecutive :=
  (serialPrepare oneAddress [[7], [8]] called.block).getD called.block

def paid : Execution := (play returning called).getD called

/-- The transaction is on its way from `[7]` to `[8]` between two rounds, with `[8]` in the next
one, and finished at the end. -/
theorem transactions_kept_payment :
    (0 ∈ (called.block.pools [7]).needScheduleOut ∧ ∃! address, Pending called.block 0 address) ∧
    (∃! address, 0 ∈ (delivered.pools address).pendingExecutives) ∧
    paid.block.results.countP (fun output => output.contextID = 0) = 1 ∧
    (paid.block.pools [7]).pendingExecutives = ∅ := by
  have hcalled : Reached oneAddress 0 [payment] called :=
    reached_of_play .refl (Option.getD_of_ne_none (by decide +kernel) _).symm
  have hpaid : Reached oneAddress 0 [payment] paid :=
    reached_of_play hcalled (Option.getD_of_ne_none (by decide +kernel) _).symm
  have hdelivered : SerialPrepared oneAddress called.block delivered :=
    serialPrepared_of_serialPrepare (Option.getD_of_ne_none (by decide +kernel) _).symm
  obtain ⟨hpending, hprepared, -⟩ := transactions_kept _ 0 _ _ hcalled
  obtain ⟨-, -, -, honce, hempty⟩ := transactions_kept _ 0 _ _ hpaid
  refine ⟨⟨by decide +kernel, hpending (by decide +kernel) 0 (by decide) ?_⟩, ?_, ?_, ?_⟩
  · exact not_finished_iff.mpr (by decide +kernel)
  · exact hprepared (by decide +kernel) (fresh_oneAddress (by decide +kernel)) delivered
      hdelivered 0 (by decide) (by decide +kernel)
  · exact honce (by decide +kernel) 0 (by decide)
  · exact (hempty [7] _ (eq_ok_final (by decide +kernel))).1

end Execution

end FiscoSmart.Scheduler
