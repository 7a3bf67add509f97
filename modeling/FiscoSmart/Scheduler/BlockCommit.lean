import FiscoSmart.Support.Gather

/-!
# Committing a block in two phases

`BlockExecutive::asyncCommit` lets the ledger write the block into a storage of
its own, prepares the storage of the node, then prepares all executors, and
commits or rolls back when the last of them has answered.  The replies arrive in
any order and are counted in a `CommitStatus` per round.

The model sends a request, or all requests of a round, and handles the replies to
outstanding requests one by one; `stop` and `start` of the block executive may
come at any time.  A log keeps what was sent, what was answered and what the
caller was told.  `Phase` is the protocol that the code follows, as long as there
is an executor: without one, nobody calls `checkAndCommit` after the storage is
prepared.
-/

namespace FiscoSmart.Scheduler.BlockCommit

open Support List

variable {n : ℕ}

/-! ## Requests, replies and the log -/

/-- The storage of the node and the executors. -/
inductive Participant (n : ℕ)
  | storage
  | executor (i : Fin n)
deriving DecidableEq

inductive Request (n : ℕ)
  | prewrite
  | prepare (p : Participant n)
  | commit (p : Participant n)
  | rollback (p : Participant n)
deriving DecidableEq

/-- The error of a reply: `SCHEDULER_TERM_ID_ERROR`, or any other. -/
inductive Failure
  | schedulerTermId
  | other
deriving DecidableEq

abbrev Reply := Option Failure

/-- Why a block is rolled back. -/
inductive RollbackCause
  | prepareErrors (failed : ℕ)
  | storageCommitError
deriving DecidableEq

inductive SchedulerError
  | prewriteBlockError
  | prepareError (error : Failure)
  | commitError (cause : RollbackCause)
  | commitErrors (failed : ℕ)
  | rollbackError (failed : ℕ)
  | stopped
deriving DecidableEq

inductive Entry (n : ℕ)
  | sent (request : Request n)
  | answered (request : Request n) (reply : Reply)
  | triggerSwitch
  | callback (result : Option SchedulerError)
deriving DecidableEq

structure CommitStatus where
  success : ℕ
  failed : ℕ
deriving DecidableEq

/-- `++success` or `++failed`. -/
def CommitStatus.count (status : CommitStatus) (success : Bool) : CommitStatus :=
  if success then { status with success := status.success + 1 }
  else { status with failed := status.failed + 1 }

def CommitStatus.zero : CommitStatus := ⟨0, 0⟩

structure State (n : ℕ) where
  isRunning : Bool
  outstanding : List (Request n)
  prepareStatus : CommitStatus
  commitStatus : CommitStatus
  rollbackStatus : CommitStatus
  rollbackCause : RollbackCause
  log : List (Entry n)

variable {status : CommitStatus} {success : Bool} {t : State n}

/-! ## The code -/

def executors (n : ℕ) : List (Participant n) := (List.finRange n).map .executor

def participants (n : ℕ) : List (Participant n) := .storage :: executors n

namespace State

/-- `total`: self and all executors. -/
def total (_ : State n) : ℕ := 1 + n

def send (s : State n) (requests : List (Request n)) : State n :=
  { s with
    outstanding := s.outstanding ++ requests
    log := s.log ++ requests.map .sent }

def receive (s : State n) (request : Request n) (reply : Reply) : State n :=
  { s with
    outstanding := s.outstanding.erase request
    log := s.log ++ [.answered request reply] }

def callback (s : State n) (result : Option SchedulerError) : State n :=
  { s with log := s.log ++ [.callback result] }

/-- An executor with another term of the scheduler triggers a switch. -/
def switchOn (s : State n) (reply : Reply) : State n :=
  if reply = some .schedulerTermId then { s with log := s.log ++ [.triggerSwitch] } else s

def batchBlockRollback (s : State n) (cause : RollbackCause) : State n :=
  { s with rollbackStatus := .zero, rollbackCause := cause }.send ((participants n).map .rollback)

def batchBlockCommit (s : State n) : State n :=
  { s with commitStatus := .zero }.send [.commit .storage]

/-- `checkAndCommit` of `asyncCommit`. -/
def checkAndCommit (s : State n) : State n :=
  if s.prepareStatus.failed > 0 then
    s.batchBlockRollback (.prepareErrors s.prepareStatus.failed)
  else s.batchBlockCommit

/-- `checkAndCommit` of `batchBlockCommit`, with the callback that it gets. -/
def finishCommit (s : State n) : State n :=
  if ¬ s.isRunning then s.callback (some .stopped)
  else if s.commitStatus.failed > 0 then
    s.callback (some (.commitErrors s.commitStatus.failed))
  else s.callback none

/-- `checkAndCommit` of `batchBlockRollback`, with the callback that it gets: a
rollback without errors still reports why it was made. -/
def finishRollback (s : State n) : State n :=
  if ¬ s.isRunning then s.callback (some .stopped)
  else if s.rollbackStatus.failed > 0 then
    s.callback (some (.rollbackError s.rollbackStatus.failed))
  else s.callback (some (.commitError s.rollbackCause))

def onPrewrite (s : State n) (reply : Reply) : State n :=
  match reply with
  | some _ => s.callback (some .prewriteBlockError)
  | none => { s with prepareStatus := .zero }.send [.prepare .storage]

def onPrepareStorage (s : State n) (reply : Reply) : State n :=
  match reply with
  | some error =>
    { s with prepareStatus := s.prepareStatus.count false }.callback (some (.prepareError error))
  | none =>
    { s with prepareStatus := s.prepareStatus.count true }.send ((executors n).map .prepare)

def onPrepareExecutor (s : State n) (reply : Reply) : State n :=
  let s := { s with prepareStatus := s.prepareStatus.count reply.isNone }.switchOn reply
  if s.prepareStatus.success + s.prepareStatus.failed < s.total then s
  else s.checkAndCommit

def onCommitStorage (s : State n) (reply : Reply) : State n :=
  match reply with
  | some _ => s.batchBlockRollback .storageCommitError
  | none =>
    { s with commitStatus := s.commitStatus.count true }.send ((executors n).map .commit)

/-- An executor that fails to commit counts as a success: the storage has been
committed, and the executor only clears its cache. -/
def onCommitExecutor (s : State n) (reply : Reply) : State n :=
  let s := { s with commitStatus := s.commitStatus.count true }.switchOn reply
  if s.commitStatus.success + s.commitStatus.failed < s.total then s
  else s.finishCommit

def onRollbackStorage (s : State n) (reply : Reply) : State n :=
  let s := { s with rollbackStatus := s.rollbackStatus.count reply.isNone }
  if s.rollbackStatus.success + s.rollbackStatus.failed < s.total then s
  else s.finishRollback

/-- A restarted executor has nothing to roll back. -/
def onRollbackExecutor (s : State n) (reply : Reply) : State n :=
  let success := reply = none ∨ reply = some .schedulerTermId
  let s := { s with rollbackStatus := s.rollbackStatus.count success }.switchOn reply
  if s.rollbackStatus.success + s.rollbackStatus.failed < s.total then s
  else s.finishRollback

/-- What the code does with the reply to a request. -/
def onReply (s : State n) (request : Request n) (reply : Reply) : State n :=
  let s := s.receive request reply
  match request with
  | .prewrite => s.onPrewrite reply
  | .prepare .storage => s.onPrepareStorage reply
  | .prepare (.executor _) => s.onPrepareExecutor reply
  | .commit .storage => s.onCommitStorage reply
  | .commit (.executor _) => s.onCommitExecutor reply
  | .rollback .storage => s.onRollbackStorage reply
  | .rollback (.executor _) => s.onRollbackExecutor reply

end State

/-- `asyncCommit`, up to its first request. -/
def asyncCommit (n : ℕ) : State n where
  isRunning := true
  outstanding := [.prewrite]
  prepareStatus := .zero
  commitStatus := .zero
  rollbackStatus := .zero
  rollbackCause := .storageCommitError
  log := [.sent .prewrite]

/-- An outstanding request is answered, or the block executive is started or
stopped. -/
inductive Step : State n → State n → Prop
  | reply {s : State n} {request : Request n} (h : request ∈ s.outstanding) (reply : Reply) :
      Step s (s.onReply request reply)
  | setRunning (s : State n) (isRunning : Bool) : Step s { s with isRunning := isRunning }

/-- The states that a commit of a block can be in. -/
def Reachable (s : State n) : Prop := Relation.ReflTransGen Step (asyncCommit n) s

/-! ## The protocol -/

abbrev Answers (n : ℕ) := List (Participant n × Reply)

/-- The phases of the protocol, with the replies of the earlier phases. -/
inductive Phase (n : ℕ)
  | prewriting
  | preparingStorage
  | preparing (round : Gather (Participant n) Reply)
  | committingStorage (prepares : Answers n)
  | committing (prepares : Answers n) (round : Gather (Participant n) Reply)
  | rollingBack (prepares : Answers n) (storageCommit : Reply)
      (round : Gather (Participant n) Reply)
  | prewriteFailed (error : Failure)
  | prepareFailed (error : Failure)
  | committed (prepares commits : Answers n) (result : Option SchedulerError)
  | rolledBack (prepares : Answers n) (storageCommit : Reply) (rollbacks : Answers n)
      (error : SchedulerError)

/-- What the reply of an executor adds to the log. -/
def switchEntries : Participant n → Reply → List (Entry n)
  | .executor _, some .schedulerTermId => [.triggerSwitch]
  | _, _ => []

def answerEntries (request : Participant n → Request n) (answers : Answers n) : List (Entry n) :=
  answers.flatMap fun x => .answered (request x.1) x.2 :: switchEntries x.1 x.2

def prepareStorageLog (n : ℕ) : List (Entry n) :=
  [.sent .prewrite, .answered .prewrite none, .sent (.prepare .storage)]

def prepareLog (prepares : Answers n) : List (Entry n) :=
  prepareStorageLog n ++ [.answered (.prepare .storage) none] ++
    ((executors n).map .prepare).map .sent ++ answerEntries .prepare prepares

def commitStorageLog (prepares : Answers n) : List (Entry n) :=
  prepareLog prepares ++ [.sent (.commit .storage)]

def commitLog (prepares commits : Answers n) : List (Entry n) :=
  commitStorageLog prepares ++ [.answered (.commit .storage) none] ++
    ((executors n).map .commit).map .sent ++ answerEntries .commit commits

/-- A rollback follows a failed prepare, or the failed commit of the storage. -/
def beforeRollbackLog (prepares : Answers n) : Reply → List (Entry n)
  | none => prepareLog prepares
  | some error =>
    commitStorageLog prepares ++ [.answered (.commit .storage) (some error)]

def rollbackLog (prepares : Answers n) (storageCommit : Reply) (rollbacks : Answers n) :
    List (Entry n) :=
  beforeRollbackLog prepares storageCommit ++ ((participants n).map .rollback).map .sent ++
    answerEntries .rollback rollbacks

namespace Phase

def log : Phase n → List (Entry n)
  | prewriting => [.sent .prewrite]
  | preparingStorage => prepareStorageLog n
  | preparing round => prepareLog round.answers
  | committingStorage prepares => commitStorageLog prepares
  | committing prepares round => commitLog prepares round.answers
  | rollingBack prepares storageCommit round =>
    rollbackLog prepares storageCommit round.answers
  | prewriteFailed error =>
    [.sent .prewrite, .answered .prewrite (some error), .callback (some .prewriteBlockError)]
  | prepareFailed error =>
    prepareStorageLog n ++
      [.answered (.prepare .storage) (some error), .callback (some (.prepareError error))]
  | committed prepares commits result => commitLog prepares commits ++ [.callback result]
  | rolledBack prepares storageCommit rollbacks error =>
    rollbackLog prepares storageCommit rollbacks ++ [.callback (some error)]

def outstanding : Phase n → List (Request n)
  | prewriting => [.prewrite]
  | preparingStorage => [.prepare .storage]
  | preparing round => round.waiting.map .prepare
  | committingStorage _ => [.commit .storage]
  | committing _ round => round.waiting.map .commit
  | rollingBack _ _ round => round.waiting.map .rollback
  | _ => []

end Phase

/-- Everybody asked to prepare has answered, without an error. -/
structure Prepared (prepares : Answers n) : Prop where
  covers : Gather.Covers (executors n) ⟨prepares, []⟩
  success : ∀ x ∈ prepares, x.2 = none

/-- What has led to a rollback. -/
def Failed (prepares : Answers n) : Reply → Prop
  | none => Gather.Covers (executors n) ⟨prepares, []⟩ ∧ ∃ x ∈ prepares, x.2 ≠ none
  | some _ => Prepared prepares

/-- A phase that the protocol can be in. -/
def Phase.Valid : Phase n → Prop
  | preparing round => round.Covers (executors n) ∧ round.waiting ≠ []
  | committingStorage prepares => Prepared prepares
  | committing prepares round =>
    Prepared prepares ∧ round.Covers (executors n) ∧ round.waiting ≠ []
  | rollingBack prepares storageCommit round =>
    Failed prepares storageCommit ∧ round.Covers (participants n) ∧ round.waiting ≠ []
  | committed prepares commits _ =>
    Prepared prepares ∧ Gather.Covers (executors n) ⟨commits, []⟩
  | rolledBack prepares storageCommit rollbacks _ =>
    Failed prepares storageCommit ∧ Gather.Covers (participants n) ⟨rollbacks, []⟩
  | _ => True

/-- The counters of the round that is going on. -/
def Phase.Counts (s : State n) : Phase n → Prop
  | preparingStorage => s.prepareStatus = .zero
  | preparing round =>
    s.prepareStatus.success + s.prepareStatus.failed = 1 + round.answers.length ∧
      (s.prepareStatus.failed = 0 ↔ ∀ x ∈ round.answers, x.2 = none)
  | committingStorage _ => s.commitStatus = .zero
  | committing _ round =>
    s.commitStatus.success + s.commitStatus.failed = 1 + round.answers.length
  | rollingBack _ _ round =>
    s.rollbackStatus.success + s.rollbackStatus.failed = round.answers.length
  | _ => True

/-- The state of the code is in a phase of the protocol. -/
structure InPhase (s : State n) (φ : Phase n) : Prop where
  log : s.log = φ.log
  outstanding : s.outstanding = φ.outstanding
  valid : φ.Valid
  counts : φ.Counts s

/-! ## The code follows the protocol -/

section Steps

theorem executors_nodup : (executors n).Nodup :=
  (nodup_finRange n).map fun _ _ h => Participant.executor.inj h

theorem length_executors (n : ℕ) : (executors n).length = n := by
  simp [executors]

variable {p : Participant n}

theorem mem_executors : p ∈ executors n ↔ ∃ i, p = .executor i := by
  simp [executors, eq_comm]

theorem executors_ne_nil (hn : 0 < n) : executors n ≠ [] :=
  ne_nil_of_mem (mem_executors.mpr ⟨⟨0, hn⟩, rfl⟩)

theorem mem_participants : p ∈ participants n := by
  rcases p with - | i
  · exact mem_cons_self
  · exact mem_cons_of_mem _ (mem_executors.mpr ⟨i, rfl⟩)

theorem participants_nodup : (participants n).Nodup := by
  refine nodup_cons.mpr ⟨fun h => ?_, executors_nodup⟩
  obtain ⟨i, hi⟩ := mem_executors.mp h
  cases hi

theorem length_participants (n : ℕ) : (participants n).length = 1 + n := by
  simp [participants, length_executors, Nat.add_comm]

theorem log_switchOn (s : State n) (i : Fin n) (reply : Reply) :
    (s.switchOn reply).log = s.log ++ switchEntries (.executor i) reply := by
  rcases reply with _ | _ | _
  · exact (append_nil _).symm
  · rfl
  · exact (append_nil _).symm

theorem switchOn_eq (s : State n) (reply : Reply) :
    s.switchOn reply = { s with log := (s.switchOn reply).log } := by
  unfold State.switchOn
  split <;> rfl

theorem count_total :
    (status.count success).success + (status.count success).failed =
      status.success + status.failed + 1 := by
  cases success <;> simp [CommitStatus.count] <;> omega

theorem count_failed_eq_zero :
    (status.count success).failed = 0 ↔ status.failed = 0 ∧ success = true := by
  cases success <;> simp [CommitStatus.count]

variable {s : State n} {prepares : Answers n}

attribute [local simp] State.onReply State.receive State.send State.callback State.onPrewrite
  State.onPrepareStorage State.onCommitStorage State.batchBlockCommit State.batchBlockRollback
  CommitStatus.count CommitStatus.zero Gather.ask Phase.log Phase.outstanding prepareStorageLog
  prepareLog commitStorageLog commitLog beforeRollbackLog rollbackLog answerEntries

/-- The last executor has prepared: the block is committed or rolled back. -/
theorem InPhase.checkAndCommit
    (hlog : s.log = prepareLog prepares) (houtstanding : s.outstanding = [])
    (hcovers : Gather.Covers (executors n) ⟨prepares, []⟩)
    (hfailed : s.prepareStatus.failed = 0 ↔ ∀ x ∈ prepares, x.2 = none) :
    ∃ φ, InPhase s.checkAndCommit φ := by
  unfold State.checkAndCommit
  split
  · rename_i hpos
    have hexists : ∃ x ∈ prepares, x.2 ≠ none := by
      by_contra hall
      push Not at hall
      exact absurd (hfailed.mpr hall) (by omega)
    refine ⟨.rollingBack prepares none (.ask (participants n)), ?_, ?_, ?_, ?_⟩
    · simp [hlog]
    · simp [houtstanding]
    · exact ⟨⟨hcovers, hexists⟩, Gather.covers_ask participants_nodup, cons_ne_nil _ _⟩
    · rfl
  · rename_i hpos
    refine ⟨.committingStorage prepares, ?_, ?_, ⟨hcovers, hfailed.mp (by omega)⟩, ?_⟩
    · simp [hlog]
    · simp [houtstanding]
    · rfl

theorem prepare_injective : Function.Injective (Request.prepare (n := n)) :=
  fun _ _ h => Request.prepare.inj h

theorem commit_injective : Function.Injective (Request.commit (n := n)) :=
  fun _ _ h => Request.commit.inj h

theorem rollback_injective : Function.Injective (Request.rollback (n := n)) :=
  fun _ _ h => Request.rollback.inj h

/-- The state holds the log and the requests of a round that follows `base`. -/
structure InRound (request : Participant n → Request n) (base : List (Entry n))
    (round : Gather (Participant n) Reply) (s : State n) : Prop where
  log : s.log = base ++ answerEntries request round.answers
  outstanding : s.outstanding = round.waiting.map request

variable {round : Gather (Participant n) Reply} {request : Participant n → Request n}
  {base : List (Entry n)} {reply : Reply}

theorem InRound.answer (hinj : Function.Injective request) (h : InRound request base round s)
    (hlog : t.log = s.log ++ (.answered (request p) reply :: switchEntries p reply))
    (houtstanding : t.outstanding = s.outstanding.erase (request p)) :
    InRound request base (round.answer p reply) t := by
  constructor
  · rw [hlog, h.log]
    simp [Gather.answer]
  · rw [houtstanding, h.outstanding, Gather.answer, map_erase hinj]

variable {i : Fin n} {storageCommit : Reply}

theorem InRound.answer_executor (hinj : Function.Injective request)
    (h : InRound request base round s)
    (hlog : t.log = s.log ++ [.answered (request (.executor i)) reply])
    (houtstanding : t.outstanding = s.outstanding.erase (request (.executor i))) :
    InRound request base (round.answer (.executor i) reply) (t.switchOn reply) := by
  refine h.answer hinj ?_ ?_
  · rw [log_switchOn _ i, hlog]
    simp
  · rw [switchOn_eq]
    exact houtstanding

/-- A round among the executors is going on as long as the count is below the
total. -/
theorem waiting_ne_nil_iff
    (h : round.Covers (executors n)) : round.waiting ≠ [] ↔ 1 + round.answers.length < 1 + n := by
  rw [ne_eq, h.waiting_eq_nil_iff, length_executors]
  omega

theorem covers_answers {all : List (Participant n)}
    (h : round.Covers all) (hend : round.waiting = []) : Gather.Covers all ⟨round.answers, []⟩ := by
  have heta : (⟨round.answers, []⟩ : Gather (Participant n) Reply) = round := by
    rw [← hend]
  rwa [heta]

theorem InPhase.onPrepareExecutor
    (h : InPhase s (.preparing round)) (hi : .executor i ∈ round.waiting)
    (reply : Reply) : ∃ φ, InPhase (s.onReply (.prepare (.executor i)) reply) φ := by
  obtain ⟨hsum, hfailed⟩ := h.counts
  have hcovers := h.valid.1.answer hi reply
  set t : State n := { s.receive (.prepare (.executor i)) reply with
    prepareStatus := s.prepareStatus.count reply.isNone }.switchOn reply with ht
  have hround : InRound .prepare _ (round.answer (.executor i) reply) t :=
    InRound.answer_executor prepare_injective ⟨h.log, h.outstanding⟩ rfl rfl
  have hstat : t.prepareStatus = s.prepareStatus.count reply.isNone := by
    rw [ht, switchOn_eq]
  have hsum' : t.prepareStatus.success + t.prepareStatus.failed =
      1 + (round.answer (.executor i) reply).answers.length := by
    rw [hstat, count_total, hsum]
    simp [Gather.answer, Nat.add_assoc]
  have hfailed' : t.prepareStatus.failed = 0 ↔
      ∀ x ∈ (round.answer (.executor i) reply).answers, x.2 = none := by
    rw [hstat, count_failed_eq_zero, hfailed]
    simp [Gather.answer, or_imp, forall_and]
  have hstep : s.onReply (.prepare (.executor i)) reply =
      if t.prepareStatus.success + t.prepareStatus.failed < 1 + n then t
      else t.checkAndCommit := rfl
  rw [hstep, hsum']
  by_cases hend : (round.answer (.executor i) reply).waiting = []
  · rw [if_neg (mt (waiting_ne_nil_iff hcovers).mpr (not_not_intro hend))]
    refine InPhase.checkAndCommit hround.log ?_ (covers_answers hcovers hend) hfailed'
    rw [hround.outstanding, hend]
    rfl
  · rw [if_pos ((waiting_ne_nil_iff hcovers).mp hend)]
    exact ⟨.preparing _, hround.log, hround.outstanding, ⟨hcovers, hend⟩, hsum', hfailed'⟩

theorem finishCommit_eq : ∃ result, s.finishCommit = s.callback result := by
  unfold State.finishCommit
  split
  · exact ⟨_, rfl⟩
  · split <;> exact ⟨_, rfl⟩

theorem finishRollback_eq : ∃ error, s.finishRollback = s.callback (some error) := by
  unfold State.finishRollback
  split
  · exact ⟨_, rfl⟩
  · split <;> exact ⟨_, rfl⟩

theorem InPhase.onCommitExecutor (h : InPhase s (.committing prepares round))
    (hi : .executor i ∈ round.waiting) (reply : Reply) :
    ∃ φ, InPhase (s.onReply (.commit (.executor i)) reply) φ := by
  obtain ⟨hprepared, hcovers, -⟩ := h.valid
  have hsum : s.commitStatus.success + s.commitStatus.failed = _ := h.counts
  replace hcovers := hcovers.answer hi reply
  set t : State n := { s.receive (.commit (.executor i)) reply with
    commitStatus := s.commitStatus.count true }.switchOn reply with ht
  have hround : InRound .commit _ (round.answer (.executor i) reply) t :=
    InRound.answer_executor commit_injective ⟨h.log, h.outstanding⟩ rfl rfl
  have hsum' : t.commitStatus.success + t.commitStatus.failed =
      1 + (round.answer (.executor i) reply).answers.length := by
    rw [ht, switchOn_eq]
    simp only [count_total, hsum]
    simp [Gather.answer, Nat.add_assoc]
  have hstep : s.onReply (.commit (.executor i)) reply =
      if t.commitStatus.success + t.commitStatus.failed < 1 + n then t else t.finishCommit := rfl
  rw [hstep, hsum']
  by_cases hend : (round.answer (.executor i) reply).waiting = []
  · rw [if_neg (mt (waiting_ne_nil_iff hcovers).mpr (not_not_intro hend))]
    obtain ⟨result, hres⟩ := finishCommit_eq
    rw [hres]
    refine ⟨.committed prepares _ result, congrArg (· ++ [_]) hround.log, ?_,
      ⟨hprepared, covers_answers hcovers hend⟩, trivial⟩
    exact hround.outstanding.trans (by rw [hend]; rfl)
  · rw [if_pos ((waiting_ne_nil_iff hcovers).mp hend)]
    exact ⟨.committing prepares _, hround.log, hround.outstanding, ⟨hprepared, hcovers, hend⟩,
      hsum'⟩

theorem inPhase_of_rollback_counted (hround : InRound .rollback
      (beforeRollbackLog prepares storageCommit ++ ((participants n).map .rollback).map .sent)
      round s) (hfailed : Failed prepares storageCommit) (hcovers : round.Covers (participants n))
    (hsum : s.rollbackStatus.success + s.rollbackStatus.failed = round.answers.length) :
    ∃ φ, InPhase (if s.rollbackStatus.success + s.rollbackStatus.failed < 1 + n then s
      else s.finishRollback) φ := by
  have hend_iff := hcovers.waiting_eq_nil_iff
  rw [length_participants] at hend_iff
  by_cases hend : round.waiting = []
  · rw [if_neg (by have := hend_iff.mp hend; omega)]
    obtain ⟨error, herror⟩ := finishRollback_eq
    rw [herror]
    refine ⟨.rolledBack prepares storageCommit round.answers error,
      congrArg (· ++ [_]) hround.log, ?_, ⟨hfailed, covers_answers hcovers hend⟩, trivial⟩
    exact hround.outstanding.trans (by rw [hend]; rfl)
  · rw [if_pos (by have := mt hend_iff.mpr hend; omega)]
    exact ⟨.rollingBack prepares storageCommit round, hround.log, hround.outstanding,
      ⟨hfailed, hcovers, hend⟩, hsum⟩

theorem InPhase.onRollback (h : InPhase s (.rollingBack prepares storageCommit round))
    (hp : p ∈ round.waiting) : ∃ φ, InPhase (s.onReply (.rollback p) reply) φ := by
  obtain ⟨hfailed, hcovers, -⟩ := h.valid
  have hsum : s.rollbackStatus.success + s.rollbackStatus.failed = _ := h.counts
  replace hcovers := hcovers.answer hp reply
  have hround : InRound .rollback _ round s := ⟨h.log, h.outstanding⟩
  have hlen : (round.answer p reply).answers.length = round.answers.length + 1 := by
    simp [Gather.answer]
  rcases p with - | i
  · refine inPhase_of_rollback_counted (hround.answer rollback_injective rfl rfl) hfailed hcovers ?_
    rw [hlen, ← hsum]
    exact count_total
  · refine inPhase_of_rollback_counted
      (hround.answer_executor rollback_injective rfl rfl) hfailed hcovers ?_
    rw [hlen, ← hsum, switchOn_eq]
    exact count_total

theorem InPhase.onPrewrite (h : InPhase s .prewriting) (reply : Reply) :
    ∃ φ, InPhase (s.onReply .prewrite reply) φ := by
  have hlog := h.log
  have houtstanding := h.outstanding
  rcases reply with - | error
  · refine ⟨.preparingStorage, ?_, ?_, trivial, rfl⟩
    · simp [hlog]
    · simp [houtstanding]
  · refine ⟨.prewriteFailed error, ?_, ?_, trivial, trivial⟩
    · simp [hlog]
    · simp [houtstanding]

theorem InPhase.onPrepareStorage (hn : 0 < n) (h : InPhase s .preparingStorage)
    (reply : Reply) : ∃ φ, InPhase (s.onReply (.prepare .storage) reply) φ := by
  have hlog := h.log
  have houtstanding := h.outstanding
  have hzero : s.prepareStatus = .zero := h.counts
  rcases reply with - | error
  · refine ⟨.preparing (.ask (executors n)), ?_, ?_,
      ⟨Gather.covers_ask executors_nodup, executors_ne_nil hn⟩, ?_, ?_⟩
    · simp [hlog]
    · simp [houtstanding]
    · simp [hzero]
    · simp [hzero]
  · refine ⟨.prepareFailed error, ?_, ?_, trivial, trivial⟩
    · simp [hlog]
    · simp [houtstanding]

theorem InPhase.onCommitStorage (hn : 0 < n)
    (h : InPhase s (.committingStorage prepares)) (reply : Reply) :
    ∃ φ, InPhase (s.onReply (.commit .storage) reply) φ := by
  have hlog := h.log
  have houtstanding := h.outstanding
  have hprepared : Prepared prepares := h.valid
  rcases reply with - | error
  · refine ⟨.committing prepares (.ask (executors n)), ?_, ?_,
      ⟨hprepared, Gather.covers_ask executors_nodup, executors_ne_nil hn⟩, ?_⟩
    · simp [hlog]
    · simp [houtstanding]
    · have hzero : s.commitStatus = .zero := h.counts
      simp [Phase.Counts, hzero]
  · refine ⟨.rollingBack prepares (some error) (.ask (participants n)), ?_, ?_,
      ⟨hprepared, Gather.covers_ask participants_nodup, cons_ne_nil _ _⟩, rfl⟩
    · simp [hlog]
    · simp [houtstanding]

/-- With an executor, a reply leads from one phase of the protocol to another. -/
theorem InPhase.onReply (hn : 0 < n) {φ : Phase n} (h : InPhase s φ)
    {request : Request n} (hreq : request ∈ s.outstanding) (reply : Reply) :
    ∃ φ', InPhase (s.onReply request reply) φ' := by
  rw [h.outstanding] at hreq
  cases φ with
  | prewriting =>
    obtain rfl := mem_singleton.mp hreq
    exact h.onPrewrite reply
  | preparingStorage =>
    obtain rfl := mem_singleton.mp hreq
    exact h.onPrepareStorage hn reply
  | preparing round =>
    obtain ⟨p, hp, rfl⟩ := mem_map.mp hreq
    obtain ⟨i, rfl⟩ := mem_executors.mp (h.valid.1.waiting_among p hp)
    exact h.onPrepareExecutor hp reply
  | committingStorage prepares =>
    obtain rfl := mem_singleton.mp hreq
    exact h.onCommitStorage hn reply
  | committing prepares round =>
    obtain ⟨p, hp, rfl⟩ := mem_map.mp hreq
    obtain ⟨i, rfl⟩ := mem_executors.mp (h.valid.2.1.waiting_among p hp)
    exact h.onCommitExecutor hp reply
  | rollingBack prepares storageCommit round =>
    obtain ⟨p, hp, rfl⟩ := mem_map.mp hreq
    exact h.onRollback hp
  | prewriteFailed error => cases hreq
  | prepareFailed error => cases hreq
  | committed prepares commits result => cases hreq
  | rolledBack prepares storageCommit rollbacks error => cases hreq

theorem inPhase_asyncCommit : InPhase (asyncCommit n) .prewriting :=
  ⟨rfl, rfl, trivial, trivial⟩

/-- With an executor, every reachable state is in a phase of the protocol. -/
theorem exists_inPhase (hn : 0 < n) (h : Reachable s) : ∃ φ, InPhase s φ := by
  induction h with
  | refl => exact ⟨_, inPhase_asyncCommit⟩
  | tail _ hstep ih =>
    obtain ⟨φ, hφ⟩ := ih
    rcases hstep with ⟨hreq, reply⟩ | isRunning
    · exact hφ.onReply hn hreq reply
    · refine ⟨φ, hφ.log, hφ.outstanding, hφ.valid, ?_⟩
      have hcounts := hφ.counts
      cases φ <;> exact hcounts

end Steps

end FiscoSmart.Scheduler.BlockCommit
