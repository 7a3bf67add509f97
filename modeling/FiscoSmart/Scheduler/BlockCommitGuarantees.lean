import FiscoSmart.Scheduler.BlockCommit

/-!
# The guarantees of a commit in two phases

The phases of the protocol determine the log, so what a commit guarantees is read
off the logs of the phases: nobody commits unless everybody has prepared, a
failure is followed by a rollback of everybody as soon as an executor was asked to
prepare, and the caller is told exactly once.
-/

namespace FiscoSmart.Scheduler.BlockCommit

open Support List

/-! ## What the protocol guarantees -/

section Guarantees

variable {n : ℕ}

def callbacks (log : List (Entry n)) : List (Option SchedulerError) :=
  log.filterMap fun
    | .callback result => some result
    | _ => none

def Entry.isAnswer : Entry n → Bool
  | .answered _ _ => true
  | _ => false

/-- The guarantees of a commit in two phases, in a state of it. -/
structure TwoPhase (s : State n) : Prop where
  /-- A commit is sent only if every participant has prepared. -/
  commit : ∀ p, .sent (.commit p) ∈ s.log → ∀ q, .answered (.prepare q) none ∈ s.log
  /-- A participant is rolled back only after a failure, and then with all others. -/
  rollback : ∀ p, .sent (.rollback p) ∈ s.log → (∀ q, .sent (.rollback q) ∈ s.log) ∧
    ((∃ i error, .answered (.prepare (.executor i)) (some error) ∈ s.log) ∨
      ∃ error, .answered (.commit .storage) (some error) ∈ s.log)
  /-- If the ledger fails, no participant is asked for anything. -/
  prewriteFailed : ∀ error, .answered .prewrite (some error) ∈ s.log →
    ∀ request, .sent request ∈ s.log → request = .prewrite
  /-- If the storage fails to prepare, no executor is asked for anything. -/
  storageFailed : ∀ error, .answered (.prepare .storage) (some error) ∈ s.log →
    ∀ request, .sent request ∈ s.log → request = .prewrite ∨ request = .prepare .storage
  /-- If an executor fails to prepare, nobody commits, and everybody is rolled
  back before the caller is told. -/
  executorFailed : ∀ i error, .answered (.prepare (.executor i)) (some error) ∈ s.log →
    (∀ p, .sent (.commit p) ∉ s.log) ∧ (callbacks s.log ≠ [] → ∀ p, .sent (.rollback p) ∈ s.log)
  /-- If the storage fails to commit, no executor commits, and everybody is rolled
  back. -/
  storageCommitFailed : ∀ error, .answered (.commit .storage) (some error) ∈ s.log →
    (∀ i, .sent (.commit (.executor i)) ∉ s.log) ∧ ∀ p, .sent (.rollback p) ∈ s.log
  /-- The caller is told once, when no request is outstanding any more. -/
  once : (callbacks s.log).length = if s.outstanding = [] then 1 else 0
  /-- There are only so many requests to answer. -/
  bounded : s.log.countP Entry.isAnswer ≤ 2 * n + 4
  /-- The caller is told of a success only if the storage has committed and every
  executor has answered its commit. -/
  success : .callback none ∈ s.log → .answered (.commit .storage) none ∈ s.log ∧
    ∀ i, ∃ reply, .answered (.commit (.executor i)) reply ∈ s.log

variable {p : Participant n} {answers : Answers n} {entry : Entry n} {reply : Reply}

theorem eq_triggerSwitch_of_mem (h : entry ∈ switchEntries p reply) : entry = .triggerSwitch := by
  unfold switchEntries at h
  split at h
  · exact mem_singleton.mp h
  · cases h

theorem mem_answerEntries {request : Participant n → Request n}
    (h : entry ∈ answerEntries request answers) :
    entry = .triggerSwitch ∨ ∃ x ∈ answers, entry = .answered (request x.1) x.2 := by
  obtain ⟨x, hx, hentry⟩ := mem_flatMap.mp h
  rcases mem_cons.mp hentry with hanswered | hswitch
  · exact .inr ⟨x, hx, hanswered⟩
  · exact .inl (eq_triggerSwitch_of_mem hswitch)

variable (request : Participant n → Request n)

@[simp]
theorem sent_notMem_answerEntries {r : Request n} :
    .sent r ∉ answerEntries request answers := fun h => by
  rcases mem_answerEntries h with h | ⟨x, -, h⟩ <;> cases h

@[simp]
theorem callback_notMem_answerEntries {result : Option SchedulerError} :
    .callback result ∉ answerEntries request answers := fun h => by
  rcases mem_answerEntries h with h | ⟨x, -, h⟩ <;> cases h

@[simp]
theorem answered_mem_answerEntries {r : Request n} :
    .answered r reply ∈ answerEntries request answers ↔
      ∃ p, (p, reply) ∈ answers ∧ r = request p := by
  constructor
  · intro h
    rcases mem_answerEntries h with h | ⟨⟨p, reply⟩, hx, h⟩
    · cases h
    · cases h
      exact ⟨p, hx, rfl⟩
  · rintro ⟨p, hp, rfl⟩
    exact mem_flatMap.mpr ⟨(p, reply), hp, mem_cons_self⟩

@[simp]
theorem callbacks_append {log log' : List (Entry n)} :
    callbacks (log ++ log') = callbacks log ++ callbacks log' :=
  filterMap_append

@[simp]
theorem callbacks_sent {request : Request n} : callbacks [.sent request] = [] := rfl

@[simp]
theorem callbacks_callback {result : Option SchedulerError} :
    callbacks [(.callback result : Entry n)] = [result] := rfl

theorem callbacks_eq_nil {log : List (Entry n)} (h : ∀ result, .callback result ∉ log) :
    callbacks log = [] := by
  refine filterMap_eq_nil_iff.mpr fun entry hentry => ?_
  cases entry with
  | callback result => exact absurd hentry (h result)
  | _ => rfl

theorem callbacks_prepareLog (prepares : Answers n) : callbacks (prepareLog prepares) = [] :=
  callbacks_eq_nil fun result => by simp [prepareLog, prepareStorageLog]

theorem callbacks_commitLog {prepares commits : Answers n} :
    callbacks (commitLog prepares commits) = [] :=
  callbacks_eq_nil fun result => by
    simp [commitLog, commitStorageLog, prepareLog, prepareStorageLog]

theorem callbacks_rollbackLog {prepares : Answers n} {storageCommit : Reply}
    {rollbacks : Answers n} : callbacks (rollbackLog prepares storageCommit rollbacks) = [] :=
  callbacks_eq_nil fun result => by
    cases storageCommit <;>
      simp [rollbackLog, beforeRollbackLog, commitStorageLog, prepareLog, prepareStorageLog]

variable {φ : Phase n}

theorem Phase.Valid.once (h : φ.Valid) :
    (callbacks φ.log).length = if φ.outstanding = [] then 1 else 0 := by
  cases φ with
  | prewriting => rfl
  | preparingStorage => rfl
  | preparing round => simp [Phase.log, Phase.outstanding, callbacks_prepareLog, h.2]
  | committingStorage prepares =>
    simp [Phase.log, Phase.outstanding, commitStorageLog, callbacks_prepareLog]
  | committing prepares round =>
    simp [Phase.log, Phase.outstanding, callbacks_commitLog, h.2.2]
  | rollingBack prepares storageCommit round =>
    simp [Phase.log, Phase.outstanding, callbacks_rollbackLog, h.2.2]
  | prewriteFailed error => rfl
  | prepareFailed error => rfl
  | committed prepares commits result =>
    simp [Phase.log, Phase.outstanding, callbacks_commitLog]
  | rolledBack prepares storageCommit rollbacks error =>
    simp [Phase.log, Phase.outstanding, callbacks_rollbackLog]

attribute [local simp] Phase.log commitLog commitStorageLog rollbackLog beforeRollbackLog

theorem Prepared.answered {prepares : Answers n} (h : Prepared prepares) (q : Participant n) :
    .answered (.prepare q) none ∈ prepareLog prepares := by
  rcases q with - | i
  · simp [prepareLog]
  · obtain ⟨reply, hreply⟩ := h.covers.exists_answer (mem_executors.mpr ⟨i, rfl⟩)
    have hnone : reply = none := h.success _ hreply
    simp [prepareLog, hnone ▸ hreply]

variable {storageCommit : Reply}

theorem Failed.commit {prepares : Answers n}
    (h : Failed prepares storageCommit) {rollbacks : Answers n}
    (hp : .sent (.commit p) ∈ rollbackLog prepares storageCommit rollbacks) (q : Participant n) :
    .answered (.prepare q) none ∈ rollbackLog prepares storageCommit rollbacks := by
  rcases storageCommit with - | error
  · simp [prepareLog, prepareStorageLog] at hp
  · simp [Prepared.answered h q]

theorem Failed.answered {prepares : Answers n}
    (h : Failed prepares storageCommit) (rollbacks : Answers n) :
    (∃ i error, .answered (.prepare (.executor i)) (some error) ∈
        rollbackLog prepares storageCommit rollbacks) ∨
      ∃ error, .answered (.commit .storage) (some error) ∈
        rollbackLog prepares storageCommit rollbacks := by
  rcases storageCommit with - | error
  · obtain ⟨hcovers, ⟨p, reply⟩, hmem, hne⟩ := h
    obtain ⟨i, rfl⟩ := mem_executors.mp (hcovers.among _ hmem)
    obtain ⟨error, rfl⟩ := Option.ne_none_iff_exists'.mp hne
    exact .inl ⟨i, error, by simp [prepareLog, hmem]⟩
  · exact .inr ⟨error, by simp⟩

theorem sent_rollback_mem (prepares : Answers n) (storageCommit : Reply)
    (rollbacks : Answers n) (p : Participant n) :
    .sent (.rollback p) ∈ rollbackLog prepares storageCommit rollbacks := by
  simp [mem_participants]

theorem Phase.Valid.commit (h : φ.Valid) (hp : .sent (.commit p) ∈ φ.log) (q : Participant n) :
    .answered (.prepare q) none ∈ φ.log := by
  cases φ with
  | committingStorage prepares => exact mem_append_left _ (Prepared.answered h q)
  | committing prepares round => simp [Prepared.answered h.1 q]
  | rollingBack prepares storageCommit round => exact Failed.commit h.1 hp q
  | committed prepares commits result => simp [Prepared.answered h.1 q]
  | rolledBack prepares storageCommit rollbacks error =>
    have hp' : .sent (.commit p) ∈ rollbackLog prepares storageCommit rollbacks := by
      simpa using hp
    exact mem_append_left _ (Failed.commit h.1 hp' q)
  | _ => simp [prepareLog, prepareStorageLog] at hp

attribute [local simp] prepareLog prepareStorageLog

theorem Phase.Valid.rollback (h : φ.Valid) (hp : .sent (.rollback p) ∈ φ.log) :
    (∀ q, .sent (.rollback q) ∈ φ.log) ∧
      ((∃ i error, .answered (.prepare (.executor i)) (some error) ∈ φ.log) ∨
        ∃ error, .answered (.commit .storage) (some error) ∈ φ.log) := by
  cases φ with
  | rollingBack prepares storageCommit round =>
    exact ⟨sent_rollback_mem prepares storageCommit _, Failed.answered h.1 _⟩
  | rolledBack prepares storageCommit rollbacks error =>
    refine ⟨fun q => mem_append_left _ (sent_rollback_mem _ _ _ q), ?_⟩
    simpa using Failed.answered h.1 rollbacks
  | _ => simp at hp

/-- The replies of the executors to their prepare requests. -/
def Phase.prepares : Phase n → Answers n
  | preparing round => round.answers
  | committingStorage prepares => prepares
  | committing prepares _ => prepares
  | rollingBack prepares _ _ => prepares
  | committed prepares _ _ => prepares
  | rolledBack prepares _ _ _ => prepares
  | _ => []

theorem Failed.covers {prepares : Answers n}
    (h : Failed prepares storageCommit) : Gather.Covers (executors n) ⟨prepares, []⟩ := by
  rcases storageCommit with - | error
  · exact h.1
  · exact Prepared.covers h

theorem Phase.Valid.executor_of_mem_prepares (h : φ.Valid)
    {x : Participant n × Reply} (hx : x ∈ φ.prepares) : ∃ i, x.1 = .executor i := by
  refine mem_executors.mp ?_
  cases φ with
  | preparing round => exact h.1.among x hx
  | committingStorage prepares => exact (Prepared.covers h).among x hx
  | committing prepares round => exact h.1.covers.among x hx
  | rollingBack prepares storageCommit round => exact (Failed.covers h.1).among x hx
  | committed prepares commits result => exact h.1.covers.among x hx
  | rolledBack prepares storageCommit rollbacks error => exact (Failed.covers h.1).among x hx
  | _ => cases hx

variable {error : Failure}

theorem Phase.mem_prepares (h : .answered (.prepare p) (some error) ∈ φ.log) :
    φ = .prepareFailed error ∨ (p, some error) ∈ φ.prepares := by
  cases φ with
  | prewriting => simp at h
  | preparingStorage => simp at h
  | prewriteFailed error' => simp at h
  | prepareFailed error' =>
    have hp : p = .storage ∧ error = error' := by
      simpa using h
    exact .inl (by rw [hp.2])
  | rollingBack prepares storageCommit round =>
    cases storageCommit <;> simpa [Phase.prepares] using h
  | rolledBack prepares storageCommit rollbacks error =>
    cases storageCommit <;> simpa [Phase.prepares] using h
  | _ => simpa [Phase.prepares] using h

theorem Phase.prewriteFailed_sent
    (h : .answered .prewrite (some error) ∈ φ.log) {request : Request n}
    (hsent : .sent request ∈ φ.log) : request = .prewrite := by
  cases φ with
  | prewriteFailed error => simpa using hsent
  | rollingBack prepares storageCommit round =>
    cases storageCommit <;> simp at h
  | rolledBack prepares storageCommit rollbacks error =>
    cases storageCommit <;> simp at h
  | _ => simp at h

theorem Phase.Valid.storageFailed (hφ : φ.Valid)
    (h : .answered (.prepare .storage) (some error) ∈ φ.log) {request : Request n}
    (hsent : .sent request ∈ φ.log) : request = .prewrite ∨ request = .prepare .storage := by
  rcases Phase.mem_prepares h with rfl | hmem
  · simpa using hsent
  · obtain ⟨i, hi⟩ := hφ.executor_of_mem_prepares hmem
    cases hi

theorem Prepared.notMem {prepares : Answers n} (h : Prepared prepares) :
    (p, some error) ∉ prepares := fun hmem => by
  cases h.success _ hmem

theorem Failed.storageCommit_eq_none {prepares : Answers n} (h : Failed prepares storageCommit)
    (hmem : (p, some error) ∈ prepares) : storageCommit = none := by
  rcases storageCommit with - | error
  · rfl
  · exact absurd hmem (Prepared.notMem h)

theorem Phase.Valid.executorFailed (hφ : φ.Valid) {i : Fin n}
    (h : .answered (.prepare (.executor i)) (some error) ∈ φ.log) :
    (∀ p, .sent (.commit p) ∉ φ.log) ∧
      (callbacks φ.log ≠ [] → ∀ p, .sent (.rollback p) ∈ φ.log) := by
  rcases Phase.mem_prepares h with rfl | hmem
  · simp at h
  · cases φ with
    | preparing round =>
      constructor
      · simp
      · exact fun hne => absurd (callbacks_prepareLog _) hne
    | committingStorage prepares => exact absurd hmem (Prepared.notMem hφ)
    | committing prepares round => exact absurd hmem hφ.1.notMem
    | committed prepares commits result => exact absurd hmem hφ.1.notMem
    | rollingBack prepares storageCommit round =>
      obtain rfl := Failed.storageCommit_eq_none hφ.1 hmem
      refine ⟨?_, fun _ => sent_rollback_mem _ _ _⟩
      simp
    | rolledBack prepares storageCommit rollbacks result =>
      obtain rfl := Failed.storageCommit_eq_none hφ.1 hmem
      refine ⟨?_, fun _ p => mem_append_left _ (sent_rollback_mem _ _ _ p)⟩
      simp
    | _ => cases hmem

theorem storage_notMem_commits {round : Gather (Participant n) Reply}
    (h : round.Covers (executors n)) : (.storage, reply) ∉ round.answers :=
  fun hmem => by
    obtain ⟨i, hi⟩ := mem_executors.mp (h.among _ hmem)
    cases hi

theorem commit_executor_notMem_rollbackLog (prepares : Answers n) (storageCommit : Reply)
    (rollbacks : Answers n) (i : Fin n) :
    .sent (.commit (.executor i)) ∉ rollbackLog prepares storageCommit rollbacks := by
  cases storageCommit <;> simp

theorem Phase.Valid.storageCommitFailed (hφ : φ.Valid)
    (h : .answered (.commit .storage) (some error) ∈ φ.log) :
    (∀ i, .sent (.commit (.executor i)) ∉ φ.log) ∧ ∀ p, .sent (.rollback p) ∈ φ.log := by
  cases φ with
  | committing prepares round =>
    have hmem : (.storage, some error) ∈ round.answers := by
      simpa using h
    exact absurd hmem (storage_notMem_commits hφ.2.1)
  | committed prepares commits result =>
    have hmem : (.storage, some error) ∈ commits := by
      simpa using h
    exact absurd hmem (storage_notMem_commits hφ.2)
  | rollingBack prepares storageCommit round =>
    exact ⟨commit_executor_notMem_rollbackLog _ _ _, sent_rollback_mem _ _ _⟩
  | rolledBack prepares storageCommit rollbacks result =>
    refine ⟨fun i => ?_, fun p => mem_append_left _ (sent_rollback_mem _ _ _ p)⟩
    simpa using commit_executor_notMem_rollbackLog prepares storageCommit rollbacks i
  | _ => simp at h

theorem Phase.Valid.success (hφ : φ.Valid) (h : .callback none ∈ φ.log) :
    .answered (.commit .storage) none ∈ φ.log ∧
      ∀ i, ∃ reply, .answered (.commit (.executor i)) reply ∈ φ.log := by
  cases φ with
  | committed prepares commits result =>
    refine ⟨by simp, fun i => ?_⟩
    obtain ⟨reply, hreply⟩ := hφ.2.exists_answer (mem_executors.mpr ⟨i, rfl⟩)
    exact ⟨reply, by simp [hreply]⟩
  | rollingBack prepares storageCommit round =>
    cases storageCommit <;> simp at h
  | rolledBack prepares storageCommit rollbacks result =>
    cases storageCommit <;> simp at h
  | _ => simp at h

theorem countP_answerEntries :
    (answerEntries request answers).countP Entry.isAnswer = answers.length := by
  induction answers with
  | nil => rfl
  | cons x answers ih =>
    have hswitch : (switchEntries x.1 x.2).countP Entry.isAnswer = 0 :=
      countP_eq_zero.mpr fun entry hentry => by
        simp [eq_triggerSwitch_of_mem hentry, Entry.isAnswer]
    have hcons : answerEntries request (x :: answers) =
        .answered (request x.1) x.2 :: switchEntries x.1 x.2 ++
          answerEntries request answers := rfl
    rw [hcons, countP_append, countP_cons_of_pos rfl, hswitch, ih, length_cons]
    omega

theorem countP_map_sent {requests : List (Request n)} :
    (requests.map Entry.sent).countP Entry.isAnswer = 0 :=
  countP_eq_zero.mpr fun entry hentry => by
    obtain ⟨request, -, rfl⟩ := mem_map.mp hentry
    simp [Entry.isAnswer]

theorem countP_prepareLog (prepares : Answers n) :
    (prepareLog prepares).countP Entry.isAnswer = 2 + prepares.length := by
  simp only [prepareLog, countP_append, countP_map_sent, countP_answerEntries]
  rfl

@[simp]
theorem countP_sent (request : Request n) : [Entry.sent request].countP Entry.isAnswer = 0 := rfl

@[simp]
theorem countP_answered {request : Request n} :
    [Entry.answered request reply].countP Entry.isAnswer = 1 := rfl

@[simp]
theorem countP_callback (result : Option SchedulerError) :
    [(Entry.callback result : Entry n)].countP Entry.isAnswer = 0 := rfl

theorem countP_commitLog (prepares commits : Answers n) :
    (commitLog prepares commits).countP Entry.isAnswer = 3 + prepares.length + commits.length := by
  simp only [commitLog, commitStorageLog, countP_append, countP_map_sent,
    countP_answerEntries, countP_prepareLog, countP_sent, countP_answered]
  omega

theorem countP_rollbackLog (prepares : Answers n) (storageCommit : Reply) (rollbacks : Answers n) :
    (rollbackLog prepares storageCommit rollbacks).countP Entry.isAnswer ≤
      3 + prepares.length + rollbacks.length := by
  have hbefore : (beforeRollbackLog prepares storageCommit).countP Entry.isAnswer ≤
      3 + prepares.length := by
    rcases storageCommit with - | error
    · simp only [beforeRollbackLog, countP_prepareLog]
      omega
    · simp only [beforeRollbackLog, commitStorageLog, countP_append, countP_prepareLog,
        countP_sent, countP_answered]
      omega
  simp only [rollbackLog, countP_append, countP_map_sent, countP_answerEntries]
  omega

theorem length_answers_le {all : List (Participant n)}
    {waiting : List (Participant n)} (h : Gather.Covers all ⟨answers, waiting⟩) :
    answers.length ≤ all.length :=
  h.count ▸ Nat.le_add_right _ _

theorem Phase.Valid.bounded (h : φ.Valid) : φ.log.countP Entry.isAnswer ≤ 2 * n + 4 := by
  have hexecutors := length_executors n
  have hparticipants := length_participants n
  cases φ with
  | preparing round =>
    have hlen := length_answers_le h.1
    simp only [Phase.log, countP_prepareLog]
    omega
  | committingStorage prepares =>
    have hlen := length_answers_le (Prepared.covers h)
    simp only [Phase.log, commitStorageLog, countP_append, countP_prepareLog, countP_sent]
    omega
  | committing prepares round =>
    have hprepares := length_answers_le h.1.covers
    have hcommits := length_answers_le h.2.1
    simp only [Phase.log, countP_commitLog]
    omega
  | rollingBack prepares storageCommit round =>
    have hprepares := length_answers_le (Failed.covers h.1)
    have hrollbacks := length_answers_le h.2.1
    have hlog := countP_rollbackLog prepares storageCommit round.answers
    simp only [Phase.log]
    omega
  | committed prepares commits result =>
    have hprepares := length_answers_le h.1.covers
    have hcommits := length_answers_le h.2
    simp only [Phase.log, countP_append, countP_commitLog, countP_callback]
    omega
  | rolledBack prepares storageCommit rollbacks result =>
    have hprepares := length_answers_le (Failed.covers h.1)
    have hrollbacks := length_answers_le h.2
    have hlog := countP_rollbackLog prepares storageCommit rollbacks
    simp only [Phase.log, countP_append, countP_callback]
    omega
  | _ => simp [countP_cons, Entry.isAnswer]

/-- A commit with one executor, up to the reply of the storage to its prepare
request. -/
def storagePrepared (reply : Reply) : State 1 :=
  ((asyncCommit 1).onReply .prewrite none).onReply (.prepare .storage) reply

theorem reachable_storagePrepared : Reachable (storagePrepared reply) :=
  (Relation.ReflTransGen.refl.tail (.reply (by decide) none)).tail (.reply (by decide) reply)

/-- The only executor prepares, the storage commits and the executor answers its
commit with an error. -/
def executorCommitFailed : State 1 :=
  (((storagePrepared none).onReply (.prepare (.executor 0)) none).onReply
    (.commit .storage) none).onReply (.commit (.executor 0)) (some .other)

theorem reachable_executorCommitFailed : Reachable executorCommitFailed :=
  ((reachable_storagePrepared.tail (.reply (by decide) none)).tail
    (.reply (by decide) none)).tail (.reply (by decide) (some .other))

end Guarantees

end FiscoSmart.Scheduler.BlockCommit
