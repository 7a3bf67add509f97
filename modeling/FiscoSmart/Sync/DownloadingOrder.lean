import FiscoSmart.Sync.DownloadingCopies

/-!
# The order of the commits

A block that is handed to the scheduler was executed to its own hash and accepted
before, in every run.  The local height never passes `m_executedBlock`, and every
number between the two has a copy on its way to the ledger.  The callbacks of the
checks do not compare the number of their block with the height again, and a refusal
with `InvalidBlocks` drops a block without resetting `m_executedBlock`.  In a run of
timely answers neither matters, and the blocks are handed over in order.
-/

namespace FiscoSmart.Sync.DownloadingQueue

open Support List Multiset

variable {Hash : Type} {Q : BlockQueue Hash} {s : State Q} {b : Block Hash}

/-! ## Timely answers -/

/-- The ledger has reached the number of the block, or is found to have reached it. -/
def Reached (b : Block Hash) (fetched : Option ℕ) (height : ℕ) : Prop :=
  b.number ≤ height ∨ ∃ number, fetched = some number ∧ b.number ≤ number

/-- A block is accepted or stored while its number is above the height, and refused as
invalid only when the ledger has reached its number. -/
def Timely (height : ℕ) : Input Hash → Prop
  | .checked b true => height < b.number
  | .stored b none => height < b.number
  | .stored b (some (.invalidBlocks fetched)) => Reached b fetched height
  | .committed b (some (.invalidBlocks fetched)) => Reached b fetched height
  | _ => True

def TimelyRun [DecidableEq Hash] (maxSize : ℕ) : State Q → List (Input Hash) → Prop
  | _, [] => True
  | s, input :: inputs =>
    Timely s.blockNumber input ∧ TimelyRun maxSize (step maxSize s input) inputs

theorem Reached.le_blockNumber {fetched : Option ℕ} (hb : Reached b fetched s.blockNumber) :
    b.number ≤ (fetchAndUpdatesLedgerConfig fetched s).blockNumber := by
  rcases hb with hb | ⟨number, rfl, hb⟩
  · exact hb.trans (blockNumber_le_fetch fetched s)
  · exact hb.trans le_resetConfig

/-! ## The invariant -/

/-- The blocks were handed over in order. -/
def InOrder (notes : List (Note Hash)) : Prop :=
  ∀ b number older, .handed b number :: older <:+ notes →
    b.number = number + 1 ∧ ∀ c height, .handed c height ∈ older → c.number ≤ b.number

variable [DecidableEq Hash]

/-- What holds in every run of timely answers.  While a callback is at work, the copy that
it holds still counts as one with its call. -/
structure Tracked (s : State Q) : Prop where
  unique : ∀ b, copies b s ≤ 1
  ptr_lt : ∀ b, 0 < copies b s → b.ptr < s.nextPtr
  note_ptr_lt : ∀ n ∈ s.notes, n.block.ptr < s.nextPtr
  clean : ∀ b, 0 < copies b s → Clean b s.notes
  executed : ∀ b, InFlight b s → lastExecution b s.notes = some (some b.hash)
  accepted : ∀ b, Accepted b s → lastCheck b s.notes = some true
  handed : ∀ b number older, .handed b number :: older <:+ s.notes → Certified b older
  handed_le : ∀ b number, .handed b number ∈ s.notes → number ≤ s.blockNumber
  le_executedBlock : s.blockNumber ≤ s.executedBlock
  le_nextBlock : ∀ b, Sent b s → b.number ≤ s.nextBlock
  covered : ∀ m, s.blockNumber < m → m ≤ s.executedBlock → ∃ b, InFlight b s ∧ b.number = m
  inOrder : InOrder s.notes

section Tracked

variable {s' : State Q} {d : Block Hash} {c : Call} {n : Note Hash} {number : ℕ}

theorem Tracked.start (masterNode : Bool) (number : ℕ) : Tracked (start Q masterNode number) where
  unique b := by simp [copies, DownloadingQueue.start, Q.elems_empty]
  ptr_lt b h := by simp [copies, DownloadingQueue.start, Q.elems_empty] at h
  note_ptr_lt n h := by cases h
  clean b h := by simp [copies, DownloadingQueue.start, Q.elems_empty] at h
  executed b h := by simp [InFlight, Sent, DownloadingQueue.start, Q.elems_empty] at h
  accepted b h := by simp [Accepted, DownloadingQueue.start] at h
  handed b number older h := by simp [DownloadingQueue.start] at h
  handed_le b number h := by cases h
  le_executedBlock := le_rfl
  le_nextBlock b h := by simp [Sent, DownloadingQueue.start] at h
  covered m hlt hle := absurd hle (not_le.mpr hlt)
  inOrder b number older h := by simp [DownloadingQueue.start] at h

section

variable (h : Tracked s) (hnum : s'.blockNumber = s.blockNumber) (hnotes : s'.notes = s.notes)
  (hptr : s'.nextPtr = s.nextPtr) (hcopies : ∀ b, copies b s' ≤ copies b s)
  (hflight : ∀ b, InFlight b s' → InFlight b s ∨ lastExecution b s.notes = some (some b.hash))
  (haccepted : ∀ b, Accepted b s' → Accepted b s ∨ lastCheck b s.notes = some true)
  (hsent : ∀ b, Sent b s' → Sent b s ∨ b.number ≤ s.nextBlock)

include h hnum hnotes hptr hcopies hflight haccepted hsent

/-- Copies move and get lost; those that come onto their way to the ledger were executed
and accepted. -/
theorem Tracked.change (hle : s.blockNumber ≤ s'.executedBlock)
    (hcovered : ∀ m, s.blockNumber < m → m ≤ s'.executedBlock →
      ∃ b, InFlight b s' ∧ b.number = m) : Tracked s' where
  unique b := (hcopies b).trans (h.unique b)
  ptr_lt b hb := hptr ▸ h.ptr_lt b (hb.trans_le (hcopies b))
  note_ptr_lt := by
    rw [hnotes, hptr]
    exact h.note_ptr_lt
  clean b hb := hnotes ▸ h.clean b (hb.trans_le (hcopies b))
  executed b hb := hnotes ▸ (hflight b hb).elim (h.executed b) id
  accepted b hb := hnotes ▸ (haccepted b hb).elim (h.accepted b) id
  handed := by
    rw [hnotes]
    exact h.handed
  handed_le := by
    rw [hnotes, hnum]
    exact h.handed_le
  le_executedBlock := hnum ▸ hle
  le_nextBlock b hb := by
    rw [State.nextBlock, hnum]
    exact (hsent b hb).elim (h.le_nextBlock b) id
  covered := by
    rw [hnum]
    exact hcovered
  inOrder := hnotes ▸ h.inOrder

theorem Tracked.move (hexec : s'.executedBlock = s.executedBlock)
    (hkept : ∀ b, s.blockNumber < b.number → InFlight b s → InFlight b s') : Tracked s' := by
  refine h.change hnum hnotes hptr hcopies hflight haccepted hsent
    (hexec ▸ h.le_executedBlock) fun m hlt hm => ?_
  obtain ⟨b, hb, rfl⟩ := h.covered m hlt (hexec ▸ hm)
  exact ⟨b, hkept b hlt hb, rfl⟩

end

theorem Tracked.shrink (h : Tracked s) {blocks commitQueue : Q.Carrier}
    (hblocks : Q.elems blocks ≤ Q.elems s.blocks)
    (hcommit : Q.elems commitQueue ≤ Q.elems s.commitQueue)
    (hkept : ∀ b ∈ Q.elems s.commitQueue, s.blockNumber < b.number → b ∈ Q.elems commitQueue) :
    Tracked { s with blocks := blocks, commitQueue := commitQueue } := by
  refine h.move rfl rfl rfl (fun b => ?_) (fun b hb => ?_) (fun _ => .inl) (fun _ => .inl)
    rfl fun b hlt hb => ?_
  · have hb := count_le_of_le b hblocks
    have hc := count_le_of_le b hcommit
    simp only [copies]
    omega
  · exact .inl (hb.imp (mem_of_le hcommit) id)
  · exact hb.imp (hkept b · hlt) id

theorem Tracked.of_rest (h : Tracked s) {masterNode : Bool}
    {knownHighestNumber committedProposalNumber : ℕ} {blockBuffer : List (BlocksMsg Hash)} :
    Tracked { s with
      masterNode := masterNode, knownHighestNumber := knownHighestNumber
      committedProposalNumber := committedProposalNumber, blockBuffer := blockBuffer } :=
  h.move rfl rfl rfl (fun _ => le_rfl) (fun _ => .inl) (fun _ => .inl) (fun _ => .inl)
    rfl fun _ _ => id

/-! ## The copy that a callback holds -/

section

variable (h : Tracked (call c b s))

include h

theorem Tracked.held_clean : Clean b s.notes :=
  h.clean b (by rw [copies_call, one, if_pos rfl]; omega)

theorem Tracked.held_ptr_lt : b.ptr < s.nextPtr :=
  h.ptr_lt b (by rw [copies_call, one, if_pos rfl]; omega)

theorem Tracked.held_executed (hc : c ≠ .execute) : lastExecution b s.notes = some (some b.hash) :=
  h.executed b (inFlight_call.mpr (.inl ⟨hc, rfl⟩))

theorem Tracked.held_le (hc : c ≠ .execute) : b.number ≤ s.nextBlock :=
  h.le_nextBlock b (sent_call.mpr (.inl ⟨hc, rfl⟩))

theorem Tracked.held_absent : copies b s = 0 := by
  have := h.unique b
  rw [copies_call, one, if_pos rfl] at this
  omega

end

/-- A copy may be given up if it was not executed, or the ledger has reached its number. -/
theorem Tracked.release (h : Tracked (call c b s))
    (hb : c = .execute ∨ b.number ≤ s.blockNumber ∨ s.executedBlock ≤ s.blockNumber) :
    Tracked s := by
  refine h.change rfl rfl rfl (fun d => (Nat.le_add_right ..).trans copies_call.ge)
    (fun d hd => ?_) (fun d hd => ?_) (fun d hd => ?_) h.le_executedBlock
    fun m (hlt : s.blockNumber < m) hm => ?_
  · exact .inl (inFlight_call.mpr (.inr hd))
  · exact .inl (accepted_call.mpr (.inr hd))
  · exact .inl (sent_call.mpr (.inr hd))
  · obtain ⟨d, hd, hnum⟩ := h.covered m hlt hm
    refine ⟨d, (inFlight_call.mp hd).resolve_left ?_, hnum⟩
    rintro ⟨hc, rfl⟩
    have := hb.resolve_left hc
    omega

theorem Tracked.setExecutedBlock_of_le (h : Tracked s)
    (hle : number ≤ s.blockNumber) : Tracked (setExecutedBlock number s) := by
  have heq := DownloadingQueue.setExecutedBlock_of_le hle
  refine h.change rfl rfl rfl (fun _ => le_rfl) (fun _ => .inl) (fun _ => .inl) (fun _ => .inl)
    heq.ge fun m hlt hm => ?_
  rw [heq] at hm
  exact absurd hm (not_le.mpr hlt)

theorem Tracked.giveUp (h : Tracked (call c b s)) (hle : number ≤ s.blockNumber) :
    Tracked (setExecutedBlock number s) := by
  refine Tracked.release (c := c) (b := b) (h.setExecutedBlock_of_le hle) (.inr (.inr ?_))
  exact (DownloadingQueue.setExecutedBlock_of_le hle).le

theorem Tracked.pushBlock (h : Tracked (call .execute b s)) : Tracked (pushBlock b s) := by
  refine h.move rfl rfl rfl (fun d => ?_) (fun d hd => ?_) (fun d hd => ?_) (fun d hd => ?_)
    rfl fun d _ hd => ?_
  · rw [copies_call, copies_pushBlock]
  · exact .inl (inFlight_call.mpr (.inr hd))
  · exact .inl (accepted_call.mpr (.inr hd))
  · exact .inl (sent_call.mpr (.inr hd))
  · exact (inFlight_call.mp hd).resolve_left fun hb => hb.1 rfl

theorem Tracked.pushCommit (h : Tracked (call c b s))
    (hexec : lastExecution b s.notes = some (some b.hash)) : Tracked (pushCommit b s) := by
  refine h.move rfl rfl rfl (fun d => ?_) (fun d hd => ?_) (fun d hd => ?_) (fun d hd => ?_)
    rfl fun d _ hd => ?_
  · rw [copies_call, copies_pushCommit]
  · rcases inFlight_pushCommit.mp hd with rfl | hd
    · exact .inr hexec
    · exact .inl (inFlight_call.mpr (.inr hd))
  · exact .inl (accepted_call.mpr (.inr hd))
  · exact .inl (sent_call.mpr (.inr hd))
  · exact inFlight_pushCommit.mpr ((inFlight_call.mp hd).imp And.right id)

/-- A block that continues the executed ones counts as executed when it is on its way. -/
theorem Tracked.pushExecuted (h : Tracked (call .execute b s))
    (hexec : lastExecution b s.notes = some (some b.hash)) (hle : b.number ≤ s.executedBlock + 1) :
    Tracked (DownloadingQueue.pushCommit b (setExecutedBlock b.number s)) := by
  have hpushed := h.pushCommit hexec
  have hmax : (setExecutedBlock b.number s).executedBlock = max s.blockNumber b.number := by
    rw [setExecutedBlock]
    dsimp only
    split_ifs <;> omega
  refine hpushed.change rfl rfl rfl (fun _ => le_rfl) (fun _ => .inl) (fun _ => .inl)
    (fun _ => .inl) ((le_max_left _ _).trans hmax.ge) fun m hlt hm => ?_
  replace hlt : s.blockNumber < m := hlt
  replace hm : m ≤ (setExecutedBlock b.number s).executedBlock := hm
  by_cases hmb : m = b.number
  · exact ⟨b, inFlight_pushCommit.mpr (.inl rfl), hmb.symm⟩
  · exact hpushed.covered m hlt (show m ≤ s.executedBlock by omega)

theorem Tracked.recall (h : Tracked (call c b s)) (hc : c ≠ .execute) {c' : Call}
    (hc' : c' ≠ .execute) (haccepted : lastCheck b s.notes = some true) :
    Tracked (call c' b s) := by
  refine h.move rfl rfl rfl (fun d => ?_) (fun d hd => ?_) (fun d hd => ?_) (fun d hd => ?_)
    rfl fun d _ hd => ?_
  · rw [copies_call, copies_call]
  · exact .inl (inFlight_call.mpr ((inFlight_call.mp hd).imp_left fun hd => ⟨hc, hd.2⟩))
  · rcases accepted_call.mp hd with ⟨-, rfl⟩ | hd
    · exact .inr haccepted
    · exact .inl (accepted_call.mpr (.inr hd))
  · exact .inl (sent_call.mpr ((sent_call.mp hd).imp_left fun hd => ⟨hc, hd.2⟩))
  · exact inFlight_call.mpr ((inFlight_call.mp hd).imp_left fun hd => ⟨hc', hd.2⟩)

/-! ## Notes -/

theorem Tracked.note (h : Tracked s) (hptr : n.block.ptr < s.nextPtr)
    (hhanded : ∀ d number, n ≠ .handed d number)
    (hclean : 0 < copies n.block s → Clean n.block (n :: s.notes))
    (hexec : InFlight n.block s →
      lastExecution n.block (n :: s.notes) = some (some n.block.hash))
    (haccepted : Accepted n.block s → lastCheck n.block (n :: s.notes) = some true) :
    Tracked (note n s) := { h with
  note_ptr_lt := forall_mem_cons.mpr ⟨hptr, h.note_ptr_lt⟩
  clean d hd := by
    by_cases hne : n.block = d
    · exact hne ▸ hclean (hne ▸ hd)
    · exact (h.clean d hd).cons_of_ne hne
  executed d hd := by
    by_cases hne : n.block = d
    · exact hne ▸ hexec (hne ▸ hd)
    · exact (lastExecution_cons_of_ne hne).trans (h.executed d hd)
  accepted d hd := by
    by_cases hne : n.block = d
    · exact hne ▸ haccepted (hne ▸ hd)
    · exact (lastCheck_cons_of_ne hne).trans (h.accepted d hd)
  handed d number older hsuffix := by
    rcases suffix_cons_iff.mp hsuffix with heq | hsuffix
    · exact absurd (List.cons.inj heq).1.symm (hhanded d number)
    · exact h.handed d number older hsuffix
  handed_le d number hmem := by
    rcases mem_cons.mp hmem with heq | hmem
    · exact absurd heq.symm (hhanded d number)
    · exact h.handed_le d number hmem
  inOrder d number older hsuffix := by
    rcases suffix_cons_iff.mp hsuffix with heq | hsuffix
    · exact absurd (List.cons.inj heq).1.symm (hhanded d number)
    · exact h.inOrder d number older hsuffix }

theorem Tracked.note_held (h : Tracked (call c b s)) (hn : n.block = b)
    (hhanded : ∀ d number, n ≠ .handed d number) (hclean : Clean b (n :: s.notes))
    (hexec : c ≠ .execute → lastExecution b (n :: s.notes) = some (some b.hash))
    (hc : c = .execute ∨ c = .check) : Tracked (call c b (DownloadingQueue.note n s)) := by
  subst hn
  have habsent := h.held_absent
  refine Tracked.note h h.held_ptr_lt hhanded (fun _ => hclean) (fun hd => ?_) fun hd => ?_
  · rcases inFlight_call.mp hd with hd | hd
    · exact hexec hd.1
    · exact absurd hd.copies_pos habsent.not_gt
  · rcases accepted_call.mp hd with ⟨hd, -⟩ | hd
    · rcases hc with rfl | rfl <;> rcases hd with hd | hd <;> cases hd
    · exact absurd (InFlight.copies_pos (.inr hd.sent)) habsent.not_gt

theorem Tracked.note_giveUp (h : Tracked (call c b s)) (hn : n.block = b)
    (hhanded : ∀ d number, n ≠ .handed d number) (hle : number ≤ s.blockNumber) :
    Tracked (setExecutedBlock number (DownloadingQueue.note n s)) := by
  subst hn
  have habsent := h.held_absent
  exact Tracked.note (h.giveUp hle) h.held_ptr_lt hhanded (absurd · habsent.not_gt)
    (fun hd => absurd (show InFlight n.block s from hd).copies_pos habsent.not_gt)
    fun hd => absurd (InFlight.copies_pos (s := s) (.inr hd.sent)) habsent.not_gt

theorem Tracked.note_handed (h : Tracked (call c b s)) (hc : c ≠ .execute)
    (hb : Certified b s.notes) (hlt : s.blockNumber < b.number) :
    Tracked (call c b (DownloadingQueue.note (.handed b s.blockNumber) s)) := { h with
  note_ptr_lt := forall_mem_cons.mpr ⟨h.held_ptr_lt, h.note_ptr_lt⟩
  clean d hd := (h.clean d hd).cons (by simp) (by simp)
  handed d number older hsuffix := by
    rcases suffix_cons_iff.mp hsuffix with heq | hsuffix
    · cases heq
      exact hb
    · exact h.handed d number older hsuffix
  handed_le d number hmem := by
    rcases mem_cons.mp hmem with heq | hmem
    · cases heq
      exact le_rfl
    · exact h.handed_le d number hmem
  inOrder d number older hsuffix := by
    rcases suffix_cons_iff.mp hsuffix with heq | hsuffix
    · cases heq
      have hnext : b.number ≤ s.blockNumber + 1 := h.held_le hc
      refine ⟨by omega, fun e height hmem => ?_⟩
      -- an earlier hand-over was made at a height that was not above this one
      obtain ⟨newer, older, hsplit⟩ := append_of_mem hmem
      have hearlier := (h.inOrder e height older ⟨newer, hsplit.symm⟩).1
      have : height ≤ s.blockNumber := h.handed_le e height hmem
      omega
    · exact h.inOrder d number older hsuffix }

/-! ## The parts of the queue -/

theorem Tracked.resetConfig (h : Tracked s) (number : ℕ) : Tracked (resetConfig number s) := by
  rw [DownloadingQueue.resetConfig]
  split_ifs with hold
  · exact h
  have hle : s.blockNumber ≤ number := by omega
  have hmax : (resetBlockInfo number s).executedBlock = max s.executedBlock number := by
    rw [resetBlockInfo]
    dsimp only
    split_ifs <;> omega
  exact { h with
    handed_le d height hmem := (h.handed_le d height hmem).trans hle
    le_executedBlock := (le_max_right _ _).trans hmax.ge
    le_nextBlock d hd := (h.le_nextBlock d hd).trans (Nat.add_le_add_right hle 1)
    covered m (hlt : number < m) hm := by
      exact h.covered m (hle.trans_lt hlt) (by omega) }

theorem Tracked.resetConfig_held (h : Tracked (call c b s)) :
    Tracked (call c b (DownloadingQueue.resetConfig number s)) := by
  have heq : call c b (DownloadingQueue.resetConfig number s) =
      DownloadingQueue.resetConfig number (call c b s) := apply_ite (call c b) ..
  exact heq ▸ h.resetConfig number

theorem Tracked.fetchAndUpdatesLedgerConfig (h : Tracked s) (fetched : Option ℕ) :
    Tracked (fetchAndUpdatesLedgerConfig fetched s) := by
  rcases fetched with - | number
  · exact h
  · exact h.resetConfig number

omit [DecidableEq Hash] in
theorem elems_dropUpTo_le {n : ℕ} {q : Q.Carrier} : Q.elems (Q.dropUpTo n q) ≤ Q.elems q := by
  rw [Q.elems_dropUpTo]
  exact filter_le _ _

section

variable (h : Tracked s)

include h

theorem Tracked.clearExpiredQueueCache : Tracked (clearExpiredQueueCache s) :=
  h.shrink elems_dropUpTo_le elems_dropUpTo_le fun _ hb hlt =>
    Q.mem_dropUpTo.mpr ⟨hb, hlt⟩

theorem Tracked.tryToCommitBlockToLedger : Tracked (tryToCommitBlockToLedger s) := by
  have hdropped : Tracked { s with commitQueue := Q.dropUpTo s.blockNumber s.commitQueue } :=
    h.shrink le_rfl elems_dropUpTo_le fun _ hb hlt => Q.mem_dropUpTo.mpr ⟨hb, hlt⟩
  rcases tryToCommitBlockToLedger_cases s with ⟨b, htop, hnext, heq⟩ | ⟨-, heq⟩
  · have hmem (d : Block Hash) : d ∈ Q.elems (Q.dropUpTo s.blockNumber s.commitQueue) ↔
        d = b ∨ d ∈ Q.elems (Q.pop (Q.dropUpTo s.blockNumber s.commitQueue)) := by
      rw [Q.elems_of_top htop, Multiset.mem_cons]
    rw [heq]
    refine hdropped.move rfl rfl rfl (fun d => ?_) (fun d hd => ?_) (fun d hd => ?_)
      (fun d hd => ?_) rfl fun d _ hd => ?_
    · rw [copies_call]
      simp only [copies, count_of_top htop]
      omega
    · rcases inFlight_call.mp hd with ⟨-, rfl⟩ | hd
      · exact .inl (.inl ((hmem d).mpr (.inl rfl)))
      · exact .inl (hd.imp (fun hd => (hmem d).mpr (.inr hd)) id)
    · rcases accepted_call.mp hd with ⟨hd | hd, -⟩ | hd
      · cases hd
      · cases hd
      · exact .inl hd
    · rcases sent_call.mp hd with ⟨-, rfl⟩ | hd
      · exact .inr hnext.le
      · exact .inl hd
    · rw [inFlight_call]
      rcases hd with hd | hd
      · exact ((hmem d).mp hd).imp (fun hd => ⟨by decide, hd⟩) .inl
      · exact .inr (.inr hd)
  · rw [heq]
    exact hdropped

theorem Tracked.onNewBlock (number : ℕ) : Tracked (onNewBlock number s) :=
  (h.resetConfig number).clearExpiredQueueCache

theorem Tracked.rePushBlocks (hle : s.executedBlock ≤ s.blockNumber) :
    Tracked (rePushBlocks s) := by
  have hinitial : PriorityQueue.Initial (fun b : Block Hash => b.number)
      (beforeTop (Q.top s.blocks)) := by
    intro a b (hab : a.number ≤ b.number) hb
    rcases htop : Q.top s.blocks with - | t
    · rfl
    · simp only [beforeTop, htop, Bool.not_eq_true', decide_eq_false_iff_not, not_le] at hb ⊢
      exact hab.trans_lt hb
  have htaken := Q.popWhile_taken hinitial s.commitQueue
  have hleft := Q.elems_popWhile hinitial s.commitQueue
  refine h.change rfl rfl rfl (fun d => ?_) (fun d hd => ?_) (fun _ => .inl) (fun _ => .inl)
    h.le_executedBlock fun m hlt hm => absurd (hm.trans hle) (not_le.mpr hlt)
  · have hsum : (Q.elems s.commitQueue).count d =
        ((Q.popWhile (beforeTop (Q.top s.blocks)) s.commitQueue).1 : Multiset _).count d +
          (Q.elems (Q.popWhile (beforeTop (Q.top s.blocks)) s.commitQueue).2).count d := by
      rw [htaken, hleft, ← count_add, filter_add_not]
    simp only [copies, DownloadingQueue.rePushBlocks, Q.elems_foldl_push, count_add, hsum]
    omega
  · refine .inl (hd.imp (fun hd => ?_) id)
    simp only [DownloadingQueue.rePushBlocks, hleft] at hd
    exact (mem_filter.mp hd).1

theorem Tracked.clearQueue : Tracked (clearQueue s) :=
  h.shrink (Q.elems_empty ▸ zero_le _) le_rfl fun _ hb _ => hb

theorem Tracked.clear : Tracked (clear s) :=
  Tracked.clearQueue (h.of_rest ..)

end

/-! ## The callbacks -/

theorem Tracked.onCommitFailed (h : Tracked (call c b s)) (hc : c ≠ .execute) (error : Failure)
    (hreached : ∀ fetched, error = .invalidBlocks fetched → Reached b fetched s.blockNumber) :
    Tracked (onCommitFailed error b s) := by
  have hle : b.number ≤ s.blockNumber + 1 := h.held_le hc
  have hpushed := h.pushCommit (h.held_executed hc)
  rcases error with fetched | - | fetched
  · have hfetched : Tracked
        (call c b (DownloadingQueue.fetchAndUpdatesLedgerConfig fetched s)) := by
      rcases fetched with - | number
      · exact h
      · exact h.resetConfig_held
    exact hfetched.release (.inr (.inl (hreached fetched rfl).le_blockNumber))
  · rw [DownloadingQueue.onCommitFailed]
    split_ifs with hold
    · exact h.release (.inr (.inl hold))
    · exact hpushed.tryToCommitBlockToLedger
  · rw [DownloadingQueue.onCommitFailed]
    split_ifs with hold
    · exact h.release (.inr (.inl hold))
    · have hmono := blockNumber_le_fetch fetched (DownloadingQueue.pushCommit b s)
      have hbefore : b.number - 1 ≤ (DownloadingQueue.fetchAndUpdatesLedgerConfig fetched
          (DownloadingQueue.pushCommit b s)).blockNumber :=
        (show b.number - 1 ≤ s.blockNumber by omega).trans hmono
      refine ((hpushed.fetchAndUpdatesLedgerConfig fetched).setExecutedBlock_of_le
        hbefore).rePushBlocks ?_
      exact (DownloadingQueue.setExecutedBlock_of_le hbefore).le

theorem Tracked.commitBlockState (h : Tracked (call c b s)) (hc : c ≠ .execute)
    (hb : Certified b s.notes) (hlt : s.blockNumber < b.number) : Tracked (commitBlockState b s) :=
  (h.note_handed hc hb hlt).recall hc (by decide) hb.accepted

theorem Tracked.commitBlock (h : Tracked (call c b s)) (hc : c ≠ .execute)
    (hb : Certified b s.notes) (hlt : s.blockNumber < b.number) : Tracked (commitBlock b s) := by
  rw [DownloadingQueue.commitBlock]
  split_ifs
  · exact h.commitBlockState hc hb hlt
  · exact h.recall hc (by decide) hb.accepted

theorem Tracked.onExecuted (h : Tracked (call .execute b s)) (result : ExecuteResult Hash) :
    Tracked (onExecuted b result s) := by
  have hkeep (header : Option Hash) (hheader : ∀ hash, header = some hash → hash = b.hash) :
      Tracked (call .execute b (DownloadingQueue.note (.executed b header) s)) := by
    refine h.note_held rfl (by simp) (h.held_clean.cons ?_ ?_) (absurd rfl)
      (.inl rfl)
    · rintro hash heq
      cases heq
      exact hheader hash rfl
    · simp
  have hfailed := hkeep none (by simp)
  rcases result with ⟨hash, sysBlock⟩ | fetched | -
  · by_cases hhash : b.hash = hash
    · subst hhash
      have hown := hkeep (some b.hash) fun _ heq => (Option.some.inj heq).symm
      have hexec : lastExecution b (.executed b (some b.hash) :: s.notes) =
          some (some b.hash) := if_pos rfl
      simp only [DownloadingQueue.onExecuted, verifyExecutedBlock, decide_true, Bool.not_true,
        Bool.false_eq_true, if_false]
      split_ifs with hgap
      · exact hown.pushBlock
      · exact (hown.pushCommit hexec).tryToCommitBlockToLedger
      · exact (hown.pushExecuted hexec (not_lt.mp hgap)).tryToCommitBlockToLedger
    · simp only [DownloadingQueue.onExecuted, verifyExecutedBlock, decide_false, hhash,
        Bool.not_false, if_true]
      exact h.note_giveUp rfl (by simp) le_rfl
  · exact (hfailed.release (.inl rfl)).fetchAndUpdatesLedgerConfig fetched
  · simp only [DownloadingQueue.onExecuted]
    split_ifs
    · exact hfailed.release (.inl rfl)
    · exact hfailed.pushBlock.setExecutedBlock_of_le le_rfl
    · exact hfailed.giveUp le_rfl

theorem Tracked.onChecked (h : Tracked (call .check b s)) (accepted : Bool)
    (htimely : Timely s.blockNumber (.checked b accepted)) : Tracked (onChecked b accepted s) := by
  have hle : b.number ≤ s.blockNumber + 1 := h.held_le (by decide)
  cases accepted
  · exact h.note_giveUp rfl (by simp)
      (show b.number - 1 ≤ s.blockNumber by omega)
  · have hclean : Clean b (.checked b true :: s.notes) :=
      h.held_clean.cons (by simp) (by simp)
    have hexec := h.held_executed (by decide)
    exact (h.note_held rfl (by simp) hclean (fun _ => hexec)
      (.inr rfl)).commitBlock (by decide) ⟨hexec, if_pos rfl, hclean⟩ htimely

theorem Tracked.onStored (h : Tracked (call .store b s)) (error : Option Failure)
    (htimely : Timely s.blockNumber (.stored b error)) : Tracked (onStored b error s) := by
  rcases error with - | error
  · refine h.commitBlockState (by decide) ⟨h.held_executed (by decide), ?_, h.held_clean⟩ htimely
    exact h.accepted b (accepted_call.mpr (.inl ⟨.inl rfl, rfl⟩))
  · refine h.onCommitFailed (by decide) error fun fetched herror => ?_
    subst herror
    exact htimely

theorem Tracked.onCommitted (h : Tracked (call .commit b s)) (error : Option Failure)
    (htimely : Timely s.blockNumber (.committed b error)) : Tracked (onCommitted b error s) := by
  rcases error with - | error
  · have hreached : b.number ≤ (DownloadingQueue.resetConfig b.number s).blockNumber :=
      le_resetConfig
    have hfinal := ((h.resetConfig_held).release
      (.inr (.inl hreached))).clearExpiredQueueCache.tryToCommitBlockToLedger
    have hnum : (finalizeBlock b.number s).blockNumber =
        (DownloadingQueue.resetConfig b.number s).blockNumber :=
      tryToCommitBlockToLedger_blockNumber _
    have hexec := (hreached.trans hnum.ge).trans hfinal.le_executedBlock
    rw [DownloadingQueue.onCommitted]
    exact (if_neg (not_lt.mpr hexec)).symm ▸ hfinal
  · refine h.onCommitFailed (by decide) error fun fetched herror => ?_
    subst herror
    exact htimely

/-! ## The worker -/

theorem Tracked.flushBlock (h : Tracked s) (entry : Option (BlockData Hash)) :
    Tracked (flushBlock entry s) := by
  rcases entry with - | data
  · exact h
  rw [DownloadingQueue.flushBlock]
  split_ifs
  · -- the new copy has a fresh `ptr`: it is in no place, and no note is about it
    set b : Block Hash := ⟨data, s.nextPtr⟩ with hb
    have hfresh : copies b s = 0 :=
      Nat.eq_zero_of_not_pos fun hpos => lt_irrefl _ (h.ptr_lt b hpos)
    have hcopies (d : Block Hash) :
        copies d { s with blocks := Q.push b s.blocks, nextPtr := s.nextPtr + 1 } =
          copies d s + one b d := copies_pushBlock
    have hcases (d : Block Hash)
        (hd : 0 < copies d { s with blocks := Q.push b s.blocks, nextPtr := s.nextPtr + 1 }) :
        d = b ∨ 0 < copies d s := by
      by_cases hne : b = d
      · exact .inl hne.symm
      · rw [hcopies, one, if_neg hne] at hd
        exact .inr hd
    exact { h with
      unique d := by
        rw [hcopies]
        by_cases hne : b = d
        · rw [← hne, hfresh, one, if_pos rfl]
        · rw [one, if_neg hne]
          exact h.unique d
      ptr_lt d hd := by
        rcases hcases d hd with rfl | hd
        · exact Nat.lt_succ_self _
        · exact (h.ptr_lt d hd).trans (Nat.lt_succ_self _)
      note_ptr_lt n hn := (h.note_ptr_lt n hn).trans (Nat.lt_succ_self _)
      clean d hd := by
        rcases hcases d hd with rfl | hd
        · refine clean_of_no_note fun n hn hnb => ?_
          have := h.note_ptr_lt n hn
          rw [hnb] at this
          exact lt_irrefl _ this
        · exact h.clean d hd }
  · exact h

theorem Tracked.flushEntries (blocksData : BlocksMsg Hash) (h : Tracked s) :
    Tracked (flushEntries blocksData s) := by
  induction blocksData generalizing s with
  | nil => exact h
  | cons entry blocksData ih => exact ih (h.flushBlock entry)

theorem Tracked.flushShards (maxSize : ℕ) (shards : List (BlocksMsg Hash)) (h : Tracked s) :
    Tracked (flushShards maxSize shards s) := by
  induction shards generalizing s with
  | nil => exact h.of_rest ..
  | cons shard shards ih =>
    rw [flushShards_cons]
    split_ifs
    · exact h.of_rest ..
    · exact ih (h.flushEntries shard)

variable (h : Tracked s)

include h

theorem Tracked.clearFullQueueIfNotHas (maxSize number : ℕ) :
    Tracked (clearFullQueueIfNotHas maxSize number s) := by
  rw [DownloadingQueue.clearFullQueueIfNotHas]
  rcases Q.top s.blocks with - | b
  · exact h
  · dsimp only
    split_ifs
    · exact h.clearQueue
    · exact h

theorem Tracked.maintainDownloadingBuffer (maxSize : ℕ) :
    Tracked (maintainDownloadingBuffer maxSize s) := by
  rw [DownloadingQueue.maintainDownloadingBuffer]
  split_ifs
  · exact h
  · exact h.clear
  · exact (h.clearFullQueueIfNotHas ..).flushShards maxSize _

theorem Tracked.popBlocks (htop : Q.top s.blocks = some b) :
    Tracked (call .execute b { s with blocks := Q.pop s.blocks }) := by
  refine h.move rfl rfl rfl (fun d => ?_) (fun d hd => ?_) (fun d hd => ?_) (fun d hd => ?_)
    rfl fun d _ hd => inFlight_call.mpr (.inr hd)
  · rw [copies_call]
    simp only [copies, count_of_top htop]
    omega
  · exact .inl ((inFlight_call.mp hd).resolve_left fun hd => hd.1 rfl)
  · exact .inl ((accepted_call.mp hd).resolve_left fun hd => by
      rcases hd.1 with hd | hd <;> cases hd)
  · exact .inl ((sent_call.mp hd).resolve_left fun hd => hd.1 rfl)

theorem Tracked.executeTop : Tracked (executeTop s) := by
  rw [DownloadingQueue.executeTop]
  rcases htop : Q.top s.blocks with - | b
  · exact h
  · have hpopped := h.popBlocks htop
    dsimp only
    split_ifs
    · exact h
    · exact h
    · rw [applyBlock]
      split_ifs
      · exact hpopped.giveUp le_rfl
      · exact hpopped.release (.inl rfl)
      · exact hpopped
    · exact h

theorem Tracked.maintainDownloadingQueue : Tracked (maintainDownloadingQueue s) := by
  rw [DownloadingQueue.maintainDownloadingQueue]
  split_ifs
  · exact h.clear
  · exact Tracked.executeTop (h.tryToCommitBlockToLedger.shrink elems_dropUpTo_le le_rfl
      fun _ hb _ => hb)

/-! ## Runs -/

theorem Tracked.answer (c : Call) {callback : State Q → State Q}
    (hcallback : ∀ t : State Q, t.blockNumber = s.blockNumber → Tracked (call c b t) →
      Tracked (callback t)) : Tracked (answer c b callback s) := by
  rw [DownloadingQueue.answer]
  split_ifs with hb
  · rw [contains_iff_mem] at hb
    have hperm := perm_cons_erase hb
    have hmem (e : Call) (d : Block Hash) :
        (e, d) ∈ (c, b) :: s.calls.erase (c, b) ↔ (e, d) ∈ s.calls := hperm.mem_iff.symm
    refine hcallback _ rfl (h.move rfl rfl rfl (fun d => ?_) (fun d hd => ?_) (fun d hd => ?_)
      (fun d hd => ?_) rfl fun d _ hd => ?_)
    · exact (Nat.add_left_cancel_iff.mpr ((hperm.map Prod.snd).count_eq d)).ge
    · simpa only [InFlight, Sent, call, hmem] using Or.inl hd
    · simpa only [Accepted, call, hmem] using Or.inl hd
    · simpa only [Sent, call, hmem] using Or.inl hd
    · simpa only [InFlight, Sent, call, hmem] using hd
  · exact h

theorem Tracked.step (maxSize : ℕ) {input : Input Hash}
    (htimely : Timely s.blockNumber input) : Tracked (step maxSize s input) := by
  cases input with
  | peerBlocks blocksData =>
    simp only [DownloadingQueue.step, onPeerBlocks, push]
    split_ifs
    · exact h
    · exact h
    · exact h.of_rest ..
  | peerStatus number =>
    simp only [DownloadingQueue.step, updateKnownMaxBlockInfo]
    split_ifs
    · exact h
    · exact h.of_rest ..
  | newBlock number =>
    simp only [DownloadingQueue.step, asyncNotifyNewBlock]
    split_ifs
    · exact (h.onNewBlock number).tryToCommitBlockToLedger
    · exact h
  | committedProposal number => exact h.of_rest ..
  | enableAsMaster masterNode number =>
    simp only [DownloadingQueue.step, enableAsMaster]
    split_ifs
    · exact h
    · exact h.of_rest ..
    · exact Tracked.resetConfig (h.of_rest ..) number
  | maintainDownloadingBuffer => exact h.maintainDownloadingBuffer maxSize
  | maintainDownloadingQueue => exact h.maintainDownloadingQueue
  | executed b result => exact h.answer .execute fun t _ ht => ht.onExecuted result
  | checked b accepted =>
    exact h.answer .check fun t hnum ht => ht.onChecked accepted (hnum ▸ htimely)
  | stored b error =>
    exact h.answer .store fun t hnum ht => ht.onStored error (hnum ▸ htimely)
  | committed b error =>
    exact h.answer .commit fun t hnum ht => ht.onCommitted error (hnum ▸ htimely)

end Tracked

theorem tracked_run {maxSize : ℕ} {inputs : List (Input Hash)} (h : Tracked s)
    (htimely : TimelyRun maxSize s inputs) : Tracked (run maxSize s inputs) := by
  induction inputs generalizing s with
  | nil => exact h
  | cons input inputs ih => exact ih (h.step maxSize htimely.1) htimely.2

end FiscoSmart.Sync.DownloadingQueue
