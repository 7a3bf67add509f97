import FiscoSmart.Sync.DownloadingOrder

/-!
# Later copies of a block

When no copy of the next number is on its way to the ledger, because the earlier ones
failed or were rejected, a later copy is executed and committed as soon as it is
received, provided that the queue of blocks to execute is not more than full.

`clearFullQueueIfNotHas` empties the queue only when it is exactly full.  A packet may
carry it past that size; if the next number is missing then, no later packet is
accepted and the queue is never emptied.
-/

namespace FiscoSmart.Sync.DownloadingQueue

open Support List

variable {Hash : Type} {Q : BlockQueue Hash} {maxSize : ℕ} {s : State Q} {b : Block Hash}
  {data : BlockData Hash}

/-! ## The worker -/

/-- No copy of the next number is on its way to the ledger. -/
def Idle (s : State Q) : Prop := ∀ b, InFlight b s → b.number ≠ s.nextBlock

/-- The queue waits for the next number. -/
structure Waiting (maxSize : ℕ) (s : State Q) : Prop where
  masterNode : s.masterNode = true
  shouldSyncing : s.shouldSyncing = true
  executedBlock : s.executedBlock = s.blockNumber
  idle : Idle s
  blockBuffer : s.blockBuffer = []
  size_le : Q.size s.blocks ≤ maxSize

/-- The next number is not in the queue of blocks to execute. -/
def Drained (s : State Q) : Prop := ∀ b ∈ Q.elems s.blocks, s.nextBlock < b.number

/-- What the worker does once after another. -/
def worker : List (Input Hash) := [.maintainDownloadingBuffer, .maintainDownloadingQueue]

def rounds (k : ℕ) : List (Input Hash) := (List.replicate k worker).flatten

section Worker

theorem Tracked.executedBlock_eq [DecidableEq Hash] (h : Tracked s) (hidle : Idle s) :
    s.executedBlock = s.blockNumber := by
  refine le_antisymm (not_lt.mp fun hlt => ?_) h.le_executedBlock
  obtain ⟨b, hb, hnum⟩ := h.covered s.nextBlock (Nat.lt_succ_self _) hlt
  exact hidle b hb hnum

theorem Waiting.shrink (h : Waiting maxSize s) {blocks commitQueue : Q.Carrier}
    (hsize : Q.size blocks ≤ maxSize)
    (hcommit : ∀ b ∈ Q.elems commitQueue, b ∈ Q.elems s.commitQueue) :
    Waiting maxSize { s with blocks := blocks, commitQueue := commitQueue } :=
  { h with idle := fun b hb => h.idle b (hb.imp (hcommit b) id), size_le := hsize }

theorem Waiting.call_execute (h : Waiting maxSize s) : Waiting maxSize (call .execute b s) := by
  refine { h with idle := ?_ }
  exact fun c hc => h.idle c ((inFlight_call.mp hc).resolve_left fun hb => hb.1 rfl)

/-- The queue keeps its blocks or is emptied, and the latter happens when it is full
without the given number. -/
theorem clearFullQueueIfNotHas_cases (maxSize number : ℕ) (s : State Q) :
    ∃ blocks, clearFullQueueIfNotHas maxSize number s = { s with blocks := blocks } ∧
      (blocks = Q.empty ∨ blocks = s.blocks ∧
        (Q.size s.blocks = maxSize → 0 < maxSize → ∃ b ∈ Q.elems s.blocks, b.number ≤ number)) := by
  rw [clearFullQueueIfNotHas]
  rcases htop : Q.top s.blocks with - | b
  · refine ⟨s.blocks, rfl, .inr ⟨rfl, fun hsize hpos => ?_⟩⟩
    rw [Q.size_eq, Q.elems_of_top_none htop, Multiset.card_zero] at hsize
    omega
  · dsimp only
    split_ifs with hfull
    · exact ⟨Q.empty, rfl, .inl rfl⟩
    · refine ⟨s.blocks, rfl, .inr ⟨rfl, fun hsize _ => ⟨b, Q.mem_of_top htop, ?_⟩⟩⟩
      exact not_lt.mp fun hlt => hfull ⟨hsize, hlt⟩

theorem size_empty : Q.size Q.empty = 0 := by
  rw [Q.size_eq, Q.elems_empty, Multiset.card_zero]

theorem maintainDownloadingBuffer_eq (hsyncing : s.shouldSyncing = true) (hsize : s.size ≠ 0) :
    maintainDownloadingBuffer maxSize s =
      flushShards maxSize s.blockBuffer (clearFullQueueIfNotHas maxSize s.nextBlock s) := by
  obtain ⟨blocks, heq, -⟩ := clearFullQueueIfNotHas_cases maxSize s.nextBlock s
  rw [maintainDownloadingBuffer, if_neg hsize, hsyncing, Bool.not_true, if_neg Bool.false_ne_true,
    flushBufferToQueue, heq]

theorem maintainDownloadingBuffer_of_nil (hsyncing : s.shouldSyncing = true)
    (hbuffer : s.blockBuffer = []) :
    ∃ blocks, maintainDownloadingBuffer maxSize s = { s with blocks := blocks } ∧
      (blocks = Q.empty ∨ blocks = s.blocks) := by
  by_cases hsize : s.size = 0
  · exact ⟨s.blocks, by rw [maintainDownloadingBuffer, if_pos hsize], .inr rfl⟩
  · obtain ⟨blocks, heq, hblocks⟩ := clearFullQueueIfNotHas_cases maxSize s.nextBlock s
    refine ⟨blocks, ?_, hblocks.imp id And.left⟩
    rw [maintainDownloadingBuffer_eq hsyncing hsize, heq, hbuffer, flushShards, ← hbuffer]

/-- The second part of a round has a block of the next number executed, if there is one. -/
theorem Waiting.maintainQueue_cases (h : Waiting maxSize s) :
    (∃ b, Q.top (Q.dropUpTo s.blockNumber s.blocks) = some b ∧ b.number = s.nextBlock ∧
      maintainDownloadingQueue s = call .execute b { s with
          commitQueue := Q.dropUpTo s.blockNumber s.commitQueue
          blocks := Q.pop (Q.dropUpTo s.blockNumber s.blocks) }) ∨
    (∀ b ∈ Q.elems (Q.dropUpTo s.blockNumber s.blocks), s.nextBlock < b.number) ∧
      maintainDownloadingQueue s = { s with
          commitQueue := Q.dropUpTo s.blockNumber s.commitQueue
          blocks := Q.dropUpTo s.blockNumber s.blocks } := by
  have hcommit : tryToCommitBlockToLedger s =
      { s with commitQueue := Q.dropUpTo s.blockNumber s.commitQueue } := by
    rcases tryToCommitBlockToLedger_cases s with ⟨b, htop, hnext, -⟩ | ⟨-, heq⟩
    · have hb := (Q.mem_dropUpTo.mp (Q.mem_of_top htop)).1
      exact absurd hnext (h.idle b (.inl hb))
    · exact heq
  have hqueue : maintainDownloadingQueue s = executeTop (dropExecuted
        { s with commitQueue := Q.dropUpTo s.blockNumber s.commitQueue }) := by
    rw [maintainDownloadingQueue, h.shouldSyncing, hcommit]
    rfl
  rw [hqueue]
  simp only [dropExecuted, h.executedBlock, executeTop]
  rcases htop : Q.top (Q.dropUpTo s.blockNumber s.blocks) with - | b
  · refine .inr ⟨fun b hb => ?_, rfl⟩
    rw [Q.elems_of_top_none htop] at hb
    exact absurd hb (Multiset.notMem_zero b)
  · have hlt : s.blockNumber < b.number := (Q.mem_dropUpTo.mp (Q.mem_of_top htop)).2
    have hwater : ¬ s.blockNumber ≥ s.blockNumber + waterMark := by
      rw [waterMark]
      omega
    by_cases hnext : b.number = s.nextBlock
    · refine .inl ⟨b, rfl, hnext, ?_⟩
      have heq : b.number = s.blockNumber + 1 := hnext
      simp [hwater, heq.not_gt, if_pos heq, applyBlock, not_le.mpr hlt]
    · have hgap : b.number > s.blockNumber + 1 := by
        rw [State.nextBlock] at hnext
        omega
      refine .inr ⟨fun c hc => hgap.trans_le (Q.rank_top_le htop hc), ?_⟩
      simp [hwater, hgap]

theorem size_dropUpTo_le (n : ℕ) (q : Q.Carrier) : Q.size (Q.dropUpTo n q) ≤ Q.size q := by
  rw [Q.size_eq, Q.size_eq, Q.elems_dropUpTo]
  exact Multiset.card_le_card (Multiset.filter_le _ _)

theorem size_pop_dropUpTo_lt {n : ℕ} {q : Q.Carrier}
    (htop : Q.top (Q.dropUpTo n q) = some b) : Q.size (Q.pop (Q.dropUpTo n q)) < Q.size q := by
  have hpop := Q.size_of_top htop
  have hdrop := size_dropUpTo_le n q
  omega

variable [DecidableEq Hash]

/-- A round takes a block off the queue, or no block of the next number is left. -/
theorem Waiting.round (h : Waiting maxSize s) : Waiting maxSize (run maxSize s worker) ∧
      (run maxSize s worker).blockNumber = s.blockNumber ∧
      (run maxSize s worker).nextPtr = s.nextPtr ∧ (Drained (run maxSize s worker) ∨
        Q.size (run maxSize s worker).blocks < Q.size s.blocks) := by
  have hrun : run maxSize s worker =
      maintainDownloadingQueue (maintainDownloadingBuffer maxSize s) := rfl
  obtain ⟨blocks, heq, hblocks⟩ := maintainDownloadingBuffer_of_nil h.shouldSyncing
    h.blockBuffer
  have hsize : Q.size blocks ≤ Q.size s.blocks := by
    rcases hblocks with rfl | rfl
    · rw [size_empty]
      exact Nat.zero_le _
    · exact le_rfl
  have hflushed : Waiting maxSize { s with blocks := blocks } :=
    h.shrink (hsize.trans h.size_le) fun _ hb => hb
  have hcommit : ∀ b ∈ Q.elems (Q.dropUpTo s.blockNumber s.commitQueue),
      b ∈ Q.elems s.commitQueue := fun b hb => (Q.mem_dropUpTo.mp hb).1
  rw [hrun, heq]
  rcases hflushed.maintainQueue_cases with ⟨b, htop, -, heq⟩ | ⟨hdrained, heq⟩
  · rw [heq]
    have hpop := (size_pop_dropUpTo_lt htop).trans_le hsize
    exact ⟨(hflushed.shrink (hpop.le.trans h.size_le) hcommit).call_execute, rfl, rfl, .inr hpop⟩
  · rw [heq]
    exact ⟨hflushed.shrink
      (((size_dropUpTo_le s.blockNumber blocks).trans hsize).trans h.size_le) hcommit, rfl, rfl,
      .inl hdrained⟩

theorem run_append {first second : List (Input Hash)} :
    run maxSize s (first ++ second) = run maxSize (run maxSize s first) second :=
  foldl_append ..

variable (h : Waiting maxSize s)

include h

/-- After enough rounds, no block of the next number is left. -/
theorem Waiting.drain :
    ∃ k, Waiting maxSize (run maxSize s (rounds k)) ∧ Drained (run maxSize s (rounds k)) ∧
      (run maxSize s (rounds k)).blockNumber = s.blockNumber ∧
      (run maxSize s (rounds k)).nextPtr = s.nextPtr := by
  -- every round that leaves one takes a block off the queue
  induction hn : Q.size s.blocks using Nat.strong_induction_on generalizing s with
  | _ n ih =>
    obtain ⟨hwait, hnum, hptr, hdrained | hsize⟩ := h.round
    · exact ⟨1, hwait, hdrained, hnum, hptr⟩
    · obtain ⟨k, hk, hdrained, hknumber, hkptr⟩ := ih _ (hn ▸ hsize) hwait rfl
      have hrun : run maxSize s (rounds (k + 1)) =
          run maxSize (run maxSize s worker) (rounds k) := by
        rfl
      exact ⟨k + 1, hrun ▸ hk, hrun ▸ hdrained, hrun ▸ hknumber.trans hnum, hrun ▸ hkptr.trans hptr⟩

theorem Waiting.receive (hdrained : Drained s) (hpos : 0 < maxSize)
    (hnewer : s.blockNumber < data.number) :
    ∃ blocks, maintainDownloadingBuffer maxSize (step maxSize s (.peerBlocks [some data])) =
        { s with
          blocks := Q.push ⟨data, s.nextPtr⟩ blocks, nextPtr := s.nextPtr + 1 } ∧
      Q.size blocks < maxSize ∧ ∀ c ∈ Q.elems blocks, s.nextBlock < c.number := by
  have hreceived : step maxSize s (.peerBlocks [some data]) =
      { s with blockBuffer := [[some data]] } := by
    simp [step, onPeerBlocks, h.masterNode, push, h.blockBuffer, length_nil, ge_iff_le, hpos.ne',
      Bool.not_true, Bool.false_eq_true, nil_append]
  obtain ⟨blocks, hclear, hblocks⟩ :=
    clearFullQueueIfNotHas_cases maxSize s.nextBlock { s with blockBuffer := [[some data]] }
  have hroom : Q.size blocks < maxSize ∧ ∀ c ∈ Q.elems blocks, s.nextBlock < c.number := by
    rcases hblocks with rfl | ⟨rfl, hhas⟩
    · rw [size_empty, Q.elems_empty]
      exact ⟨hpos, fun c hc => absurd hc (Multiset.notMem_zero c)⟩
    · refine ⟨lt_of_le_of_ne h.size_le fun hfull => ?_, hdrained⟩
      obtain ⟨c, hc, hle⟩ := hhas hfull hpos
      exact absurd (hdrained c hc) (not_lt.mpr hle)
  refine ⟨blocks, ?_, hroom⟩
  have hsyncing : State.shouldSyncing { s with blockBuffer := [[some data]] } = true :=
    h.shouldSyncing
  have hsize : State.size { s with blockBuffer := [[some data]] } ≠ 0 := by simp [State.size]
  rw [hreceived, maintainDownloadingBuffer_eq hsyncing hsize]
  change flushShards maxSize [[some data]] (clearFullQueueIfNotHas maxSize s.nextBlock _) = _
  rw [hclear, flushShards_cons, if_neg (not_le.mpr hroom.1)]
  simp [flushEntries, flushBlock, isNewerBlock, hnewer, flushShards, h.blockBuffer]

theorem Waiting.deliver (hdrained : Drained s) (hpos : 0 < maxSize)
    (hnext : data.number = s.nextBlock) :
    Waiting maxSize (run maxSize s (.peerBlocks [some data] :: worker)) ∧
      (.execute, ⟨data, s.nextPtr⟩) ∈ (run maxSize s (.peerBlocks [some data] :: worker)).calls ∧
      (run maxSize s (.peerBlocks [some data] :: worker)).blockNumber = s.blockNumber := by
  have hnewer : s.blockNumber < data.number := hnext ▸ Nat.lt_succ_self _
  have hrun : run maxSize s (.peerBlocks [some data] :: worker) = maintainDownloadingQueue
      (maintainDownloadingBuffer maxSize (step maxSize s (.peerBlocks [some data]))) := rfl
  obtain ⟨blocks, heq, hsize, hgap⟩ := h.receive hdrained hpos hnewer
  set b : Block Hash := ⟨data, s.nextPtr⟩ with hb
  have hwait : Waiting maxSize { s with blocks := Q.push b blocks, nextPtr := s.nextPtr + 1 } :=
    ⟨h.masterNode, h.shouldSyncing, h.executedBlock, h.idle, h.blockBuffer, by
      rw [Q.size_eq, Q.elems_push, Multiset.card_cons, ← Q.size_eq]
      exact hsize⟩
  have hmem : b ∈ Q.elems (Q.dropUpTo s.blockNumber (Q.push b blocks)) := by
    rw [Q.mem_dropUpTo, Q.elems_push]
    exact ⟨Multiset.mem_cons_self b _, hnewer⟩
  rw [hrun, heq]
  rcases hwait.maintainQueue_cases with ⟨c, htop, hcnext, heq⟩ | ⟨hnone, -⟩
  · -- no other block of the queue has the next number
    have hc := (Q.mem_dropUpTo.mp (Q.mem_of_top htop)).1
    have hcb : c = b := by
      rw [Q.elems_push] at hc
      rcases Multiset.mem_cons.mp hc with hc | hc
      · exact hc
      · exact absurd hcnext (hgap c hc).ne'
    rw [heq]
    refine ⟨Waiting.call_execute (hwait.shrink ?_ ?_), hcb ▸ mem_cons_self .., rfl⟩
    · exact (size_pop_dropUpTo_lt htop).le.trans hwait.size_le
    · exact fun d hd => (Q.mem_dropUpTo.mp hd).1
  · exact absurd (hnone b hmem) (not_lt.mpr hnext.le)

end Worker

/-! ## The answers -/

section Answers

variable [DecidableEq Hash]

/-- The answers for a block that executes to its own hash, is accepted and committed. -/
def answers (b : Block Hash) (sysBlock : Bool) : List (Input Hash) :=
  .executed b (.header b.hash sysBlock) :: .checked b true ::
    ((if b.transactionsSize = 0 then [] else [.stored b none]) ++ [.committed b none])

theorem Waiting.executed (h : Waiting maxSize s) (hb : (.execute, b) ∈ s.calls)
    (hnext : b.number = s.nextBlock) (sysBlock : Bool) :
    (.check, b) ∈ (step maxSize s (.executed b (.header b.hash sysBlock))).calls ∧
      (step maxSize s (.executed b (.header b.hash sysBlock))).blockNumber = s.blockNumber := by
  have hpushed (t : State Q) (hnum : t.blockNumber = s.blockNumber)
      (hcommit : t.commitQueue = s.commitQueue) : (.check, b) ∈ (updateCommitQueue b t).calls ∧
        (updateCommitQueue b t).blockNumber = s.blockNumber := by
    have hnextBlock : (pushCommit b t).nextBlock = s.nextBlock := by
      rw [State.nextBlock, State.nextBlock, ← hnum]
      rfl
    have hmem : b ∈ Q.elems (pushCommit b t).commitQueue := by
      rw [pushCommit, Q.elems_push]
      exact Multiset.mem_cons_self b _
    rw [updateCommitQueue]
    rcases tryToCommitBlockToLedger_cases (pushCommit b t) with ⟨c, htop, hcnext, heq⟩ | ⟨hnone, -⟩
    · have hc := (Q.mem_dropUpTo.mp (Q.mem_of_top htop)).1
      have hcb : c = b := by
        rw [pushCommit, Q.elems_push, hcommit] at hc
        rcases Multiset.mem_cons.mp hc with hc | hc
        · exact hc
        · exact absurd (hcnext.trans hnextBlock) (h.idle c (.inl hc))
      rw [heq]
      exact ⟨hcb ▸ mem_cons_self .., hnum⟩
    · exact absurd (hnext.trans hnextBlock.symm) (hnone b hmem)
  have hgap : ¬ b.number > s.executedBlock + 1 := by
    rw [hnext, h.executedBlock, State.nextBlock]
    exact lt_irrefl _
  simp only [step, answer, contains_iff_mem, hb, if_true, onExecuted, verifyExecutedBlock,
    decide_true, Bool.not_true, Bool.false_eq_true, if_false, note, hgap]
  cases sysBlock
  · exact hpushed _ rfl rfl
  · exact hpushed _ rfl rfl

/-- A block that is handed to the scheduler, at the given height. -/
def HandedAt (b : Block Hash) (number : ℕ) (s : State Q) : Prop :=
  (.commit, b) ∈ s.calls ∧ .handed b number ∈ s.notes ∧ s.blockNumber = number

/-- An accepted block is handed to the scheduler, if need be after its transactions have
been stored. -/
theorem handedAt_of_checking (maxSize : ℕ) (hb : (.check, b) ∈ s.calls) :
    HandedAt b s.blockNumber (run maxSize s (.checked b true ::
      if b.transactionsSize = 0 then [] else [.stored b none])) := by
  split_ifs with hempty
  · change HandedAt b s.blockNumber (step maxSize s (.checked b true))
    simp only [step, answer, contains_iff_mem, hb, if_true, onChecked, commitBlock, hempty]
    exact ⟨mem_cons_self .., mem_cons_self .., rfl⟩
  · change HandedAt b s.blockNumber (step maxSize (step maxSize s (.checked b true))
      (.stored b none))
    simp only [step, answer, contains_iff_mem, hb, if_true, onChecked, commitBlock, hempty,
      if_false, note, call, mem_cons_self, onStored]
    exact ⟨mem_cons_self .., mem_cons_self .., rfl⟩

theorem HandedAt.committed {number : ℕ} (h : HandedAt b number s) (hnext : b.number = number + 1) :
    (step maxSize s (.committed b none)).blockNumber = b.number ∧
      .handed b number ∈ (step maxSize s (.committed b none)).notes := by
  obtain ⟨hb, hnote, hnum⟩ := h
  have hfinal (t : State Q) (hblock : t.blockNumber = number) (hnotes : t.notes = s.notes) :
      (onCommitted b none t).blockNumber = b.number ∧
        .handed b number ∈ (onCommitted b none t).notes := by
    have hreset : (resetConfig b.number t).blockNumber = b.number := by
      rw [resetConfig, if_neg (by omega)]
      rfl
    have hfields (u : State Q) (hu : u = finalizeBlock b.number t) :
        u.blockNumber = b.number ∧ u.notes = s.notes := by
      rw [hu, finalizeBlock, tryToCommitBlockToLedger_blockNumber, tryToCommitBlockToLedger_notes]
      exact ⟨hreset, (resetConfig_notes b.number t).trans hnotes⟩
    obtain ⟨hub, hun⟩ := hfields _ rfl
    rw [onCommitted]
    split_ifs
    · exact ⟨hub, hun ▸ hnote⟩
    · exact ⟨hub, hun ▸ hnote⟩
  simp only [step, answer, contains_iff_mem, hb, if_true]
  exact hfinal _ hnum rfl

/-- Some rounds of the worker, then a packet with one block, a round, and the answers. -/
def delivery (k : ℕ) (data : BlockData Hash) (ptr : ℕ) (sysBlock : Bool) : List (Input Hash) :=
  rounds k ++ (.peerBlocks [some data] :: worker) ++ answers ⟨data, ptr⟩ sysBlock

/-- A later copy of the next number is committed. -/
theorem Waiting.recover (h : Waiting maxSize s) (hpos : 0 < maxSize)
    (hnext : data.number = s.nextBlock) (sysBlock : Bool) :
    ∃ k, (run maxSize s (delivery k data s.nextPtr sysBlock)).blockNumber = data.number ∧
      .handed ⟨data, s.nextPtr⟩ s.blockNumber ∈
        (run maxSize s (delivery k data s.nextPtr sysBlock)).notes := by
  obtain ⟨k, hdrain, hdrained, hnum, hptr⟩ := h.drain
  refine ⟨k, ?_⟩
  set s₁ := run maxSize s (rounds k)
  have hnext₁ : data.number = s₁.nextBlock := by
    rw [hnext, State.nextBlock, State.nextBlock, hnum]
  obtain ⟨hwait, hexecuting, hnum₂⟩ := hdrain.deliver hdrained hpos hnext₁
  rw [hptr] at hexecuting
  set s₂ := run maxSize s₁ (.peerBlocks [some data] :: worker) with hs₂
  set b : Block Hash := ⟨data, s.nextPtr⟩
  have hblock₂ : s₂.blockNumber = s.blockNumber := hnum₂.trans hnum
  have hnext₂ : b.number = s₂.nextBlock := by
    rw [State.nextBlock, hblock₂]
    exact hnext
  obtain ⟨hchecking, hnum₃⟩ := hwait.executed hexecuting hnext₂ sysBlock
  have hhanded := handedAt_of_checking maxSize hchecking
  rw [hnum₃, hblock₂] at hhanded
  have hrun : run maxSize s (delivery k data s.nextPtr sysBlock) =
      step maxSize (run maxSize (step maxSize s₂ (.executed b (.header b.hash sysBlock)))
        (.checked b true :: if b.transactionsSize = 0 then [] else [.stored b none]))
        (.committed b none) := by
    rw [delivery, run_append, run_append, ← hs₂, answers, ← cons_append, ← cons_append, run_append]
    rfl
  rw [hrun]
  exact hhanded.committed hnext

end Answers

/-! ## A queue that is more than full -/

/-- Inputs that do not come from the consensus or the administration of the node. -/
def Input.IsSync : Input Hash → Prop
  | .newBlock _ | .committedProposal _ | .enableAsMaster _ _ => False
  | _ => True

/-- The queue is more than full, and the next number is not in it. -/
structure Stuck (maxSize : ℕ) (s : State Q) : Prop where
  shouldSyncing : s.shouldSyncing = true
  lt_size : maxSize < Q.size s.blocks
  gap : ∀ b ∈ Q.elems s.blocks, s.executedBlock + 1 < b.number
  commitQueue : Q.elems s.commitQueue = 0
  calls : s.calls = []

section Stuck

theorem shouldSyncing_iff : s.shouldSyncing = true ↔ s.blockNumber < s.knownHighestNumber ∧
    s.committedProposalNumber < s.knownHighestNumber ∧ s.executedBlock < s.knownHighestNumber := by
  simp [State.shouldSyncing]

variable (h : Stuck maxSize s)

include h

theorem Stuck.buffer (blockBuffer : List (BlocksMsg Hash)) :
    Stuck maxSize { s with blockBuffer := blockBuffer } :=
  { h with }

theorem Stuck.maintainDownloadingBuffer :
    ∃ blockBuffer, maintainDownloadingBuffer maxSize s = { s with blockBuffer := blockBuffer } := by
  have hsize : s.size ≠ 0 := by
    have := h.lt_size
    rw [State.size]
    omega
  have hclear : clearFullQueueIfNotHas maxSize s.nextBlock s = s := by
    rw [clearFullQueueIfNotHas]
    rcases Q.top s.blocks with - | b
    · rfl
    · exact if_neg fun hfull => h.lt_size.ne' hfull.1
  rw [maintainDownloadingBuffer_eq h.shouldSyncing hsize, hclear]
  rcases s.blockBuffer with - | ⟨shard, rest⟩
  · exact ⟨[], rfl⟩
  · exact ⟨rest, by rw [flushShards_cons, if_pos h.lt_size.le]⟩

theorem Stuck.maintainDownloadingQueue :
    Stuck maxSize (maintainDownloadingQueue s) ∧ (maintainDownloadingQueue s).notes = s.notes := by
  have hcommit : Q.elems (Q.dropUpTo s.blockNumber s.commitQueue) = 0 := by
    rw [Q.elems_dropUpTo, h.commitQueue, Multiset.filter_zero]
  have hblocks : Q.elems (Q.dropUpTo s.executedBlock s.blocks) = Q.elems s.blocks := by
    rw [Q.elems_dropUpTo, Multiset.filter_eq_self]
    exact fun b hb => (Nat.lt_succ_self _).trans (h.gap b hb)
  have htry : tryToCommitBlockToLedger s =
      { s with commitQueue := Q.dropUpTo s.blockNumber s.commitQueue } := by
    rcases tryToCommitBlockToLedger_cases s with ⟨b, htop, -, -⟩ | ⟨-, heq⟩
    · have hb := Q.mem_of_top htop
      rw [hcommit] at hb
      exact absurd hb (Multiset.notMem_zero b)
    · exact heq
  have hqueue : DownloadingQueue.maintainDownloadingQueue s = { s with
        commitQueue := Q.dropUpTo s.blockNumber s.commitQueue
        blocks := Q.dropUpTo s.executedBlock s.blocks } := by
    rw [DownloadingQueue.maintainDownloadingQueue, h.shouldSyncing, Bool.not_true,
      if_neg Bool.false_ne_true, htry]
    simp only [dropExecuted, executeTop]
    rcases htop : Q.top (Q.dropUpTo s.executedBlock s.blocks) with - | b
    · rfl
    · have hgap : b.number > s.executedBlock + 1 := h.gap b (hblocks ▸ Q.mem_of_top htop)
      simp [hgap, ite_self]
  rw [hqueue]
  refine ⟨⟨h.shouldSyncing, ?_, ?_, hcommit, h.calls⟩, rfl⟩
  · rw [Q.size_eq, hblocks, ← Q.size_eq]
    exact h.lt_size
  · rw [hblocks]
    exact h.gap

variable [DecidableEq Hash]

theorem Stuck.step {input : Input Hash} (hinput : input.IsSync) :
    Stuck maxSize (step maxSize s input) ∧ (step maxSize s input).notes = s.notes := by
  cases input with
  | peerBlocks blocksData =>
    simp only [DownloadingQueue.step, onPeerBlocks, push]
    split_ifs
    · exact ⟨h, rfl⟩
    · exact ⟨h, rfl⟩
    · exact ⟨h.buffer _, rfl⟩
  | peerStatus number =>
    simp only [DownloadingQueue.step, updateKnownMaxBlockInfo]
    split_ifs with hle
    · exact ⟨h, rfl⟩
    · obtain ⟨hblock, hprop, hexec⟩ := shouldSyncing_iff.mp h.shouldSyncing
      rw [not_le] at hle
      exact ⟨{ h with
        shouldSyncing := shouldSyncing_iff.mpr
          ⟨hblock.trans hle, hprop.trans hle, hexec.trans hle⟩ }, rfl⟩
  | newBlock number => cases hinput
  | committedProposal number => cases hinput
  | enableAsMaster masterNode number => cases hinput
  | maintainDownloadingBuffer =>
    obtain ⟨blockBuffer, heq⟩ := h.maintainDownloadingBuffer
    rw [DownloadingQueue.step, heq]
    exact ⟨h.buffer blockBuffer, rfl⟩
  | maintainDownloadingQueue => exact h.maintainDownloadingQueue
  | executed | checked | stored | committed => simp [DownloadingQueue.step, answer, h.calls, h]

/-- No packet and no round of the worker brings a stuck queue forward. -/
theorem Stuck.run (inputs : List (Input Hash)) (hinputs : ∀ input ∈ inputs, input.IsSync) :
    Stuck maxSize (run maxSize s inputs) ∧ (run maxSize s inputs).notes = s.notes := by
  induction inputs generalizing s with
  | nil => exact ⟨h, rfl⟩
  | cons input inputs ih =>
    obtain ⟨hstuck, hnotes⟩ := h.step (hinputs input (mem_cons_self ..))
    obtain ⟨hrun, hrunNotes⟩ := ih hstuck fun i hi => hinputs i (mem_cons_of_mem _ hi)
    exact ⟨hrun, hrunNotes.trans hnotes⟩

end Stuck

/-! ## Commits in order, and later copies -/

/-- In a run of timely answers, the blocks that are handed to the scheduler follow the
height, were executed to their own hash and accepted.  Whatever became of the earlier
copies of the next number, a later one is committed when it arrives at a queue that is
not more than full. -/
theorem commits_in_order_and_recovers [DecidableEq Hash] {maxSize : ℕ} (hpos : 0 < maxSize)
    (masterNode : Bool) (number : ℕ) (inputs : List (Input Hash))
    (htimely : TimelyRun maxSize (start Q masterNode number) inputs) : (∀ b height older,
      .handed b height :: older <:+ (run maxSize (start Q masterNode number) inputs).notes →
        b.number = height + 1 ∧ (∀ c h, .handed c h ∈ older → c.number ≤ b.number) ∧
          Certified b older) ∧ ∀ s, s = run maxSize (start Q masterNode number) inputs →
      s.masterNode = true → s.shouldSyncing = true → Idle s → s.blockBuffer = [] →
      Q.size s.blocks ≤ maxSize → ∀ data : BlockData Hash, data.number = s.nextBlock →
      ∀ sysBlock, ∃ k,
        (run maxSize s (delivery k data s.nextPtr sysBlock)).blockNumber = data.number ∧
          .handed ⟨data, s.nextPtr⟩ s.blockNumber ∈
            (run maxSize s (delivery k data s.nextPtr sysBlock)).notes := by
  have htracked := tracked_run (Tracked.start masterNode number) htimely
  constructor
  · intro b height older hsuffix
    obtain ⟨hnext, hearlier⟩ := htracked.inOrder b height older hsuffix
    exact ⟨hnext, hearlier, htracked.handed b height older hsuffix⟩
  · rintro s rfl hmaster hsyncing hidle hbuffer hsize data hnext sysBlock
    have hwait : Waiting maxSize (run maxSize (start Q masterNode number) inputs) :=
      ⟨hmaster, hsyncing, htracked.executedBlock_eq hidle, hidle, hbuffer, hsize⟩
    exact hwait.recover hpos hnext sysBlock

/-- The first copy of block 1 is rejected. -/
def rejectedCopy : List (Input ℕ) :=
  [.peerStatus 3, .peerBlocks [some ⟨1, 7, 0⟩], .maintainDownloadingBuffer,
    .maintainDownloadingQueue, .executed ⟨⟨1, 7, 0⟩, 0⟩ (.header 7 false),
    .checked ⟨⟨1, 7, 0⟩, 0⟩ false]

theorem later_copy_committed :
    TimelyRun 256 (start (PriorityQueue.sortedList fun b : Block ℕ => b.number) true 0)
        rejectedCopy ∧
      ∃ k, (run 256 (run 256 (start (PriorityQueue.sortedList fun b : Block ℕ => b.number) true 0)
        rejectedCopy) (delivery k ⟨1, 9, 2⟩ 1 false)).blockNumber = 1 := by
  have htimely : TimelyRun 256
      (start (PriorityQueue.sortedList fun b : Block ℕ => b.number) true 0) rejectedCopy :=
    ⟨trivial, trivial, trivial, trivial, trivial, trivial, trivial⟩
  have hidle : Idle (run 256
      (start (PriorityQueue.sortedList fun b : Block ℕ => b.number) true 0) rejectedCopy) := by
    rintro b (hb | ⟨c, -, hb⟩)
    · exact absurd hb (Multiset.notMem_zero b)
    · exact absurd hb not_mem_nil
  refine ⟨htimely, ?_⟩
  obtain ⟨k, hk, -⟩ := (commits_in_order_and_recovers (by decide) true 0 rejectedCopy htimely).2 _
    rfl rfl rfl hidle rfl (by decide) ⟨1, 9, 2⟩ rfl false
  exact ⟨k, hk⟩

/-- Both copies of block 1 are checked when the first one is accepted. -/
def duplicateCopies : List (Input ℕ) :=
  [.peerStatus 3, .peerBlocks [some ⟨1, 7, 0⟩, some ⟨1, 7, 0⟩], .maintainDownloadingBuffer,
    .maintainDownloadingQueue, .maintainDownloadingQueue,
    .executed ⟨⟨1, 7, 0⟩, 0⟩ (.header 7 false), .executed ⟨⟨1, 7, 0⟩, 1⟩ (.header 7 false),
    .checked ⟨⟨1, 7, 0⟩, 0⟩ true, .committed ⟨⟨1, 7, 0⟩, 0⟩ none, .checked ⟨⟨1, 7, 0⟩, 1⟩ true]

/-- A packet with the blocks from 258 down to 1; block 1 is executed to another hash. -/
def largePacket : List (Input ℕ) :=
  [.peerStatus 1000, .peerBlocks ((List.range 258).map fun i => some ⟨258 - i, 7, 0⟩),
    .maintainDownloadingBuffer, .maintainDownloadingQueue,
    .executed ⟨⟨1, 7, 0⟩, 257⟩ (.header 8 false)]

/-- A second copy of block 1 is handed over at height 1; and after the large packet no
further packet gets any block executed or committed. -/
theorem stale_copy_and_stuck_queue :
    (run 256 (start (PriorityQueue.sortedList fun b : Block ℕ => b.number) true 0)
      duplicateCopies).notes.head? = some (.handed ⟨⟨1, 7, 0⟩, 1⟩ 1) ∧
    ∀ inputs : List (Input ℕ), (∀ input ∈ inputs, input.IsSync) →
      (run 256 (start (PriorityQueue.sortedList fun b : Block ℕ => b.number) true 0)
        (largePacket ++ inputs)).notes = [.executed ⟨⟨1, 7, 0⟩, 257⟩ (some 8)] := by
  refine ⟨by decide +kernel, fun inputs hinputs => ?_⟩
  have hstuck : Stuck 256 (run 256
      (start (PriorityQueue.sortedList fun b : Block ℕ => b.number) true 0) largePacket) :=
    ⟨by decide +kernel, by decide +kernel, by decide +kernel, by decide +kernel, by decide +kernel⟩
  rw [run_append]
  exact (hstuck.run inputs hinputs).2.trans (by decide +kernel)

end FiscoSmart.Sync.DownloadingQueue
