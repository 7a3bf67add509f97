import Mathlib.Tactic

/-!
# Event subscriptions

A subscription hands the blocks of the chain to the matcher one by one.  A round of
the worker takes the work flag and starts a chain of ledger requests; each answer
moves the cursor and asks for the next block, until the last block of the round or
an error releases the flag.  Rounds and answers may interleave in any way; the flag
keeps a second chain from being started.
-/

namespace FiscoSmart.Rpc.EventSub

open List

structure Params where
  fromBlock : ℤ
  toBlock : ℤ
  maxBlockProcessPerLoop : ℤ

/-- A task: its cursor, its work flag, the blocks that the ledger is asked for, each with the
`m_endBlockNumber` of its chain, the blocks handed to the matcher and those whose events
were pushed to the client, and whether completion was reported. -/
structure Task where
  currentBlockNumber : ℤ
  work : Bool
  asked : List (ℤ × ℤ)
  matched : List ℤ
  pushed : List ℤ
  completed : Bool

inductive Event
  | poll
  -- the worker tries a round at a height of the group, negative without the group
  | round (blockNumber : ℤ)
  -- the ledger answers one of the outstanding requests
  | answer (i : ℕ) (error : Bool)
  -- there is no node service to be asked, and nobody calls back
  | groupRemoved (i : ℕ)

variable (p : Params) (hasEvents : ℤ → Bool)

def isCompleted (t : Task) : Bool :=
  if p.toBlock < 0 then false else p.toBlock < t.currentBlockNumber

def setCurrentBlockNumber (n : ℤ) (t : Task) : Task :=
  if t.currentBlockNumber < n then { t with currentBlockNumber := n } else t

/-- `RecursiveProcess::process` -/
def process (blockNumber endBlockNumber : ℤ) (t : Task) : Task :=
  if endBlockNumber < blockNumber then { t with work := false }
  else { t with asked := (blockNumber, endBlockNumber) :: t.asked }

def executeEventSubTask (blockNumber : ℤ) (t : Task) : Task :=
  let current :=
    if t.currentBlockNumber < 0 then if 0 < p.fromBlock then p.fromBlock else blockNumber
    else t.currentBlockNumber
  if blockNumber < current then { t with work := false }
  else
    let last := if 0 < p.toBlock ∧ p.toBlock < blockNumber then p.toBlock else blockNumber
    let blockCanProcess := min (last - current + 1) p.maxBlockProcessPerLoop
    process current (current + blockCanProcess - 1) t

/-- The answer for a block; `hasEvents` says whether the matcher finds events in it. -/
def processNextBlock (error : Bool) (b e : ℤ) (t : Task) : Task :=
  if error then { t with work := false }
  else process (b + 1) e (setCurrentBlockNumber (b + 1) { t with
    matched := t.matched ++ [b]
    pushed := t.pushed ++ if hasEvents b then [b] else [] })

def step (t : Task) : Event → Task
  | .poll => { t with completed := t.completed || isCompleted p t }
  | .round blockNumber =>
    if t.work then t
    else if blockNumber < 0 then { t with work := true }
    else executeEventSubTask p blockNumber { t with work := true }
  | .answer i error =>
    match t.asked[i]? with
    | none => t
    | some (b, e) => processNextBlock hasEvents error b e { t with asked := t.asked.eraseIdx i }
  | .groupRemoved i => { t with asked := t.asked.eraseIdx i }

def run (events : List Event) : Task :=
  events.foldl (step p hasEvents) ⟨-1, false, [], [], [], false⟩

/-- After `n` blocks the cursor stands at the next one, or has not been set, and at most one
chain is going on: it asks for that block and holds the work flag. -/
structure Reached (n : ℕ) (t : Task) : Prop where
  cursor : t.currentBlockNumber = p.fromBlock + n ∨ (t.currentBlockNumber < 0 ∧ n = 0)
  chain : t.asked = [] ∨ t.work = true ∧ ∃ e, t.asked = [(p.fromBlock + n, e)]
  matched : t.matched = (range n).map fun i : ℕ => p.fromBlock + i
  pushed : t.pushed = t.matched.filter hasEvents
  completed : t.completed = true → p.toBlock ∈ t.matched

variable {p hasEvents} {n : ℕ} {t : Task} {b e : ℤ} {error : Bool} {event : Event}

section

variable (h : Reached p hasEvents n t) (hfrom : 0 < p.fromBlock)

include h

theorem Reached.process (hb : b = p.fromBlock + n) (hwork : t.work = true) (hasked : t.asked = []) :
    Reached p hasEvents n (process b e t) := by
  rw [EventSub.process]
  split
  · exact { h with chain := .inl hasked }
  · refine { h with chain := .inr ⟨hwork, e, ?_⟩ }
    rw [hb, hasked]

/-- Completion is reported when the cursor has passed the last block. -/
theorem Reached.mem_matched (hto : p.toBlock < 0 ∨ p.fromBlock ≤ p.toBlock)
    (hcompleted : isCompleted p t = true) : p.toBlock ∈ t.matched := by
  obtain ⟨hnonneg, hlt⟩ : 0 ≤ p.toBlock ∧ p.toBlock < t.currentBlockNumber := by
    simpa [isCompleted] using hcompleted
  rw [h.matched, mem_map]
  refine ⟨(p.toBlock - p.fromBlock).toNat, mem_range.mpr ?_, by omega⟩
  rcases h.cursor with hcursor | ⟨hneg, -⟩ <;> omega

/-- The request that is answered is the only one. -/
theorem Reached.of_getElem? {i : ℕ} (hget : t.asked[i]? = some (b, e)) :
    b = p.fromBlock + n ∧ t.work = true ∧ t.asked.eraseIdx i = [] := by
  rcases h.chain with hasked | ⟨hwork, e', hasked⟩
  · rw [hasked] at hget
    cases hget
  · rw [hasked] at hget ⊢
    rcases i with - | i
    · cases hget
      exact ⟨rfl, hwork, rfl⟩
    · cases hget

include hfrom

theorem Reached.executeEventSubTask (hwork : t.work = true) (hasked : t.asked = []) :
    Reached p hasEvents n (executeEventSubTask p b t) := by
  have hcurrent : (if t.currentBlockNumber < 0 then if 0 < p.fromBlock then p.fromBlock else b
      else t.currentBlockNumber) = p.fromBlock + n := by
    rw [if_pos hfrom]
    rcases h.cursor with hcursor | ⟨hneg, rfl⟩
    · rw [if_neg (by omega), hcursor]
    · rw [if_pos hneg, Int.natCast_zero, Int.add_zero]
  rw [EventSub.executeEventSubTask, hcurrent]
  dsimp only
  split
  · exact { h with chain := .inl hasked }
  · exact h.process rfl hwork hasked

theorem Reached.processNextBlock (hb : b = p.fromBlock + n) (hwork : t.work = true)
    (hasked : t.asked = []) :
    ∃ n, Reached p hasEvents n (processNextBlock hasEvents error b e t) := by
  rw [EventSub.processNextBlock]
  split
  · exact ⟨n, { h with chain := .inl hasked }⟩
  · have hnext : b + 1 = p.fromBlock + (n + 1 : ℕ) := by omega
    have hlt : t.currentBlockNumber < b + 1 := by
      rcases h.cursor with hcursor | ⟨hneg, -⟩ <;> omega
    rw [setCurrentBlockNumber, if_pos hlt]
    refine ⟨n + 1, Reached.process ?_ hnext hwork hasked⟩
    refine ⟨.inl hnext, .inl hasked, ?_, ?_, fun hcompleted => ?_⟩
    · simp [h.matched, range_succ, hb]
    · simp [h.pushed, filter_cons]
    · exact mem_append_left _ (h.completed hcompleted)

theorem Reached.step (hto : p.toBlock < 0 ∨ p.fromBlock ≤ p.toBlock) :
    ∃ n, Reached p hasEvents n (step p hasEvents t event) := by
  cases event with
  | poll =>
    refine ⟨n, { h with completed := fun hcompleted => ?_ }⟩
    rcases Bool.or_eq_true_iff.mp hcompleted with hcompleted | hcompleted
    · exact h.completed hcompleted
    · exact h.mem_matched hto hcompleted
  | round blockNumber =>
    refine ⟨n, ?_⟩
    rw [EventSub.step]
    split_ifs with hwork
    · exact h
    -- no chain is going on without the flag
    all_goals
      have hasked : t.asked = [] := h.chain.resolve_right fun hchain => hwork hchain.1
    · exact { h with chain := .inl hasked }
    · exact Reached.executeEventSubTask { h with chain := .inl hasked } hfrom rfl hasked
  | answer i error =>
    rw [EventSub.step]
    split
    · exact ⟨n, h⟩
    · rename_i b e hget
      obtain ⟨hb, hwork, hasked⟩ := h.of_getElem? hget
      exact Reached.processNextBlock { h with chain := .inl hasked } hfrom hb hwork hasked
  | groupRemoved i =>
    refine ⟨n, { h with chain := ?_ }⟩
    rcases hget : t.asked[i]? with - | ⟨b, e⟩
    · rw [EventSub.step, eraseIdx_of_length_le (getElem?_eq_none_iff.mp hget)]
      exact h.chain
    · exact .inl (h.of_getElem? hget).2.2

end

/-- However rounds, errors and the growth of the chain interleave, the matcher gets the blocks
from `fromBlock` on, each once and in order, and completion is reported only after
`toBlock`. -/
theorem blocks_in_order (hfrom : 0 < p.fromBlock) (hto : p.toBlock < 0 ∨ p.fromBlock ≤ p.toBlock)
    (events : List Event) :
    let t : Task := run p hasEvents events
    (∃ n, t.matched = (range n).map fun i : ℕ => p.fromBlock + i) ∧
      t.pushed = t.matched.filter hasEvents ∧ (t.completed = true → p.toBlock ∈ t.matched) := by
  have hrun : ∀ t n, Reached p hasEvents n t →
      ∃ n, Reached p hasEvents n (events.foldl (step p hasEvents) t) := by
    induction events with
    | nil => exact fun t n h => ⟨n, h⟩
    | cons event events ih =>
      intro t n h
      obtain ⟨m, hstep⟩ := h.step hfrom hto
      exact ih _ m hstep
  obtain ⟨n, h⟩ := hrun ⟨-1, false, [], [], [], false⟩ 0
    ⟨.inr ⟨by decide, rfl⟩, .inl rfl, rfl, rfl, by simp⟩
  exact ⟨⟨n, h.matched⟩, h.pushed, h.completed⟩

/-- The second block is tried twice, and a round starts while it is asked for. -/
theorem blocks_in_order_retried :
    let t : Task := run ⟨1, 2, 10⟩ (· = 2)
      [.round 5, .answer 0 false, .round 5, .answer 0 true, .round 5, .answer 0 false, .poll]
    (t.matched = [1, 2] ∧ t.completed = true) ∧ 2 ∈ t.matched := by
  refine ⟨by decide, ?_⟩
  exact (blocks_in_order (by decide) (.inr (by decide)) _).2.2 (by decide)

end FiscoSmart.Rpc.EventSub
