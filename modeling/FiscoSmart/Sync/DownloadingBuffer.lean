import FiscoSmart.Sync.DownloadingQueue

/-!
# What the buffer of received packets loses

`flushBufferToQueue` takes a packet off the buffer before it knows whether the queue has
room for it.  The blocks of the queue and of the buffer are counted with their copies, so
that what a run of calls loses is the difference to what it has accepted.
-/

namespace FiscoSmart.Sync.DownloadingQueue

open Support

variable {Hash : Type} {Q : BlockQueue Hash} (maxSize : ℕ) (s : State Q)

def State.queued : Multiset (BlockData Hash) := (Q.elems s.blocks).map Block.toBlockData

/-- The blocks of a packet that are above the height. -/
def newerBlocks (blocksData : BlocksMsg Hash) : Multiset (BlockData Hash) :=
  (blocksData.filterMap fun entry => entry.filter (isNewerBlock · s) : List (BlockData Hash))

/-- The blocks of the queue, and those of the buffer that are above the height. -/
def State.held : Multiset (BlockData Hash) := s.queued + newerBlocks s s.blockBuffer.flatten

/-- The packet that a flush takes off the buffer while the queue is full. -/
def lostShard : List (BlocksMsg Hash) → State Q → BlocksMsg Hash
  | [], _ => []
  | blocksShard :: rest, s =>
    if Q.size s.blocks ≥ maxSize then blocksShard else lostShard rest (flushEntries blocksShard s)

inductive BufferCall (Hash : Type)
  | push (blocksData : BlocksMsg Hash)
  | flush

namespace BufferCall

def run : BufferCall Hash → State Q
  | push blocksData => DownloadingQueue.push maxSize blocksData s
  | flush => flushBufferToQueue maxSize s

/-- The blocks above the height that a call accepts. -/
def accepted : BufferCall Hash → Multiset (BlockData Hash)
  | push blocksData => if s.blockBuffer.length ≥ maxSize then 0 else newerBlocks s blocksData
  | flush => 0

/-- The blocks above the height in the packet that a call drops. -/
def lost : BufferCall Hash → Multiset (BlockData Hash)
  | push _ => 0
  | flush => newerBlocks s (lostShard maxSize s.blockBuffer s)

/-- What the calls of a run accept, or lose, together. -/
def total (blocks : State Q → BufferCall Hash → Multiset (BlockData Hash)) :
    State Q → List (BufferCall Hash) → Multiset (BlockData Hash)
  | _, [] => 0
  | s, call :: calls => blocks s call + total blocks (call.run maxSize s) calls

end BufferCall

theorem newerBlocks_append {blocksData rest : BlocksMsg Hash} :
    newerBlocks s (blocksData ++ rest) = newerBlocks s blocksData + newerBlocks s rest := by
  simp [newerBlocks]

theorem flushBlock_spec {entry : Option (BlockData Hash)} :
    newerBlocks (flushBlock entry s) = newerBlocks s ∧
      (flushBlock entry s).queued = newerBlocks s [entry] + s.queued := by
  rcases entry with - | data
  · simp [flushBlock, newerBlocks]
  · simp only [flushBlock]
    split_ifs with hnewer
    · refine ⟨rfl, ?_⟩
      simp [newerBlocks, hnewer, State.queued, Q.elems_push, Option.filter]
    · simp [newerBlocks, hnewer, Option.filter]

/-- A flushed packet gives its newer blocks to the queue. -/
theorem flushEntries_spec {blocksData : BlocksMsg Hash} :
    newerBlocks (flushEntries blocksData s) = newerBlocks s ∧
      (flushEntries blocksData s).queued = newerBlocks s blocksData + s.queued := by
  induction blocksData generalizing s with
  | nil => simp [flushEntries, newerBlocks]
  | cons entry blocksData ih =>
    obtain ⟨hnewer, hqueued⟩ := flushBlock_spec s
    obtain ⟨hnewer', hqueued'⟩ := ih (flushBlock entry s)
    refine ⟨hnewer'.trans hnewer, hqueued'.trans ?_⟩
    rw [hqueued, hnewer, ← add_assoc, add_comm (newerBlocks s blocksData), ← newerBlocks_append]
    rfl

theorem flushShards_held {shards : List (BlocksMsg Hash)} :
    (flushShards maxSize shards s).held + newerBlocks s (lostShard maxSize shards s) =
      s.queued + newerBlocks s shards.flatten := by
  induction shards generalizing s with
  | nil => exact add_zero _
  | cons shard rest ih =>
    rw [flushShards_cons, lostShard, List.flatten_cons, newerBlocks_append]
    split_ifs with hfull
    · rw [State.held, add_assoc, add_comm (newerBlocks s shard)]
      rfl
    · obtain ⟨hnewer, hqueued⟩ := flushEntries_spec s
      have hrest := ih (flushEntries shard s)
      rw [hnewer, hqueued] at hrest
      rw [hrest]
      abel

namespace BufferCall

theorem held_run {call : BufferCall Hash} :
    (call.run maxSize s).held + call.lost maxSize s = s.held + call.accepted maxSize s := by
  cases call with
  | push blocksData =>
    by_cases hfull : s.blockBuffer.length ≥ maxSize
    · simp [run, lost, accepted, DownloadingQueue.push, hfull]
    · have hpush : (DownloadingQueue.push maxSize blocksData s).held =
          s.queued + newerBlocks s (s.blockBuffer ++ [blocksData]).flatten := by
        rw [DownloadingQueue.push, if_neg hfull]
        rfl
      rw [run, hpush, List.flatten_append, newerBlocks_append]
      simp [lost, accepted, hfull, State.held, add_assoc]
  | flush => exact (flushShards_held maxSize s).trans (add_zero _).symm

theorem held_foldl_run {calls : List (BufferCall Hash)} :
    (calls.foldl (run maxSize) s).held + total maxSize (lost maxSize) s calls =
      s.held + total maxSize (accepted maxSize) s calls := by
  induction calls generalizing s with
  | nil => rfl
  | cons call calls ih =>
    rw [List.foldl_cons, total, total, add_left_comm, ih, ← add_assoc, ← add_assoc, ← held_run,
      add_comm (call.lost maxSize s)]

/-- The accepted blocks above the height are all in the queue or in the buffer after a run
of calls if and only if no flush pops a packet with such a block while the queue is full. -/
theorem held_iff_none_lost (calls : List (BufferCall Hash)) :
    (calls.foldl (run maxSize) s).held = s.held + total maxSize (accepted maxSize) s calls ↔
      total maxSize (lost maxSize) s calls = 0 := by
  rw [← held_foldl_run, left_eq_add]

/-- With room for 256 blocks, a packet with block 257 is lost behind a packet that fills
the queue. -/
theorem packet_lost_at_full_queue :
    let data (number : ℕ) : BlockData ℕ := ⟨number, number, 0⟩
    let pushes : List (BufferCall ℕ) :=
      [push ((List.range 256).map fun i => some (data (i + 1))), push [some (data 257)]]
    let s := start (PriorityQueue.sortedList fun b : Block ℕ => b.number) true 0
    data 257 ∈ total 256 (accepted 256) s pushes ∧
      data 257 ∉ ((pushes ++ [flush]).foldl (run 256) s).held := by
  decide +kernel

end BufferCall

end FiscoSmart.Sync.DownloadingQueue
