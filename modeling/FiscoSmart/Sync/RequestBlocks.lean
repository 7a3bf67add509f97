import Mathlib.Algebra.Order.Ring.Int
import Mathlib.Data.List.Range
import Mathlib.Order.CompletePartialOrder
import Mathlib.Tactic.Linarith

/-!
# Requests for missing blocks

`BlockSync::requestBlocks` cuts the gap between the local height `from` and the
height `to` into shards of `maxRequestBlocks` blocks and asks one peer for each of
them.  It visits the peers in a random order, a few times over, and hands the next
shard to every peer that knows enough blocks.

Block numbers are `int64_t` and sizes `size_t`, and mixed expressions are computed
without sign.  While nothing overflows, the requests are the first shards of the
gap, in order.
-/

namespace FiscoSmart.Sync

/-- An `int64_t` with the given value modulo `2 ^ 64`. -/
def int64 (z : ℤ) : ℤ := z.bmod (2 ^ 64)

/-- A `size_t` with the given value modulo `2 ^ 64`. -/
def sizeT (z : ℤ) : ℕ := (z % 2 ^ 64).toNat

theorem int64_of_bounds {z : ℤ} (hlow : -2 ^ 63 ≤ z) (hhigh : z < 2 ^ 63) : int64 z = z := by
  rw [int64, Int.bmod_def]
  split_ifs <;> omega

theorem sizeT_of_bounds {z : ℤ} (hlow : 0 ≤ z) (hhigh : z < 2 ^ 64) : sizeT z = z.toNat := by
  rw [sizeT, Int.emod_eq_of_lt hlow hhigh]

structure PeerStatus (NodeID : Type) where
  nodeId : NodeID
  number : ℤ
deriving DecidableEq

structure BlockRequest where
  number : ℤ
  size : ℕ
deriving DecidableEq

/-- The blocks that a peer is asked for. -/
def BlockRequest.blocks (request : BlockRequest) : Set ℤ :=
  {n | request.number ≤ n ∧ n < request.number + request.size}

variable {NodeID : Type}

/-! ## `SyncPeerStatus::foreachPeerRandom` -/

section ForeachPeer

variable {α σ : Type}

def swapAt (l : List α) (i j : ℕ) : List α :=
  match l[i]?, l[j]? with
  | some a, some b => (l.set i b).set j a
  | _, _ => l

/-- The loop that exchanges the places `i, i - 1, …, 1` with random places below. -/
def shuffle (rand : ℕ → ℕ) : ℕ → List α → List α
  | 0, l => l
  | i + 1, l => shuffle rand i (swapAt l (i + 1) (rand (i + 1) % (i + 2)))

/-- The visits end with the first one that returns `false`. -/
def visitAll (f : α → σ → Bool × σ) : List α → σ → σ
  | [], s => s
  | a :: l, s =>
    if (f a s).1 then visitAll f l (f a s).2 else (f a s).2

def foreachPeerRandom (rand : ℕ → ℕ) (peers : List α) (f : α → σ → Bool × σ) (s : σ) : σ :=
  visitAll f (shuffle rand (peers.length - 1) peers) s

theorem visitAll_spec {f : α → σ → Bool × σ} {P Q : σ → Prop} (hend : ∀ s, P s → Q s)
    (hstep : ∀ a s, P s → Q (f a s).2 ∧ ((f a s).1 = true → P (f a s).2))
    (l : List α) {s : σ} (hs : P s) : Q (visitAll f l s) := by
  induction l generalizing s with
  | nil => exact hend s hs
  | cons a l ih =>
    obtain ⟨hlast, hnext⟩ := hstep a s hs
    rw [visitAll]
    split_ifs with hcontinued
    · exact ih (hnext hcontinued)
    · exact hlast

end ForeachPeer

/-! ## `BlockSync::requestBlocks` -/

/-- The variables of `requestBlocks`, with the requests in the order in which they
are sent. -/
structure Requesting (NodeID : Type) where
  shard : ℕ
  findPeer : Bool
  sent : List (PeerStatus NodeID × BlockRequest)
  maxRequestNumber : ℤ

variable {s : Requesting NodeID} {n z : ℤ}

/-- What `requestBlocks` finds when it goes over the peers once more. -/
structure Round (NodeID : Type) where
  peers : List (PeerStatus NodeID)
  knownHighestNumber : ℤ
  rand : ℕ → ℕ

section RequestBlocks

/- `lower` and `upper` are the arguments `_from` and `_to`, `size` is `maxRequestBlocks`. -/
variable (lower upper : ℤ) (size : ℕ)

def shardNumber : ℕ := sizeT (upper - lower + size - 1) / size

def shardFrom (shard : ℕ) : ℤ := int64 (lower + 1 + shard * size)

def shardTo (shard : ℕ) : ℤ := min (int64 (shardFrom lower size shard + size - 1)) upper

def shardRequest (shard : ℕ) : BlockRequest :=
  ⟨shardFrom lower size shard,
    sizeT (shardTo lower upper size shard - shardFrom lower size shard + 1)⟩

/-- The visit of a peer, and whether the visits go on. -/
def requestFromPeer (knownHighestNumber : ℤ) (peer : PeerStatus NodeID)
    (s : Requesting NodeID) : Bool × Requesting NodeID :=
  if peer.number < knownHighestNumber then (true, s)
  else if peer.number < shardTo lower upper size s.shard then (true, s)
  else
    (decide (s.shard + 1 < shardNumber lower upper size),
      { shard := s.shard + 1
        findPeer := true
        sent := s.sent ++ [(peer, shardRequest lower upper size s.shard)]
        maxRequestNumber := max s.maxRequestNumber (shardTo lower upper size s.shard) })

/-- One turn of the loop over `loop`. -/
def requestRound (round : Round NodeID) (s : Requesting NodeID) : Requesting NodeID :=
  foreachPeerRandom round.rand round.peers
    (requestFromPeer lower upper size round.knownHighestNumber) { s with findPeer := false }

/-- The loop, for the given number of turns from turn `loop` on. -/
def requestRounds (rounds : ℕ → Round NodeID) :
    ℕ → ℕ → Requesting NodeID → Requesting NodeID
  | 0, _, s => s
  | turns + 1, loop, s =>
    if s.shard < shardNumber lower upper size then
      let s' := requestRound lower upper size (rounds loop) s
      if s'.findPeer then requestRounds rounds turns (loop + 1) s' else s'
    else s

def requestBlocks (maxShardPerPeer : ℕ) (rounds : ℕ → Round NodeID) (maxRequestNumber : ℤ) :
    Requesting NodeID :=
  requestRounds lower upper size rounds maxShardPerPeer 0 ⟨0, false, [], maxRequestNumber⟩

end RequestBlocks

/-! ## The shards that have been sent -/

section Shards

variable {lower upper : ℤ} {size : ℕ}

/-- The requests are those for the first shards, each for a peer that knows its last
block. -/
structure Sent (lower upper : ℤ) (size : ℕ) (s : Requesting NodeID) : Prop where
  requests : s.sent.map Prod.snd = (List.range s.shard).map (shardRequest lower upper size)
  peers : ∀ i entry, s.sent[i]? = some entry → shardTo lower upper size i ≤ entry.1.number
  shard_le : s.shard ≤ shardNumber lower upper size

theorem Sent.length (h : Sent lower upper size s) : s.sent.length = s.shard := by
  simpa using congrArg List.length h.requests

/-- A visit keeps the invariant.  The visits end with the last shard, so there is
always one left. -/
theorem Sent.requestFromPeer (known : ℤ) (peer : PeerStatus NodeID)
    (h : Sent lower upper size s) (hleft : s.shard < shardNumber lower upper size) :
    Sent lower upper size (requestFromPeer lower upper size known peer s).2 ∧
      ((Sync.requestFromPeer lower upper size known peer s).1 = true →
        (Sync.requestFromPeer lower upper size known peer s).2.shard <
          shardNumber lower upper size) := by
  rw [Sync.requestFromPeer]
  split_ifs with hknown hnum
  · exact ⟨h, fun _ => hleft⟩
  · exact ⟨h, fun _ => hleft⟩
  · refine ⟨⟨?_, ?_, hleft⟩, fun hmore => of_decide_eq_true hmore⟩
    · rw [List.map_append, h.requests, List.range_succ, List.map_append]
      rfl
    · intro i entry hentry
      rcases Nat.lt_or_ge i s.sent.length with hlt | hge
      · rw [List.getElem?_append_left hlt] at hentry
        exact h.peers i entry hentry
      · rw [List.getElem?_append_right hge] at hentry
        obtain ⟨hi, hentry⟩ := List.getElem?_eq_some_iff.mp hentry
        obtain rfl : i = s.shard := by
          rw [List.length_singleton, h.length] at hi
          rw [h.length] at hge
          omega
        simp only [List.getElem_singleton] at hentry
        rw [← hentry]
        exact not_lt.mp hnum

theorem Sent.requestRound (round : Round NodeID)
    (h : Sent lower upper size s) (hleft : s.shard < shardNumber lower upper size) :
    Sent lower upper size (requestRound lower upper size round s) := by
  refine visitAll_spec
    (P := fun s => Sent lower upper size s ∧ s.shard < shardNumber lower upper size)
    (fun s hs => hs.1) (fun peer s hs => ?_) _ ⟨{ h with }, hleft⟩
  obtain ⟨hsent, hmore⟩ := hs.1.requestFromPeer round.knownHighestNumber peer hs.2
  exact ⟨hsent, fun hcontinued => ⟨hsent, hmore hcontinued⟩⟩

theorem Sent.requestRounds (rounds : ℕ → Round NodeID) (turns loop : ℕ)
    (h : Sent lower upper size s) :
    Sent lower upper size (Sync.requestRounds lower upper size rounds turns loop s) := by
  induction turns generalizing loop s with
  | zero => exact h
  | succ turns ih =>
    rw [Sync.requestRounds]
    split_ifs with hleft
    · have hround := h.requestRound (rounds loop) hleft
      dsimp only
      split_ifs
      · exact ih (loop + 1) hround
      · exact hround
    · exact h

theorem requestBlocks_sent {maxShardPerPeer : ℕ} {rounds : ℕ → Round NodeID} {maximum : ℤ} :
    Sent lower upper size (requestBlocks lower upper size maxShardPerPeer rounds maximum) := by
  refine Sent.requestRounds rounds maxShardPerPeer 0 ⟨rfl, fun i entry hentry => ?_, Nat.zero_le _⟩
  simp at hentry

theorem Sent.request_eq (h : Sent lower upper size s) {i : ℕ}
    (hi : i < s.sent.length) : s.sent[i].2 = shardRequest lower upper size i := by
  have hmap : (s.sent.map Prod.snd)[i]? = some s.sent[i].2 := by simp [hi]
  rw [h.requests, List.getElem?_map, List.getElem?_range (h.length ▸ hi)] at hmap
  exact (Option.some.inj hmap).symm

end Shards

/-! ## Shards without overflow -/

section Bounds

variable {lower upper : ℤ} {size shard : ℕ}

/-- The gap is not negative, and no block number up to one shard beyond it
overflows. -/
structure InRange (lower upper : ℤ) (size : ℕ) : Prop where
  lower_ge : -2 ^ 63 ≤ lower
  le : lower ≤ upper
  size_pos : 0 < size
  upper_lt : upper + size < 2 ^ 63

theorem InRange.lt_shardNumber_iff (h : InRange lower upper size) :
    shard < shardNumber lower upper size ↔ lower + shard * size < upper := by
  obtain ⟨hlow, hle, hpos, hhigh⟩ := h
  rw [shardNumber, sizeT_of_bounds (by omega) (by omega), ← Nat.succ_le_iff,
    Nat.le_div_iff_mul_le hpos, Int.le_toNat (by omega)]
  push_cast
  rw [add_mul, one_mul]
  omega

variable (h : InRange lower upper size) (hshard : shard < shardNumber lower upper size)

include h hshard

theorem InRange.shardFrom_eq : shardFrom lower size shard = lower + 1 + shard * size := by
  have hlt := h.lt_shardNumber_iff.mp hshard
  obtain ⟨hlow, hle, hpos, hhigh⟩ := h
  have hnonneg : (0 : ℤ) ≤ shard * size := by positivity
  exact int64_of_bounds (by omega) (by omega)

theorem InRange.shardTo_eq :
    shardTo lower upper size shard = min (lower + shard * size + size) upper := by
  have hlt := h.lt_shardNumber_iff.mp hshard
  have hnonneg : (0 : ℤ) ≤ shard * size := by positivity
  rw [shardTo, h.shardFrom_eq hshard]
  obtain ⟨hlow, hle, hpos, hhigh⟩ := h
  rw [int64_of_bounds (by omega) (by omega)]
  omega

theorem InRange.size_shardRequest : ((shardRequest lower upper size shard).size : ℤ) =
      min (size : ℤ) (upper - lower - shard * size) := by
  have hlt := h.lt_shardNumber_iff.mp hshard
  rw [shardRequest, h.shardTo_eq hshard, h.shardFrom_eq hshard]
  obtain ⟨hlow, hle, hpos, hhigh⟩ := h
  rw [sizeT_of_bounds (by omega) (by omega), Int.toNat_of_nonneg (by omega)]
  omega

theorem InRange.mem_blocks : n ∈ (shardRequest lower upper size shard).blocks ↔
      lower + shard * size < n ∧ n ≤ lower + (shard + 1 : ℕ) * size ∧ n ≤ upper := by
  have hsize := h.size_shardRequest hshard
  have hfrom : (shardRequest lower upper size shard).number = lower + 1 + shard * size :=
    h.shardFrom_eq hshard
  have hnext : ((shard + 1 : ℕ) : ℤ) * size = shard * size + size := by
    rw [Nat.cast_add, Nat.cast_one, add_mul, one_mul]
  change (_ ≤ n ∧ n < _) ↔ _
  omega

end Bounds

/-! ## The requests tile a front of the gap -/

/-- The requests are disjoint, of bounded size, and together ask for the blocks after
`lower` up to some block; each peer knows all blocks it is asked for. -/
structure TilesGap (lower upper : ℤ) (size : ℕ)
    (sent : List (PeerStatus NodeID × BlockRequest)) : Prop where
  disjoint : sent.Pairwise fun entry entry' => Disjoint entry.2.blocks entry'.2.blocks
  size_le : ∀ entry ∈ sent, entry.2.size ≤ size
  union : ∃ last, lower ≤ last ∧ last ≤ upper ∧
    ∀ n, (∃ entry ∈ sent, n ∈ entry.2.blocks) ↔ lower < n ∧ n ≤ last
  known : ∀ entry ∈ sent, entry.2.number + entry.2.size - 1 ≤ entry.1.number

section Tiles

variable {lower upper : ℤ} {size : ℕ}

theorem exists_shard {count : ℕ} (hlow : lower < n) (hhigh : n ≤ lower + count * size) :
    ∃ i < count, lower + i * size < n ∧ n ≤ lower + (i + 1 : ℕ) * size := by
  induction count with
  | zero => omega
  | succ count ih =>
    rcases le_or_gt n (lower + count * size) with hle | hgt
    · obtain ⟨i, hi, hn⟩ := ih hle
      exact ⟨i, by omega, hn⟩
    · exact ⟨count, by omega, hgt, hhigh⟩

theorem Sent.tilesGap (hsent : Sent lower upper size s) (h : InRange lower upper size) :
    TilesGap lower upper size s.sent := by
  have hbelow : ∀ {i}, i < s.sent.length → i < shardNumber lower upper size := by
    have hlen := hsent.length
    have hle := hsent.shard_le
    omega
  refine ⟨?_, ?_, ?_, ?_⟩
  · rw [List.pairwise_iff_getElem]
    intro i j hi hj hij
    rw [hsent.request_eq hi, hsent.request_eq hj, Set.disjoint_left]
    intro n hn hn'
    have hend := ((h.mem_blocks (hbelow hi)).mp hn).2.1
    have hstart := ((h.mem_blocks (hbelow hj)).mp hn').1
    have hmul : ((i + 1 : ℕ) : ℤ) * size ≤ j * size := by
      gcongr
      omega
    omega
  · intro entry hentry
    obtain ⟨i, hi, rfl⟩ := List.mem_iff_getElem.mp hentry
    rw [hsent.request_eq hi]
    have hsize := h.size_shardRequest (hbelow hi)
    omega
  · refine ⟨min (lower + s.shard * size) upper, ?_, min_le_right _ _, fun n => ⟨?_, ?_⟩⟩
    · have hnonneg : (0 : ℤ) ≤ s.shard * size := by positivity
      have hle := h.le
      omega
    · rintro ⟨entry, hentry, hn⟩
      obtain ⟨i, hi, rfl⟩ := List.mem_iff_getElem.mp hentry
      rw [hsent.request_eq hi] at hn
      obtain ⟨hstart, hend, hle⟩ := (h.mem_blocks (hbelow hi)).mp hn
      have hnonneg : (0 : ℤ) ≤ i * size := by positivity
      have hmul : ((i + 1 : ℕ) : ℤ) * size ≤ s.shard * size := by
        have hlen := hsent.length
        gcongr
        omega
      omega
    · rintro ⟨hlow, hhigh⟩
      obtain ⟨i, hi, hstart, hend⟩ := exists_shard hlow (hhigh.trans (min_le_left _ _))
      have hi' : i < s.sent.length := by rwa [hsent.length]
      refine ⟨s.sent[i], List.getElem_mem hi', ?_⟩
      rw [hsent.request_eq hi', h.mem_blocks (hbelow hi')]
      exact ⟨hstart, hend, hhigh.trans (min_le_right _ _)⟩
  · intro entry hentry
    obtain ⟨i, hi, rfl⟩ := List.mem_iff_getElem.mp hentry
    have hpeer := hsent.peers i _ (List.getElem?_eq_getElem hi)
    rw [h.shardTo_eq (hbelow hi)] at hpeer
    have hsize := h.size_shardRequest (hbelow hi)
    have hfrom : (shardRequest lower upper size i).number = lower + 1 + i * size :=
      h.shardFrom_eq (hbelow hi)
    rw [hsent.request_eq hi, hfrom, hsize]
    omega

/-- For all peers, all random orders and all heights without overflow, the requests
tile a front of the gap. -/
theorem requestBlocks_tilesGap (h : InRange lower upper size) (maxShardPerPeer : ℕ)
    (rounds : ℕ → Round NodeID) (maximum : ℤ) :
    TilesGap lower upper size
      (requestBlocks lower upper size maxShardPerPeer rounds maximum).sent :=
  requestBlocks_sent.tilesGap h

/-- Two peers at height `20`. -/
def twoPeers : ℕ → Round ℕ :=
  fun _ => ⟨[⟨1, 20⟩, ⟨2, 20⟩], 20, fun i => i⟩

theorem twoPeers_tilesGap :
    (requestBlocks 0 20 8 2 twoPeers 0).sent.map Prod.snd = [⟨1, 8⟩, ⟨9, 8⟩, ⟨17, 4⟩] ∧
      TilesGap 0 20 8 (requestBlocks 0 20 8 2 twoPeers 0).sent :=
  ⟨by decide +kernel,
    requestBlocks_tilesGap ⟨by decide, by decide, by decide, by decide⟩ 2 twoPeers 0⟩

/-- If the gap is negative, the number of shards overflows; if a shard is longer than
the numbers that are left, its end does. -/
theorem requestBlocks_overflow :
    ¬ TilesGap 5 3 1 (requestBlocks 5 3 1 1 twoPeers 0).sent ∧
      ¬ TilesGap 0 10 (2 ^ 63) (requestBlocks 0 10 (2 ^ 63) 1 twoPeers 0).sent := by
  refine ⟨fun h => ?_, fun h => ?_⟩
  · have hsize := h.size_le _ (List.mem_cons_self ..)
    exact absurd hsize (by decide)
  · have hknown := h.known _ (List.mem_cons_self ..)
    exact absurd hknown (by decide)

end Tiles

end FiscoSmart.Sync
