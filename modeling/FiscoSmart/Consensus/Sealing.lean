import FiscoSmart.Consensus.PreparedProof

/-!
# Asking the sealer for blocks

The leader asks its sealer for the blocks of a range of indices and remembers where the
range ends, so that the next range begins behind it.  A reset of the sealer forgets the
ranges; its callback asks for a new range before the end of the range is reset as well.
-/

namespace FiscoSmart.Consensus

variable {Hash : Type}

variable (Hash) in
/-- A range that `notifySealer` has sent without being enforced, with the configuration and
the ranges that had been sent since the last reset. -/
structure SealRange where
  config : PBFTConfig Hash
  before : List (BlockNumber × BlockNumber)
  first : BlockNumber
  last : BlockNumber

variable (Hash) in
/-- The configuration with `m_sealStartIndex` and `m_sealEndIndex`, the ranges that have been
sent since the sealer was reset, and all ranges that were not enforced. -/
structure Sealing where
  config : PBFTConfig Hash
  sealStartIndex : BlockNumber
  sealEndIndex : BlockNumber
  sent : List (BlockNumber × BlockNumber)
  ranges : List (SealRange Hash)

variable (env : Env Hash)

def PBFTConfig.highWaterMark (config : PBFTConfig Hash) : BlockNumber :=
  config.progressedIndex + env.waterMarkLimit

/-- The end of the leader period of an index, in `uint64_t` and then in `int64_t`. -/
def periodEnd (index : BlockNumber) : BlockNumber :=
  ((index % 2 ^ 64 / env.leaderSwitchPeriod + 1) * env.leaderSwitchPeriod - 1).bmod (2 ^ 64)

namespace Sealing

variable (s : Sealing Hash)

/-- `PBFTConfig::sealStartIndex`. -/
def startIndex : BlockNumber := max s.config.expectedCheckPoint (s.config.committedIndex + 1)

/-- `PBFTConfig::canHandleNewProposal` without a message. -/
def canHandleNewProposal : Bool :=
  s.config.waitSealUntil ≤ s.config.committedIndex ∧
    s.config.waitResealUntil ≤ s.config.committedIndex

/-- `PBFTConfig::notifySealer`; the hook that it leaves behind calls it again later. -/
def notifySealer (progressedIndex : BlockNumber) (enforce : Bool) (resettingProposalSize : ℕ) :
    Sealing Hash :=
  if env.leaderIndexInNewViewPeriod progressedIndex s.config.view ≠ env.nodeIndex then s
  else if ¬ s.canHandleNewProposal then s
  else if enforce then
    { s with
      sent := (progressedIndex, progressedIndex) :: s.sent
      sealEndIndex := max progressedIndex s.sealEndIndex
      sealStartIndex := min progressedIndex s.sealStartIndex }
  else
    let endProposalIndex := min (periodEnd env progressedIndex) (s.config.highWaterMark env - 1)
    if endProposalIndex ≤ s.sealEndIndex then s
    else
      let startSealIndex := max (s.sealEndIndex + 1) progressedIndex
      if endProposalIndex < startSealIndex then s
      -- already notified
      else if endProposalIndex ≤ s.sealEndIndex ∧ s.sealStartIndex ≤ startSealIndex then s
      else if 0 < resettingProposalSize ∧ s.config.committedIndex + 1 < startSealIndex then s
      else
        { s with
          sent := (startSealIndex, endProposalIndex) :: s.sent
          ranges := ⟨s.config, s.sent, startSealIndex, endProposalIndex⟩ :: s.ranges
          sealStartIndex := startSealIndex
          sealEndIndex := endProposalIndex }

/-- `PBFTConfig::reNotifySealer`. -/
def reNotifySealer (index : BlockNumber) (resettingProposalSize : ℕ) : Sealing Hash :=
  if s.config.highWaterMark env ≤ index ∨ index < s.config.committedIndex then s
  else
    notifySealer env { s with sealStartIndex := index - 1, sealEndIndex := index - 1 } index false
      resettingProposalSize

/-- `PBFTConfig::notifyResetSealing`, with the index for the callback; the sealer calls it back
before it returns. -/
def notifyResetSealing (consIndex : Option BlockNumber) (resettingProposalSize : ℕ) :
    Sealing Hash :=
  let s := { s with sent := [] }
  let s := match consIndex with
    | none => s
    | some index =>
      if s.config.waitResealUntil ≤ s.config.committedIndex then
        reNotifySealer env s index resettingProposalSize
      else s
  -- reset the sealEndIndex and the sealStartIndex
  { s with sealEndIndex := s.startIndex - 1, sealStartIndex := s.startIndex - 1 }

end Sealing

variable (Hash) in
/-- A call, or a change of the configuration. -/
inductive SealCall
  | configure (config : PBFTConfig Hash)
  | notifySealer (index : ℕ) (enforce : Bool) (resettingProposalSize : ℕ)
  | reNotifySealer (index : ℕ) (resettingProposalSize : ℕ)
  | notifyResetSealing (consIndex : Option ℕ) (resettingProposalSize : ℕ)

def SealCall.step (s : Sealing Hash) : SealCall Hash → Sealing Hash
  | .configure config => { s with config }
  | .notifySealer index enforce size => s.notifySealer env index enforce size
  | .reNotifySealer index size => s.reNotifySealer env index size
  | .notifyResetSealing consIndex size => s.notifyResetSealing env (consIndex.map (↑)) size

/-! ## Ranges -/

/-- The node leads the indices of the range, they are above the committed index and below the
high water mark, and the range meets none of those sent since the last reset. -/
structure SealRange.Good (r : SealRange Hash) : Prop where
  led : ∀ i, r.first ≤ i → i ≤ r.last →
    env.leaderIndexInNewViewPeriod i r.config.view = env.nodeIndex
  below : r.last < r.config.highWaterMark env
  above : r.config.committedIndex < r.first
  apart : ∀ x ∈ r.before, x.2 < r.first ∨ r.last < x.1

/-- The index is in `int64_t` and beyond the committed one or no new one; a range that is asked
for anew begins behind the last one; a reset has no callback. -/
def SealCall.Admissible (s : Sealing Hash) : SealCall Hash → Prop
  | .configure _ => True
  | .notifySealer index enforce _ => index < 2 ^ 63 ∧
    (enforce = false → s.config.committedIndex < max (s.sealEndIndex + 1) index)
  | .reNotifySealer index _ =>
    index < 2 ^ 63 ∧ s.config.committedIndex < index ∧ s.sealEndIndex < index
  | .notifyResetSealing consIndex _ => consIndex = none

/-- The ranges sent since the last reset are behind the end of the last one, and all ranges
are good. -/
structure Sealing.Sound (s : Sealing Hash) : Prop where
  ended : ∀ x ∈ s.sent, x.2 ≤ s.sealEndIndex
  good : ∀ r ∈ s.ranges, r.Good env

variable {env} {s : Sealing Hash}

theorem lt_of_le_periodEnd {n j : ℕ} (h : (j : ℤ) ≤ periodEnd env n) (hn : n < 2 ^ 63) :
    j < (n / env.leaderSwitchPeriod + 1) * env.leaderSwitchPeriod ∧ j < 2 ^ 63 := by
  have hmod : (n : ℤ) % 2 ^ 64 = n := Int.emod_eq_of_lt (Int.natCast_nonneg n) (by omega)
  rw [periodEnd, hmod, Int.bmod_def] at h
  generalize hend : ((n : ℤ) / env.leaderSwitchPeriod + 1) * env.leaderSwitchPeriod = e at h
  have he : e = ((n / env.leaderSwitchPeriod + 1) * env.leaderSwitchPeriod : ℕ) := by
    rw [← hend]
    push_cast
    rfl
  split_ifs at h <;> omega

/-- The leader of an index leads the rest of its period. -/
theorem leader_of_period {n : ℕ} {i : BlockNumber} (view : ViewType) (hn : n < 2 ^ 63)
    (hi : n ≤ i) (hend : i ≤ periodEnd env n) :
    env.leaderIndexInNewViewPeriod i view = env.leaderIndexInNewViewPeriod n view := by
  obtain ⟨j, rfl⟩ := Int.eq_ofNat_of_zero_le ((Int.natCast_nonneg n).trans hi)
  obtain ⟨hperiod, hj⟩ := lt_of_le_periodEnd hend hn
  have hdiv : j / env.leaderSwitchPeriod = n / env.leaderSwitchPeriod :=
    Nat.div_eq_of_lt_le ((Nat.div_mul_le_self ..).trans (Int.ofNat_le.mp hi)) hperiod
  have hword : ∀ k : ℕ, k < 2 ^ 63 → ((k : ℤ) % 2 ^ 64).toNat = k := fun k hk => by omega
  rw [Env.leaderIndexInNewViewPeriod, Env.leaderIndexInNewViewPeriod, hword j hj, hword n hn, hdiv]

namespace Sealing

theorem Sound.notifySealer (h : s.Sound env) {n : ℕ} (hn : n < 2 ^ 63) {enforce : Bool} (size : ℕ)
    (habove : enforce = false → s.config.committedIndex < max (s.sealEndIndex + 1) n) :
    (s.notifySealer env n enforce size).Sound env := by
  rw [Sealing.notifySealer]
  split_ifs with hleader hcan henforce
  · exact h
  · exact ⟨List.forall_mem_cons.mpr ⟨le_max_left .., fun x hx =>
      (h.ended x hx).trans (le_max_right ..)⟩, h.good⟩
  · dsimp only
    split_ifs with hend hstart
    iterate 4 exact h
    refine ⟨fun x hx => ?_, fun r hr => ?_⟩
    · rcases List.mem_cons.mp hx with rfl | hx
      · exact le_rfl
      · exact (h.ended x hx).trans (not_le.mp hend).le
    · rcases List.mem_cons.mp hr with rfl | hr
      · refine ⟨fun i hi hi' => ?_, ?_, habove (Bool.not_eq_true _ ▸ henforce), fun x hx => .inl ?_⟩
        · exact (leader_of_period _ hn ((le_max_right ..).trans hi)
            (hi'.trans (min_le_left ..))).trans
            (not_not.mp hleader)
        · exact Int.lt_of_le_sub_one (min_le_right ..)
        · exact (Int.lt_add_one_of_le (h.ended x hx)).trans_le (le_max_left ..)
      · exact h.good r hr
  · exact h

theorem Sound.step (h : s.Sound env) {call : SealCall Hash} (hcall : call.Admissible s) :
    (call.step env s).Sound env := by
  cases call with
  | configure config => exact ⟨h.ended, h.good⟩
  | notifySealer n enforce size => exact h.notifySealer hcall.1 size hcall.2
  | reNotifySealer n size =>
    obtain ⟨hn, habove, hend⟩ := hcall
    rw [SealCall.step, reNotifySealer]
    split_ifs
    · exact h
    · refine Sound.notifySealer (s := { s with sealStartIndex := n - 1, sealEndIndex := n - 1 })
        ⟨fun x hx => ?_, h.good⟩ hn size fun _ => ?_
      · exact (h.ended x hx).trans (Int.le_sub_one_of_lt hend)
      · exact habove.trans_le (le_max_right ..)
  | notifyResetSealing consIndex size =>
    cases hcall
    exact ⟨fun x hx => absurd hx List.not_mem_nil, h.good⟩

end Sealing

variable (env) in
/-- Every call of the list is admissible in the state it finds. -/
def SealsFrom : Sealing Hash → List (SealCall Hash) → Prop
  | _, [] => True
  | s, call :: calls => call.Admissible s ∧ SealsFrom (call.step env s) calls

theorem Sealing.Sound.run {calls : List (SealCall Hash)} (h : s.Sound env)
    (hcalls : SealsFrom env s calls) : (calls.foldl (SealCall.step env) s).Sound env := by
  induction calls generalizing s with
  | nil => exact h
  | cons call calls ih => exact ih (h.step hcalls.1) hcalls.2

/-- If no range is asked for below the committed index or again, and no reset has a callback,
all ranges that are not enforced are good. -/
theorem ranges_good (env : Env Hash) (s : Sealing Hash) (hsent : s.sent = [])
    (hranges : s.ranges = [])
    (calls : List (SealCall Hash)) (hcalls : SealsFrom env s calls) :
    ∀ r ∈ (calls.foldl (SealCall.step env) s).ranges, r.Good env := by
  exact (Sealing.Sound.run ⟨by simp [hsent], by simp [hranges]⟩ hcalls).good

/-- A node that has asked for nothing, when the chain has only its first block. -/
def idle : Sealing Digest := ⟨(PBFTEngine.start Digest 0 (.block 0)).config, 0, 0, [], []⟩

/-- The ranges after a list of calls on one of four nodes. -/
def rangesOf (nodeIndex : IndexType) (calls : List (SealCall Digest)) : List (SealRange Digest) :=
  (calls.foldl (SealCall.step (fourNodes nodeIndex)) idle).ranges

/-- The leader of index 1 asks for this block once. -/
theorem ranges_good_first : (rangesOf 1 [.notifySealer 1 false 0, .notifySealer 1 false 0]).map
      (fun r => (r.first, r.last)) = [(1, 1)] ∧
    ∀ r ∈ rangesOf 1 [.notifySealer 1 false 0, .notifySealer 1 false 0], r.Good (fourNodes 1) := by
  refine ⟨by decide +kernel, ranges_good (fourNodes 1) idle rfl rfl _ ?_⟩
  exact ⟨⟨by decide, fun _ => by decide +kernel⟩, ⟨by decide, fun _ => by decide +kernel⟩, trivial⟩

/-- After a reset the leader asks for its block again, and the committed block can be asked
for. -/
theorem ranges_overlap :
    (¬ ∀ r ∈ rangesOf 1 [.notifyResetSealing (some 1) 0, .notifySealer 1 false 0],
      r.Good (fourNodes 1)) ∧
    ¬ ∀ r ∈ rangesOf 0 [.reNotifySealer 0 0], r.Good (fourNodes 0) := by
  constructor
  · intro h
    have hgood := h ⟨idle.config, [(1, 1)], 1, 1⟩ List.mem_cons_self
    exact absurd (hgood.apart (1, 1) List.mem_cons_self) (by decide)
  · intro h
    have hgood := h ⟨idle.config, [], 0, 0⟩ List.mem_cons_self
    exact absurd hgood.above (by decide)

end FiscoSmart.Consensus
