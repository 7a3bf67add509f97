import FiscoSmart.Sync.DownloadingQueue

/-!
# Where the copies of a block are

Every copy that was decoded is in one place: in one of the two queues, or with one
of the calls that are not answered yet.  The notes tell what happened to it: a copy
that was executed to another hash, or that the consensus has rejected, is in none.
A copy is on its way to the ledger when it has been executed and waits for the
consensus, for its transactions or for the commit.
-/

namespace FiscoSmart.Sync.DownloadingQueue

open Support List

variable {Hash : Type} {Q : BlockQueue Hash} {b : Block Hash} {n : Note Hash}
  {notes : List (Note Hash)}

/-! ## What the notes say about a copy -/

/-- A copy that was never executed to another hash and never rejected. -/
structure Clean (b : Block Hash) (notes : List (Note Hash)) : Prop where
  hash_eq : ∀ hash, .executed b (some hash) ∈ notes → hash = b.hash
  not_rejected : .checked b false ∉ notes

theorem Clean.cons (h : Clean b notes) (hexec : ∀ hash, n = .executed b (some hash) → hash = b.hash)
    (hchecked : n ≠ .checked b false) : Clean b (n :: notes) where
  hash_eq hash hmem := by
    rcases mem_cons.mp hmem with heq | hmem
    · exact hexec hash heq.symm
    · exact h.hash_eq hash hmem
  not_rejected hmem := by
    rcases mem_cons.mp hmem with heq | hmem
    · exact hchecked heq.symm
    · exact h.not_rejected hmem

theorem Clean.cons_of_ne (h : Clean b notes) (hne : n.block ≠ b) : Clean b (n :: notes) := by
  refine h.cons ?_ ?_
  · rintro hash rfl
    exact absurd rfl hne
  · rintro rfl
    exact hne rfl

theorem clean_of_no_note (h : ∀ n ∈ notes, n.block ≠ b) : Clean b notes where
  hash_eq _ hmem := absurd rfl (h _ hmem)
  not_rejected hmem := h _ hmem rfl

variable [DecidableEq Hash]

/-- The latest execution of a copy. -/
def lastExecution (b : Block Hash) : List (Note Hash) → Option (Option Hash)
  | [] => none
  | .executed c header :: notes => if c = b then some header else lastExecution b notes
  | .checked _ _ :: notes => lastExecution b notes
  | .handed _ _ :: notes => lastExecution b notes

/-- The latest check of a copy. -/
def lastCheck (b : Block Hash) : List (Note Hash) → Option Bool
  | [] => none
  | .checked c accepted :: notes => if c = b then some accepted else lastCheck b notes
  | .executed _ _ :: notes => lastCheck b notes
  | .handed _ _ :: notes => lastCheck b notes

/-- A copy that may be handed to the scheduler: its latest execution gave its own hash,
its latest check accepted it, and none ever went wrong. -/
structure Certified (b : Block Hash) (notes : List (Note Hash)) : Prop where
  executed : lastExecution b notes = some (some b.hash)
  accepted : lastCheck b notes = some true
  clean : Clean b notes

theorem lastExecution_cons_of_ne (h : n.block ≠ b) :
    lastExecution b (n :: notes) = lastExecution b notes := by
  rcases n with ⟨c, header⟩ | ⟨c, accepted⟩ | ⟨c, number⟩
  · exact if_neg h
  · rfl
  · rfl

theorem lastCheck_cons_of_ne (h : n.block ≠ b) : lastCheck b (n :: notes) = lastCheck b notes := by
  rcases n with ⟨c, header⟩ | ⟨c, accepted⟩ | ⟨c, number⟩
  · rfl
  · exact if_neg h
  · rfl

/-! ## Places -/

/-- The number of places where a copy is. -/
def copies (b : Block Hash) (s : State Q) : ℕ :=
  (Q.elems s.blocks).count b + (Q.elems s.commitQueue).count b + (s.calls.map Prod.snd).count b

/-- A copy that is checked, stored or committed. -/
def Sent (b : Block Hash) (s : State Q) : Prop := ∃ c ≠ Call.execute, (c, b) ∈ s.calls

/-- A copy that was executed and is on its way to the ledger. -/
def InFlight (b : Block Hash) (s : State Q) : Prop := b ∈ Q.elems s.commitQueue ∨ Sent b s

def Accepted (b : Block Hash) (s : State Q) : Prop := (.store, b) ∈ s.calls ∨ (.commit, b) ∈ s.calls

section Places

variable {s : State Q} {d : Block Hash} {c : Call}

/-- The count of `d` in a list that holds only `b`. -/
def one (b d : Block Hash) : ℕ := if b = d then 1 else 0

theorem count_push (q : Q.Carrier) :
    (Q.elems (Q.push b q)).count d = (Q.elems q).count d + one b d := by
  rw [Q.elems_push, Multiset.count_cons]
  simp [one, eq_comm]

theorem count_of_top {q : Q.Carrier} (h : Q.top q = some b) :
    (Q.elems q).count d = (Q.elems (Q.pop q)).count d + one b d := by
  rw [Q.elems_of_top h, Multiset.count_cons]
  simp [one, eq_comm]

theorem copies_call : copies d (call c b s) = copies d s + one b d := by
  simp only [copies, call, map_cons, count_cons, beq_iff_eq, one]
  omega

theorem copies_pushBlock : copies d (pushBlock b s) = copies d s + one b d := by
  simp only [copies, pushBlock, count_push]
  omega

theorem copies_pushCommit : copies d (pushCommit b s) = copies d s + one b d := by
  simp only [copies, pushCommit, count_push]
  omega

theorem InFlight.copies_pos (h : InFlight b s) : 0 < copies b s := by
  rcases h with h | ⟨c, -, hc⟩
  · have := Multiset.count_pos.mpr h
    simp only [copies]
    omega
  · have : 0 < (s.calls.map Prod.snd).count b := count_pos_iff.mpr (mem_map_of_mem hc)
    simp only [copies]
    omega

omit [DecidableEq Hash]

theorem Accepted.sent (h : Accepted b s) : Sent b s :=
  h.elim (fun h => ⟨.store, by decide, h⟩) fun h => ⟨.commit, by decide, h⟩

theorem sent_call : Sent d (call c b s) ↔ (c ≠ .execute ∧ d = b) ∨ Sent d s := by
  simp only [Sent, call, mem_cons, Prod.mk.injEq]
  constructor
  · rintro ⟨e, he, ⟨rfl, rfl⟩ | hd⟩
    · exact .inl ⟨he, rfl⟩
    · exact .inr ⟨e, he, hd⟩
  · rintro (⟨hc, rfl⟩ | ⟨e, he, hd⟩)
    · exact ⟨c, hc, .inl ⟨rfl, rfl⟩⟩
    · exact ⟨e, he, .inr hd⟩

theorem accepted_call :
    Accepted d (call c b s) ↔ ((c = .store ∨ c = .commit) ∧ d = b) ∨ Accepted d s := by
  simp only [Accepted, call, mem_cons, Prod.mk.injEq]
  grind

theorem inFlight_call : InFlight d (call c b s) ↔ (c ≠ .execute ∧ d = b) ∨ InFlight d s := by
  rw [InFlight, sent_call, InFlight]
  exact or_left_comm

theorem inFlight_pushCommit : InFlight d (pushCommit b s) ↔ d = b ∨ InFlight d s := by
  rw [InFlight, pushCommit, Q.elems_push, Multiset.mem_cons]
  exact or_assoc

end Places

end FiscoSmart.Sync.DownloadingQueue
