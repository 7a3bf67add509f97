import Mathlib.Tactic

/-!
# The committed proposals after a crash

`LedgerStorage` writes a committed proposal with two puts: first the maximal index, then
the proposal.  A crash between the two leaves a maximal index without its proposal, and
`loadState`, which reads all proposals up to the maximal index or none, returns none.
-/

namespace FiscoSmart.Consensus.LedgerStorage

variable {Proposal : Type} (index : Proposal → ℕ)

/-- The database of committed proposals; a missing maximal index counts as 0. -/
structure CommitDB (Proposal : Type) where
  maxIndex : ℕ := 0
  proposals : ℕ → Option Proposal := fun _ => none

inductive Put (Proposal : Type)
  | maxIndex (number : ℕ)
  | proposal (committed : Proposal)

def CommitDB.put (db : CommitDB Proposal) : Put Proposal → CommitDB Proposal
  | .maxIndex number => { db with maxIndex := number }
  | .proposal committed =>
    { db with proposals := Function.update db.proposals (index committed) (some committed) }

/-- The puts of calls of `asyncCommitProposal`, from the maximum in memory on. -/
def asyncCommitProposals : ℕ → List Proposal → List (Put Proposal)
  | _, [] => []
  | maxCommitted, committed :: rest =>
    if maxCommitted ≥ index committed then asyncCommitProposals maxCommitted rest
    else .maxIndex (index committed) :: .proposal committed ::
      asyncCommitProposals (index committed) rest

/-- What the first `durable` puts of the calls leave in the database. -/
def dbAfter (committed : List Proposal) (durable : ℕ) : CommitDB Proposal :=
  ((asyncCommitProposals index 0 committed).take durable).foldl (CommitDB.put index) {}

/-- The proposals under some keys, or none when the value of a key is empty. -/
def asyncGetCommittedProposals (db : CommitDB Proposal) (keys : List ℕ) : Option (List Proposal) :=
  if ∀ key ∈ keys, (db.proposals key).isSome then some (keys.filterMap db.proposals)
  else none

/-- `loadState` on a fresh storage: the proposals, if any, and the maximum in memory. -/
def loadState (db : CommitDB Proposal) (stabledIndex : ℕ) : Option (List Proposal) × ℕ :=
  if db.maxIndex ≤ stabledIndex then (none, stabledIndex)
  else
    match asyncGetCommittedProposals db
      (List.range' (stabledIndex + 1) (db.maxIndex - stabledIndex)) with
    | none => (none, stabledIndex)
    | some stateProposals => (some stateProposals, db.maxIndex)

/-- The maximal index is put first, so no proposal lies above it. -/
theorem le_maxIndex_of_put (committed : List Proposal) (maxCommitted durable : ℕ)
    (db : CommitDB Proposal) (hmax : db.maxIndex ≤ maxCommitted)
    (hdb : ∀ i, db.proposals i ≠ none → i ≤ db.maxIndex) (i : ℕ) :
    let db' := ((asyncCommitProposals index maxCommitted committed).take durable).foldl
      (CommitDB.put index) db
    db'.proposals i ≠ none → i ≤ db'.maxIndex := by
  induction committed generalizing maxCommitted durable db with
  | nil => simpa [asyncCommitProposals] using hdb i
  | cons p rest ih =>
    rw [asyncCommitProposals]
    split_ifs with hold
    · exact ih _ _ db hmax hdb
    · have hlater (i : ℕ) (hi : db.proposals i ≠ none) : i ≤ index p := by
        have := hdb i hi
        omega
      rcases durable with - | - | durable
      · exact hdb i
      · exact hlater i
      · refine ih _ durable ((db.put index (.maxIndex (index p))).put index (.proposal p)) le_rfl ?_
        intro i hi
        by_cases hip : i = index p
        · exact hip.le
        · exact hlater i (by simpa [CommitDB.put, hip] using hi)

/-- Whatever was committed and wherever the puts stopped, the proposals that follow the
stable one are loaded if and only if there is none or all up to the maximal index are
there; the maximum in memory never exceeds them. -/
theorem loadState_returns_iff (committed : List Proposal) (durable stabledIndex m : ℕ)
    (hstabled : stabledIndex ≤ m)
    (hdurable : ∀ i ≤ m, stabledIndex < i → (dbAfter index committed durable).proposals i ≠ none)
    (hend : (dbAfter index committed durable).proposals (m + 1) = none) :
    let db := dbAfter index committed durable
    ((loadState db stabledIndex).1.getD [] =
        (List.range' (stabledIndex + 1) (m - stabledIndex)).filterMap db.proposals ↔
      m = stabledIndex ∨ m = db.maxIndex) ∧
    (loadState db stabledIndex).2 ≤ m := by
  intro db
  have hmax (i : ℕ) (hi : db.proposals i ≠ none) : i ≤ db.maxIndex :=
    le_maxIndex_of_put index committed 0 durable {} le_rfl (fun _ h => absurd rfl h) i hi
  have hle : stabledIndex < m → m ≤ db.maxIndex := fun hlt => hmax m (hdurable m le_rfl hlt)
  have hnil : [] = (List.range' (stabledIndex + 1) (m - stabledIndex)).filterMap db.proposals ↔
      m = stabledIndex := by
    rw [eq_comm, List.filterMap_eq_nil_iff]
    constructor
    · intro hnone
      by_contra hne
      exact hdurable (stabledIndex + 1) (by omega) (by omega) (hnone _ (by simp; omega))
    · rintro rfl
      simp
  have hall : (∀ key ∈ List.range' (stabledIndex + 1) (db.maxIndex - stabledIndex),
      (db.proposals key).isSome) ↔ db.maxIndex ≤ m := by
    constructor
    · intro hsome
      by_contra hlt
      have hnext := hsome (m + 1) (by simp; omega)
      rw [hend] at hnext
      cases hnext
    · intro hle key hkey
      rw [List.mem_range'_1] at hkey
      exact Option.isSome_iff_ne_none.mpr (hdurable key (by omega) (by omega))
  simp only [loadState, asyncGetCommittedProposals, hall]
  split_ifs with hstop hloaded
  · exact ⟨hnil.trans (by omega), hstabled⟩
  · obtain rfl : m = db.maxIndex := by omega
    exact ⟨iff_of_true rfl (.inr rfl), le_rfl⟩
  · exact ⟨hnil.trans (by omega), hstabled⟩

/-- One proposal, durably written. -/
theorem loadState_returns_iff_one :
    let db := dbAfter id [1] 2
    ((loadState db 0).1.getD [] = (List.range' 1 1).filterMap db.proposals ↔
      1 = 0 ∨ 1 = db.maxIndex) ∧ (loadState db 0).2 ≤ 1 :=
  loadState_returns_iff id [1] 2 0 1 (by decide) (by decide) rfl

/-- The puts of proposals 1 and 2 stop before the last one: neither is loaded. -/
theorem first_proposal_not_loaded :
    let db := dbAfter id [1, 2] 3
    db.proposals 1 = some 1 ∧ db.proposals 2 = none ∧ (loadState db 0).1 = none := by
  decide

end FiscoSmart.Consensus.LedgerStorage
