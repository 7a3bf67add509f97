import FiscoSmart.Support.Encoding

/-!
# The verification of a proposal

`TxPool::asyncVerifyBlock` looks for the transactions of a proposal in the pool, in the
ledger and at the node that made it.  An exception on the way is logged, and the callback is
not called.
-/

namespace FiscoSmart.TxPool

open Support

inductive CommonError
  | transactionsMissing
  | fetchTransactionsFailed
  | txsSignatureVerifyFailed
  | inconsistentTransactions
  | other (code : ℤ)
deriving DecidableEq

/-- What the callback is called with. -/
abbrev Answer := Option CommonError × Bool

/-- What the verification meets; a transaction is its hash, and a call that throws has no
value. -/
structure Verification (Hash NodeID : Type) where
  createBlock : Bytes → Option (List Hash)
  /-- Whether the packet is a `TxsResponsePacket`, and its `txsData`. -/
  createTxsSyncMsg : Bytes → Option (Bool × Bytes)
  createTxs : Bytes → Option (List Hash)
  nodeID : NodeID
  generatedNodeID : Option NodeID
  exist : Hash → Bool
  /-- The pool when the answer is known. -/
  existLater : Hash → Bool
  /-- It throws for a nonce that is no number. -/
  verifyAndSubmit : NodeID → List Hash → Option Bool
  ledger : Option (List Hash)
  peer : Except CommonError Bytes

namespace Verification

variable {Hash NodeID : Type} [LinearOrder Hash] (v : Verification Hash NodeID)
  (missedTxs : List Hash)

def importDownloadedTxs (fromNode : NodeID) (txs : List Hash) : Option Bool :=
  if txs = [] then some true else v.verifyAndSubmit fromNode txs

def verifyFetchedTxs (peerID : NodeID) : List Answer :=
  match v.peer with
  | .error code => [(some code, false)]
  | .ok data =>
    match v.createTxsSyncMsg data with
    | none => []
    | some (false, _) => [(some .fetchTransactionsFailed, false)]
    | some (true, txsData) =>
      match v.createTxs txsData with
      | none => []
      | some txs =>
        if missedTxs.length ≠ txs.length then [(some .transactionsMissing, false)]
        else
          match v.importDownloadedTxs peerID txs with
          | none => []
          | some false => [(some .txsSignatureVerifyFailed, false)]
          | some true =>
            if missedTxs ≠ txs then [(some .inconsistentTransactions, false)]
            else [(none, true)]

/-- The peer answers with an error, or with a packet that can be decoded and has transactions
whose import does not throw. -/
def peerReadable (peerID : NodeID) : Bool :=
  match v.peer with
  | .error _ => true
  | .ok data => (v.createTxsSyncMsg data).any fun msg => !msg.1 || (v.createTxs msg.2).any
      fun txs => missedTxs.length ≠ txs.length || (v.importDownloadedTxs peerID txs).isSome

theorem length_verifyFetchedTxs (peerID : NodeID) :
    (v.verifyFetchedTxs missedTxs peerID).length =
      if v.peerReadable missedTxs peerID then 1 else 0 := by
  unfold verifyFetchedTxs peerReadable
  rcases v.peer with code | data
  · rfl
  · rcases hmsg : v.createTxsSyncMsg data with - | ⟨- | -, txsData⟩
    · simp [hmsg]
    · simp [hmsg]
    · rcases htxs : v.createTxs txsData with - | txs
      · simp [hmsg, htxs]
      · by_cases hlength : missedTxs.length = txs.length
        · rcases himport : v.importDownloadedTxs peerID txs with - | - | -
          · simp [hmsg, htxs, hlength, himport]
          · simp [hmsg, htxs, hlength, himport]
          · by_cases heq : missedTxs = txs <;> simp [hmsg, htxs, hlength, himport, heq]
        · simp [hmsg, htxs, hlength]

/-- The `std::set` of the hashes. -/
def missedTxsSet : List Hash := missedTxs.dedup.mergeSort (· ≤ ·)

/-- The hashes that are still missed, and the calls of the callback. -/
def onGetMissedTxsFromLedger : Option (List Hash × List Answer) :=
  match v.ledger with
  | none => some (missedTxs, [])
  | some txs =>
    (v.importDownloadedTxs v.nodeID txs).map fun ret =>
      if ret then
        let missed := missedTxs.filter (· ∉ txs)
        (missed, if missed = [] then [(none, true)] else [])
      else (missedTxs, [])

variable {missedTxs} in
theorem answers_onGetMissedTxsFromLedger {missed : List Hash} {answers : List Answer}
    (h : missedTxs ≠ []) (hfound : v.onGetMissedTxsFromLedger missedTxs = some (missed, answers)) :
    answers = if missed = [] then [(none, true)] else [] := by
  unfold onGetMissedTxsFromLedger at hfound
  split at hfound
  · cases hfound
    rw [if_neg h]
  · obtain ⟨ret, -, hret⟩ := Option.map_eq_some_iff.mp hfound
    split_ifs at hret <;> cases hret
    · rfl
    · rw [if_neg h]

variable [DecidableEq NodeID]

def requestMissedTxs : List Answer :=
  match v.onGetMissedTxsFromLedger (missedTxsSet missedTxs) with
  | none => []
  | some (missed, answers) =>
    if missed = [] then answers
    else
      match v.generatedNodeID with
      | none => answers ++ [(some .transactionsMissing, false)]
      | some peerID =>
        if peerID = v.nodeID then answers ++ [(some .transactionsMissing, false)]
        else answers ++ v.verifyFetchedTxs missed peerID

/-- `onVerifyFinishedWrapper` for a proposal with missed transactions. -/
def onVerifyFinished (answer : Answer) : Answer :=
  let ret := if answer.1 = some .transactionsMissing then missedTxs.all v.existLater else answer.2
  (if ret then none else answer.1, ret)

/-- The calls of the callback, in order. -/
def asyncVerifyBlock (block : Bytes) : List Answer :=
  match v.createBlock block with
  | none => []
  | some txsHash =>
    match txsHash.filter (!v.exist ·) with
    | [] => [(none, true)]
    | missedTxs => (v.requestMissedTxs missedTxs).map (v.onVerifyFinished missedTxs)

/-- The import of what the ledger has does not throw, and if the node that made the proposal
is asked for the rest, neither do the decoding and the import of its answer. -/
def Answered : Prop :=
  ∃ missed answers,
    v.onGetMissedTxsFromLedger (missedTxsSet missedTxs) = some (missed, answers) ∧
    (missed ≠ [] → ∀ peerID, v.generatedNodeID = some peerID → peerID ≠ v.nodeID →
      v.peerReadable missed peerID)

variable {missedTxs}

theorem length_requestMissedTxs (h : missedTxs ≠ []) :
    (v.requestMissedTxs missedTxs).length = 1 ↔ v.Answered missedTxs := by
  have hset : missedTxsSet missedTxs ≠ [] := by
    obtain ⟨hash, hmem⟩ := List.exists_mem_of_ne_nil _ h
    exact List.ne_nil_of_mem (List.mem_mergeSort.mpr (List.mem_dedup.mpr hmem))
  unfold requestMissedTxs Answered
  rcases hfound : v.onGetMissedTxsFromLedger (missedTxsSet missedTxs) with - | ⟨missed, answers⟩
  · simp
  · have hanswers := v.answers_onGetMissedTxsFromLedger hset hfound
    by_cases hmissed : missed = []
    · simp_all
    · rcases v.generatedNodeID with - | peerID
      · simp_all
      · by_cases hself : peerID = v.nodeID <;> simp_all [length_verifyFetchedTxs]

end Verification

end FiscoSmart.TxPool
