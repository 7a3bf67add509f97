import FiscoSmart.Protocol.HashFields
import FiscoSmart.Support.Runs

/-!
# The sender of a transaction

`createTransaction` decodes a byte string and, with signature checking on, has
the transaction verify itself: it recomputes its hash, compares it with the
cached one, and takes the address recovered from the signature as its sender.
The hash the byte string carries is taken for the recomputed one, and a sender
the byte string carries ends the check at once.  The signature covers the fields
of the transaction if the byte string carries no sender, and no hash but theirs.
-/

namespace FiscoSmart.Protocol

open Support

/-- `crypto::HashType`, a `FixedBytes<32>`. -/
abbrev HashType := { bytes : Bytes // bytes.length = 32 }

/-- How a call fails: `resizeTo` and `verify` throw, `decode` and `recover` throw
as their libraries do, and a cast of too few bytes is not defined. -/
inductive Fault
  | noEnoughOutputSpace
  | hashMismatch
  | decodeFailed
  | recoverFailed
  | undefinedBehaviour
deriving DecidableEq, Repr

/-- `CryptoSuite`: the hash function and the recovery of a public key from a
signature over a hash. -/
structure CryptoSuite where
  hash : Bytes → HashType
  recover : HashType → Bytes → Except Fault Bytes

namespace CryptoSuite

/-- `CryptoSuite::calculateAddress`: the last 20 bytes of the hash of a key. -/
def calculateAddress (suite : CryptoSuite) (publicKey : Bytes) : Bytes :=
  (suite.hash publicKey).val.drop 12

/-- The signature is accepted from no address for both of two different hashes. -/
def CoversOne (suite : CryptoSuite) (signature : Bytes) (hash hash' : HashType) : Prop :=
  ∀ key key', suite.recover hash signature = .ok key → suite.recover hash' signature = .ok key' →
    suite.calculateAddress key = suite.calculateAddress key' → hash = hash'

end CryptoSuite

/-- `assignTo` into a fresh `HashType`: the bytes, padded with zeros. -/
def assignTo (bytes : Bytes) : Except Fault HashType :=
  if h : bytes.length ≤ 32 then
    .ok ⟨bytes ++ List.replicate (32 - bytes.length) 0, by simp; omega⟩
  else .error .noEnoughOutputSpace

/-- The cast of a byte vector to a `HashType`. -/
def castHash (bytes : Bytes) : Except Fault HashType :=
  if h : 32 ≤ bytes.length then .ok ⟨bytes.take 32, List.length_take_of_le h⟩
  else .error .undefinedBehaviour

namespace Transaction

/-- `impl_calculate` for a transaction. -/
def calculate (suite : CryptoSuite) (tx : Transaction) : Except Fault HashType :=
  match tx.fed with
  | some bytes => .ok (suite.hash bytes)
  | none => assignTo tx.dataHash

abbrev M := EStateM Fault Transaction

/-- Throw what a call without effects throws. -/
def lift {α : Type} : Except Fault α → M α
  | .ok a => pure a
  | .error e => throw e

/-- `TransactionImpl::hash`. -/
def hash (suite : CryptoSuite) (useCache : Bool) : M HashType := do
  let tx ← get
  if tx.dataHash ≠ [] ∧ useCache = true then lift (castHash tx.dataHash)
  else
    let hashResult ← lift (tx.calculate suite)
    set { tx with dataHash := hashResult.val }
    return hashResult

def verify (suite : CryptoSuite) : M Unit := do
  if (← get).sender ≠ [] then return ()
  let hashResult ← hash suite false
  if hashResult ≠ (← hash suite true) then throw .hashMismatch
  let signature := (← get).signature
  let publicKey ← lift (suite.recover (← hash suite true) signature)
  modify (fun tx => { tx with sender := suite.calculateAddress publicKey })

end Transaction

/-- `TransactionFactoryImpl::createTransaction` on a byte string. -/
def createTransaction (suite : CryptoSuite)
    (decode : Bytes → Except Fault Transaction) (txData : Bytes)
    (checkSig : Bool) : Except Fault Transaction := do
  let tx ← decode txData
  if checkSig then
    match Transaction.verify suite tx with
    | .ok _ tx => return tx
    | .error e _ => throw e
  else return tx

/-- The sender is the address that signed the hash of the fields. -/
def Transaction.SignedContent (suite : CryptoSuite) (tx : Transaction) : Prop :=
  ∃ key, suite.recover (suite.hash tx.data.preimage) tx.signature = .ok key ∧
    tx.sender = suite.calculateAddress key

/-- The byte string carries no sender, so that the signature is checked, and no hash
besides the hash of the fields. -/
def Transaction.Unforged (suite : CryptoSuite) (tx : Transaction) : Prop :=
  tx.sender = [] ∧
    (tx.dataHash = [] ∨ assignTo tx.dataHash = .ok (suite.hash tx.data.preimage))

section Verify

variable {suite : CryptoSuite} {tx tx' : Transaction} {h : HashType}

theorem castHash_val (h : HashType) : castHash h.val = .ok h := by
  have hlen := h.property
  rw [castHash, dif_pos (Nat.le_of_eq hlen.symm)]
  congr
  exact List.take_of_length_le (Nat.le_of_eq hlen)

theorem Transaction.hash_cached (hcache : tx.dataHash = h.val) :
    Runs (Transaction.hash suite true) tx h tx := by
  have hne : tx.dataHash ≠ [] := by
    rw [hcache]
    intro hnil
    have hlen := h.property
    rw [hnil] at hlen
    cases hlen
  refine Runs.get_bind ?_
  rw [if_pos ⟨hne, rfl⟩, hcache, castHash_val]
  exact .of_pure

theorem Transaction.hash_calculated (hcalculate : tx.calculate suite = .ok h) :
    Runs (Transaction.hash suite false) tx h { tx with dataHash := h.val } := by
  refine Runs.get_bind ?_
  rw [if_neg (by simp), hcalculate]
  exact Runs.of_pure.bind (Runs.of_set.bind Runs.of_pure)

/-- A check that starts without a sender recovers the sender from the signature
over the calculated hash; the comparison of the two hashes never fails. -/
theorem Transaction.verify_runs (hsender : tx.sender = []) {key : Bytes}
    (hcalculate : tx.calculate suite = .ok h) (hrecover : suite.recover h tx.signature = .ok key) :
    Runs (Transaction.verify suite) tx () { tx with
      dataHash := h.val, sender := suite.calculateAddress key } := by
  refine Runs.get_bind ?_
  rw [if_neg (by simpa using hsender)]
  refine (hash_calculated hcalculate).bind ?_
  refine (hash_cached rfl).bind ?_
  rw [if_neg (by simp)]
  refine (hash_cached rfl).bind ?_
  rw [hrecover]
  exact Runs.of_pure.bind Runs.of_modify

theorem Transaction.exists_key (hsender : tx.sender = [])
    (hverify : Runs (Transaction.verify suite) tx () tx') : ∃ h key, tx.calculate suite = .ok h ∧
      suite.recover h tx.signature = .ok key := by
  rcases hcalculate : tx.calculate suite with e | h
  · have hfails : Fails (Transaction.verify suite) tx e tx := by
      refine Fails.get_bind ?_
      rw [if_neg (by simpa using hsender)]
      apply Fails.bind
      refine Fails.get_bind ?_
      rw [if_neg (by simp), hcalculate]
      exact Fails.of_throw.bind
    exact absurd hverify hfails.not_runs
  · rcases hrecover : suite.recover h tx.signature with e | key
    · have hfails : Fails (Transaction.verify suite) tx e { tx with dataHash := h.val } := by
        refine Fails.get_bind ?_
        rw [if_neg (by simpa using hsender)]
        refine Fails.after (hash_calculated hcalculate) ?_
        refine Fails.after (hash_cached rfl) ?_
        rw [if_neg (by simp)]
        refine Fails.get_bind ?_
        refine Fails.after (hash_cached rfl) ?_
        rw [hrecover]
        exact Fails.of_throw.bind
      exact absurd hverify hfails.not_runs
    · exact ⟨h, key, rfl, hrecover⟩

theorem Transaction.verify_sender (hsender : tx.sender ≠ []) :
    Runs (Transaction.verify suite) tx () tx := by
  refine Runs.get_bind ?_
  rw [if_pos hsender]
  exact .of_pure

theorem Transaction.calculate_eq_iff (hcalculate : tx.calculate suite = .ok h) :
    h = suite.hash tx.data.preimage ↔ tx.dataHash = [] ∨
      assignTo tx.dataHash = .ok (suite.hash tx.data.preimage) := by
  by_cases hdataHash : tx.dataHash = []
  · have hfed : tx.fed = some tx.data.preimage := if_pos hdataHash
    rw [calculate, hfed] at hcalculate
    cases hcalculate
    simp [hdataHash]
  · have hfed : tx.fed = none := if_neg hdataHash
    rw [calculate, hfed] at hcalculate
    simp [hdataHash, false_or, hcalculate, Except.ok.injEq]

theorem Transaction.Unforged.signedContent (hunforged : tx.Unforged suite)
    (hverify : Runs (Transaction.verify suite) tx () tx') : tx'.SignedContent suite := by
  obtain ⟨h, key, hcalculate, hrecover⟩ := exists_key hunforged.1 hverify
  obtain ⟨-, rfl⟩ := hverify.unique (verify_runs hunforged.1 hcalculate hrecover)
  obtain rfl := (calculate_eq_iff hcalculate).mpr hunforged.2
  exact ⟨key, hrecover, rfl⟩

/-- A sender that is recovered from a signature over another hash has not signed the fields. -/
theorem Transaction.SignedContent.unforged (hsender : tx.sender = [])
    (hcovers : ∀ h, tx.calculate suite = .ok h →
      suite.CoversOne tx.signature h (suite.hash tx.data.preimage))
    (hverify : Runs (Transaction.verify suite) tx () tx') (hsigned : tx'.SignedContent suite) :
    tx.Unforged suite := by
  obtain ⟨h, key, hcalculate, hrecover⟩ := exists_key hsender hverify
  obtain ⟨-, rfl⟩ := hverify.unique (verify_runs hsender hcalculate hrecover)
  obtain ⟨key', hrecover', haddr⟩ := hsigned
  exact ⟨hsender, (calculate_eq_iff hcalculate).mp
    (hcovers h hcalculate key key' hrecover hrecover' haddr)⟩

theorem verify_of_createTransaction {decode : Bytes → Except Fault Transaction}
    {txData : Bytes} (hdecode : decode txData = .ok tx)
    (hcreate : createTransaction suite decode txData true = .ok tx') :
    Runs (Transaction.verify suite) tx () tx' := by
  simp only [createTransaction, hdecode, bind, Except.bind, if_true] at hcreate
  rcases hverify : Transaction.verify suite tx with ⟨u, t⟩ | ⟨e, t⟩
  · rw [hverify] at hcreate
    cases hcreate
    exact hverify
  · rw [hverify] at hcreate
    cases hcreate

/-- Two senders that signed their fields with one signature have signed the same
bytes. -/
theorem Transaction.SignedContent.preimage_eq (hsigned : tx.SignedContent suite)
    (hsigned' : tx'.SignedContent suite) (hsender : tx.sender = tx'.sender)
    (hsignature : tx.signature = tx'.signature)
    (hcovers : suite.CoversOne tx.signature (suite.hash tx.data.preimage)
      (suite.hash tx'.data.preimage))
    (hcollision : suite.hash tx.data.preimage = suite.hash tx'.data.preimage →
      tx.data.preimage = tx'.data.preimage) : tx.data.preimage = tx'.data.preimage := by
  obtain ⟨key, hrecover, haddr⟩ := hsigned
  obtain ⟨key', hrecover', haddr'⟩ := hsigned'
  rw [← hsignature] at hrecover'
  exact hcollision
    (hcovers key key' hrecover hrecover' (haddr.symm.trans (hsender.trans haddr')))

end Verify

/-- The sender of an accepted transaction signed its content if the byte string carried neither a
sender nor another hash, and, without a carried sender, only then, unless the signature
covers both hashes.  With a carried sender, any other sender and signature are accepted as
well.  Two unforged transactions with the same sender and signature were fed to the hasher
as the same bytes, and have the same fields if the lengths of their fields agree. -/
theorem createTransaction_signedContent {suite : CryptoSuite}
    {decode : Bytes → Except Fault Transaction} {txData : Bytes}
    {decoded tx : Transaction} (hdecode : decode txData = .ok decoded)
    (hcreate : createTransaction suite decode txData true = .ok tx) :
    (decoded.Unforged suite → tx.SignedContent suite) ∧
      (decoded.sender = [] → (∀ h, decoded.calculate suite = .ok h →
          suite.CoversOne decoded.signature h (suite.hash decoded.data.preimage)) →
        tx.SignedContent suite → decoded.Unforged suite) ∧
      (decoded.sender ≠ [] → ∀ sender signature, sender ≠ [] →
        Runs (Transaction.verify suite) { decoded with sender, signature } ()
          { decoded with sender, signature }) ∧
      ∀ {txData' : Bytes} {decoded' tx' : Transaction}, decode txData' = .ok decoded' →
        createTransaction suite decode txData' true = .ok tx' →
        decoded.Unforged suite → decoded'.Unforged suite →
        tx.sender = tx'.sender → tx.signature = tx'.signature →
        suite.CoversOne tx.signature (suite.hash tx.data.preimage)
          (suite.hash tx'.data.preimage) →
        (suite.hash tx.data.preimage = suite.hash tx'.data.preimage →
          tx.data.preimage = tx'.data.preimage) → tx.data.preimage = tx'.data.preimage ∧
          (tx.data.SameShape tx'.data → tx.data = tx'.data) := by
  have hverify := verify_of_createTransaction hdecode hcreate
  refine ⟨fun hunforged => hunforged.signedContent hverify,
    fun hsender hcovers => Transaction.SignedContent.unforged hsender hcovers hverify,
    fun _ sender signature hsender => Transaction.verify_sender hsender, ?_⟩
  intro txData' decoded' tx' hdecode' hcreate' hunforged hunforged' hsender hsignature hcovers
    hcollision
  have hverify' := verify_of_createTransaction hdecode' hcreate'
  have hsame := (hunforged.signedContent hverify).preimage_eq (hunforged'.signedContent hverify')
    hsender hsignature hcovers hcollision
  exact ⟨hsame, fun hshape => TransactionData.preimage_inj hshape hsame⟩

/-! ## A concrete suite -/

/-- A hash that keeps the first bytes, and signatures that repeat the hash. -/
def echoSuite : CryptoSuite where
  hash bytes := ⟨(bytes ++ List.replicate 32 0).take 32, by simp⟩
  recover hash signature :=
    if signature = hash.val then .ok signature else .error .recoverFailed

/-- The hash of the fields of `bareTransaction`, signed. -/
def honestTransaction : Transaction :=
  { bareTransaction with signature := List.replicate 32 0 }

/-- A transaction without a carried hash. -/
theorem createTransaction_signedContent_honest :
    ∃ tx, createTransaction echoSuite (fun _ => .ok honestTransaction) [] true =
      .ok tx ∧ tx.SignedContent echoSuite ∧ tx.sender = List.replicate 20 0 := by
  refine ⟨{ honestTransaction with
    dataHash := List.replicate 32 0, sender := List.replicate 20 0 },
    by decide, ?_, rfl⟩
  have hcreate : createTransaction echoSuite (fun _ => .ok honestTransaction) []
      true = .ok { honestTransaction with
        dataHash := List.replicate 32 0, sender := List.replicate 20 0 } := by
    decide
  exact (createTransaction_signedContent rfl hcreate).1 ⟨rfl, .inl rfl⟩

/-- A hash of the forger's choice, with a signature over it. -/
def forgedHash (data : TransactionData) : Transaction :=
  ⟨data, List.replicate 32 1, List.replicate 32 1, []⟩

/-- A sender of the forger's choice, without a signature. -/
def forgedSender (data : TransactionData) : Transaction := ⟨data, [], [], [7]⟩

/-- Transactions with a carried hash or sender are accepted although nobody
signed their fields, and the same signature passes for different fields. -/
theorem forged_transactions_accepted : (∃ tx, createTransaction echoSuite
        (fun _ => .ok (forgedHash bareTransaction.data)) [] true = .ok tx ∧
      ¬ tx.SignedContent echoSuite) ∧ (∃ tx, createTransaction echoSuite
        (fun _ => .ok (forgedSender bareTransaction.data)) [] true = .ok tx ∧
      ¬ tx.SignedContent echoSuite) ∧ ∃ tx tx', createTransaction echoSuite
        (fun _ => .ok (forgedHash bareTransaction.data)) [] true = .ok tx ∧
      createTransaction echoSuite (fun _ => .ok (forgedHash
        { bareTransaction.data with input := [1] })) [] true = .ok tx' ∧
      tx.sender = tx'.sender ∧ tx.signature = tx'.signature ∧
      tx.data.preimage ≠ tx'.data.preimage := by
  refine ⟨⟨{ forgedHash bareTransaction.data with
      sender := List.replicate 20 1 }, by decide, ?_⟩,
    ⟨forgedSender bareTransaction.data, by decide, ?_⟩,
    ⟨{ forgedHash bareTransaction.data with sender := List.replicate 20 1 },
      { forgedHash { bareTransaction.data with input := [1] } with
        sender := List.replicate 20 1 }, by decide, by decide, rfl, rfl,
      by decide⟩⟩
  · rintro ⟨key, hrecover, _⟩
    cases hrecover
  · rintro ⟨key, hrecover, _⟩
    cases hrecover

end FiscoSmart.Protocol
