import FiscoSmart.Consensus.NewView

/-!
# Which prepared proposal is proposed again

The new leader goes through the view-change messages in the order of their senders and
holds one prepared proposal for each index.  A later proposal takes its place if it has
another hash and a higher view.  A proposal with the hash of the one that is held leaves
the view of that one as it is, so a proposal of a lower view can still overtake it.  In
some order this happens if another block was prepared in a view between two in which the
newest block was prepared.
-/

namespace FiscoSmart.Consensus

open Support List SortedMap

variable {Hash : Type} {viewChangeCache : SortedMap IndexType (ViewChangeMsg Hash)}
  {rest : List (PBFTMessage Hash)} {index : BlockNumber}

/-- Starting with the first proposal, a proposal of another hash and a higher view takes
the place of the one that is held; the last message is the one held at the end. -/
inductive Overtaken : PBFTMessage Hash → List (PBFTMessage Hash) → PBFTMessage Hash → Prop
  | done (held : PBFTMessage Hash) : Overtaken held [] held
  | newer {held msg final : PBFTMessage Hash} {rest : List (PBFTMessage Hash)}
      (hhash : held.hash ≠ msg.hash) (hview : held.view < msg.view)
      (hrest : Overtaken msg rest final) : Overtaken held (msg :: rest) final
  | kept {held msg final : PBFTMessage Hash} {rest : List (PBFTMessage Hash)}
      (hkept : held.hash = msg.hash ∨ msg.view ≤ held.view)
      (hrest : Overtaken held rest final) : Overtaken held (msg :: rest) final

namespace Overtaken

variable {held final final' : PBFTMessage Hash}

theorem unique (h : Overtaken held rest final) (h' : Overtaken held rest final') :
    final = final' := by
  induction h with
  | done => cases h' with | done => rfl
  | newer hhash hview _ ih =>
    cases h' with
    | newer _ _ hrest => exact ih hrest
    | kept hkept hrest =>
      rcases hkept with heq | hle
      · exact absurd heq hhash
      · exact absurd hview (not_lt.mpr hle)
  | kept hkept _ ih =>
    cases h' with
    | newer hhash hview hrest =>
      rcases hkept with heq | hle
      · exact absurd heq hhash
      · exact absurd hview (not_lt.mpr hle)
    | kept _ hrest => exact ih hrest

theorem append {mid : PBFTMessage Hash} {rest' : List (PBFTMessage Hash)}
    (h : Overtaken held rest mid) (h' : Overtaken mid rest' final) :
    Overtaken held (rest ++ rest') final := by
  induction h with
  | done => exact h'
  | newer hhash hview _ ih => exact .newer hhash hview (ih h')
  | kept hkept _ ih => exact .kept hkept (ih h')

theorem of_hash_eq (h : ∀ msg ∈ rest, msg.hash = held.hash) : Overtaken held rest held := by
  induction rest with
  | nil => exact .done held
  | cons msg rest ih =>
    obtain ⟨hmsg, hrest⟩ := forall_mem_cons.mp h
    exact .kept (.inl hmsg.symm) (ih hrest)

theorem exists_final (held : PBFTMessage Hash) (rest : List (PBFTMessage Hash)) :
    ∃ final, Overtaken held rest final := by
  induction rest generalizing held with
  | nil => exact ⟨held, .done held⟩
  | cons msg rest ih =>
    by_cases hnewer : held.hash ≠ msg.hash ∧ held.view < msg.view
    · obtain ⟨final, hfinal⟩ := ih msg
      exact ⟨final, .newer hnewer.1 hnewer.2 hfinal⟩
    · obtain ⟨final, hfinal⟩ := ih held
      refine ⟨final, .kept ?_ hfinal⟩
      rwa [not_and_or, not_not, not_lt] at hnewer

theorem mem (h : Overtaken held rest final) : final ∈ held :: rest := by
  induction h with
  | done => exact mem_singleton_self _
  | newer _ _ _ ih => exact mem_cons_of_mem _ ih
  | kept _ _ ih =>
    rcases mem_cons.mp ih with rfl | hmem
    · exact mem_cons_self
    · exact mem_cons_of_mem _ (mem_cons_of_mem _ hmem)

end Overtaken

/-! ## The order of the proposals -/

/-- One of the newest proposals is undisturbed: another hash was not prepared between its view
and a lower one in which its own hash was prepared. -/
def Undisturbed (l : List (PBFTMessage Hash)) : Prop :=
  l ≠ [] → ∃ newest ∈ l, (∀ msg ∈ l, msg.view ≤ newest.view) ∧
    ∀ older ∈ l, ∀ msg ∈ l, older.hash = newest.hash → msg.hash ≠ newest.hash →
      older.view < msg.view → msg.view = newest.view

instance [DecidableEq Hash] (l : List (PBFTMessage Hash)) : Decidable (Undisturbed l) := by
  unfold Undisturbed
  infer_instance

/-- The proposals of the highest view have one hash. -/
def OneNewest (l : List (PBFTMessage Hash)) : Prop :=
  ∀ newest ∈ l, ∀ msg ∈ l, (∀ other ∈ l, other.view ≤ newest.view) → msg.view = newest.view →
    msg.hash = newest.hash

section Order

variable {l l' : List (PBFTMessage Hash)} {held final newest : PBFTMessage Hash}

theorem exists_newest (hl : l ≠ []) : ∃ newest ∈ l, ∀ msg ∈ l, msg.view ≤ newest.view := by
  let view : PBFTMessage Hash → ViewType := fun msg => msg.view
  obtain ⟨newest, hnewest⟩ := Option.ne_none_iff_exists'.mp (mt (argmax_eq_none (f := view)).mp hl)
  exact ⟨newest, argmax_mem hnewest, fun msg hmsg => le_of_mem_argmax (f := view) hmsg hnewest⟩

theorem Undisturbed.perm (h : Undisturbed l) (hperm : l' ~ l) : Undisturbed l' := by
  intro hl
  obtain ⟨newest, hnewest, hmax, hdisturb⟩ :=
    h (fun hnil => hl (perm_nil.mp (hnil ▸ hperm)))
  refine ⟨newest, hperm.mem_iff.mpr hnewest, fun msg hmsg => hmax msg (hperm.mem_iff.mp hmsg), ?_⟩
  intro older holder msg hmsg
  exact hdisturb older (hperm.mem_iff.mp holder) msg (hperm.mem_iff.mp hmsg)

/-- The newest proposal or a proposal of its hash is held, or the newest one is still to come. -/
theorem Overtaken.final_newest (h : Overtaken held rest final)
    (hsub : ∀ msg ∈ held :: rest, msg ∈ l) (hmax : ∀ msg ∈ l, msg.view ≤ newest.view)
    (hundisturbed : ∀ older ∈ l, ∀ msg ∈ l, older.hash = newest.hash → msg.hash ≠ newest.hash →
      older.view < msg.view → msg.view = newest.view)
    (hheld : held.view = newest.view ∨ held.hash = newest.hash ∨ newest ∈ rest) :
    final.view = newest.view ∨ final.hash = newest.hash := by
  induction h with
  | done =>
    rcases hheld with hview | hhash | hmem
    · exact .inl hview
    · exact .inr hhash
    · cases hmem
  | @newer held msg final rest hhash hview _ ih =>
    obtain ⟨hheldMem, hrest⟩ := forall_mem_cons.mp hsub
    have hmsg := (forall_mem_cons.mp hrest).1
    refine ih hrest ?_
    rcases hheld with hview' | hhash' | hmem
    · exact absurd (hmax msg hmsg) (by rw [← hview']; exact not_le.mpr hview)
    · exact .inl (hundisturbed held hheldMem msg hmsg hhash' (hhash' ▸ hhash.symm) hview)
    · rcases mem_cons.mp hmem with rfl | hmem
      · exact .inl rfl
      · exact .inr (.inr hmem)
  | @kept held msg final rest hkept _ ih =>
    obtain ⟨hheldMem, hrest⟩ := forall_mem_cons.mp hsub
    refine ih (forall_mem_cons.mpr ⟨hheldMem, (forall_mem_cons.mp hrest).2⟩) ?_
    rcases hheld with hview' | hhash' | hmem
    · exact .inl hview'
    · exact .inr (.inl hhash')
    · rcases mem_cons.mp hmem with rfl | hmem
      · rcases hkept with hhash | hview
        · exact .inr (.inl hhash)
        · exact .inl (le_antisymm (hmax held hheldMem) hview)
      · exact .inr (.inr hmem)

/-- If another hash was prepared between two views of the newest one, some order ends with
another hash: the older proposal of the newest hash, all others of this hash, then those of
other hashes with the one in between first. -/
theorem exists_perm_overtaken [DecidableEq Hash] {older msg : PBFTMessage Hash} (holder : older ∈ l)
    (hmsg : msg ∈ l) (hhash : msg.hash ≠ older.hash) (hview : older.view < msg.view) :
    ∃ first rest final, (first :: rest) ~ l ∧ Overtaken first rest final ∧
      final.hash ≠ older.hash := by
  let same := l.filter (·.hash = older.hash)
  let others := l.filter (fun msg => !decide (msg.hash = older.hash))
  have holder' : older ∈ same := mem_filter.mpr ⟨holder, decide_eq_true rfl⟩
  have hmsg' : msg ∈ others := mem_filter.mpr ⟨hmsg, by simpa using hhash⟩
  obtain ⟨final, hfinal⟩ := Overtaken.exists_final msg (others.erase msg)
  refine ⟨older, same.erase older ++ (msg :: others.erase msg), final, ?_, ?_, ?_⟩
  · have hperm := (perm_cons_erase holder').append (perm_cons_erase hmsg')
    exact hperm.symm.trans (filter_append_perm _ l)
  · refine (Overtaken.of_hash_eq fun msg' hmsg' => ?_).append
      (.newer (Ne.symm hhash) hview hfinal)
    exact of_decide_eq_true (mem_filter.mp (mem_of_mem_erase hmsg')).2
  · have hmem := (perm_cons_erase hmsg').mem_iff.mpr hfinal.mem
    simpa using (mem_filter.mp hmem).2

end Order

namespace PBFTCacheProcessor

/-- The prepared proposals of the view-change messages, each with the sender of its
message. -/
def carriedFrom (viewChangeCache : SortedMap IndexType (ViewChangeMsg Hash)) :
    List (IndexType × PBFTMessage Hash) :=
  viewChangeCache.toList.flatMap (fun b => b.2.preparedProposals.map (Prod.mk b.2.generatedFrom))

/-- The prepared proposals of one index, in the order of the senders. -/
def proposalsFor (viewChangeCache : SortedMap IndexType (ViewChangeMsg Hash))
    (index : BlockNumber) : List (PBFTMessage Hash) :=
  (carriedProposals (viewChangeCache.toList.map Prod.snd)).filter (·.index = index)

theorem index_eq_of_mem_proposalsFor {msg : PBFTMessage Hash}
    (h : msg ∈ proposalsFor viewChangeCache index) : msg.index = index :=
  of_decide_eq_true (mem_filter.mp h).2

/-- The two caches carry the same prepared proposals, each with its own senders and order. -/
def SameProposals (cache cache' : SortedMap IndexType (ViewChangeMsg Hash)) : Prop :=
  carriedProposals (cache'.toList.map Prod.snd) ~ carriedProposals (cache.toList.map Prod.snd)

theorem map_snd_carriedFrom :
    ((carriedFrom viewChangeCache).filter (·.2.index = index)).map Prod.snd =
      proposalsFor viewChangeCache index := by
  rw [proposalsFor, carriedProposals, carriedFrom, flatMap_map, filter_flatMap,
    filter_flatMap, map_flatMap]
  congr 1
  funext b
  rw [filter_map, map_map]
  have hsnd : (Prod.snd ∘ Prod.mk b.2.generatedFrom : PBFTMessage Hash → _) = id := rfl
  rw [hsnd, map_id]
  rfl

/-- The indices above the largest committed one up to the largest prepared one. -/
def indicesToPropose (s : PBFTEngine Hash) : List BlockNumber :=
  (List.range (maxPrecommit s - maxCommitted s).toNat).map (fun i : ℕ => maxCommitted s + 1 + i)

theorem lt_of_mem_indicesToPropose {s : PBFTEngine Hash}
    (h : index ∈ indicesToPropose s) : maxCommitted s < index := by
  obtain ⟨i, -, rfl⟩ := mem_map.mp h
  have hle : (0 : ℤ) ≤ i := Int.natCast_nonneg i
  exact (Int.lt_add_one_of_le le_rfl).trans_le (Int.le_add_of_nonneg_right hle)

variable [DecidableEq Hash]

/-- What becomes of the proposal held for an index when another one of the index comes. -/
def hold (held : Option (PBFTMessage Hash)) (carried : IndexType × PBFTMessage Hash) :
    Option (PBFTMessage Hash) :=
  match held with
  | none => some { carried.2 with generatedFrom := carried.1 }
  | some held =>
    if held.hash ≠ carried.2.hash ∧ held.view < carried.2.view then some carried.2
    else some held

/-- Every proposal is held under its index. -/
def KeyedByIndex (prepared : SortedMap BlockNumber (PBFTMessage Hash)) : Prop :=
  ∀ index msg, prepared.find? index = some msg → msg.index = index

variable {prepared : SortedMap BlockNumber (PBFTMessage Hash)} {bound : BlockNumber}

theorem find?_collectPrepared (hkeyed : KeyedByIndex prepared) (hindex : bound < index)
    {carried : IndexType × PBFTMessage Hash} :
    (collectPrepared bound carried.1 prepared carried.2).find? index =
      if carried.2.index = index then hold (prepared.find? index) carried
      else prepared.find? index := by
  rw [collectPrepared]
  by_cases hsame : carried.2.index = index
  · subst hsame
    rw [if_pos rfl, if_neg (not_lt.mpr hindex.le)]
    rcases hheld : prepared.find? carried.2.index with - | held
    · simp [hold, find?_insert]
    · have hheldIndex := hkeyed _ _ hheld
      simp only [hold, hheldIndex, ne_eq, not_true_eq_false, false_or]
      split
      · simp [find?_insert]
      · exact hheld
  · rw [if_neg hsame]
    split
    · rfl
    split
    · split
      · rw [find?_insert, if_neg (Ne.symm hsame)]
      · rfl
    · rw [find?_insert, if_neg (Ne.symm hsame)]

theorem KeyedByIndex.collectPrepared (hkeyed : KeyedByIndex prepared)
    (carried : IndexType × PBFTMessage Hash) :
    KeyedByIndex (collectPrepared bound carried.1 prepared carried.2) := by
  intro index msg hmsg
  rw [PBFTCacheProcessor.collectPrepared] at hmsg
  split at hmsg
  · exact hkeyed _ _ hmsg
  split at hmsg
  · split at hmsg
    · rw [find?_insert] at hmsg
      split at hmsg
      · cases hmsg
        exact Eq.symm ‹_›
      · exact hkeyed _ _ hmsg
    · exact hkeyed _ _ hmsg
  · rw [find?_insert] at hmsg
    split at hmsg
    · cases hmsg
      exact Eq.symm ‹_›
    · exact hkeyed _ _ hmsg

theorem find?_foldl_collectPrepared (hindex : bound < index)
    {l : List (IndexType × PBFTMessage Hash)} (hkeyed : KeyedByIndex prepared) :
    (l.foldl (fun prepared x => collectPrepared bound x.1 prepared x.2) prepared).find? index =
      (l.filter (·.2.index = index)).foldl hold (prepared.find? index) := by
  induction l generalizing prepared with
  | nil => rfl
  | cons carried l ih =>
    rw [foldl_cons, ih (hkeyed.collectPrepared carried),
      find?_collectPrepared hkeyed hindex, filter_cons]
    by_cases hsame : carried.2.index = index
    · simp [hsame]
    · simp [hsame]

theorem find?_preparedProposals (hindex : bound < index) :
    (preparedProposals bound viewChangeCache).find? index =
      ((carriedFrom viewChangeCache).filter (·.2.index = index)).foldl hold none := by
  have hloop : preparedProposals bound viewChangeCache = (carriedFrom viewChangeCache).foldl
        (fun prepared x => collectPrepared bound x.1 prepared x.2) .empty := by
    simp [preparedProposals, carriedFrom, foldl_flatMap, foldl_map]
  have hempty : KeyedByIndex (SortedMap.empty : SortedMap BlockNumber (PBFTMessage Hash)) := by
    intro index msg hmsg
    cases hmsg
  rw [hloop, find?_foldl_collectPrepared hindex hempty]
  rfl

/-- The loop over the proposals of one index holds the one that is not overtaken. -/
theorem foldl_hold (held : PBFTMessage Hash) (generatedFrom : IndexType)
    (l : List (IndexType × PBFTMessage Hash)) :
    ∃ final from', Overtaken held (l.map Prod.snd) final ∧
      l.foldl hold (some { held with generatedFrom }) =
        some { final with generatedFrom := from' } := by
  induction l generalizing held generatedFrom with
  | nil => exact ⟨held, generatedFrom, .done held, rfl⟩
  | cons carried l ih =>
    rw [foldl_cons, hold, map_cons]
    split
    · rename_i hnewer
      obtain ⟨final, from', hover, hfold⟩ := ih carried.2 carried.2.generatedFrom
      exact ⟨final, from', .newer hnewer.1 hnewer.2 hover, hfold⟩
    · rename_i hkept
      obtain ⟨final, from', hover, hfold⟩ := ih held generatedFrom
      refine ⟨final, from', .kept ?_ hover, hfold⟩
      by_cases hhash : held.hash = carried.2.hash
      · exact .inl hhash
      · exact .inr (not_lt.mp (fun hview => hkept ⟨hhash, hview⟩))

/-! ## The pre-prepare messages of a new view -/

/-- A loop that may fail returns results with these keys and this property exactly if
every round does. -/
theorem exists_mapM_iff {ε α β : Type} {f : α → Except ε β} {key : β → α} {Q : β → Prop}
    {l : List α} : (∃ r, l.mapM f = .ok r ∧ r.map key = l ∧ ∀ b ∈ r, Q b) ↔
      ∀ a ∈ l, ∃ b, f a = .ok b ∧ key b = a ∧ Q b := by
  induction l with
  | nil =>
    constructor
    · intro _ a ha
      cases ha
    · intro _
      exact ⟨[], rfl, rfl, fun b hb => by cases hb⟩
  | cons a l ih =>
    rw [forall_mem_cons, ← ih]
    constructor
    · rintro ⟨r, hr, hkeys, hQ⟩
      rw [mapM_cons] at hr
      rcases hfa : f a with e | b
      · rw [hfa] at hr
        cases hr
      · rw [hfa] at hr
        rcases hrest : l.mapM f with e | rest
        · rw [hrest] at hr
          cases hr
        · rw [hrest] at hr
          cases hr
          obtain ⟨hkey, hkeys⟩ := cons_eq_cons.mp hkeys
          obtain ⟨hb, hQ⟩ := forall_mem_cons.mp hQ
          exact ⟨⟨b, rfl, hkey, hb⟩, rest, rfl, hkeys, hQ⟩
    · rintro ⟨⟨b, hfa, hkey, hb⟩, rest, hrest, hkeys, hQ⟩
      refine ⟨b :: rest, ?_, ?_, forall_mem_cons.mpr ⟨hb, hQ⟩⟩
      · rw [mapM_cons, hfa, hrest]
        rfl
      · rw [map_cons, hkey, hkeys]

/-- A prepared proposal of the index has this hash, and none has a higher view. -/
def IsNewest (viewChangeCache : SortedMap IndexType (ViewChangeMsg Hash))
    (index : BlockNumber) (hash : Hash) : Prop :=
  ∃ msg ∈ proposalsFor viewChangeCache index,
    msg.consensusProposal.map PBFTProposal.hash = some hash ∧
    ∀ msg' ∈ proposalsFor viewChangeCache index, msg'.view ≤ msg.view

variable (env : Env Hash) (s : PBFTEngine Hash)

/-- One pre-prepare message for each index, in order, each with one of the newest prepared
proposals, or with the empty proposal if there is none. -/
def ReproposesInOrder (viewChangeCache : SortedMap IndexType (ViewChangeMsg Hash)) : Prop :=
  ∃ prePrepareList, generatePrePrepareMsg env s viewChangeCache = .ok prePrepareList ∧
    prePrepareList.map (·.index) = indicesToPropose s ∧ ∀ prePrepare ∈ prePrepareList,
      IsNewest viewChangeCache prePrepare.index prePrepare.hash ∨
      (proposalsFor viewChangeCache prePrepare.index = [] ∧
        prePrepare.consensusProposal = some (env.generateEmptyProposal prePrepare.index))

/-- The proposal that is not overtaken carries a block of the index, and it is one of the
newest. -/
def EndsWithNewest (viewChangeCache : SortedMap IndexType (ViewChangeMsg Hash))
    (index : BlockNumber) : Prop :=
  ∀ first rest final, proposalsFor viewChangeCache index = first :: rest →
    Overtaken first rest final →
    ∃ proposal, final.consensusProposal = some proposal ∧ proposal.index = index ∧
      IsNewest viewChangeCache index proposal.hash

variable {env s} {toView : ViewType}

theorem prePrepareOf_empty
    (hindex : maxCommitted s < index) (hnone : proposalsFor viewChangeCache index = []) :
    prePrepareOf env toView (preparedProposals (maxCommitted s) viewChangeCache) index =
      .ok (populatePrePrepare (env.generateEmptyProposal index) toView env.nodeIndex) := by
  have hcarried : (carriedFrom viewChangeCache).filter (·.2.index = index) = [] := by
    rw [← map_eq_nil_iff (f := Prod.snd), map_snd_carriedFrom, hnone]
  have hfind : (preparedProposals (maxCommitted s) viewChangeCache).find? index = none := by
    rw [find?_preparedProposals hindex, hcarried]
    rfl
  rw [prePrepareOf, hfind]

variable (env) in
theorem prePrepareOf_overtaken (toView : ViewType) {first final : PBFTMessage Hash}
    (hindex : maxCommitted s < index)
    (hproposals : proposalsFor viewChangeCache index = first :: rest)
    (hfinal : Overtaken first rest final) : ∃ generatedFrom,
      prePrepareOf env toView (preparedProposals (maxCommitted s) viewChangeCache) index =
        match final.consensusProposal with
        | none => .error .nullPointer
        | some proposal => .ok (populatePrePrepare proposal toView generatedFrom) := by
  rw [← map_snd_carriedFrom] at hproposals
  obtain ⟨carried, l, hcarried, hfirst, hrest⟩ := map_eq_cons_iff.mp hproposals
  obtain ⟨final', generatedFrom, hover, hfold⟩ := foldl_hold carried.2 carried.1 l
  rw [hfirst, hrest] at hover
  cases hfinal.unique hover
  have hfind : (preparedProposals (maxCommitted s) viewChangeCache).find? index =
      some { final with generatedFrom } := by
    rw [find?_preparedProposals hindex, hcarried, foldl_cons]
    exact hfold
  refine ⟨generatedFrom, ?_⟩
  rcases hprop : final.consensusProposal with - | proposal
  · simp [prePrepareOf, hfind, hprop]
  · simp [prePrepareOf, hfind, hprop]

/-- One index: the message is as it should be exactly if the proposal that is not overtaken
is one of the newest. -/
theorem prePrepareOf_iff (hindex : maxCommitted s < index) : (∃ prePrepare, prePrepareOf env toView
        (preparedProposals (maxCommitted s) viewChangeCache) index = .ok prePrepare ∧
      prePrepare.index = index ∧ (IsNewest viewChangeCache prePrepare.index prePrepare.hash ∨
        (proposalsFor viewChangeCache prePrepare.index = [] ∧ prePrepare.consensusProposal =
            some (env.generateEmptyProposal prePrepare.index)))) ↔
      EndsWithNewest viewChangeCache index := by
  rcases hproposals : proposalsFor viewChangeCache index with - | ⟨first, rest⟩
  · constructor
    · intro _ first rest final hcons
      rw [hproposals] at hcons
      cases hcons
    · intro _
      exact ⟨_, prePrepareOf_empty hindex hproposals, rfl, .inr ⟨hproposals, rfl⟩⟩
  · obtain ⟨final, hfinal⟩ := Overtaken.exists_final first rest
    obtain ⟨generatedFrom, heq⟩ :=
      prePrepareOf_overtaken env toView hindex hproposals hfinal
    constructor
    · rintro ⟨prePrepare, hok, rfl, hnewest⟩ first' rest' final' hcons hfinal'
      rw [hproposals] at hcons
      cases hcons
      cases hfinal.unique hfinal'
      rw [heq] at hok
      rcases hprop : final.consensusProposal with - | proposal
      · rw [hprop] at hok
        cases hok
      · rw [hprop] at hok
        cases hok
        rcases hnewest with hnewest | ⟨hnil, -⟩
        · exact ⟨proposal, rfl, rfl, hnewest⟩
        · rw [hproposals] at hnil
          cases hnil
    · intro hends
      obtain ⟨proposal, hprop, hown, hnewest⟩ := hends _ _ _ hproposals hfinal
      rw [hprop] at heq
      refine ⟨_, heq, hown, .inl ?_⟩
      change IsNewest viewChangeCache proposal.index proposal.hash
      rw [hown]
      exact hnewest

variable (env s) in
theorem reproposesInOrder_iff_forall : ReproposesInOrder env s viewChangeCache ↔
      ∀ index ∈ indicesToPropose s, ∃ prePrepare, prePrepareOf env s.config.toView
          (preparedProposals (maxCommitted s) viewChangeCache) index = .ok prePrepare ∧
        prePrepare.index = index ∧ (IsNewest viewChangeCache prePrepare.index prePrepare.hash ∨
          (proposalsFor viewChangeCache prePrepare.index = [] ∧ prePrepare.consensusProposal =
              some (env.generateEmptyProposal prePrepare.index))) := by
  have hloop : generatePrePrepareMsg env s viewChangeCache =
      (indicesToPropose s).mapM (prePrepareOf env s.config.toView
        (preparedProposals (maxCommitted s) viewChangeCache)) := by
    rw [indicesToPropose, mapM_map]
    rfl
  rw [ReproposesInOrder, hloop, exists_mapM_iff]

/-- The message has the index and the hash of the proposal it carries. -/
def Carries (msg : PBFTMessage Hash) : Prop :=
  ∃ proposal, msg.consensusProposal = some proposal ∧ proposal.index = msg.index ∧
    proposal.hash = msg.hash

instance (msg : PBFTMessage Hash) : Decidable (Carries msg) :=
  inferInstanceAs (Decidable (∃ proposal ∈ msg.consensusProposal, _ ∧ _))

omit [DecidableEq Hash] in
theorem EndsWithNewest.of_undisturbed
    (hcarries : ∀ msg ∈ proposalsFor viewChangeCache index, Carries msg)
    (h : Undisturbed (proposalsFor viewChangeCache index)) :
    EndsWithNewest viewChangeCache index := by
  intro first rest final hcons hfinal
  rw [hcons] at hcarries h
  obtain ⟨newest, hnewest, hmax, hdisturb⟩ := h (cons_ne_nil _ _)
  have hstart : first.view = newest.view ∨ first.hash = newest.hash ∨ newest ∈ rest := by
    rcases mem_cons.mp hnewest with rfl | hmem
    · exact .inl rfl
    · exact .inr (.inr hmem)
  obtain ⟨proposal, hproposal, hindex, hhash⟩ := hcarries final hfinal.mem
  have hown := index_eq_of_mem_proposalsFor (hcons ▸ hfinal.mem)
  refine ⟨proposal, hproposal, hindex.trans hown, ?_⟩
  rw [IsNewest, hcons]
  rcases hfinal.final_newest (fun _ => id) hmax hdisturb hstart with hview | hsame
  · refine ⟨final, hfinal.mem, by rw [hproposal]; rfl, fun msg hmsg => ?_⟩
    rw [hview]
    exact hmax msg hmsg
  · obtain ⟨proposal', hproposal', -, hhash'⟩ := hcarries newest hnewest
    refine ⟨newest, hnewest, ?_, hmax⟩
    rw [hproposal', hhash, hsame, ← hhash']
    rfl

omit [DecidableEq Hash] in
theorem exists_cache_carrying (l : List (PBFTMessage Hash)) :
    ∃ cache : SortedMap IndexType (ViewChangeMsg Hash),
      carriedProposals (cache.toList.map Prod.snd) = l := by
  rcases l with - | ⟨msg, l⟩
  · exact ⟨.empty, rfl⟩
  · refine ⟨SortedMap.empty.insert 0 {
      msg.toBaseMessage with
      committedProposal := ⟨msg.index, msg.hash, [], false, [], []⟩
      preparedProposals := msg :: l
      signatureDataHash := msg.hash
      signatureData := [] }, ?_⟩
    exact append_nil _

/-- In some order of the same proposals the loop ends with a block that is not the newest. -/
theorem exists_sameProposals_not_endsWithNewest
    (hcarries : ∀ msg ∈ proposalsFor viewChangeCache index, Carries msg)
    (hone : OneNewest (proposalsFor viewChangeCache index))
    (h : ¬ Undisturbed (proposalsFor viewChangeCache index)) :
    ∃ cache, SameProposals viewChangeCache cache ∧ ¬ EndsWithNewest cache index := by
  obtain ⟨hne, hdisturbed⟩ := Classical.not_imp.mp h
  obtain ⟨newest, hnewest, hmax⟩ := exists_newest hne
  have hbetween : ∃ older ∈ proposalsFor viewChangeCache index,
      ∃ msg ∈ proposalsFor viewChangeCache index, older.hash = newest.hash ∧
        msg.hash ≠ newest.hash ∧ older.view < msg.view := by
    by_contra hnone
    refine hdisturbed ⟨newest, hnewest, hmax, fun older holder msg hmsg hsame hother hview => ?_⟩
    exact absurd ⟨older, holder, msg, hmsg, hsame, hother, hview⟩ hnone
  obtain ⟨older, holder, msg, hmsg, hsame, hother, hview⟩ := hbetween
  obtain ⟨first, rest, final, hperm, hfinal, hhash⟩ :=
    exists_perm_overtaken holder hmsg (hsame ▸ hother) hview
  obtain ⟨cache, hcache⟩ := exists_cache_carrying ((first :: rest) ++
    (carriedProposals (viewChangeCache.toList.map Prod.snd)).filter
      (fun msg => !decide (msg.index = index)))
  have hproposals : proposalsFor cache index = first :: rest := by
    have hown : (first :: rest).filter (·.index = index) = first :: rest :=
      filter_eq_self.mpr fun msg hmem =>
        decide_eq_true (index_eq_of_mem_proposalsFor (hperm.mem_iff.mp hmem))
    rw [proposalsFor, hcache, filter_append, hown, filter_filter]
    simp
  refine ⟨cache, ?_, fun hends => ?_⟩
  · rw [SameProposals, hcache]
    exact (hperm.append_right _).trans (filter_append_perm _ _)
  · obtain ⟨proposal, hproposal, -, msg', hmsg', hhash', hmax'⟩ :=
      hends first rest final hproposals hfinal
    rw [hproposals] at hmsg' hmax'
    have hmem := hperm.mem_iff.mp hmsg'
    have hmem' := hperm.mem_iff.mp hfinal.mem
    have hview' : msg'.view = newest.view :=
      le_antisymm (hmax msg' hmem) (hmax' newest (hperm.mem_iff.mpr hnewest))
    obtain ⟨_, hcarried, -, hown⟩ := hcarries final hmem'
    obtain ⟨_, hcarried', -, hown'⟩ := hcarries msg' hmem
    cases hproposal.symm.trans hcarried
    rw [hcarried', Option.map_some, Option.some_inj] at hhash'
    have hnewestHash := hone newest hnewest msg' hmem hmax hview'
    rw [← hown', hhash', hown, ← hsame] at hnewestHash
    exact hhash hnewestHash

/-- Block 7 and block 9 at index 1, prepared in the views 1, 3 and `view` and reported to the
leader of view 4 in this order. -/
def reported (view : ViewType) : PBFTEngine Digest :=
  let prepared (view : ViewType) (name : ℕ) : PBFTMessage Digest :=
    { PBFTEngine.preparedBlock name with view }
  let node := PBFTEngine.start Digest 0 (.block 0)
  final (do
    addViewChangeReq (fourNodes 1) (PBFTEngine.viewChangeOf 0 4 [prepared 1 7])
    addViewChangeReq (fourNodes 1) (PBFTEngine.viewChangeOf 1 4 [prepared 3 7])
    addViewChangeReq (fourNodes 1) (PBFTEngine.viewChangeOf 3 4 [prepared view 9]))
    { node with config := { node.config with toView := 4 } }

def reportedCache (view : ViewType) : SortedMap IndexType (ViewChangeMsg Digest) :=
  ((reported view).viewChangeCache.find? 4).getD .empty

end PBFTCacheProcessor

end FiscoSmart.Consensus
