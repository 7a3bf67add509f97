import FiscoSmart.Executor.StackFlow

/-!
# The invariant of the executive flow

Between the calls of the flow, a frame is paused, finished, or waits in one of the
two flows with the message that it is to get.  `Ran` describes what running some
of the frames does; both loops of a run are instances of it.  A submitted input
that is for a new frame or answers a paused one keeps the invariant, and so does a
run.
-/

namespace FiscoSmart.Executor.StackFlow

open List Option

variable {f g : Flow} {key k : Key} {keys : List Key} {s : ExecutiveState} {keyLocks : List Bytes}
  {p : CallParameters}

/-! ## Running frames -/

section Frames

variable {h : Flow}

namespace Flow

def status (f : Flow) (key : Key) : Option Status :=
  (f.executives key).map ExecutiveState.status

def pending (f : Flow) (key : Key) : Option CallParameters :=
  (f.executives key).bind ExecutiveState.pending

end Flow

theorem setState_self : (f.setState key s).executives key = some s := if_pos rfl

theorem setState_of_ne (h : k ≠ key) : (f.setState key s).executives k = f.executives k := if_neg h

/-- The executive states are filed under their own keys. -/
def Filed (f : Flow) : Prop :=
  ∀ key s, f.executives key = some s → (s.contextID, s.seq) = key

/-- The delivery is the message that waited for the frame, with the key locks it
got on its way. -/
def Delivers (f : Flow) (delivery : Key × CallParameters) : Prop :=
  ∃ message keyLocks, f.pending delivery.1 = some message ∧
    delivery.2 = message.addKeyLocks keyLocks

/-- The frames of the keys have been run, once each, and each got the message that
waited for it. -/
structure Ran (f : Flow) (keys : List Key) (g : Flow) : Prop where
  filed : Filed g
  other : ∀ k ∉ keys, g.executives k = f.executives k
  settled : ∀ k ∈ keys, ∃ s, g.executives k = some s ∧
    ((s.status = .paused ∧ s.executive = some ⟨none, false⟩) ∨ s.status = .finished)
  paused : ∀ k, k ∈ g.pausedPool ↔ k ∈ f.pausedPool ∨ (k ∈ keys ∧ g.status k = some .paused)
  delivered : ∃ deliveries, g.delivered = f.delivered ++ deliveries ∧
    deliveries.map Prod.fst = keys ∧ ∀ d ∈ deliveries, Delivers f d
  isRunning : g.isRunning = f.isRunning

theorem Ran.refl (h : Filed f) : Ran f [] f where
  filed := h
  other _ _ := rfl
  settled _ hk := absurd hk not_mem_nil
  paused k := by simp
  delivered := ⟨[], (append_nil _).symm, rfl, fun _ hd => absurd hd not_mem_nil⟩
  isRunning := rfl

theorem status_eq_of_executives (h : g.executives k = f.executives k) :
    g.status k = f.status k := by
  rw [Flow.status, h, ← Flow.status]

theorem pending_eq_of_executives (h : g.executives k = f.executives k) :
    g.pending k = f.pending k := by
  rw [Flow.pending, h, ← Flow.pending]

theorem Ran.trans {keys' : List Key} (h₁ : Ran f keys g) (h₂ : Ran g keys' h)
    (hdisjoint : ∀ k ∈ keys, k ∉ keys') : Ran f (keys ++ keys') h where
  filed := h₂.filed
  other k hk := by
    rw [mem_append, not_or] at hk
    rw [h₂.other k hk.2, h₁.other k hk.1]
  settled k hk := by
    by_cases hk' : k ∈ keys'
    · exact h₂.settled k hk'
    · obtain ⟨s, hs, hstat⟩ := h₁.settled k ((mem_append.mp hk).resolve_right hk')
      exact ⟨s, (h₂.other k hk').trans hs, hstat⟩
  paused k := by
    rw [h₂.paused, h₁.paused, mem_append]
    by_cases hk' : k ∈ keys'
    · have hk : k ∉ keys := fun hmem => hdisjoint k hmem hk'
      simp [hk, hk']
    · rw [status_eq_of_executives (h₂.other k hk')]
      simp [hk']
  delivered := by
    obtain ⟨ds, hds, hkeys, hall⟩ := h₁.delivered
    obtain ⟨ds', hds', hkeys', hall'⟩ := h₂.delivered
    refine ⟨ds ++ ds', ?_, ?_, fun d hd => ?_⟩
    · rw [hds', hds, append_assoc]
    · rw [map_append, hkeys, hkeys']
    · rcases mem_append.mp hd with hd | hd
      · exact hall d hd
      · obtain ⟨msg, keyLocks, hpend, heq⟩ := hall' d hd
        have hmem : d.1 ∈ keys' := hkeys' ▸ mem_map_of_mem hd
        have hother := h₁.other d.1 fun hk => hdisjoint _ hk hmem
        exact ⟨msg, keyLocks, pending_eq_of_executives hother ▸ hpend, heq⟩
  isRunning := h₂.isRunning.trans h₁.isRunning

theorem statusOf_eq (type : MessageType) : statusOf type = .paused ∨ statusOf type = .finished := by
  cases type
  · exact .inl rfl
  · exact .inl rfl
  · exact .inr rfl
  · exact .inr rfl

variable {msg : CallParameters}

theorem ran_single {output : CallParameters}
    (hfiled : Filed f) (hs : f.executives key = some s) (hmsg : s.pending = some msg)
    (hexecutives : g.executives = (f.setState key (s.after output)).executives)
    (hpool : ∀ k, k ∈ g.pausedPool ↔ k ∈ f.pausedPool ∨ (k = key ∧ statusOf output.type = .paused))
    (hdelivered : g.delivered = f.delivered ++ [(key, msg)])
    (hrunning : g.isRunning = f.isRunning) : Ran f [key] g := by
  have hself : g.executives key = some (s.after output) := by
    rw [hexecutives, setState_self]
  have hother : ∀ k, k ≠ key → g.executives k = f.executives k := fun k hk => by
    rw [hexecutives, setState_of_ne hk]
  have hstat : g.status key = some (statusOf output.type) := by
    rw [Flow.status, hself]
    rfl
  refine ⟨fun k t ht => ?_, fun k hk => hother k (by simpa using hk), fun k hk => ?_,
    fun k => ?_, ⟨_, hdelivered, rfl, fun d hd => ?_⟩, hrunning⟩
  · by_cases hk : k = key
    · subst hk
      cases hself.symm.trans ht
      exact hfiled k s hs
    · exact hfiled k t ((hother k hk).symm.trans ht)
  · obtain rfl := mem_singleton.mp hk
    refine ⟨_, hself, ?_⟩
    rcases statusOf_eq output.type with htype | htype
    · exact .inl ⟨htype, by simp [ExecutiveState.after, htype]⟩
    · exact .inr htype
  · rw [hpool, mem_singleton]
    by_cases hk : k = key
    · simp [hk, hstat]
    · simp [hk]
  · obtain rfl := mem_singleton.mp hd
    refine ⟨msg, [], ?_, by simp [CallParameters.addKeyLocks]⟩
    rw [Flow.pending, hs, bind_some, hmsg]

variable (behaviour : Behaviour)

theorem exists_runOne (hfiled : Filed f) (hpend : f.pending key = some msg) :
    ∃ output g, f.runOne behaviour key = some (output, g) ∧ Ran f [key] g ∧
      g.originFlow = f.originFlow ∧ g.waitingFlow = f.waitingFlow := by
  obtain ⟨s, hs, hmsg⟩ := bind_eq_some_iff.mp hpend
  have hkey := hfiled key s hs
  generalize houtput : behaviour f.delivered (s.contextID, s.seq) msg = output
  have hgo : s.go (behaviour f.delivered) =
      some (msg, { output with contextID := s.contextID, seq := s.seq }, s.after output) := by
    simp [ExecutiveState.go, hmsg, houtput]
  have hrun : f.runOne behaviour key = some
      ({ output with contextID := s.contextID, seq := s.seq },
        { f.setState key (s.after output) with
          pausedPool :=
            if statusOf output.type = .paused then insert key f.pausedPool else f.pausedPool
          delivered := f.delivered ++ [(key, msg)]
          returned := f.returned ++
            [{ output with contextID := s.contextID, seq := s.seq }] }) := by
    rcases statusOf_eq output.type with htype | htype <;>
      simp [Flow.runOne, hs, hgo, ExecutiveState.after, htype, hkey, Flow.setState]
  refine ⟨_, _, hrun, ran_single hfiled hs hmsg rfl (fun k => ?_) rfl rfl, rfl, rfl⟩
  rcases statusOf_eq output.type with htype | htype
  · simp [htype, or_comm]
  · simp [htype]

theorem pending_appendKeyLocks (h : s.pending = some msg) :
    ∃ s', s.appendKeyLocks keyLocks = some s' ∧ s'.contextID = s.contextID ∧ s'.seq = s.seq ∧
      s'.pending = some (msg.addKeyLocks keyLocks) := by
  rcases hstat : s.status with - | - | - | -
  · have hinput : s.input = some msg := by simpa [ExecutiveState.pending, hstat] using h
    refine ⟨{ s with input := some (msg.addKeyLocks keyLocks) }, ?_, rfl, rfl, ?_⟩
    · simp [ExecutiveState.appendKeyLocks, hstat, hinput]
    · simp [ExecutiveState.pending, hstat]
  · simp [ExecutiveState.pending, hstat] at h
  · have hexecutive : s.executive = some ⟨some msg, false⟩ := by
      rcases hexec : s.executive with _ | ⟨_ | _, _ | _⟩ <;>
        simp_all [ExecutiveState.pending]
    refine ⟨{ s with executive := some ⟨some (msg.addKeyLocks keyLocks), false⟩ }, ?_, rfl, rfl, ?_⟩
    · simp [ExecutiveState.appendKeyLocks, hstat, hexecutive]
    · simp [ExecutiveState.pending, hstat]
  · simp [ExecutiveState.pending, hstat] at h

theorem addKeyLocks_addKeyLocks {keyLocks' : List Bytes} :
    (p.addKeyLocks keyLocks).addKeyLocks keyLocks' = p.addKeyLocks (keyLocks ++ keyLocks') := by
  simp [CallParameters.addKeyLocks]

/-- Running a frame whose message got key locks is running the frame. -/
theorem Ran.of_setState (hpend : f.pending key = some msg)
    (hs : s.pending = some (msg.addKeyLocks keyLocks))
    (h : Ran (f.setState key s) [key] g) : Ran f [key] g := { h with
  other k hk := by rw [h.other k hk, setState_of_ne (by simpa using hk)]
  delivered := by
    obtain ⟨ds, hds, hkeys, hall⟩ := h.delivered
    refine ⟨ds, hds, hkeys, fun d hd => ?_⟩
    obtain ⟨msg', keyLocks', hpend', heq⟩ := hall d hd
    have hd : d.1 = key := mem_singleton.mp (hkeys ▸ mem_map_of_mem hd)
    rw [hd, Flow.pending, setState_self, bind_some, hs] at hpend'
    cases hpend'
    exact ⟨msg, keyLocks ++ keyLocks', hd ▸ hpend, by rw [heq, addKeyLocks_addKeyLocks]⟩ }

theorem Filed.setState (h : Filed f)
    (hs : (s.contextID, s.seq) = key) : Filed (f.setState key s) := by
  intro k t ht
  by_cases hk : k = key
  · subst hk
    cases setState_self.symm.trans ht
    exact hs
  · exact h k t ((setState_of_ne hk).symm.trans ht)

/-- Running a frame leaves the messages of the other frames alone. -/
theorem Ran.pending_rest (h : Ran f [key] g) (hkey : key ∉ keys)
    (hpend : ∀ k ∈ key :: keys, (f.pending k).isSome) : ∀ k ∈ keys, (g.pending k).isSome := by
  intro k hk
  have hne : k ∉ [key] := fun hmem => hkey (mem_singleton.mp hmem ▸ hk)
  rw [pending_eq_of_executives (h.other k hne)]
  exact hpend k (mem_cons_of_mem _ hk)

theorem exists_runWaitingLoop (hnodup : keys.Nodup) (hfiled : Filed f)
    (hrunning : f.isRunning = true) (hpend : ∀ k ∈ keys, (f.pending k).isSome)
    (keyLocks : List Bytes) :
    ∃ g, Flow.runWaitingLoop behaviour keys keyLocks f = some (true, g) ∧ Ran f keys g ∧
      g.originFlow = f.originFlow := by
  induction keys generalizing f keyLocks with
  | nil => exact ⟨f, rfl, Ran.refl hfiled, rfl⟩
  | cons key keys ih =>
    obtain ⟨hkey, hnodup⟩ := nodup_cons.mp hnodup
    obtain ⟨msg, hmsg⟩ := isSome_iff_exists.mp (hpend key mem_cons_self)
    obtain ⟨s, hs, hspending⟩ := bind_eq_some_iff.mp hmsg
    obtain ⟨s', hs', hcontext, hseq, hs'pending⟩ := pending_appendKeyLocks hspending
    have hfiled' : Filed (f.setState key s') :=
      hfiled.setState (by rw [hcontext, hseq]; exact hfiled key s hs)
    have hpend' : (f.setState key s').pending key = some (msg.addKeyLocks keyLocks) := by
      rw [Flow.pending, setState_self, bind_some, hs'pending]
    obtain ⟨output, g, hrun, hran, horigin, -⟩ :=
      exists_runOne behaviour hfiled' hpend'
    replace hran := Ran.of_setState hmsg hs'pending hran
    obtain ⟨h, hloop, hran', horigin'⟩ := ih hnodup hran.filed
      (hran.isRunning.trans hrunning) (hran.pending_rest hkey hpend)
      (keyLocks ++ Flow.outputKeyLocks output)
    refine ⟨h, ?_, hran.trans hran' (by simpa using hkey), horigin'.trans horigin⟩
    simp [Flow.runWaitingLoop, hrunning, hs, hs', hrun, hloop]

/-- Running frames neither reads nor writes the origin flow and the waiting flow. -/
theorem Ran.congr {f' g' : Flow} (h : Ran f keys g)
    (hf : { f' with originFlow := f.originFlow, waitingFlow := f.waitingFlow } = f)
    (hg : { g' with originFlow := g.originFlow, waitingFlow := g.waitingFlow } = g) :
    Ran f' keys g' := by
  rw [← hf, ← hg] at h
  exact { h with }

theorem exists_runOriginLoop (hnodup : keys.Nodup)
    (hfiled : Filed f) (hrunning : f.isRunning = true) (hpend : ∀ k ∈ keys, (f.pending k).isSome) :
    ∃ g ran rest, Flow.runOriginLoop behaviour keys f = some g ∧ keys = ran ++ rest ∧
      g.originFlow = rest ∧ Ran f ran g ∧ g.waitingFlow = f.waitingFlow := by
  induction keys generalizing f with
  | nil =>
    exact ⟨{ f with originFlow := [] }, [], [], rfl, rfl, rfl, (Ran.refl hfiled).congr rfl rfl, rfl⟩
  | cons key keys ih =>
    obtain ⟨hkey, hnodup⟩ := nodup_cons.mp hnodup
    obtain ⟨msg, hmsg⟩ := isSome_iff_exists.mp (hpend key mem_cons_self)
    have hmsg' : Flow.pending { f with originFlow := keys } key = some msg := hmsg
    have hfiled' : Filed { f with originFlow := keys } := hfiled
    obtain ⟨output, g, hrun, hran, horigin, hwait⟩ :=
      exists_runOne behaviour hfiled' hmsg'
    replace hran : Ran f [key] g := hran.congr rfl rfl
    by_cases hpaused : (g.executives key).map ExecutiveState.status = some .paused
    · refine ⟨g, [key], keys, ?_, rfl, horigin, hran, hwait⟩
      simp only [Flow.runOriginLoop, not_not_intro hrunning, if_false, hrun, if_pos hpaused,
        bind_eq_bind, bind_some]
    · obtain ⟨h, ran, rest, hloop, hkeys, horigin', hran', hwait'⟩ := ih hnodup hran.filed
        (hran.isRunning.trans hrunning) (hran.pending_rest hkey hpend)
      refine ⟨h, key :: ran, rest, ?_, by rw [hkeys, cons_append], horigin', ?_, hwait'.trans hwait⟩
      · simp only [Flow.runOriginLoop, not_not_intro hrunning, if_false, hrun,
          if_neg hpaused, hloop, bind_eq_bind, bind_some]
      · refine hran.trans hran' fun k hk hmem => hkey ?_
        rw [mem_singleton.mp hk] at hmem
        exact hkeys ▸ mem_append_left _ hmem

end Frames

/-! ## The invariant of the flow -/

section Invariant

/-- The message belongs to the origin flow. -/
def IsOrigin (p : CallParameters) : Prop := p.seq = 0 ∧ p.type = .message

/-- The paused pool holds the paused frames, and every other frame that is not
finished waits in one of the flows with the message it is to get. -/
structure Consistent (f : Flow) : Prop where
  filed : Filed f
  paused : ∀ k, k ∈ f.pausedPool ↔ f.status k = some .paused
  suspended : ∀ k s, f.executives k = some s → s.status = .paused → s.executive = some ⟨none, false⟩
  origin : ∀ k ∈ f.originFlow, ∃ p, f.pending k = some p ∧ IsOrigin p ∧ p.key = k
  waiting : ∀ k ∈ f.waitingFlow, ∃ p, f.pending k = some p ∧ ¬ IsOrigin p ∧ p.key = k
  resumes : ∀ k, f.status k = some .needResume → k ∈ f.waitingFlow
  originNodup : f.originFlow.Nodup
  waitingNodup : f.waitingFlow.Nodup

theorem consistent_empty : Consistent .empty := by
  constructor <;> simp [Flow.empty, Filed, Flow.status]

theorem before_or_before {a b : Key} (h : a ≠ b) : before a b = true ∨ before b a = true := by
  unfold before
  by_cases hcontext : a.1 = b.1
  · have hseq : a.2 ≠ b.2 := fun heq => h (Prod.ext hcontext heq)
    rw [if_pos hcontext, if_pos hcontext.symm]
    simp only [decide_eq_true_eq]
    omega
  · rw [if_neg hcontext, if_neg (Ne.symm hcontext)]
    simp only [decide_eq_true_eq]
    omega

theorem perm_insertWaiting (h : key ∉ keys) : (insertWaiting key keys).Perm (key :: keys) := by
  induction keys with
  | nil => exact List.Perm.refl _
  | cons k keys ih =>
    rw [mem_cons, not_or] at h
    unfold insertWaiting
    split
    · exact List.Perm.refl _
    · rename_i hbefore
      rw [if_pos ((before_or_before h.1).resolve_left hbefore)]
      exact ((ih h.2).cons k).trans (List.Perm.swap key k keys)

/-- The input is for a new frame, or the reply to a paused one that is not taken
for a new transaction. -/
def Admissible (f : Flow) (input : Input) : Prop :=
  ∃ p, input.parameters = some p ∧
    (f.executives p.key = none ∨ (f.status p.key = some .paused ∧ ¬ IsOrigin p))

theorem pending_eq_none
    (hk : f.executives k = none ∨ f.status k = some .paused) : f.pending k = none := by
  unfold Flow.pending
  rcases hs : f.executives k with - | s
  · rfl
  · have hpaused : s.status = .paused := by simpa [Flow.status, hs] using hk
    simp [ExecutiveState.pending, hpaused]

theorem Consistent.notMem_waitingFlow (h : Consistent f) (hk : f.pending k = none) :
    k ∉ f.waitingFlow := fun hmem => by
  obtain ⟨p, hp, -⟩ := h.waiting k hmem
  cases hp.symm.trans hk

theorem Consistent.notMem_originFlow (h : Consistent f) (hk : f.pending k = none) :
    k ∉ f.originFlow := fun hmem => by
  obtain ⟨p, hp, -⟩ := h.origin k hmem
  cases hp.symm.trans hk

theorem exists_executiveFor (h : Consistent f)
    (hp : f.executives p.key = none ∨ f.status p.key = some .paused) :
    ∃ s, f.executiveFor p = some s ∧ (s.contextID, s.seq) = p.key ∧ s.pending = some p ∧
      ((s.status = .needRun ∧ f.executives p.key = none) ∨
        (s.status = .needResume ∧ f.status p.key = some .paused)) := by
  unfold Flow.executiveFor
  rcases hs : f.executives p.key with - | s
  · exact ⟨ExecutiveState.new p, rfl, rfl, rfl, .inl ⟨rfl, rfl⟩⟩
  · have hpaused : s.status = .paused := by simpa [Flow.status, hs] using hp
    have hexecutive := h.suspended _ s hs hpaused
    refine ⟨{ s with status := .needResume, executive := some ⟨some p, false⟩ }, ?_,
      h.filed _ s hs, rfl, .inr ⟨rfl, ?_⟩⟩
    · simp [ExecutiveState.setResumeParam, hexecutive]
    · simp [Flow.status, hs, hpaused]

/-- What `submit` does with an admissible input. -/
structure Submitted (f : Flow) (p : CallParameters) (g : Flow) : Prop where
  consistent : Consistent g
  pending : g.pending p.key = some p
  resumed : f.status p.key = some .paused → g.status p.key = some .needResume
  other : ∀ k ≠ p.key, g.executives k = f.executives k
  delivered : g.delivered = f.delivered
  isRunning : g.isRunning = f.isRunning
  originFlow : g.originFlow = f.originFlow ++ if p.seq = 0 ∧ p.type = .message then [p.key] else []

theorem pending_setState (hk : k ≠ key) : (f.setState key s).pending k = f.pending k :=
  pending_eq_of_executives (setState_of_ne hk)

theorem status_setState (hk : k ≠ key) : (f.setState key s).status k = f.status k :=
  status_eq_of_executives (setState_of_ne hk)

theorem exists_pending_setState {P : CallParameters → Prop} (hkey : key ∉ keys)
    (h : ∀ k ∈ keys, ∃ p, f.pending k = some p ∧ P p ∧ p.key = k) :
    ∀ k ∈ keys, ∃ p, (f.setState key s).pending k = some p ∧ P p ∧ p.key = k := by
  intro k hk
  rw [pending_setState fun heq : k = key => hkey (heq ▸ hk)]
  exact h k hk

/-- Filing a frame that is not paused keeps what is known of the paused ones. -/
theorem Consistent.suspended_setState (h : Consistent f)
    (hs : s.status ≠ .paused) {t : ExecutiveState}
    (ht : (f.setState key s).executives k = some t) (hpaused : t.status = .paused) :
    t.executive = some ⟨none, false⟩ := by
  by_cases hk : k = key
  · subst hk
    cases setState_self.symm.trans ht
    exact absurd hpaused hs
  · exact h.suspended k t ((setState_of_ne hk).symm.trans ht) hpaused

theorem status_setState_self (f : Flow) (key : Key) (s : ExecutiveState) :
    (f.setState key s).status key = some s.status := by
  rw [Flow.status, setState_self, map_some]

theorem pending_setState_self (f : Flow) (key : Key) (s : ExecutiveState) :
    (f.setState key s).pending key = s.pending := by
  rw [Flow.pending, setState_self, bind_some]

theorem status_setState_iff {status : Status} (hs : s.status ≠ status) :
    (f.setState key s).status k = some status ↔ k ≠ key ∧ f.status k = some status := by
  by_cases hk : k = key
  · subst hk
    rw [status_setState_self, some_inj]
    exact iff_of_false hs fun hk => hk.1 rfl
  · rw [status_setState hk, and_iff_right hk]

theorem Consistent.pushOrigin (h : Consistent f)
    (hkey : (s.contextID, s.seq) = p.key) (hpend : s.pending = some p)
    (hneedRun : s.status = .needRun) (hnew : f.executives p.key = none) (hp : IsOrigin p) :
    Consistent { f.setState p.key s with originFlow := f.originFlow ++ [p.key] } := by
  have hnone := pending_eq_none (.inl hnew)
  have hwait := h.notMem_waitingFlow hnone
  have horigin := h.notMem_originFlow hnone
  refine ⟨h.filed.setState hkey, fun k => ?_,
    fun k t => h.suspended_setState (by rw [hneedRun]; decide), fun k hk => ?_,
    exists_pending_setState hwait h.waiting, fun k hk => ?_, ?_, h.waitingNodup⟩
  · refine (h.paused k).trans (Iff.trans ?_ (status_setState_iff (by simp [hneedRun])).symm)
    refine (and_iff_right_of_imp fun hpaused heq => ?_).symm
    rw [heq, Flow.status, hnew] at hpaused
    cases hpaused
  · rcases mem_append.mp hk with hk | hk
    · exact exists_pending_setState horigin h.origin k hk
    · obtain rfl := mem_singleton.mp hk
      exact ⟨p, (pending_setState_self f _ s).trans hpend, hp, rfl⟩
  · exact h.resumes k ((status_setState_iff (by simp [hneedRun])).mp hk).2
  · refine nodup_append.mpr ⟨h.originNodup, nodup_singleton _, ?_⟩
    intro a ha b hb heq
    exact horigin (mem_singleton.mp hb ▸ heq ▸ ha)

theorem Consistent.pushWaiting (h : Consistent f)
    (hkey : (s.contextID, s.seq) = p.key) (hpend : s.pending = some p)
    (hs : s.status ≠ .paused) (hnone : f.pending p.key = none) (hp : ¬ IsOrigin p) :
    Consistent { f.setState p.key s with
      pausedPool := f.pausedPool.erase p.key
      waitingFlow := insertWaiting p.key f.waitingFlow } := by
  have hwait := h.notMem_waitingFlow hnone
  have horigin := h.notMem_originFlow hnone
  have hperm := perm_insertWaiting hwait
  refine ⟨h.filed.setState hkey, fun k => ?_, fun k t => h.suspended_setState hs,
    exists_pending_setState horigin h.origin, fun k hk => ?_, fun k hk => ?_, h.originNodup,
    hperm.nodup_iff.mpr (nodup_cons.mpr ⟨hwait, h.waitingNodup⟩)⟩
  · rw [Finset.mem_erase, h.paused]
    exact (status_setState_iff hs).symm
  · rcases mem_cons.mp (hperm.mem_iff.mp hk) with rfl | hk
    · exact ⟨p, (pending_setState_self f _ s).trans hpend, hp, rfl⟩
    · exact exists_pending_setState hwait h.waiting k hk
  · refine hperm.mem_iff.mpr ?_
    by_cases hne : k = p.key
    · exact hne ▸ mem_cons_self
    · exact mem_cons_of_mem _ (h.resumes k ((status_setState hne).symm.trans hk))

theorem Consistent.submit (h : Consistent f)
    (hp : f.executives p.key = none ∨ (f.status p.key = some .paused ∧ ¬ IsOrigin p)) :
    ∃ g, f.submit p = some g ∧ Submitted f p g := by
  have hp' : f.executives p.key = none ∨ f.status p.key = some .paused := hp.imp_right And.left
  obtain ⟨s, hfor, hkey, hpend, hstat⟩ := exists_executiveFor h hp'
  have hself := (pending_setState_self f p.key s).trans hpend
  have hresumed : f.status p.key = some .paused →
      (f.setState p.key s).status p.key = some .needResume := fun hpaused => by
    rcases hstat with ⟨-, hnew⟩ | ⟨hs, -⟩
    · rw [Flow.status, hnew] at hpaused
      cases hpaused
    · rw [status_setState_self, hs]
  by_cases hroute : p.seq = 0 ∧ p.type = .message
  · have hnew : f.executives p.key = none := hp.resolve_right fun hreply => hreply.2 hroute
    have hneedRun : s.status = .needRun := by
      rcases hstat with ⟨hs, -⟩ | ⟨-, hpaused⟩
      · exact hs
      · rw [Flow.status, hnew] at hpaused
        cases hpaused
    refine ⟨_, ?_, h.pushOrigin hkey hpend hneedRun hnew hroute, hself, hresumed,
      fun k hk => setState_of_ne hk, rfl, rfl, by rw [if_pos hroute]⟩
    simp only [Flow.submit, hfor, bind_eq_bind, bind_some, if_pos hroute]
    rfl
  · have hnot_paused : s.status ≠ .paused := by
      rcases hstat with ⟨hs, -⟩ | ⟨hs, -⟩ <;> rw [hs] <;> decide
    refine ⟨_, ?_, h.pushWaiting hkey hpend hnot_paused (pending_eq_none hp') hroute, hself,
      hresumed, fun k hk => setState_of_ne hk, rfl, rfl, by rw [if_neg hroute, append_nil]; rfl⟩
    simp only [Flow.submit, hfor, bind_eq_bind, bind_some, if_neg hroute]
    rfl

theorem Consistent.disjoint (h : Consistent f) (hk : k ∈ f.waitingFlow) :
    k ∉ f.originFlow := fun hmem => by
  obtain ⟨p, hp, hnot, -⟩ := h.waiting k hk
  obtain ⟨q, hq, horigin, -⟩ := h.origin k hmem
  cases hp.symm.trans hq
  exact hnot horigin

theorem status_ne_paused_of_pending
    (h : f.pending k = some p) : f.status k ≠ some .paused := fun hpaused => by
  cases h.symm.trans (pending_eq_none (.inr hpaused))

/-- Running the waiting flow and the front of the origin flow keeps the flow
consistent. -/
theorem Consistent.of_ran (h : Consistent f) {ran : List Key}
    (horigin : f.originFlow = ran ++ g.originFlow) (hwaiting : g.waitingFlow = [])
    (hran : Ran f (f.waitingFlow ++ ran) g) : Consistent g := by
  have hpend : ∀ k ∈ f.waitingFlow ++ ran, ∃ p, f.pending k = some p := fun k hk => by
    rcases mem_append.mp hk with hk | hk
    · exact (h.waiting k hk).imp fun p hp => hp.1
    · exact (h.origin k (horigin ▸ mem_append_left _ hk)).imp fun p hp => hp.1
  have hnodup := h.originNodup
  rw [horigin, nodup_append] at hnodup
  refine ⟨hran.filed, fun k => ?_, fun k s hs hpaused => ?_, fun k hk => ?_, ?_, fun k hk => ?_,
    hnodup.2.1, hwaiting ▸ nodup_nil⟩
  · rw [hran.paused, h.paused]
    by_cases hk : k ∈ f.waitingFlow ++ ran
    · obtain ⟨p, hp⟩ := hpend k hk
      have hne := status_ne_paused_of_pending hp
      simp [hne, hk, true_and, false_or]
    · rw [status_eq_of_executives (hran.other k hk)]
      simp [hk, false_and, or_false]
  · by_cases hk : k ∈ f.waitingFlow ++ ran
    · obtain ⟨t, ht, hstat⟩ := hran.settled k hk
      cases hs.symm.trans ht
      rcases hstat with ⟨-, hexecutive⟩ | hfin
      · exact hexecutive
      · cases hpaused.symm.trans hfin
    · exact h.suspended k s ((hran.other k hk).symm.trans hs) hpaused
  · have hmem : k ∈ f.originFlow := horigin ▸ mem_append_right _ hk
    have hnot : k ∉ f.waitingFlow ++ ran := fun hran => by
      rcases mem_append.mp hran with hwait | hran
      · exact h.disjoint hwait hmem
      · exact hnodup.2.2 k hran k hk rfl
    rw [pending_eq_of_executives (hran.other k hnot)]
    exact h.origin k hmem
  · intro k hk
    rw [hwaiting] at hk
    cases hk
  · by_cases hran' : k ∈ f.waitingFlow ++ ran
    · obtain ⟨t, ht, hstat⟩ := hran.settled k hran'
      have hneed : t.status = .needResume := by simpa [Flow.status, ht] using hk
      rw [hneed] at hstat
      rcases hstat with ⟨hbad, -⟩ | hbad <;> cases hbad
    · rw [status_eq_of_executives (hran.other k hran')] at hk
      exact absurd (mem_append_left _ (h.resumes k hk)) hran'

variable (behaviour : Behaviour)

theorem Consistent.exists_runWaitingFlow (h : Consistent f) (hrunning : f.isRunning = true) :
    ∃ g, (if f.waitingFlow = [] then some f else f.runWaitingFlow behaviour) = some g ∧
      Ran f f.waitingFlow g ∧ g.originFlow = f.originFlow ∧ g.waitingFlow = [] := by
  by_cases hempty : f.waitingFlow = []
  · rw [if_pos hempty]
    exact ⟨f, rfl, hempty ▸ Ran.refl h.filed, rfl, hempty⟩
  · have hpend : ∀ k ∈ f.waitingFlow, (f.pending k).isSome := fun k hk => by
      obtain ⟨p, hp, -⟩ := h.waiting k hk
      rw [hp]
      rfl
    obtain ⟨g, hloop, hran, horigin⟩ :=
      exists_runWaitingLoop behaviour h.waitingNodup h.filed hrunning hpend []
    rw [if_neg hempty]
    refine ⟨{ g with waitingFlow := [] }, ?_, hran.congr rfl rfl, horigin, rfl⟩
    simp [Flow.runWaitingFlow, hloop, bind_eq_bind, bind_some]

/-- A run of a flow that has not been stopped delivers everything in the waiting
flow, and then a part of the origin flow from the front. -/
theorem Consistent.exists_run (h : Consistent f) (hrunning : f.isRunning = true) :
    ∃ g ran, f.run behaviour = some g ∧ f.originFlow = ran ++ g.originFlow ∧
      g.waitingFlow = [] ∧ Ran f (f.waitingFlow ++ ran) g := by
  obtain ⟨g, hfirst, hran, horigin, hwaiting⟩ := h.exists_runWaitingFlow behaviour hrunning
  have hrun : f.run behaviour =
      if g.pausedPool = ∅ then g.runOriginFlow behaviour else some g := by
    rw [Flow.run, hfirst]
    rfl
  rw [hrun]
  by_cases hpool : g.pausedPool = ∅
  · have hpend : ∀ k ∈ g.originFlow, (g.pending k).isSome := fun k hk => by
      rw [horigin] at hk
      obtain ⟨p, hp, -⟩ := h.origin k hk
      rw [pending_eq_of_executives (hran.other k fun hwait => h.disjoint hwait hk), hp]
      rfl
    obtain ⟨g', ran, rest, hloop, hkeys, horigin', hran', hwaiting'⟩ :=
      exists_runOriginLoop behaviour (horigin ▸ h.originNodup) hran.filed
        (hran.isRunning.trans hrunning) hpend
    refine ⟨g', ran, by rw [if_pos hpool]; exact hloop, ?_, hwaiting'.trans hwaiting, ?_⟩
    · rw [← horigin, hkeys, horigin']
    · refine hran.trans hran' fun k hk hmem => h.disjoint hk ?_
      rw [← horigin, hkeys]
      exact mem_append_left _ hmem
  · exact ⟨g, [], by rw [if_neg hpool], horigin.symm, hwaiting, by rwa [append_nil]⟩

theorem runWaitingLoop_of_stopped (hstopped : ¬ f.isRunning = true) (hkeys : keys ≠ []) :
    Flow.runWaitingLoop behaviour keys keyLocks f = some (false, f) := by
  obtain ⟨key, keys, rfl⟩ := exists_cons_of_ne_nil hkeys
  exact if_pos hstopped

theorem runOriginLoop_of_stopped (hstopped : ¬ f.isRunning = true) :
    Flow.runOriginLoop behaviour keys f = some { f with originFlow := keys } := by
  rcases keys with - | ⟨key, keys⟩
  · rfl
  · exact if_pos hstopped

theorem run_of_stopped (hstopped : ¬ f.isRunning = true) : f.run behaviour = some f := by
  have hwait : (if f.waitingFlow = [] then some f else f.runWaitingFlow behaviour) = some f := by
    split
    · rfl
    · rename_i hne
      rw [Flow.runWaitingFlow, runWaitingLoop_of_stopped behaviour hstopped hne]
      rfl
  rw [Flow.run, hwait, bind_some, Flow.runOriginFlow, runOriginLoop_of_stopped behaviour hstopped]
  exact ite_self _

end Invariant

end FiscoSmart.Executor.StackFlow
