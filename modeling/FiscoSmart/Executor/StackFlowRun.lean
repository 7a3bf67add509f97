import FiscoSmart.Executor.StackFlowInvariant

/-!
# Runs of the executive flow

Over any sequence of calls whose inputs are admissible, every reply to a paused
frame is delivered by the next run and the transactions are started in the order
of their submission.  The grant of a key lock to the first frame of a transaction
is not admissible, and is in fact never delivered.
-/

namespace FiscoSmart.Executor.StackFlow

open List Option

variable {event : Event}

/-! ## Sequences of calls -/

section Sequences

variable {behaviour : Behaviour} {f g : Flow}

/-- Every input is admissible in the state in which it is submitted. -/
def AllAdmissible (behaviour : Behaviour) : Flow → List Event → Prop
  | _, [] => True
  | f, event :: events =>
    (∀ input, event = .submit input → Admissible f input) ∧
      ∀ g, f.step behaviour event = some g → AllAdmissible behaviour g events

/-- The new transactions of the calls, in the order of their submission. -/
def originsOf (events : List Event) : List Key :=
  events.filterMap fun
    | .submit input =>
      input.parameters.bind fun p => if p.seq = 0 ∧ p.type = .message then some p.key else none
    | _ => none

/-- The new transactions that have been started, in this order. -/
def started (f : Flow) : List Key :=
  (f.delivered.filter fun d => d.2.seq = 0 ∧ d.2.type = .message).map Prod.fst

variable {p : CallParameters}

theorem originsOf_submit {input : Input} (hp : input.parameters = some p) :
    originsOf [.submit input] = if p.seq = 0 ∧ p.type = .message then [p.key] else [] := by
  by_cases hroute : p.seq = 0 ∧ p.type = .message
  · rw [if_pos hroute]
    simp [originsOf, hp, hroute]
  · rw [if_neg hroute]
    simp [originsOf, hp, hroute]

theorem started_of_ran (h : Consistent f) {ran : List Key}
    (horigin : f.originFlow = ran ++ g.originFlow)
    (hran : Ran f (f.waitingFlow ++ ran) g) : started g = started f ++ ran := by
  obtain ⟨ds, hds, hkeys, hall⟩ := hran.delivered
  obtain ⟨ds₁, ds₂, rfl, hwait, hrun⟩ := map_eq_append_iff.mp hkeys
  have hmsg : ∀ d ∈ ds₁ ++ ds₂, ∃ p, f.pending d.1 = some p ∧ d.2.seq = p.seq ∧
      d.2.type = p.type := fun d hd => by
    obtain ⟨p, keyLocks, hp, heq⟩ := hall d hd
    exact ⟨p, hp, by rw [heq]; rfl, by rw [heq]; rfl⟩
  have hfirst : ds₁.filter (fun d => d.2.seq = 0 ∧ d.2.type = .message) = [] := by
    refine filter_eq_nil_iff.mpr fun d hd => ?_
    obtain ⟨p, hp, hseq, htype⟩ := hmsg d (mem_append_left _ hd)
    obtain ⟨q, hq, hnot, -⟩ := h.waiting d.1 (hwait ▸ mem_map_of_mem hd)
    cases hp.symm.trans hq
    simpa [hseq, htype, IsOrigin] using hnot
  have hsecond : ds₂.filter (fun d => d.2.seq = 0 ∧ d.2.type = .message) = ds₂ := by
    refine filter_eq_self.mpr fun d hd => ?_
    obtain ⟨p, hp, hseq, htype⟩ := hmsg d (mem_append_right _ hd)
    have hmem : d.1 ∈ f.originFlow := horigin ▸ mem_append_left _ (hrun ▸ mem_map_of_mem hd)
    obtain ⟨q, hq, hyes, -⟩ := h.origin d.1 hmem
    cases hp.symm.trans hq
    simpa [hseq, htype, IsOrigin] using hyes
  rw [started, hds, filter_append, filter_append, hfirst, hsecond, nil_append,
    map_append, hrun, ← started]

theorem Consistent.exists_step (behaviour : Behaviour) (h : Consistent f)
    (hevent : ∀ input, event = .submit input → Admissible f input) :
    ∃ g, f.step behaviour event = some g ∧ Consistent g ∧
      started g ++ g.originFlow = started f ++ f.originFlow ++ originsOf [event] := by
  rcases event with input | - | -
  · obtain ⟨p, hp, hadmissible⟩ := hevent input rfl
    obtain ⟨g, hsubmit, hg⟩ := h.submit hadmissible
    refine ⟨g, by rw [Flow.step, hp, bind_some, hsubmit], hg.consistent, ?_⟩
    rw [hg.originFlow, started, hg.delivered, ← started, originsOf_submit hp, append_assoc]
  · by_cases hrunning : f.isRunning = true
    · obtain ⟨g, ran, hrun, horigin, hwait, hran⟩ := h.exists_run behaviour hrunning
      refine ⟨g, hrun, h.of_ran horigin hwait hran, ?_⟩
      rw [started_of_ran h horigin hran, horigin, originsOf]
      simp
    · refine ⟨f, run_of_stopped behaviour hrunning, h, ?_⟩
      simp [originsOf]
  · refine ⟨{ f with isRunning := false }, rfl, ?_, ?_⟩
    · exact { h with }
    · simp [originsOf, started]

theorem originsOf_cons (event : Event) (events : List Event) :
    originsOf (event :: events) = originsOf [event] ++ originsOf events :=
  filterMap_append (l := [event])

variable {events events' : List Event}

/-- Admissible calls never fail, and what has been started is a part of what was
submitted, from the front. -/
theorem Consistent.exists_runAll (h : Consistent f) (hevents : AllAdmissible behaviour f events) :
    ∃ g, f.runAll behaviour events = some g ∧ Consistent g ∧
      started g ++ g.originFlow = started f ++ f.originFlow ++ originsOf events := by
  induction events generalizing f with
  | nil => exact ⟨f, rfl, h, (append_nil _).symm⟩
  | cons event events ih =>
    obtain ⟨g, hstep, hg, hstarted⟩ := h.exists_step behaviour hevents.1
    obtain ⟨g', hrun, hg', hstarted'⟩ := ih hg (hevents.2 g hstep)
    refine ⟨g', ?_, hg', ?_⟩
    · simp only [Flow.runAll, foldlM_cons, hstep, bind_eq_bind, bind_some]
      exact hrun
    · rw [hstarted', hstarted, originsOf_cons event events, append_assoc]

theorem runAll_append : f.runAll behaviour (events ++ events') =
      (f.runAll behaviour events).bind fun g => g.runAll behaviour events' :=
  foldlM_append

theorem AllAdmissible.left
    (h : AllAdmissible behaviour f (events ++ events')) : AllAdmissible behaviour f events := by
  induction events generalizing f with
  | nil => trivial
  | cons event events ih => exact ⟨h.1, fun g hstep => ih (h.2 g hstep)⟩

theorem AllAdmissible.right (h : AllAdmissible behaviour f (events ++ events'))
    (hrun : f.runAll behaviour events = some g) : AllAdmissible behaviour g events' := by
  induction events generalizing f with
  | nil =>
    cases hrun
    exact h
  | cons event events ih =>
    obtain ⟨f', hstep, hrest⟩ := bind_eq_some_iff.mp hrun
    exact ih (h.2 f' hstep) hrest

/-- A frame waits for its next turn with the reply it got. -/
structure Awaits (f : Flow) (p : CallParameters) : Prop where
  consistent : Consistent f
  pending : f.pending p.key = some p
  status : f.status p.key = some .needResume

theorem Awaits.exists_step (behaviour : Behaviour) (h : Awaits f p)
    (hevent : ∀ input, event = .submit input → Admissible f input)
    (hne : event ≠ .run) :
    ∃ g, f.step behaviour event = some g ∧ Awaits g p ∧ g.delivered = f.delivered := by
  rcases event with input | - | -
  · obtain ⟨q, hq, hadmissible⟩ := hevent input rfl
    obtain ⟨g, hsubmit, hg⟩ := h.consistent.submit hadmissible
    -- another reply to the frame would not be admissible
    have hkey : p.key ≠ q.key := fun heq => by
      have hnone := pending_eq_none (hadmissible.imp_right And.left)
      cases h.pending.symm.trans (heq ▸ hnone)
    refine ⟨g, by rw [Flow.step, hq, bind_some, hsubmit], ⟨hg.consistent, ?_, ?_⟩, hg.delivered⟩
    · rw [pending_eq_of_executives (hg.other _ hkey), h.pending]
    · rw [status_eq_of_executives (hg.other _ hkey), h.status]
  · exact absurd rfl hne
  · have hcons := h.consistent
    exact ⟨{ f with isRunning := false }, rfl,
      ⟨{ hcons with }, h.pending, h.status⟩, rfl⟩

theorem Awaits.exists_runAll (h : Awaits f p)
    (hevents : AllAdmissible behaviour f events) (hne : Event.run ∉ events) :
    ∃ g, f.runAll behaviour events = some g ∧ Awaits g p ∧ g.delivered = f.delivered := by
  induction events generalizing f with
  | nil => exact ⟨f, rfl, h, rfl⟩
  | cons event events ih =>
    rw [mem_cons, not_or] at hne
    obtain ⟨g, hstep, hg, hdelivered⟩ := h.exists_step behaviour hevents.1 (Ne.symm hne.1)
    obtain ⟨g', hrun, hg', hdelivered'⟩ := ih hg (hevents.2 g hstep) hne.2
    refine ⟨g', ?_, hg', hdelivered'.trans hdelivered⟩
    simp only [Flow.runAll, foldlM_cons, hstep, bind_eq_bind, bind_some]
    exact hrun

theorem Awaits.delivered_of_run (h : Awaits f p)
    (hrun : f.run behaviour = some g) (hrunning : g.isRunning = true) :
    ∃ keyLocks, (p.key, p.addKeyLocks keyLocks) ∈ g.delivered.drop f.delivered.length := by
  have hf : f.isRunning = true := by
    by_contra hstopped
    cases (run_of_stopped behaviour hstopped).symm.trans hrun
    exact hstopped hrunning
  obtain ⟨g', ran, hrun', -, -, hran⟩ := h.consistent.exists_run behaviour hf
  cases hrun'.symm.trans hrun
  obtain ⟨ds, hds, hkeys, hall⟩ := hran.delivered
  have hmem : p.key ∈ ds.map Prod.fst :=
    hkeys ▸ mem_append_left _ (h.consistent.resumes _ h.status)
  obtain ⟨d, hd, hkey⟩ := mem_map.mp hmem
  obtain ⟨message, keyLocks, hpend, heq⟩ := hall d hd
  rw [hkey, h.pending] at hpend
  obtain rfl := Option.some.inj hpend
  refine ⟨keyLocks, ?_⟩
  rw [hds, drop_left]
  exact (Prod.ext hkey heq : d = (p.key, p.addKeyLocks keyLocks)) ▸ hd

/-- What the flow guarantees after a list of calls. -/
structure Flows (behaviour : Behaviour) (events : List Event) (f : Flow) : Prop where
  /-- The paused pool holds exactly the paused frames. -/
  paused : ∀ k, k ∈ f.pausedPool ↔ f.status k = some .paused
  /-- New transactions are started in the order of their submission. -/
  inOrder : started f <+: originsOf events
  /-- The reply to a paused frame is delivered by the next run, unless the flow is
  stopped. -/
  resumes : ∀ earlier input later g p, events = earlier ++ .submit input :: later ++ [.run] →
    Event.run ∉ later → Flow.empty.runAll behaviour earlier = some g →
    input.parameters = some p → g.status p.key = some .paused → f.isRunning = true →
    ∃ keyLocks, (p.key, p.addKeyLocks keyLocks) ∈ f.delivered.drop g.delivered.length

/-- A message of the given type for the first frame of the context `1`. -/
def firstFrame (type : ExecutionMessageType) : ExecutionMessage :=
  ⟨type, 1, 0, [], [], [], false, false, false, [], [], 0, false, [], .none, [], []⟩

/-- A frame that waits for a key lock whenever it is run. -/
def alwaysLocked : Behaviour := fun _ _ p => { p with type := .keyLock }

/-- A transaction is started, waits for a key lock in its first frame and gets
it. -/
def grantFirstFrame : List Event :=
  [.submit (.message (firstFrame .message)), .run, .submit (.message (firstFrame .keyLock)), .run]

/-- A transaction is started and waits for a key lock, and the deadlock is
resolved by a revert. -/
def revertFirstFrame : List Event :=
  [.submit (.message (firstFrame .message)), .run, .submit (.message (firstFrame .revert)), .run]

theorem allAdmissible_revertFirstFrame : AllAdmissible alwaysLocked .empty revertFirstFrame := by
  have hrun : ∀ g input, Event.run = .submit input → Admissible g input := fun _ _ h => by cases h
  refine ⟨?_, fun g₁ h₁ => ⟨hrun g₁, fun g₂ h₂ => ⟨?_, fun g₃ _ => ⟨hrun g₃, fun _ _ => trivial⟩⟩⟩⟩
  · rintro _ ⟨⟩
    exact ⟨_, rfl, .inl rfl⟩
  · rintro _ ⟨⟩
    cases h₁
    cases h₂
    refine ⟨_, rfl, .inr ⟨rfl, ?_⟩⟩
    rintro ⟨-, htype⟩
    cases htype

end Sequences

end FiscoSmart.Executor.StackFlow
