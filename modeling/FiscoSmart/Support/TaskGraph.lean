import Mathlib.Tactic

/-!
# Graphs of tasks that signal each other

A task starts once it has received as many signals as it has incoming edges, and
signals its successors when it has finished.  One more node, the source, signals
its successors at the beginning.  Tasks run concurrently and signals may be
delayed, so a run is a sequence of small steps in any order.

Along every run a task starts only after all its predecessors have finished.  If
the edges lead upwards in some rank, a run that has come to rest has finished
every task; a task with an edge to itself never starts.
-/

namespace FiscoSmart.Support

open Function List

variable {τ : Type}

/-- Tasks and edges; an edge without a task at its tail comes from the source. -/
structure TaskGraph (τ : Type) where
  tasks : List τ
  edges : List (Option τ × τ)

namespace TaskGraph

inductive Event (τ : Type)
  | start (t : τ)
  | finish (t : τ)
deriving DecidableEq

/-- A run so far: whether the source has signalled, the signals under way, the
number of signals each task has received, and the events, the latest first. -/
structure State (τ : Type) where
  source : Bool
  signals : List τ
  received : τ → ℕ
  log : List (Event τ)

variable (g : TaskGraph τ)

/-! ## Histories -/

/-- A possible history: every task starts once, after its predecessors have
finished, and finishes once, after it has started. -/
inductive History : List (Event τ) → Prop
  | nil : History []
  | start {log : List (Event τ)} {t : τ} (h : History log) (htask : t ∈ g.tasks)
      (hnew : .start t ∉ log) (hpred : ∀ p, (some p, t) ∈ g.edges → .finish p ∈ log) :
      History (.start t :: log)
  | finish {log : List (Event τ)} {t : τ} (h : History log) (hstart : .start t ∈ log)
      (hnew : .finish t ∉ log) : History (.finish t :: log)

section Histories

variable {g} {log : List (Event τ)} {t p : τ}

theorem History.nodup (h : g.History log) : log.Nodup := by
  induction h with
  | nil => exact nodup_nil
  | start _ _ hnew _ ih => exact nodup_cons.mpr ⟨hnew, ih⟩
  | finish _ _ hnew ih => exact nodup_cons.mpr ⟨hnew, ih⟩

theorem History.mem_tasks (h : g.History log) (hstart : .start t ∈ log) : t ∈ g.tasks := by
  induction h with
  | nil => exact absurd hstart not_mem_nil
  | start _ htask _ _ ih =>
    rcases mem_cons.mp hstart with heq | hmem
    · cases heq
      exact htask
    · exact ih hmem
  | finish _ _ _ ih =>
    rcases mem_cons.mp hstart with heq | hmem
    · cases heq
    · exact ih hmem

theorem History.started (h : g.History log) (hfinish : .finish t ∈ log) : .start t ∈ log := by
  induction h with
  | nil => exact absurd hfinish not_mem_nil
  | start _ _ _ _ ih =>
    rcases mem_cons.mp hfinish with heq | hmem
    · cases heq
    · exact mem_cons_of_mem _ (ih hmem)
  | finish _ hstart _ ih =>
    rcases mem_cons.mp hfinish with heq | hmem
    · cases heq
      exact mem_cons_of_mem _ hstart
    · exact mem_cons_of_mem _ (ih hmem)

theorem History.ordered {newer older : List (Event τ)}
    (h : g.History (newer ++ .start t :: older)) (hedge : (some p, t) ∈ g.edges) :
    .finish p ∈ older := by
  induction newer with
  | nil =>
    cases h with
    | start _ _ _ hpred => exact hpred p hedge
  | cons event newer ih =>
    cases h with
    | start h _ _ _ => exact ih h
    | finish h _ _ => exact ih h

theorem History.not_start_of_loop (h : g.History log) (hedge : (some t, t) ∈ g.edges) :
    .start t ∉ log := by
  induction h with
  | nil => exact not_mem_nil
  | start h _ hnew hpred ih =>
    intro hmem
    rcases mem_cons.mp hmem with heq | hmem
    · cases heq
      exact hnew (h.started (hpred t hedge))
    · exact ih hmem
  | finish _ _ _ ih =>
    intro hmem
    rcases mem_cons.mp hmem with heq | hmem
    · cases heq
    · exact ih hmem

/-! ## Orders of effect -/

/-- Task `p` has finished when `t` starts. -/
def Before (log : List (Event τ)) (p t : τ) : Prop :=
  ∃ newer older, log = newer ++ .start t :: older ∧ .finish p ∈ older

theorem History.of_append {newer : List (Event τ)} (h : g.History (newer ++ log)) :
    g.History log := by
  induction newer with
  | nil => exact h
  | cons event newer ih =>
    cases h with
    | start h _ _ _ => exact ih h
    | finish h _ _ => exact ih h

/-- A task has not finished when a predecessor of it starts. -/
theorem History.not_before (h : g.History log) (hedge : (some p, t) ∈ g.edges) :
    ¬ Before log t p := by
  rintro ⟨newer, older, rfl, hfinish⟩
  cases h.of_append with
  | start holder _ hnew _ =>
    obtain ⟨newer', older', rfl⟩ := append_of_mem (holder.started hfinish)
    have hpred := holder.ordered hedge
    exact hnew (holder.started (mem_append_right _ (mem_cons_of_mem _ hpred)))

variable (g) in
/-- The tasks may take effect in this order, each at a moment between its start and its end. -/
structure TakeEffect (log : List (Event τ)) (order : List τ) : Prop where
  perm : order.Perm g.tasks
  respects : order.Pairwise fun t p => ¬ Before log p t

section Effects

variable {σ : Type} {op : τ → σ → σ}

theorem foldl_move {front back : List τ}
    (h : ∀ a ∈ front, ∀ s, op t (op a s) = op a (op t s)) (s : σ) :
    (front ++ t :: back).foldl (fun s a => op a s) s =
      (front ++ back).foldl (fun s a => op a s) (op t s) := by
  induction front generalizing s with
  | nil => rfl
  | cons a front ih =>
    obtain ⟨ha, hfront⟩ := forall_mem_cons.mp h
    rw [cons_append, foldl_cons, ih hfront, ha]
    rfl

/-- Effects in an order that swaps only such that commute add up to those in sorted order. -/
theorem foldl_eq_foldl_sorted [LinearOrder τ] {l l' : List τ} (hperm : l.Perm l')
    (hsorted : l'.Pairwise (· < ·))
    (h : l.Pairwise fun a b => a < b ∨ ∀ s, op b (op a s) = op a (op b s)) (s : σ) :
    l.foldl (fun s a => op a s) s = l'.foldl (fun s a => op a s) s := by
  induction l' generalizing l s with
  | nil => rw [hperm.eq_nil]
  | cons t l' ih =>
    obtain ⟨hleast, hsorted⟩ := pairwise_cons.mp hsorted
    obtain ⟨front, back, rfl⟩ := append_of_mem (hperm.mem_iff.mpr (mem_cons_self ..))
    have hrest : (front ++ back).Perm l' := (perm_middle.symm.trans hperm).cons_inv
    -- what stands before the least task commutes with it
    have hfront : ∀ a ∈ front, ∀ s, op t (op a s) = op a (op t s) := by
      intro a ha
      have hlt := hleast a (hrest.mem_iff.mp (mem_append_left _ ha))
      exact ((pairwise_append.mp h).2.2 a ha t (mem_cons_self ..)).resolve_left hlt.not_gt
    rw [foldl_move hfront, foldl_cons]
    exact ih hrest hsorted (h.sublist (by simp)) _

end Effects

end Histories

/-! ## Runs -/

variable [DecidableEq τ]

/-- The number of signals that a task waits for. -/
def indegree (t : τ) : ℕ := g.edges.countP (fun e => e.2 = t)

/-- The tasks that a node signals, once for each edge. -/
def successors (p : Option τ) : List τ :=
  (g.edges.filter (fun e => e.1 = p)).map Prod.snd

def initial : State τ := ⟨false, [], fun _ => 0, []⟩

inductive Step : State τ → State τ → Prop
  | source {s : State τ} (h : s.source = false) :
      Step s { s with source := true, signals := s.signals ++ g.successors none }
  | deliver {s : State τ} (t : τ) (h : t ∈ s.signals) : Step s { s with
        signals := s.signals.erase t
        received := update s.received t (s.received t + 1) }
  | start {s : State τ} (t : τ) (htask : t ∈ g.tasks) (hnew : .start t ∉ s.log)
      (h : s.received t = g.indegree t) : Step s { s with log := .start t :: s.log }
  | finish {s : State τ} (t : τ) (hstart : .start t ∈ s.log) (hnew : .finish t ∉ s.log) :
      Step s { s with
        signals := s.signals ++ g.successors (some t)
        log := .finish t :: s.log }

def Reachable (s : State τ) : Prop := Relation.ReflTransGen g.Step initial s

/-- The run has come to rest. -/
def Complete (s : State τ) : Prop := ∀ s', ¬ g.Step s s'

/-! ## What every run keeps -/

/-- The node has sent its signals. -/
def Fired (s : State τ) : Option τ → Prop
  | none => s.source = true
  | some p => .finish p ∈ s.log

instance (s : State τ) : DecidablePred (Fired s)
  | none => inferInstanceAs (Decidable (s.source = true))
  | some p => inferInstanceAs (Decidable (.finish p ∈ s.log))

/-- The number of signals sent to a task. -/
def sent (s : State τ) (t : τ) : ℕ :=
  g.edges.countP (fun e => e.2 = t ∧ Fired s e.1)

/-- What holds in every state of a run: the events are a history, and every signal
sent is under way or received. -/
structure Inv (s : State τ) : Prop where
  history : g.History s.log
  signals : ∀ t, s.received t + s.signals.count t = g.sent s t

section Counting

variable {g} {s s' : State τ} {t : τ} {p : Option τ}

theorem count_successors :
    (g.successors p).count t = g.edges.countP (fun e => e.2 = t ∧ e.1 = p) := by
  rw [successors, List.count, countP_map, countP_filter]
  apply countP_congr
  simp

theorem countP_fired {c : Option τ × τ → Prop} [DecidablePred c]
    (hfired : ∀ q, Fired s' q ↔ Fired s q ∨ q = p) (hnew : ¬ Fired s p)
    (edges : List (Option τ × τ)) : edges.countP (fun e => c e ∧ Fired s' e.1) =
      edges.countP (fun e => c e ∧ Fired s e.1) + edges.countP (fun e => c e ∧ e.1 = p) := by
  induction edges with
  | nil => rfl
  | cons e edges ih =>
    rw [countP_cons, countP_cons, countP_cons, ih]
    have hsplit : (if decide (c e ∧ Fired s' e.1) = true then 1 else 0) =
        (if decide (c e ∧ Fired s e.1) = true then 1 else 0) +
          (if decide (c e ∧ e.1 = p) = true then 1 else 0) := by
      by_cases hc : c e
      · by_cases hp : e.1 = p
        · simp [hc, hp, hfired, hnew]
        · simp [hc, hp, hfired]
      · simp [hc]
    omega

theorem sent_le_indegree (s : State τ) (t : τ) : g.sent s t ≤ g.indegree t :=
  countP_mono_left (fun e _ h => by simp at h ⊢; exact h.1)

/-- A task that has received all its signals comes after all its predecessors. -/
theorem Inv.fired (h : g.Inv s) (hready : s.received t = g.indegree t)
    (hedge : (p, t) ∈ g.edges) : Fired s p := by
  have hle := sent_le_indegree (g := g) s t
  have hall : (g.edges.filter (fun e => e.2 = t)).countP (fun e => Fired s e.1) =
      (g.edges.filter (fun e => e.2 = t)).length := by
    rw [countP_filter, ← countP_eq_length_filter]
    have hsent' : g.edges.countP (fun e => decide (Fired s e.1) && decide (e.2 = t)) =
        g.sent s t := by
      apply countP_congr
      simp [and_comm]
    rw [hsent']
    exact Nat.le_antisymm hle (by rw [← h.signals t, hready]; exact Nat.le_add_right _ _)
  have hfired := countP_eq_length.mp hall (p, t) (by simp [hedge])
  simpa using hfired

theorem inv_initial : g.Inv initial where
  history := .nil
  signals t := by
    have hnone : ∀ p : Option τ, ¬ Fired (initial : State τ) p := by
      intro p
      cases p <;> simp [Fired, initial]
    have hsent : g.sent initial t = 0 := by
      rw [sent, countP_eq_zero]
      intro e _
      simp [hnone]
    rw [hsent]
    rfl

theorem Inv.fire (h : g.Inv s) (hfired : ∀ q, Fired s' q ↔ Fired s q ∨ q = p) (hnew : ¬ Fired s p)
    (hreceived : s'.received = s.received) (hsignals : s'.signals = s.signals ++ g.successors p) :
    ∀ t, s'.received t + s'.signals.count t = g.sent s' t := by
  intro t
  have hsent : g.sent s' t = g.sent s t + (g.successors p).count t := by
    rw [sent, countP_fired hfired hnew, count_successors]
    rfl
  rw [hsent, ← h.signals t, hreceived, hsignals, count_append]
  omega

omit [DecidableEq τ] in
theorem fired_start {q : Option τ} :
    Fired { s with log := .start t :: s.log } q ↔ Fired s q := by
  cases q <;> simp [Fired]

theorem Inv.step (h : g.Inv s) (hstep : g.Step s s') : g.Inv s' := by
  rcases hstep with hsource | ⟨t, hmem⟩ | ⟨t, htask, hnew, hready⟩ | ⟨t, hstart, hnew⟩
  · refine ⟨h.history, h.fire (p := none) ?_ ?_ rfl rfl⟩
    · intro q
      cases q <;> simp [Fired]
    · simp [Fired, hsource]
  · refine ⟨h.history, ?_⟩
    intro u
    have hsent := h.signals u
    have hpos := count_pos_iff.mpr hmem
    change update s.received t (s.received t + 1) u + (s.signals.erase t).count u = g.sent s u
    by_cases hu : u = t
    · subst hu
      rw [update_self, count_erase_self]
      omega
    · rw [update_of_ne hu, count_erase_of_ne hu]
      exact hsent
  · refine ⟨.start h.history htask hnew ?_, ?_⟩
    · intro p hedge
      exact h.fired hready hedge
    · intro u
      have hsent : g.sent { s with log := .start t :: s.log } u = g.sent s u := by
        simp [sent, fired_start]
      rw [hsent]
      exact h.signals u
  · refine ⟨.finish h.history hstart hnew, h.fire (p := some t) ?_ hnew rfl rfl⟩
    intro q
    rcases q with - | q
    · simp [Fired]
    · simp [Fired, or_comm]

theorem Reachable.inv (h : g.Reachable s) : g.Inv s := by
  induction h with
  | refl => exact inv_initial
  | tail _ hstep ih => exact ih.step hstep

/-- A run that has come to rest has finished every task, if the edges lead
upwards. -/
theorem Inv.finished_of_complete (h : g.Inv s) (hcomplete : g.Complete s) {rank : τ → ℕ}
    (hedges : ∀ p t, (some p, t) ∈ g.edges → p ∈ g.tasks ∧ rank p < rank t) :
    ∀ t ∈ g.tasks, .finish t ∈ s.log := by
  have hsource : s.source = true := by
    by_contra hsource
    exact hcomplete _ (.source (by simpa using hsource))
  have hsignals : s.signals = [] := by
    rcases hsignals : s.signals with - | ⟨t, signals⟩
    · rfl
    · exact absurd (Step.deliver t (by simp [hsignals])) (hcomplete _)
  suffices hrank : ∀ n t, rank t = n → t ∈ g.tasks → .finish t ∈ s.log by
    intro t ht
    exact hrank (rank t) t rfl ht
  -- a task is started once all tasks of lower rank have finished
  intro n
  induction n using Nat.strongRecOn with
  | _ n ih =>
    intro t hn ht
    have hsent : g.sent s t = g.indegree t := by
      apply countP_congr
      intro e he
      simp only [decide_eq_true_eq, and_iff_left_iff_imp]
      intro het
      obtain ⟨p, u⟩ := e
      obtain rfl : u = t := het
      rcases p with - | p
      · exact hsource
      · obtain ⟨hp, hlt⟩ := hedges p u he
        exact ih (rank p) (hn ▸ hlt) p rfl hp
    have hreceived : s.received t = g.indegree t := by
      rw [← hsent, ← h.signals t, hsignals]
      rfl
    have hstart : .start t ∈ s.log := by
      by_contra hnew
      exact hcomplete _ (.start t ht hnew hreceived)
    by_contra hnew
    exact hcomplete _ (.finish t hstart hnew)

end Counting

/-! ## Runs come to rest -/

/-- The steps that are left, at most. -/
def remaining (s : State τ) : ℕ :=
  s.signals.length + g.edges.countP (fun e => ¬ Fired s e.1) + (if s.source then 0 else 1) +
    (g.tasks.toFinset.filter (fun t => .start t ∉ s.log)).card +
    (g.tasks.toFinset.filter (fun t => .finish t ∉ s.log)).card

section Rest

variable {g} {s s' : State τ}

theorem countP_not_fired (s s' : State τ) {p : Option τ}
    (hfired : ∀ q, Fired s' q ↔ Fired s q ∨ q = p) (hnew : ¬ Fired s p) :
    g.edges.countP (fun e => ¬ Fired s' e.1) + (g.successors p).length =
      g.edges.countP (fun e => ¬ Fired s e.1) := by
  have hcount := countP_fired (c := fun _ => True) hfired hnew g.edges
  have hsplit := length_eq_countP_add_countP (fun e => decide (Fired s e.1)) (l := g.edges)
  have hsplit' := length_eq_countP_add_countP (fun e => decide (Fired s' e.1)) (l := g.edges)
  have hsucc : (g.successors p).length = g.edges.countP (fun e => e.1 = p) := by
    rw [successors, length_map, countP_eq_length_filter]
  simp only [true_and, decide_eq_true_eq] at hcount hsplit hsplit'
  omega

theorem card_new_lt {tasks : List τ} {log : List (Event τ)} {event : τ → Event τ} {t : τ}
    (ht : t ∈ tasks) (hnew : event t ∉ log) :
    (tasks.toFinset.filter (fun u => event u ∉ event t :: log)).card <
      (tasks.toFinset.filter (fun u => event u ∉ log)).card := by
  apply Finset.card_lt_card
  rw [Finset.ssubset_iff_of_subset]
  · exact ⟨t, by simp [ht, hnew], by simp⟩
  · intro u hu
    simp only [Finset.mem_filter, mem_cons, not_or] at hu ⊢
    exact ⟨hu.1, hu.2.2⟩

theorem Step.remaining_lt (h : g.Inv s) (hstep : g.Step s s') : g.remaining s' < g.remaining s := by
  rcases hstep with hsource | ⟨t, hmem⟩ | ⟨t, htask, hnew, hready⟩ | ⟨t, hstart, hnew⟩
  · have hcount := countP_not_fired (g := g) (p := none) s
      { s with source := true, signals := s.signals ++ g.successors none }
      (by intro q; cases q <;> simp [Fired]) (by simp [Fired, hsource])
    simp only [remaining, length_append, hsource, if_true, Bool.false_eq_true, if_false]
    omega
  · have hlen := length_erase_add_one hmem
    have hfired : ∀ q, Fired { s with
        signals := s.signals.erase t
        received := update s.received t (s.received t + 1) } q ↔
          Fired s q := by
      intro q
      cases q <;> rfl
    simp only [remaining, hfired]
    omega
  · have hlt := card_new_lt htask hnew
    have hfinish : ∀ u, Event.finish u ∈ Event.start t :: s.log ↔ Event.finish u ∈ s.log := by simp
    simp only [remaining, fired_start, hfinish]
    omega
  · have htask := h.history.mem_tasks hstart
    have hcount := countP_not_fired (g := g) (p := some t) s { s with
        signals := s.signals ++ g.successors (some t)
        log := .finish t :: s.log }
      (by intro q; cases q <;> simp [Fired, or_comm]) hnew
    have hlt := card_new_lt htask hnew
    have hkeep : ∀ u, Event.start u ∈ Event.finish t :: s.log ↔ Event.start u ∈ s.log := by simp
    simp only [remaining, length_append, hkeep]
    omega

theorem exists_complete (h : g.Reachable s) :
    ∃ s', g.Complete s' ∧ Relation.ReflTransGen g.Step s s' := by
  induction hn : g.remaining s using Nat.strongRecOn generalizing s with
  | _ n ih =>
    by_cases hcomplete : g.Complete s
    · exact ⟨s, hcomplete, .refl⟩
    · simp only [Complete, not_forall, not_not] at hcomplete
      obtain ⟨s₁, hstep⟩ := hcomplete
      obtain ⟨s', hrest, hrun⟩ :=
        ih _ (hn ▸ hstep.remaining_lt h.inv) (h.tail hstep) rfl
      exact ⟨s', hrest, .head hstep hrun⟩

end Rest

end TaskGraph

end FiscoSmart.Support
