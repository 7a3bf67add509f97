import Mathlib.Tactic

/-!
# Looking for a cycle by depth-first search

The search keeps a stack of vertices with the successors that are still to be
looked at.  A vertex is gray while it is on the stack and black afterwards.  An
edge to a gray vertex closes a cycle; once there was one, the successors of newly
found vertices are not looked at any more.

The search ends, and it has found an edge to a gray vertex exactly if a cycle can
be reached.
-/

namespace FiscoSmart.Support.DepthFirst

open Relation Function List

variable {V : Type} {u v root : V} {rest : List V} {stack : List (V × List V)} {found : Bool}

inductive Color
  | white
  | gray
  | black
deriving DecidableEq

structure Search (V : Type) where
  stack : List (V × List V)
  color : V → Color
  found : Bool

variable {color : V → Color} {s : Search V} (next : V → List V)

def Edge (u v : V) : Prop := v ∈ next u

def ReachesCycle (root : V) : Prop :=
  ∃ v, ReflTransGen (Edge next) root v ∧ TransGen (Edge next) v v

section Machine

variable [DecidableEq V]

def start (root : V) : Search V :=
  ⟨[(root, next root)], fun v => if v = root then .gray else .white, false⟩

/-- The search looks at one successor of the top of the stack, or leaves it. -/
def step (s : Search V) : Search V :=
  match s.stack with
  | [] => s
  | (u, []) :: stack => ⟨stack, update s.color u .black, s.found⟩
  | (u, v :: rest) :: stack =>
    match s.color v with
    | .white =>
      ⟨(v, if s.found then [] else next v) :: (u, rest) :: stack, update s.color v .gray, s.found⟩
    | .gray => ⟨(u, rest) :: stack, s.color, true⟩
    | .black => ⟨(u, rest) :: stack, s.color, s.found⟩

def run : ℕ → Search V → Search V
  | 0, s => s
  | fuel + 1, s => run fuel (step next s)

/-- The answer of the search. -/
def visit (fuel : ℕ) (root : V) : Bool := (run next fuel (start next root)).found

end Machine

/-! ## Vertices in the order in which they turned black -/

/-- All successors of a vertex come after it in the list. -/
inductive Finished : List V → Prop
  | nil : Finished []
  | cons {u : V} {order : List V} (h : Finished order) (hnew : u ∉ order)
      (hnext : ∀ v ∈ next u, v ∈ order) : Finished (u :: order)

section Finished

variable {next} {order : List V} (h : Finished next order)

include h

theorem Finished.next_mem (hu : u ∈ order) (hedge : Edge next u v) : v ∈ order := by
  induction h with
  | nil => exact absurd hu not_mem_nil
  | cons _ _ hnext ih =>
    rcases mem_cons.mp hu with rfl | hu
    · exact mem_cons_of_mem _ (hnext v hedge)
    · exact mem_cons_of_mem _ (ih hu)

theorem Finished.reach_mem (hu : u ∈ order)
    (hreach : ReflTransGen (Edge next) u v) : v ∈ order := by
  induction hreach with
  | refl => exact hu
  | tail _ hedge ih => exact h.next_mem ih hedge

theorem Finished.not_cycle (hu : u ∈ order) : ¬ TransGen (Edge next) u u := by
  intro hcycle
  induction h with
  | nil => exact absurd hu not_mem_nil
  | cons h hnew hnext ih =>
    rcases mem_cons.mp hu with rfl | hu
    · -- the cycle leaves the vertex, and does not come back to it
      obtain ⟨w, hedge, hback⟩ := TransGen.head'_iff.mp hcycle
      exact hnew (h.reach_mem (hnext w hedge) hback)
    · exact ih hu

end Finished

/-! ## What every step keeps -/

/-- The stack is a path that the search can take from the root. -/
def Linked (root : V) : List (V × List V) → Prop
  | [] => True
  | (u, rest) :: stack =>
    (∀ v ∈ rest, Edge next u v) ∧ (match stack with
        | [] => u = root
        | (p, _) :: _ => Edge next p u) ∧
      Linked root stack

/-- The successors of the vertices of the stack have been looked at, up to the
rest. -/
def Explored (color : V → Color) : Option V → List (V × List V) → Prop
  | _, [] => True
  | child, (u, rest) :: stack =>
    (∀ v ∈ next u, v ∈ rest ∨ color v = .black ∨ child = some v) ∧ Explored color (some u) stack

/-- As long as there was no edge to a gray vertex: the successors of the stack have
been looked at, and the black vertices are finished. -/
structure Clean (s : Search V) : Prop where
  explored : Explored next s.color none s.stack
  finished : ∃ order, Finished next order ∧ ∀ v, v ∈ order ↔ s.color v = .black

/-- What holds in every state of the search. -/
structure Inv (root : V) (s : Search V) : Prop where
  gray : ∀ v, s.color v = .gray ↔ v ∈ s.stack.map Prod.fst
  nodup : (s.stack.map Prod.fst).Nodup
  linked : Linked next root s.stack
  seen : s.color root ≠ .white
  sound : s.found = true → ReachesCycle next root
  clean : s.found = false → Clean next s

section Steps

variable {next} {color' : V → Color}

theorem Linked.reach (h : Linked next root stack) (hu : u ∈ stack.map Prod.fst) :
    ReflTransGen (Edge next) root u := by
  induction stack generalizing u with
  | nil => exact absurd hu (by simp)
  | cons frame stack ih =>
    obtain ⟨-, hlink, htail⟩ := h
    rcases mem_cons.mp hu with rfl | hu
    · rcases stack with - | ⟨frame, stack⟩
      · cases hlink
        exact .refl
      · exact (ih htail (by simp)).tail hlink
    · exact ih htail hu

/-- The top of the stack can be reached from every vertex of it. -/
theorem Linked.reach_top (h : Linked next root ((u, rest) :: stack))
    (hv : v ∈ ((u, rest) :: stack).map Prod.fst) : ReflTransGen (Edge next) v u := by
  induction stack generalizing u rest with
  | nil =>
    obtain rfl : v = u := by simpa using hv
    exact .refl
  | cons frame stack ih =>
    obtain ⟨-, hlink, htail⟩ := h
    rcases mem_cons.mp hv with rfl | hv
    · exact .refl
    · exact (ih htail hv).tail hlink

theorem Linked.drop (h : Linked next root ((u, v :: rest) :: stack)) :
    Linked next root ((u, rest) :: stack) :=
  ⟨fun w hw => h.1 w (mem_cons_of_mem _ hw), h.2⟩

theorem Linked.push (h : Linked next root ((u, v :: rest) :: stack)) {rest' : List V}
    (hrest : ∀ w ∈ rest', Edge next v w) : Linked next root ((v, rest') :: (u, rest) :: stack) :=
  ⟨hrest, h.1 v mem_cons_self, h.drop⟩

theorem Explored.mono {child child' : Option V} (h : Explored next color child stack)
    (hblack : ∀ w, color w = .black ∨ child = some w → color' w = .black ∨ child' = some w)
    (hkeep : ∀ w, color w = .black → color' w = .black) : Explored next color' child' stack := by
  induction stack generalizing child child' with
  | nil => trivial
  | cons frame stack ih =>
    constructor
    · intro w hw
      rcases h.1 w hw with hrest | hdone
      · exact .inl hrest
      · exact .inr (hblack w hdone)
    · apply ih h.2
      rintro w (hw | hw)
      · exact .inl (hkeep w hw)
      · exact .inr hw

theorem Inv.close (h : Inv next root ⟨(u, v :: rest) :: stack, color, found⟩)
    (hv : color v = .gray) : Inv next root ⟨(u, rest) :: stack, color, true⟩ := by
  refine ⟨h.gray, h.nodup, h.linked.drop, h.seen, ?_, by simp⟩
  intro _
  have hmem := (h.gray v).mp hv
  refine ⟨v, h.linked.reach hmem, ?_⟩
  exact TransGen.tail' (h.linked.reach_top hmem) (h.linked.1 v mem_cons_self)

theorem Inv.skip (h : Inv next root ⟨(u, v :: rest) :: stack, color, found⟩)
    (hv : color v = .black) : Inv next root ⟨(u, rest) :: stack, color, found⟩ := by
  refine ⟨h.gray, h.nodup, h.linked.drop, h.seen, h.sound, ?_⟩
  intro hfound
  obtain ⟨hexplored, hfin⟩ := h.clean hfound
  refine ⟨⟨?_, hexplored.2⟩, hfin⟩
  intro w hw
  rcases hexplored.1 w hw with hrest | hdone
  · rcases mem_cons.mp hrest with rfl | hrest
    · exact .inr (.inl hv)
    · exact .inl hrest
  · exact .inr hdone

/-- A search that has ended without an edge to a gray vertex has seen no cycle. -/
theorem Inv.not_reachesCycle (h : Inv next root s) (hend : s.stack = [])
    (hfound : s.found = false) : ¬ ReachesCycle next root := by
  rintro ⟨v, hreach, hcycle⟩
  obtain ⟨-, order, hfin, horder⟩ := h.clean hfound
  have hroot : root ∈ order := by
    rw [horder]
    have hgray := h.gray root
    rw [hend] at hgray
    rcases hcolor : s.color root with - | - | -
    · exact absurd hcolor h.seen
    · exact absurd (hgray.mp hcolor) (by simp)
    · rfl
  exact hfin.not_cycle (hfin.reach_mem hroot hreach) hcycle

end Steps

section Run

variable [DecidableEq V] {next}

theorem inv_start (root : V) : Inv next root (start next root) where
  gray v := by
    simp only [start, map_cons, map_nil, mem_singleton]
    split <;> simp_all
  nodup := by simp [start]
  linked := by simp [start, Linked, Edge]
  seen := by simp [start]
  sound h := by simp [start] at h
  clean _ := by
    constructor
    · exact ⟨fun v hv => .inl hv, trivial⟩
    · refine ⟨[], .nil, ?_⟩
      intro v
      simp only [start, not_mem_nil, false_iff]
      split <;> simp

theorem Inv.leave (h : Inv next root ⟨(u, []) :: stack, color, found⟩) :
    Inv next root ⟨stack, update color u .black, found⟩ := by
  obtain ⟨hnew, hnodup⟩ := nodup_cons.mp h.nodup
  have hblack : ∀ w, color w = .black → update color u .black w = .black := by
    intro w hw
    by_cases hwu : w = u
    · simp [hwu]
    · rw [update_of_ne hwu, hw]
  refine ⟨?_, hnodup, h.linked.2.2, ?_, h.sound, ?_⟩
  · intro w
    by_cases hwu : w = u
    · subst hwu
      simpa using hnew
    · simpa [hwu] using h.gray w
  · by_cases hroot : root = u
    · simp [hroot]
    · simpa only [update_of_ne hroot] using h.seen
  · intro hfound
    obtain ⟨hexplored, order, hfin, horder⟩ := h.clean hfound
    refine ⟨hexplored.2.mono ?_ hblack, u :: order, .cons hfin ?_ ?_, ?_⟩
    · rintro w (hw | hw)
      · exact .inl (hblack w hw)
      · cases hw
        simp
    · rw [horder, (h.gray u).mpr mem_cons_self]
      simp
    · intro w hw
      rcases hexplored.1 w hw with hnil | hw | hnone
      · exact absurd hnil not_mem_nil
      · exact (horder w).mpr hw
      · exact absurd hnone (by simp)
    · intro w
      by_cases hwu : w = u
      · simp [hwu]
      · simp [mem_cons, horder, hwu, false_or]

theorem Inv.enter (h : Inv next root ⟨(u, v :: rest) :: stack, color, found⟩)
    (hwhite : color v = .white) :
    Inv next root ⟨(v, if found then [] else next v) :: (u, rest) :: stack,
      update color v .gray, found⟩ := by
  have hkeep : ∀ w, color w = .black → update color v .gray w = .black := by
    intro w hw
    rw [update_of_ne, hw]
    rintro rfl
    rw [hwhite] at hw
    cases hw
  have hnew : v ∉ ((u, v :: rest) :: stack).map Prod.fst := by
    intro hmem
    cases hwhite.symm.trans ((h.gray v).mpr hmem)
  refine ⟨?_, nodup_cons.mpr ⟨hnew, h.nodup⟩, h.linked.push ?_, ?_, h.sound, ?_⟩
  · intro w
    by_cases hwv : w = v
    · simp [hwv]
    · simpa [hwv] using h.gray w
  · intro w hw
    split at hw
    · exact absurd hw not_mem_nil
    · exact hw
  · by_cases hroot : root = v
    · simp [hroot]
    · simpa only [update_of_ne hroot] using h.seen
  · intro (hfound : found = false)
    obtain ⟨hexplored, order, hfin, horder⟩ := h.clean hfound
    refine ⟨⟨?_, ?_, hexplored.2.mono ?_ hkeep⟩, order, hfin, ?_⟩
    · intro w hw
      rw [hfound]
      exact .inl hw
    · intro w hw
      rcases hexplored.1 w hw with hrest | hblack | hnone
      · rcases mem_cons.mp hrest with rfl | hrest
        · exact .inr (.inr rfl)
        · exact .inl hrest
      · exact .inr (.inl (hkeep w hblack))
      · exact absurd hnone (by simp)
    · rintro w (hw | hw)
      · exact .inl (hkeep w hw)
      · exact .inr hw
    · intro w
      rw [horder]
      by_cases hwv : w = v
      · simp [hwv, hwhite]
      · simp [update_of_ne hwv]

variable (h : Inv next root s)

include h

theorem Inv.step : Inv next root (step next s) := by
  rcases s with ⟨- | ⟨⟨u, - | ⟨v, rest⟩⟩, stack⟩, color, found⟩
  · exact h
  · exact h.leave
  · rcases hcolor : color v with - | - | -
    · simpa only [DepthFirst.step, hcolor] using h.enter hcolor
    · simpa only [DepthFirst.step, hcolor] using h.close hcolor
    · simpa only [DepthFirst.step, hcolor] using h.skip hcolor

theorem Inv.run (fuel : ℕ) : Inv next root (run next fuel s) := by
  induction fuel generalizing s with
  | zero => exact h
  | succ fuel ih => exact ih h.step

end Run

/-! ## The search ends -/

/-- Steps that suffice for a set of vertices. -/
def budget (vertices : Finset V) : ℕ := ∑ v ∈ vertices, (2 + (next v).length)

/-- The steps that are left, at most. -/
def remaining (vertices : Finset V) (s : Search V) : ℕ :=
  budget next (vertices.filter (s.color · = .white)) +
    (s.stack.map (fun frame => 1 + frame.2.length)).sum

section Termination

variable [DecidableEq V] {next} {vertices : Finset V}

theorem budget_erase (next : V → List V) (hv : v ∈ vertices) :
    budget next (vertices.erase v) + (2 + (next v).length) = budget next vertices := by
  rw [budget, budget, add_comm]
  exact Finset.add_sum_erase vertices (fun v => 2 + (next v).length) hv

theorem step_remaining (h : Inv next root s)
    (hclosed : ∀ u, ReflTransGen (Edge next) root u → u ∈ vertices) (hstack : s.stack ≠ []) :
    remaining next vertices (step next s) < remaining next vertices s := by
  rw [step]
  split
  · rename_i hnil
    exact absurd hnil hstack
  · rename_i u stack heq
    have hmono : budget next (vertices.filter (update s.color u .black · = .white)) ≤
        budget next (vertices.filter (s.color · = .white)) := by
      apply Finset.sum_le_sum_of_subset
      intro w hw
      rw [Finset.mem_filter] at hw ⊢
      refine ⟨hw.1, ?_⟩
      by_cases hwu : w = u
      · simp [hwu] at hw
      · rw [← hw.2, update_of_ne hwu]
    simp only [remaining, heq, map_cons, sum_cons, length_nil]
    omega
  · rename_i u v rest stack heq
    split
    · rename_i hwhite
      have hv : v ∈ vertices := by
        have hlinked := h.linked
        rw [heq] at hlinked
        exact hclosed v ((hlinked.reach (u := u) (by simp)).tail (hlinked.1 v mem_cons_self))
      have hfilter : vertices.filter (update s.color v .gray · = .white) =
          (vertices.filter (s.color · = .white)).erase v := by
        ext w
        by_cases hwv : w = v
        · simp [hwv]
        · simp [hwv]
      have hmem : v ∈ vertices.filter (s.color · = .white) := by
        simp [hv, hwhite]
      have herase := budget_erase next hmem
      have hlen : (if s.found then [] else next v).length ≤ (next v).length := by
        split <;> simp
      simp only [remaining, heq, hfilter, map_cons, sum_cons, length_cons]
      omega
    · simp only [remaining, heq, map_cons, sum_cons, length_cons]
      omega
    · simp only [remaining, heq, map_cons, sum_cons, length_cons]
      omega

theorem run_of_end (hend : s.stack = []) (fuel : ℕ) : run next fuel s = s := by
  induction fuel with
  | zero => rfl
  | succ fuel ih =>
    have hstep : step next s = s := by
      rw [step, hend]
    rw [run, hstep, ih]

theorem run_ends (h : Inv next root s)
    (hclosed : ∀ u, ReflTransGen (Edge next) root u → u ∈ vertices) {fuel : ℕ}
    (hfuel : remaining next vertices s ≤ fuel) : (run next fuel s).stack = [] := by
  induction fuel generalizing s with
  | zero =>
    by_contra hstack
    have hlt := step_remaining h hclosed hstack
    omega
  | succ fuel ih =>
    by_cases hend : s.stack = []
    · rw [run_of_end hend, hend]
    · have hlt := step_remaining h hclosed hend
      exact ih h.step (by omega)

theorem visit_iff (hroot : root ∈ vertices) (hnext : ∀ u ∈ vertices, ∀ v ∈ next u, v ∈ vertices) :
    visit next (budget next vertices) root = true ↔ ReachesCycle next root := by
  have hclosed : ∀ u, ReflTransGen (Edge next) root u → u ∈ vertices := by
    intro u hreach
    induction hreach with
    | refl => exact hroot
    | tail _ hedge ih => exact hnext _ ih _ hedge
  have hstart : Inv next root (start next root) := inv_start root
  have hinv := hstart.run (budget next vertices)
  have hfuel : remaining next vertices (start next root) ≤ budget next vertices := by
    have hfilter : vertices.filter ((start next root).color · = .white) =
        vertices.erase root := by
      ext w
      simp [start, and_comm]
    have herase := budget_erase next hroot
    rw [remaining, hfilter]
    simp only [start, map_cons, map_nil, sum_cons, sum_nil]
    omega
  have hend := run_ends hstart hclosed hfuel
  constructor
  · exact hinv.sound
  · intro hcycle
    by_contra hfound
    exact hinv.not_reachesCycle hend (by simpa [visit] using hfound) hcycle

end Termination

end FiscoSmart.Support.DepthFirst
