import Mathlib.Tactic

/-!
# Interleavings

The actions of several sequential threads, run in an arbitrary order that keeps
the order of each thread: as long as some thread has an action left, any such
thread may make the next step.
-/

namespace FiscoSmart.Support

open List

variable {α β : Type*}

/-- `trace` runs all threads to their end. -/
inductive Interleaving : List (List α) → List α → Prop
  | done {threads : List (List α)} (h : ∀ thread ∈ threads, thread = []) : Interleaving threads []
  | step {before after : List (List α)} {a : α} {rest trace : List α}
      (h : Interleaving (before ++ rest :: after) trace) :
      Interleaving (before ++ (a :: rest) :: after) (a :: trace)

namespace Interleaving

variable {threads threads' : List (List α)} {trace : List α} {a : α}

theorem mem_iff (h : Interleaving threads trace) : a ∈ trace ↔ ∃ thread ∈ threads, a ∈ thread := by
  induction h with
  | done hnil =>
    refine iff_of_false not_mem_nil ?_
    rintro ⟨thread, hthread, ha⟩
    rw [hnil thread hthread] at ha
    exact not_mem_nil ha
  | @step before after b rest trace _ ih =>
    simp only [mem_cons, ih, mem_append]
    constructor
    · rintro (rfl | ⟨thread, hthread, ha⟩)
      · exact ⟨_, .inr (.inl rfl), mem_cons_self ..⟩
      · rcases hthread with hthread | rfl | hthread
        · exact ⟨thread, .inl hthread, ha⟩
        · exact ⟨_, .inr (.inl rfl), mem_cons_of_mem _ ha⟩
        · exact ⟨thread, .inr (.inr hthread), ha⟩
    · rintro ⟨thread, hthread | rfl | hthread, ha⟩
      · exact .inr ⟨thread, .inl hthread, ha⟩
      · exact (mem_cons.mp ha).imp_right fun ha => ⟨_, .inr (.inl rfl), ha⟩
      · exact .inr ⟨thread, .inr (.inr hthread), ha⟩

theorem eq_nil (h : Interleaving threads []) (thread : List α) (hthread : thread ∈ threads) :
    thread = [] := by
  refine eq_nil_iff_forall_not_mem.mpr fun a ha => ?_
  exact not_mem_nil (h.mem_iff.mpr ⟨thread, hthread, ha⟩)

theorem getLast? (h : Interleaving threads trace) (ha : trace.getLast? = some a) :
    ∃ thread ∈ threads, thread.getLast? = some a := by
  induction h with
  | done => cases ha
  | @step before after b rest trace htrace ih =>
    rcases hlast : trace.getLast? with - | c
    · obtain rfl := getLast?_eq_none_iff.mp hlast
      obtain rfl : rest = [] := htrace.eq_nil rest (by simp)
      exact ⟨[b], by simp, ha⟩
    · have hne : trace ≠ [] := fun hnil => by simp [hnil] at hlast
      rw [getLast?_cons_of_ne_nil hne, hlast] at ha
      cases ha
      obtain ⟨thread, hthread, hc⟩ := ih hlast
      rcases mem_append.mp hthread with hin | hin
      · exact ⟨thread, mem_append_left _ hin, hc⟩
      rcases mem_cons.mp hin with rfl | hin
      · have hrest : thread ≠ [] := fun hnil => by simp [hnil] at hc
        exact ⟨b :: thread, by simp, (getLast?_cons_of_ne_nil hrest).trans hc⟩
      · exact ⟨thread, by simp [hin], hc⟩

/-- Actions that do not matter can be left out of the threads and of the trace. -/
theorem filterMap (f : α → Option β) (h : Interleaving threads trace) :
    Interleaving (threads.map (List.filterMap f)) (trace.filterMap f) := by
  induction h with
  | done hnil =>
    refine .done ?_
    simp only [mem_map]
    rintro _ ⟨thread, hthread, rfl⟩
    rw [hnil thread hthread, filterMap_nil]
  | @step before after b rest trace _ ih =>
    rw [map_append, map_cons] at ih ⊢
    rcases hb : f b with - | c
    · rw [filterMap_cons_none hb, filterMap_cons_none hb]
      exact ih
    · rw [filterMap_cons_some hb, filterMap_cons_some hb]
      exact .step ih

theorem flatten (threads : List (List α)) : Interleaving threads threads.flatten := by
  suffices h : ∀ done : List (List α), (∀ thread ∈ done, thread = []) →
      Interleaving (done ++ threads) threads.flatten from h [] (by simp)
  induction threads with
  | nil => exact fun done hdone => .done (by simpa using hdone)
  | cons thread threads ih =>
    intro done hdone
    induction thread with
    | nil =>
      have h := ih (done ++ [[]]) (by simpa [or_imp, forall_and] using hdone)
      simpa using h
    | cons a thread ihthread => exact .step ihthread

theorem perm (hperm : threads.Perm threads') (h : Interleaving threads trace) :
    Interleaving threads' trace := by
  induction h generalizing threads' with
  | done hnil => exact .done fun thread hthread => hnil thread (hperm.mem_iff.mpr hthread)
  | @step before after b rest trace _ ih =>
    obtain ⟨before', after', rfl⟩ :=
      append_of_mem (hperm.mem_iff.mp (mem_append_right _ (mem_cons_self ..)))
    refine .step (ih ?_)
    have hothers : (before ++ after).Perm (before' ++ after') := by
      refine List.Perm.cons_inv (a := b :: rest) ?_
      exact (perm_middle.symm.trans hperm).trans perm_middle
    exact perm_middle.trans ((hothers.cons rest).trans perm_middle.symm)

end Interleaving

end FiscoSmart.Support
