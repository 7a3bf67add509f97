import Mathlib.Tactic

/-!
# Rounds of questions

A coordinator puts one question to everybody of a list and waits for the answers,
which come in any order.  `Gather` is the state of such a round, and `Covers` says
that everybody either has answered or is still waited for, nobody twice.  The
round is over when as many answers have come as there were questions.
-/

namespace FiscoSmart.Support

open List

/-- A round: the answers in the order in which they came, and those who have not
answered yet. -/
structure Gather (α β : Type*) where
  answers : List (α × β)
  waiting : List α

namespace Gather

variable {α β : Type*} {all : List α} {g : Gather α β}

/-- The round in which nobody has answered. -/
def ask (all : List α) : Gather α β := ⟨[], all⟩

/-- Everybody of `all` has answered or is waited for. -/
structure Covers (all : List α) (g : Gather α β) : Prop where
  nodup : g.waiting.Nodup
  count : g.answers.length + g.waiting.length = all.length
  asked : ∀ a ∈ all, a ∈ g.waiting ∨ ∃ b, (a, b) ∈ g.answers
  among : ∀ x ∈ g.answers, x.1 ∈ all
  waiting_among : ∀ a ∈ g.waiting, a ∈ all

theorem covers_ask (h : all.Nodup) : Covers all (ask all : Gather α β) :=
  ⟨h, by simp [ask], fun _ ha => .inl ha, fun _ hx => absurd hx not_mem_nil,
    fun _ ha => ha⟩

theorem Covers.exists_answer {answers : List (α × β)}
    (h : Covers all ⟨answers, []⟩) {a : α} (ha : a ∈ all) : ∃ b, (a, b) ∈ answers :=
  (h.asked a ha).resolve_left not_mem_nil

/-- The round is over exactly with the last answer. -/
theorem Covers.waiting_eq_nil_iff (h : Covers all g) :
    g.waiting = [] ↔ all.length ≤ g.answers.length := by
  have hcount := h.count
  rw [← length_eq_zero_iff]
  omega

variable [DecidableEq α]

/-- One of those waited for answers. -/
def answer (g : Gather α β) (a : α) (b : β) : Gather α β :=
  ⟨g.answers ++ [(a, b)], g.waiting.erase a⟩

theorem Covers.answer (h : Covers all g) {a : α}
    (ha : a ∈ g.waiting) (b : β) : Covers all (g.answer a b) where
  nodup := h.nodup.erase a
  count := by
    have hcount := h.count
    have hpos := length_pos_of_mem ha
    simp only [Gather.answer, length_append, length_singleton, length_erase_of_mem ha]
    omega
  asked c hc := by
    by_cases hca : c = a
    · exact .inr ⟨b, by simp [Gather.answer, hca]⟩
    · rcases h.asked c hc with hwait | ⟨b', hb'⟩
      · exact .inl ((mem_erase_of_ne hca).mpr hwait)
      · exact .inr ⟨b', mem_append_left _ hb'⟩
  among x hx := by
    rcases mem_append.mp hx with hold | hnew
    · exact h.among x hold
    · rw [mem_singleton.mp hnew]
      exact h.waiting_among a ha
  waiting_among c hc := h.waiting_among c (mem_of_mem_erase hc)

end Gather

end FiscoSmart.Support
