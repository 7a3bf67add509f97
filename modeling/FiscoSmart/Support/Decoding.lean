import FiscoSmart.Support.Runs

/-!
# Decoders over a cursor

A decoder is a call on a cursor: an input, and the position up to which it has
been read.  `Reads d tokens a` says that, wherever `tokens` is what comes next,
the decoder consumes exactly these tokens and returns `a`; the rules below
compose such facts as the decoders are composed.  `FailsOnly` says that a decoder
only fails in ways the caller expects, `Advances` that it does not leave the
input, and `Frugal` bounds the elements it allocates by the tokens it consumes.
-/

namespace FiscoSmart.Support

open List

variable {τ ε α β : Type} {tokens tokens' : List τ} {a : α} {g : α → β}

/-- An input, the position up to which it has been read, and the number of
elements allocated so far. -/
structure Cursor (τ : Type) where
  span : List τ
  currentIndex : ℕ
  allocated : ℕ

variable {d : EStateM ε (Cursor τ) α} {f : α → EStateM ε (Cursor τ) β} {e : ε}
  {encode : α → Except ε' (List τ)} {l : List α} {s s' : Cursor τ} {ε' : Type}

namespace Cursor

def start (span : List τ) : Cursor τ := ⟨span, 0, 0⟩

/-- `left` is what has not been read. -/
def Left (s : Cursor τ) (left : List τ) : Prop :=
  ∃ read, s.span = read ++ left ∧ s.currentIndex = read.length

theorem left_start (span : List τ) : (start span).Left span := ⟨[], rfl, rfl⟩

theorem Left.moved {t : List τ} (h : s.Left (tokens ++ t))
    (hspan : s'.span = s.span) (hindex : s'.currentIndex = s.currentIndex + tokens.length) :
    s'.Left t := by
  obtain ⟨read, hread, hlen⟩ := h
  refine ⟨read ++ tokens, ?_, ?_⟩
  · rw [hspan, hread, append_assoc]
  · rw [hindex, hlen, length_append]

end Cursor

def times (d : EStateM ε (Cursor τ) α) : (n : ℕ) → EStateM ε (Cursor τ) {l : List α // l.length = n}
  | 0 => return ⟨[], rfl⟩
  | n + 1 => do
    let a ← d
    let l ← times d n
    return ⟨a :: l.1, congrArg (· + 1) l.2⟩

/-! ## Successful decoding -/

/-- Where `tokens` comes next, `d` consumes it and returns `a`. -/
def Reads (d : EStateM ε (Cursor τ) α) (tokens : List τ) (a : α) : Prop :=
  ∀ s t, s.Left (tokens ++ t) → ∃ s', Runs d s a s' ∧ s'.span = s.span ∧
      s'.currentIndex = s.currentIndex + tokens.length

namespace Reads

variable {b : β}

theorem of_pure : Reads (pure a : EStateM ε (Cursor τ) α) [] a :=
  fun s _ _ => ⟨s, .of_pure, rfl, rfl⟩

theorem bind (hd : Reads d tokens a) (hf : Reads (f a) tokens' b) :
    Reads (d >>= f) (tokens ++ tokens') b := by
  intro s t hleft
  rw [append_assoc] at hleft
  obtain ⟨s', hrun, hspan, hindex⟩ := hd s _ hleft
  obtain ⟨s'', hrun', hspan', hindex'⟩ := hf s' t (hleft.moved hspan hindex)
  refine ⟨s'', hrun.bind hrun', hspan'.trans hspan, ?_⟩
  rw [hindex', hindex, length_append, Nat.add_assoc]

theorem bind_last (hd : Reads d tokens a) (hf : Reads (f a) [] b) : Reads (d >>= f) tokens b := by
  have h := hd.bind hf
  rwa [append_nil] at h

theorem map (hd : Reads d tokens a) : Reads (do return g (← d)) tokens (g a) :=
  hd.bind_last (of_pure)

theorem of_modify {g : Cursor τ → Cursor τ} (hspan : ∀ s, (g s).span = s.span)
    (hindex : ∀ s, (g s).currentIndex = s.currentIndex) :
    Reads (modify g : EStateM ε (Cursor τ) PUnit) [] ⟨⟩ :=
  fun s _ _ => ⟨g s, .of_modify, hspan s, hindex s⟩

end Reads

/-- A value whose encoding is read back, whatever follows it. -/
def RoundTrips {ε' : Type} (encode : α → Except ε' (List τ)) (d : EStateM ε (Cursor τ) α)
    (a : α) : Prop :=
  ∃ tokens, encode a = .ok tokens ∧ Reads d tokens a

/-- The encodings of the elements of a list, one after the other. -/
def encodeAll {ε' : Type} (encode : α → Except ε' (List τ)) : List α → Except ε' (List τ)
  | [] => .ok []
  | a :: l => do
    let tokens ← encode a
    let tokens' ← encodeAll encode l
    return tokens ++ tokens'

theorem encodeAll_append (hl : encodeAll encode l = .ok tokens)
    (ha : encode a = .ok tokens') : encodeAll encode (l ++ [a]) = .ok (tokens ++ tokens') := by
  induction l generalizing tokens with
  | nil =>
    cases hl
    rw [nil_append, encodeAll, ha]
    exact congrArg Except.ok (append_nil tokens')
  | cons b l ih =>
    rw [encodeAll] at hl
    rcases hb : encode b with e | first
    · rw [hb] at hl
      cases hl
    · rcases hrest : encodeAll encode l with e | rest
      · rw [hb, hrest] at hl
        cases hl
      · rw [hb, hrest] at hl
        cases hl
        rw [cons_append, encodeAll, hb, ih hrest]
        exact congrArg Except.ok (append_assoc first rest tokens').symm

theorem RoundTrips.encodeAll (h : ∀ a ∈ l, RoundTrips encode d a) :
    ∃ tokens, encodeAll encode l = .ok tokens ∧ Reads (times d l.length) tokens ⟨l, rfl⟩ := by
  induction l with
  | nil => exact ⟨[], rfl, Reads.of_pure⟩
  | cons a l ih =>
    obtain ⟨tokens, hencode, hreads⟩ := h a (mem_cons_self ..)
    obtain ⟨tokens', hencode', hreads'⟩ := ih fun a ha => h a (mem_cons_of_mem _ ha)
    refine ⟨tokens ++ tokens', ?_, hreads.bind hreads'.map⟩
    rw [Support.encodeAll, hencode, hencode']
    rfl

/-! ## Failures -/

/-- `d` fails only as its caller expects. -/
def FailsOnly (benign : ε → Prop) (d : EStateM ε (Cursor τ) α) (s : Cursor τ) : Prop :=
  ∀ e s', Fails d s e s' → benign e

/-- The elements of a sequence meet `p` where they begin. -/
def Each (p : Cursor τ → Prop) (d : EStateM ε (Cursor τ) α) : ℕ → Cursor τ → Prop
  | 0, _ => True
  | n + 1, s => p s ∧ After d s fun _ s' => Each p d n s'

namespace FailsOnly

variable {benign : ε → Prop}

theorem of_runs (h : Runs d s a s') : FailsOnly benign d s :=
  fun _ _ hfails => absurd h hfails.not_runs

theorem iff_of_fails (h : Fails d s e s') : FailsOnly benign d s ↔ benign e := by
  constructor
  · exact fun honly => honly e s' h
  · intro he e' s'' h'
    cases h.symm.trans h'
    exact he

theorem bind_iff :
    FailsOnly benign (d >>= f) s ↔
      FailsOnly benign d s ∧ After d s fun a s' => FailsOnly benign (f a) s' := by
  constructor
  · intro h
    exact ⟨fun e s' hfails => h e s' hfails.bind,
      fun a s' hrun e s'' hfails => h e s'' (hfails.after hrun)⟩
  · rintro ⟨hd, hf⟩ e s'' hfails
    rcases hrun : d s with ⟨a, s'⟩ | ⟨e', s'⟩
    · exact hf a s' hrun e s'' ((Runs.bind_eq hrun f).symm.trans hfails)
    · cases (Fails.bind_eq hrun f).symm.trans hfails
      exact hd _ _ hrun

theorem map_iff : FailsOnly benign (do return g (← d)) s ↔ FailsOnly benign d s :=
  bind_iff.trans (and_iff_left fun _ _ _ => of_runs .of_pure)

theorem times_iff {p : Cursor τ → Prop} (hd : ∀ s, FailsOnly benign d s ↔ p s) (n : ℕ)
    (s : Cursor τ) : FailsOnly benign (times d n) s ↔ Each p d n s := by
  induction n generalizing s with
  | zero => exact iff_of_true (of_runs .of_pure) trivial
  | succ n ih =>
    rw [times, bind_iff, Each, hd]
    exact and_congr_right fun _ => after_congr fun _ s' => map_iff.trans (ih s')

end FailsOnly

/-! ## Progress -/

/-- `s'` is further in the same input, and not beyond its end. -/
structure Cursor.Further (s s' : Cursor τ) : Prop where
  span : s'.span = s.span
  le : s.currentIndex ≤ s'.currentIndex
  within : s'.currentIndex ≤ s'.span.length

theorem Cursor.Further.trans {s'' : Cursor τ} (h : s.Further s') (h' : s'.Further s'') :
    s.Further s'' :=
  ⟨h'.span.trans h.span, h.le.trans h'.le, h'.within⟩

/-- A decoder that stays within the input where it succeeds. -/
def Advances (d : EStateM ε (Cursor τ) α) : Prop :=
  ∀ s, s.currentIndex ≤ s.span.length → After d s fun _ s' => s.Further s'

namespace Advances

theorem of_pure : Advances (pure a : EStateM ε (Cursor τ) α) := by
  intro s hs b s' hrun
  obtain ⟨-, rfl⟩ := Runs.of_pure.unique hrun
  exact ⟨rfl, le_rfl, hs⟩

theorem of_throw : Advances (throw e : EStateM ε (Cursor τ) α) :=
  fun _ _ _ _ hrun => absurd hrun Fails.of_throw.not_runs

theorem bind (hd : Advances d) (hf : ∀ a, Advances (f a)) : Advances (d >>= f) := by
  intro s hs b s'' hrun
  obtain ⟨a, s', hfirst, hsecond⟩ := hrun.of_bind
  have hfurther := hd s hs a s' hfirst
  exact hfurther.trans (hf a s' hfurther.within b s'' hsecond)

theorem map (hd : Advances d) : Advances (do return g (← d)) :=
  hd.bind fun _ => of_pure

theorem times (hd : Advances d) (n : ℕ) : Advances (times d n) := by
  induction n with
  | zero => exact of_pure
  | succ n ih => exact hd.bind fun a => ih.map

end Advances

/-! ## Allocation -/

/-- A decoder that consumes `k` tokens besides one for each element it allocates. -/
def Frugal (d : EStateM ε (Cursor τ) α) (k : ℤ) : Prop :=
  ∀ s a s', Runs d s a s' → (s'.allocated : ℤ) + s.currentIndex + k ≤ s.allocated + s'.currentIndex

namespace Frugal

variable {k k' : ℤ}

theorem of_pure : Frugal (pure a : EStateM ε (Cursor τ) α) 0 := by
  intro s b s' hrun
  obtain ⟨-, rfl⟩ := Runs.of_pure.unique hrun
  omega

theorem of_throw : Frugal (throw e : EStateM ε (Cursor τ) α) k :=
  fun _ _ _ hrun => absurd hrun Fails.of_throw.not_runs

variable (hd : Frugal d k)

include hd

theorem bind (hf : ∀ a, Frugal (f a) k') : Frugal (d >>= f) (k + k') := by
  intro s b s'' hrun
  obtain ⟨a, s', hfirst, hsecond⟩ := hrun.of_bind
  have h := hd s a s' hfirst
  have h' := hf a s' b s'' hsecond
  omega

theorem mono (hk : k' ≤ k) : Frugal d k' := by
  intro s a s' hrun
  have h := hd s a s' hrun
  omega

theorem map : Frugal (do return g (← d)) k :=
  (hd.bind fun _ => of_pure).mono (Int.add_zero k).ge

theorem times (n : ℕ) : Frugal (times d n) (n * k) := by
  induction n with
  | zero => exact (of_pure).mono (Int.zero_mul k).le
  | succ n ih =>
    refine (hd.bind fun a => ih.map).mono ?_
    rw [Int.natCast_succ, Int.add_mul, Int.one_mul, Int.add_comm]

end Frugal

end FiscoSmart.Support
