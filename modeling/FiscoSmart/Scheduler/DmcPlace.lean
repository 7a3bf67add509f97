import FiscoSmart.Scheduler.DmcPrepare

/-!
# Where a transaction is

In every round a transaction is at one address, or it is gone.  Other pools may
still have it, but they have marked it as given away and drop it when they are
prepared.  A transaction that is put into such a pool is dropped there with the old
mark.  This is the only way to lose one, and it needs a new contract with the address
of a pool that has just given the transaction away.

The facts below are stated for both cases: `lossy` says whether transactions may be
lost.
-/

namespace FiscoSmart.Scheduler

open BlockExecutive DmcExecutor View
open Support

/-! ## Places -/

/-- What a transaction at an address waits for. -/
inductive Status
  | prepare
  | send
  | locked
  | answer
deriving DecidableEq

variable {lossy : Prop} {m : Marks} {status : Status} {addr : Address} {f : Marks → Marks}

/-- The marks of a transaction at its address. -/
structure Fits (status : Status) (m : Marks) : Prop where
  pending : m.pending = true
  notOut : m.needScheduleOut = false
  notRemoved : m.needRemove = false
  needPrepare : m.needPrepare = decide (status = .prepare)
  needSend : m.needSend = decide (status = .send)
  hasLocked : status = .locked → m.hasLocked = true

/-- The state of a transaction at its address. -/
def StateFits (contextID : ContextID) : Status → ExecutiveState → Prop
  | .prepare, state => Ready contextID state
  | .send, state => Sendable contextID state
  | .locked, state => Sendable contextID state
  | .answer, state => state.message = none ∧ state.callStack ≠ []

/-- The marks of a transaction at another address: if it is in the pool, it has been
given away. -/
structure Stale (lossy : Prop) (m : Marks) : Prop where
  pending : m.pending = true → m.needScheduleOut = true
  hasLocked : m.hasLocked = true → m.needScheduleOut = true
  needPrepare : m.needPrepare = true → lossy ∧ m.needScheduleOut = true
  needSend : m.needSend = false
  notRemoved : m.needRemove = false

structure At (lossy : Prop) (contextID : ContextID) (v : View) (address : Address)
    (status : Status) : Prop where
  fits : Fits status (v.marks address)
  stale : ∀ x, x ≠ address → Stale lossy (v.marks x)
  state : StateFits contextID status v.state
  finished : v.finished = 0

/-- The transaction is at no address: it has been finished, or lost. -/
structure Gone (lossy : Prop) (v : View) : Prop where
  stale : ∀ x, Stale lossy (v.marks x)
  finished : v.finished = 1 ∨ (lossy ∧ v.finished = 0)

/-- The view of a number that no transaction has. -/
def Absent (v : View) : Prop := (∀ x, v.marks x = .none) ∧ v.finished = 0

theorem Fits.eq_prepare (h : Fits status m) (hprep : m.refresh.needPrepare = true) :
    status = .prepare := by
  simp only [Marks.refresh, h.needPrepare, Bool.and_eq_true, decide_eq_true_eq] at hprep
  exact hprep.1

theorem stale_none : Stale lossy .none := by
  constructor <;> simp [Marks.none]

theorem Stale.eq_none (h : Stale lossy m) (hout : m.needScheduleOut = false) : m = .none := by
  have hprep : m.needPrepare = true → m.needScheduleOut = true := fun h' =>
    (h.needPrepare h').2
  obtain ⟨p, q, r, s, t, u⟩ := m
  have := h.pending
  have := h.hasLocked
  have := h.needSend
  have := h.notRemoved
  simp_all [Marks.none]

theorem Stale.refresh (h : Stale lossy m) : m.refresh = .none := by
  rcases hout : m.needScheduleOut with - | -
  · rw [h.eq_none hout]
    rfl
  · simp [Marks.refresh, Marks.none, hout, h.needSend]

namespace View

variable (v : View)

theorem mark_mark (addr : Address) (f g : Marks → Marks) :
    (v.mark addr f).mark addr g = v.mark addr (fun m => g (f m)) := by
  simp [mark]

theorem mark_congr {g : Marks → Marks}
    (h : f (v.marks addr) = g (v.marks addr)) : v.mark addr f = v.mark addr g := by
  simp [mark, h]

end View

/-! ## One transaction in `prepare` -/

/-- A pool that was just prepared: nothing is left to do. -/
structure Settled (m : Marks) : Prop where
  needPrepare : m.needPrepare = false
  notOut : m.needScheduleOut = false
  notRemoved : m.needRemove = false
  hasLocked : m.hasLocked = true → m.needSend = false

theorem settled_none : Settled .none := by
  constructor <;> simp [Marks.none]

/-- The transaction is somewhere while pools are prepared, and not where its message
is going to be lost. -/
inductive Waiting (lossy : Prop) (env : Env) (contextID : ContextID) (v : View) : Prop
  | gone (h : Gone lossy v)
  | prepare (address : Address) (h : At lossy contextID v address .prepare)
      (hto : (v.marks (destination env contextID v.state)).needScheduleOut = true → lossy)
  | send (address : Address) (h : At lossy contextID v address .send)
  | locked (address : Address) (h : At lossy contextID v address .locked)

section Prepared

variable {env : Env} {x : Address} {cid : ContextID} {v v' : View} {moved : Bool}
  {state : ExecutiveState}

section

variable (h : PreparedView env x cid v moved v')

include h

theorem PreparedView.of_stale
    (hstale : (v.marks x).refresh = .none) : moved = false ∧ v' = v.mark x (fun _ => .none) := by
  obtain ⟨v₁, hmsg, rfl, rfl⟩ := h
  have hv₁ := hmsg.2 (by simp [hstale, Marks.none])
  rw [mark_mark, mark_congr v (g := fun _ => .none) (by rw [hstale]; rfl)] at hv₁
  subst hv₁
  constructor
  · simp [Marks.none]
  · rw [scheduledOut, if_neg (by simp [Marks.none]), mark_mark]
    rfl

theorem PreparedView.of_idle
    (hprep : (v.marks x).needPrepare = false) : moved = false ∧ v' = v.mark x Marks.refresh := by
  obtain ⟨v₁, hmsg, rfl, rfl⟩ := h
  have hv₁ := hmsg.2 (by simp [Marks.refresh, hprep])
  have hmarks : ∀ m : Marks, m.needPrepare = false →
      m.refresh.prepared = m.refresh ∧ m.refresh.refresh = m.refresh := by
    rintro ⟨p, q, r, s, t, u⟩
    revert p q r s t u
    decide
  rw [mark_mark, mark_congr v (g := Marks.refresh) (hmarks _ hprep).1] at hv₁
  subst hv₁
  constructor
  · simp [Marks.refresh]
  · rw [scheduledOut, if_neg (by simp [Marks.refresh]), mark_mark]
    exact mark_congr v (hmarks _ hprep).2

theorem PreparedView.of_message (hfits : Fits .prepare (v.marks x)) :
    ∃ hint v₁, Handled env x cid (v.mark x Marks.refresh) hint v₁ ∧
      moved = decide (hint = .needScheduleOut) ∧
      v' = (((v₁.mark x (fun m => (m.markAs hint).prepared))).scheduledOut x).mark x
        Marks.refresh := by
  obtain ⟨v₁, hmsg, rfl, rfl⟩ := h
  have hpend : ((v.mark x Marks.refresh).marks x).pending = true := by
    simp [Marks.refresh, hfits.pending, hfits.notOut, hfits.notRemoved]
  have hprep : ((v.mark x Marks.refresh).marks x).needPrepare = true := by
    simp [Marks.refresh, hfits.needPrepare, hfits.notOut, hfits.notRemoved]
  obtain ⟨hint, v₂, hhandled, rfl⟩ := hmsg.1 hprep hpend
  refine ⟨hint, v₂, hhandled, ?_, by rw [mark_mark]⟩
  have hmarks : v₂.marks x = (v.marks x).refresh := by
    rw [hhandled.marks_eq, mark_marks]
  simp only [mark_marks, hmarks]
  cases hint <;> simp [Marks.prepared, Marks.markAs, Marks.refresh]

end

theorem Waiting.of_scheduleOut {msg : ExecutionMessage}
    (h : At lossy cid v x .prepare) (hready : Ready cid state) (hne : msg.toAddress ≠ x)
    (hto : (v.marks msg.toAddress).needScheduleOut = true → lossy)
    (hdest : msg.toAddress = destination env cid state) (hmarks : ∀ y, v'.marks y =
      if y = x then .none
      else if y = msg.toAddress then (v.marks y).add else v.marks y)
    (hstate : v'.state = state) (hfin : v'.finished = v.finished) :
    Waiting lossy env cid v' := by
  have hstale := h.stale msg.toAddress hne
  have hthere : v'.marks msg.toAddress = (v.marks msg.toAddress).add := by
    rw [hmarks, if_neg hne, if_pos rfl]
  by_cases hout : (v.marks msg.toAddress).needScheduleOut = true
  · -- the new pool drops the transaction with its old mark
    refine .gone ⟨?_, .inr ⟨hto hout, by rw [hfin, h.finished]⟩⟩
    intro y
    rw [hmarks]
    split
    · exact stale_none
    · rename_i hyx
      split
      · rename_i hy
        subst hy
        constructor
        · exact fun _ => hout
        · exact fun _ => hout
        · exact fun _ => ⟨hto hout, hout⟩
        · exact hstale.needSend
        · exact hstale.notRemoved
      · exact h.stale y hyx
  · have hnone := hstale.eq_none (by simpa using hout)
    rw [hnone] at hthere
    refine .prepare msg.toAddress ⟨?_, ?_, ?_, by rw [hfin, h.finished]⟩ ?_
    · rw [hthere]
      constructor <;> simp [Marks.add, Marks.none]
    · intro y hy
      rw [hmarks, if_neg hy]
      split
      · exact stale_none
      · rename_i hyx
        exact h.stale y hyx
    · rw [hstate]
      exact hready
    · rw [hstate, ← hdest, hthere]
      simp [Marks.add, Marks.none]

theorem At.mark {status' : Status}
    (h : At lossy cid v x status) (hfits : Fits status' (f (v.marks x)))
    (hstate : StateFits cid status' state) :
    At lossy cid ((v.mark x f).withState state) x status' where
  fits := by simpa using hfits
  stale y hy := by simpa [hy] using h.stale y hy
  state := hstate
  finished := h.finished

/-- The pool of an address has been prepared, and the others are left alone unless a
transaction was moved. -/
def Rests (x : Address) (v : View) (moved : Bool) (v' : View) : Prop :=
  Settled (v'.marks x) ∧ (moved = false → ∀ y, y ≠ x → v'.marks y = v.marks y)

/-- The handled message is to be sent, or waits for a lock. -/
theorem At.kept (status : Status) {hint : MessageHint}
    (h : At lossy cid v x .prepare) (hstate : StateFits cid status state)
    (hhint : (hint = .needSend ∧ status = .send) ∨ (hint = .locked ∧ status = .locked))
    (hv' : v' = ((((v.mark x Marks.refresh).withState state).mark x
      (fun m => (m.markAs hint).prepared)).scheduledOut x).mark x Marks.refresh) :
    At lossy cid v' x status ∧ Rests x v moved v' := by
  have hm := h.fits
  have hview : v' = (v.mark x
      (fun m => ((m.refresh.markAs hint).prepared).refresh)).withState state := by
    rw [hv', scheduledOut, if_neg]
    · simp [View.mark, View.withState]
    · rcases hhint with ⟨rfl, -⟩ | ⟨rfl, -⟩ <;>
        simp [Marks.markAs, Marks.prepared, Marks.refresh]
  subst hview
  refine ⟨h.mark ?_ hstate, ?_, fun _ y hy => by simp [hy]⟩
  · rcases hhint with ⟨rfl, rfl⟩ | ⟨rfl, rfl⟩ <;> constructor <;>
      simp [Marks.markAs, Marks.prepared, Marks.refresh, hm.pending, hm.notOut, hm.notRemoved,
        hm.needSend]
  · rcases hhint with ⟨rfl, -⟩ | ⟨rfl, -⟩ <;> constructor <;>
      simp [Marks.markAs, Marks.prepared, Marks.refresh, hm.needSend]

/-- The handled message decides where the transaction is next. -/
theorem Waiting.of_message (h : At lossy cid v x .prepare)
    (hto : (v.marks (destination env cid v.state)).needScheduleOut = true → lossy)
    (hprepared : PreparedView env x cid v moved v') :
    Waiting lossy env cid v' ∧ Rests x v moved v' := by
  obtain ⟨hint, v₁, hhandled, rfl, rfl⟩ := hprepared.of_message h.fits
  have hm := h.fits
  cases hhandled with
  | scheduleOut state msg hmsg hready hne hfrom hdest =>
    set v₂ := (((v.mark x Marks.refresh).withState state).mark x
      (fun m => (m.markAs .needScheduleOut).prepared)) with hv₂
    have hv₂x : v₂.marks x = ((v.marks x).refresh.markAs .needScheduleOut).prepared := by
      simp [hv₂]
    have hout : (v₂.scheduledOut x) = v₂.mark msg.toAddress Marks.add := by
      rw [scheduledOut, if_pos]
      · simp [hv₂, hmsg]
      · rw [hv₂x]
        simp [Marks.markAs, Marks.prepared, Marks.refresh, hm.pending, hm.notOut, hm.notRemoved]
    rw [hout]
    have hx : ((v₂.mark msg.toAddress Marks.add).mark x Marks.refresh).marks x =
        .none := by
      rw [mark_marks, mark_marks_of_ne _ _ hne.symm, hv₂x]
      simp [Marks.markAs, Marks.prepared, Marks.refresh, hm.needSend, Marks.none]
    refine ⟨?_, by rw [hx]; exact settled_none, by simp⟩
    refine .of_scheduleOut h hready hne (by rw [hfrom]; exact hto) hdest ?_ rfl rfl
    intro y
    by_cases hyx : y = x
    · subst hyx
      rw [hx, if_pos rfl]
    · rw [if_neg hyx, mark_marks_of_ne _ _ hyx]
      by_cases hy : y = msg.toAddress
      · subst hy
        simp [hv₂, hne]
      · simp [hv₂, hyx, hy]
  | send state hsend =>
    obtain ⟨hat, hrests⟩ := h.kept .send hsend (.inl ⟨rfl, rfl⟩) rfl
    exact ⟨.send x hat, hrests⟩
  | locked state hsend =>
    obtain ⟨hat, hrests⟩ := h.kept .locked hsend (.inr ⟨rfl, rfl⟩) rfl
    exact ⟨.locked x hat, hrests⟩
  | ended state =>
    rw [scheduledOut, if_neg (by simp [Marks.markAs, Marks.prepared, Marks.refresh])]
    set v₂ := ((⟨(v.mark x Marks.refresh).marks, state,
      (v.mark x Marks.refresh).finished + 1⟩ : View).mark x
        (fun m => (m.markAs .ended).prepared)).mark x Marks.refresh with hv₂
    have hx : v₂.marks x = .none := by
      simp [hv₂, Marks.markAs, Marks.prepared, Marks.refresh, hm.needSend, Marks.none]
    have hy : ∀ y, y ≠ x → v₂.marks y = v.marks y := by
      intro y hy
      simp [hv₂, hy]
    refine ⟨.gone ⟨?_, .inl ?_⟩, by rw [hx]; exact settled_none, fun _ => hy⟩
    · intro y
      by_cases hyx : y = x
      · rw [hyx, hx]
        exact stale_none
      · rw [hy y hyx]
        exact h.stale y hyx
    · simp [hv₂, h.finished]

theorem fits_refresh (h : Fits status m)
    (hstat : status = .send ∨ status = .locked) : Fits status m.refresh := by
  constructor
  · simp [Marks.refresh, h.pending, h.notOut, h.notRemoved]
  · rfl
  · rfl
  · rcases hstat with rfl | rfl <;> simp [Marks.refresh, h.needPrepare]
  · exact h.needSend
  · rintro rfl
    simp [Marks.refresh, h.hasLocked rfl, h.needSend, h.notOut, h.notRemoved]

theorem settled_refresh (h : Fits status m) (hstat : status ≠ .prepare) : Settled m.refresh := by
  constructor
  · simp [Marks.refresh, h.needPrepare, hstat]
  · rfl
  · rfl
  · intro hlocked
    simp only [Marks.refresh, Bool.and_eq_true, Bool.not_eq_true'] at hlocked
    exact hlocked.1.2

theorem Waiting.prepared (h : Waiting lossy env cid v)
    (hprepared : PreparedView env x cid v moved v') :
    Waiting lossy env cid v' ∧ Rests x v moved v' := by
  -- a pool without the transaction drops what is left of it
  have hdrop : Stale lossy (v.marks x) → v' = v.mark x (fun _ => .none) ∧ Rests x v moved v' := by
    intro hstale
    obtain ⟨-, rfl⟩ := hprepared.of_stale hstale.refresh
    exact ⟨rfl, by rw [mark_marks]; exact settled_none, fun _ y hy => by simp [hy]⟩
  have helsewhere : ∀ {addr status}, At lossy cid v addr status →
      addr ≠ x → At lossy cid (v.mark x (fun _ => .none)) addr status := by
    intro addr status hat hne
    refine ⟨by simpa [hne] using hat.fits, ?_, hat.state, hat.finished⟩
    intro y hy
    by_cases hyx : y = x
    · subst hyx
      simpa using stale_none
    · simpa [hyx] using hat.stale y hy
  -- a pool that keeps the transaction as it is
  have hkeep : ∀ {status}, At lossy cid v x status → (status = .send ∨ status = .locked) →
      At lossy cid v' x status ∧ Rests x v moved v' := by
    intro status hat hstat
    have hne : status ≠ .prepare := by
      rintro rfl
      simp at hstat
    obtain ⟨-, rfl⟩ := hprepared.of_idle (by simp [hat.fits.needPrepare, hne])
    refine ⟨hat.mark (fits_refresh hat.fits hstat) hat.state, ?_,
      fun _ y hy => by simp [hy]⟩
    rw [mark_marks]
    exact settled_refresh hat.fits hne
  rcases h with hgone | ⟨addr, hat, hto⟩ | ⟨addr, hat⟩ | ⟨addr, hat⟩
  · obtain ⟨rfl, hrest⟩ := hdrop (hgone.stale x)
    refine ⟨.gone ⟨?_, hgone.finished⟩, hrest⟩
    intro y
    by_cases hyx : y = x
    · subst hyx
      simpa using stale_none
    · simpa [hyx] using hgone.stale y
  · by_cases hx : addr = x
    · subst hx
      exact Waiting.of_message hat hto hprepared
    · obtain ⟨rfl, hrest⟩ := hdrop (hat.stale x (Ne.symm hx))
      refine ⟨.prepare addr (helsewhere hat hx) ?_, hrest⟩
      by_cases hdest : destination env cid v.state = x
      · simp [hdest, Marks.none]
      · simpa [hdest] using hto
  · by_cases hx : addr = x
    · subst hx
      obtain ⟨hat', hrest⟩ := hkeep hat (.inl rfl)
      exact ⟨.send addr hat', hrest⟩
    · obtain ⟨rfl, hrest⟩ := hdrop (hat.stale x (Ne.symm hx))
      exact ⟨.send addr (helsewhere hat hx), hrest⟩
  · by_cases hx : addr = x
    · subst hx
      obtain ⟨hat', hrest⟩ := hkeep hat (.inr rfl)
      exact ⟨.locked addr hat', hrest⟩
    · obtain ⟨rfl, hrest⟩ := hdrop (hat.stale x (Ne.symm hx))
      exact ⟨.locked addr (helsewhere hat hx), hrest⟩

theorem Absent.prepared (h : Absent v) (hprepared : PreparedView env x cid v moved v') :
    Absent v' ∧ Rests x v moved v' := by
  obtain ⟨-, rfl⟩ := hprepared.of_stale (by rw [h.1]; rfl)
  refine ⟨⟨?_, h.2⟩, ?_, fun _ y hy => by simp [hy]⟩
  · intro y
    by_cases hyx : y = x
    · simp [hyx]
    · simp [hyx, h.1 y]
  · rw [mark_marks]
    exact settled_none

/-- The transaction is at the address, or what is marked there is stale. -/
theorem Waiting.stale_or_at (h : Waiting lossy env cid v) (x : Address) :
    Stale lossy (v.marks x) ∨ ∃ status ≠ .answer, At lossy cid v x status := by
  have hcases : ∀ {addr status}, At lossy cid v addr status → status ≠ .answer →
      Stale lossy (v.marks x) ∨ ∃ status ≠ .answer, At lossy cid v x status := by
    intro addr status hat hstat
    by_cases hx : x = addr
    · exact .inr ⟨status, hstat, hx ▸ hat⟩
    · exact .inl (hat.stale x hx)
  rcases h with hgone | ⟨addr, hat, -⟩ | ⟨addr, hat⟩ | ⟨addr, hat⟩
  · exact .inl (hgone.stale x)
  · exact hcases hat (by decide)
  · exact hcases hat (by decide)
  · exact hcases hat (by decide)

theorem Waiting.ready (h : Waiting lossy env cid v)
    (hprep : ((v.mark x Marks.refresh).marks x).needPrepare = true) : Ready cid v.state := by
  rw [mark_marks] at hprep
  rcases h.stale_or_at x with hstale | ⟨status, -, hat⟩
  · rw [hstale.refresh] at hprep
    cases hprep
  · obtain rfl := hat.fits.eq_prepare hprep
    exact hat.state

end Prepared

end FiscoSmart.Scheduler
