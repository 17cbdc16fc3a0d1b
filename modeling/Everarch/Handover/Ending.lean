import Everarch.Handover.Threads
import Mathlib.Data.Finset.Card

/-!
# Ending a handover

`evr_end_handover` writes the state and then signals both condition variables once for each
thread, without the lock. A thread that has done its tests and not yet called `cnd_wait` has
seen the old state, and the signals may all be sent before it blocks.

* `Ending`: what holds after the state was written. For each condition variable there are at
  least as many signals to come as threads that wait on it, or one thread waits for a slot that
  is occupied, and whoever empties it signals.

Result: `ending_strands_nobody_iff`, a call that ends a handover can leave a thread behind if
and only if some thread is at that place when the state is written, with the exception of one
that waits for a slot to become available when the handover is finished; `waiter_stranded`: a
consumer is left behind.
-/

namespace Everarch

/-- The ending call has returned, there is nothing to wait for, and a thread is blocked that
nobody is about to signal. -/
def Handover.Stranded {n : Nat} (s : Handover n) : Prop :=
  s.ender = .returned ∧ (s.occupied = false ∨ s.state = .abort) ∧
    ∃ i w, s.pc i = .blocked w ∧ ∀ j, s.pc j ≠ .signal w

/-- The signals that the ending call has still to send to those who wait for `w`. -/
def EnderPc.left : EnderPc → Awaited → Nat
  | .onPush left, _ => left + 1
  | .onEmpty left, .occupied => left
  | .onEmpty left, .available => left + 1
  | .idle, _ | .returned, _ => 0

namespace EndingLemmas

open Handover HandoverLemmas

variable {n : Nat} {s s' : Handover n} {e : HandoverEvent n} {w : Awaited}

/-! ## Threads that wait -/

/-- The thread is in `cnd_wait` or comes to it. -/
def Waits (s : Handover n) (w : Awaited) (i : Fin n) : Prop :=
  s.pc i = .blocked w ∨ s.pc i = .sleep w

instance (s : Handover n) (w : Awaited) (i : Fin n) : Decidable (Waits s w i) :=
  inferInstanceAs (Decidable (_ ∨ _))

/-- How many threads wait. -/
def waiting (s : Handover n) (w : Awaited) : Nat :=
  (Finset.univ.filter (Waits s w)).card

theorem waiting_le (s : Handover n) (w : Awaited) : waiting s w ≤ n :=
  (Finset.card_filter_le _ _).trans (Nat.le_of_eq (Finset.card_fin n))

theorem waiting_mono (h : ∀ i, Waits s' w i → Waits s w i) : waiting s' w ≤ waiting s w :=
  Finset.card_le_card (Finset.monotone_filter_right _ fun i _ hi => h i hi)

theorem waiting_lt (h : ∀ i, Waits s' w i → Waits s w i) {i : Fin n} (hi : Waits s w i)
    (hno : ¬ Waits s' w i) : waiting s' w < waiting s w := by
  refine Finset.card_lt_card ⟨Finset.monotone_filter_right _ fun i _ hi => h i hi, fun hsub => ?_⟩
  have hmem := hsub (Finset.mem_filter.mpr ⟨Finset.mem_univ i, hi⟩)
  exact hno (Finset.mem_filter.mp hmem).2

theorem waiting_pos {i : Fin n} (hi : Waits s w i) : 0 < waiting s w :=
  Finset.card_pos.mpr ⟨i, Finset.mem_filter.mpr ⟨Finset.mem_univ i, hi⟩⟩

theorem waiting_eq_zero (h : ∀ i, ¬ Waits s w i) : waiting s w = 0 :=
  Finset.card_eq_zero.mpr (Finset.filter_eq_empty_iff.mpr fun i _ => h i)

/-- Of the threads that are not blocked at most one waits, as it has the lock. -/
theorem waiting_le_one (hl : LockKept s) (h : ∀ i, s.pc i ≠ .blocked w) : waiting s w ≤ 1 := by
  refine Finset.card_le_one.mpr fun i hi j hj => ?_
  have hsleep (k : Fin n) (hk : k ∈ Finset.univ.filter (Waits s w)) : s.pc k = .sleep w :=
    (Finset.mem_filter.mp hk).2.resolve_left (h k)
  refine hl.unique ?_ ?_
  · rw [hsleep i hi]
    rfl
  · rw [hsleep j hj]
    rfl

/-! ## Moves after the state was written -/

theorem waits_of_signalled {w' : Awaited} (hs : Signalled s w' s') {i : Fin n}
    (h : Waits s' w i) : Waits s w i := by
  rcases signalled_pc hs i with hsame | ⟨-, henter⟩
  · rw [Waits, ← hsame]
    exact h
  · rw [Waits, henter] at h
    rcases h with h | h
    · cases h
    · cases h

/-- A thread comes to wait only by its tests, and these end when the handover ends. -/
theorem waits_of_move (hend : s.state ≠ .run) (hm : Move s e s') {i : Fin n} (h : Waits s' w i) :
    Waits s w i := by
  rcases hop_of_move hm i with hsame | hhop
  · rw [Waits, ← hsame]
    exact h
  · unfold Waits
    rcases h with hblocked | hsleep
    · rw [hblocked] at hhop
      generalize s.pc i = pc at hhop
      cases hhop with
      | sleep => exact .inr rfl
    · rcases sleep_of_move hm hsleep with hsleep | ⟨-, htest⟩
      · exact .inr hsleep
      · exact absurd (test_eq_none htest).1 hend

/-- What holds after the state was written. -/
structure Ending (s : Handover n) : Prop where
  ended : s.state ≠ .run
  called : s.ender ≠ .idle
  sleeps : ∀ i w, s.pc i = .sleep w → s.state = .finish ∧ w = .available
  push : waiting s .occupied ≤ s.ender.left .occupied
  empty : waiting s .available ≤ s.ender.left .available ∨
    s.state = .finish ∧ waiting s .available ≤ 1 ∧
      (s.occupied = true ∨ ∃ j, s.pc j = .signal .available)

theorem state_kept (hcalled : s.ender ≠ .idle) (hm : Move s e s') :
    s'.state = s.state ∧ s'.ender ≠ .idle := by
  rcases state_of_move hm with ⟨hstate, hender⟩ | ⟨state, -, hidle, -⟩
  · exact ⟨hstate, hender hcalled⟩
  · exact absurd hidle hcalled

theorem left_loop (left : Nat) (w : Awaited) : (EnderPc.loop left).left w = left := by
  cases left with
  | zero => rfl
  | succ left => rfl

/-- A signal of the ending call reaches a blocked thread, or there is none. -/
theorem waiting_signalled (hs : Signalled s w s') :
    waiting s' w < waiting s w ∨ (∀ i, s.pc i ≠ .blocked w) ∧ waiting s' w = waiting s w := by
  rcases hs with ⟨j, hj, rfl⟩ | ⟨hnone, rfl⟩
  · refine .inl (waiting_lt (fun i => waits_of_signalled (.inl ⟨j, hj, rfl⟩)) (.inl hj) ?_)
    rw [Waits, goto_pc_self]
    rintro (h | h)
    · cases h
    · cases h
  · exact .inr ⟨hnone, rfl⟩

theorem sleeps_move (h : Ending s) (hm : Move s e s') {i : Fin n} (hi : s'.pc i = .sleep w) :
    s'.state = .finish ∧ w = .available := by
  rcases sleep_of_move hm hi with hsleep | ⟨-, htest⟩
  · rw [(state_kept h.called hm).1]
    exact h.sleeps i w hsleep
  · exact absurd (test_eq_none htest).1 h.ended

theorem push_move (h : Ending s) (hm : Move s e s') :
    waiting s' .occupied ≤ s'.ender.left .occupied := by
  have hle := waiting_mono fun i => waits_of_move (w := .occupied) h.ended hm (i := i)
  cases hm with
  | end_ hidle _ => exact absurd hidle h.called
  | @endPush left _ s' hender hs =>
    have hpush := h.push
    rw [hender] at hpush
    rcases waiting_signalled hs with hlt | ⟨hnone, heq⟩
    · exact Nat.le_of_lt_succ (Nat.lt_of_lt_of_le hlt hpush)
    · have hzero : waiting s .occupied = 0 := by
        refine waiting_eq_zero fun i hi => ?_
        have hsleep := (h.sleeps i .occupied (hi.resolve_left (hnone i))).2
        cases hsleep
      exact (heq.trans hzero) ▸ Nat.zero_le _
  | @endEmpty left _ s' hender _ =>
    have hpush := h.push
    rw [hender] at hpush
    exact (left_loop left .occupied).symm ▸ hle.trans hpush
  | signal _ hs =>
    refine hle.trans (h.push.trans (Nat.le_of_eq ?_))
    exact congrArg (EnderPc.left · .occupied) (signalled_fields hs).2.2.2.symm
  | _ => exact hle.trans h.push

/-- A thread that is about to signal stays there until it does. -/
theorem signal_of_move (hm : Move s e s') {j : Fin n} (hj : s.pc j = .signal w) :
    s'.pc j = .signal w ∨ ∃ s'', Signalled s w s'' ∧ s' = s''.goto j .leave := by
  rcases hop_of_move hm j with hsame | hhop
  · exact .inl (hsame.trans hj)
  · rw [hj] at hhop
    generalize s'.pc j = pc at hhop
    cases hhop with
    | call hpc =>
      rcases hpc with hpc | hpc
      · cases hpc
      · cases hpc
    | acquire hpc =>
      rcases hpc with hpc | hpc
      · cases hpc
      · cases hpc
    | unlock hpc =>
      rcases hpc with hpc | hpc
      · cases hpc
      · cases hpc
    | signal =>
      cases hm with
      | signal hpc hs =>
        rw [hj] at hpc
        cases hpc
        exact .inr ⟨_, hs, rfl⟩

/-- While the slot is occupied or its emptying is about to be signalled it stays so, until
the signal reaches the only thread that waits. -/
theorem signal_available_move (hl : LockKept s) (hm : Move s e s')
    (hone : waiting s .available ≤ 1)
    (hocc : s.occupied = true ∨ ∃ j, s.pc j = .signal .available) :
    waiting s' .available = 0 ∨ s'.occupied = true ∨ ∃ j, s'.pc j = .signal .available := by
  rcases hocc with hocc | ⟨j, hj⟩
  · cases hm with
    | empty _ => exact .inr (.inr ⟨_, goto_pc_self ..⟩)
    | occupy _ => exact .inr (.inl rfl)
    | signal _ hs => exact .inr (.inl ((signalled_fields hs).2.1.trans hocc))
    | endPush _ hs => exact .inr (.inl ((signalled_fields hs).2.1.trans hocc))
    | endEmpty _ hs => exact .inr (.inl ((signalled_fields hs).2.1.trans hocc))
    | _ => exact .inr (.inl hocc)
  · rcases signal_of_move hm hj with hstays | ⟨s'', hs, rfl⟩
    · exact .inr (.inr ⟨j, hstays⟩)
    · left
      have hle : waiting (s''.goto j .leave) .available ≤ waiting s'' .available := by
        refine waiting_mono fun i hi => ?_
        rcases hi with hi | hi
        · exact .inl (pc_of_goto hi ThreadPc.noConfusion)
        · exact .inr (pc_of_goto hi ThreadPc.noConfusion)
      rcases waiting_signalled hs with hlt | ⟨hnone, heq⟩
      · exact Nat.le_zero.mp (hle.trans (Nat.le_of_lt_succ (Nat.lt_of_lt_of_le hlt hone)))
      · -- a thread that is about to sleep would have the lock as well
        have hzero : waiting s .available = 0 := by
          refine waiting_eq_zero fun i hi => ?_
          have hsleep := hi.resolve_left (hnone i)
          have hij : i = j := hl.unique (by rw [hsleep]; rfl) (by rw [hj]; rfl)
          rw [hij, hj] at hsleep
          cases hsleep
        exact Nat.le_zero.mp (hle.trans (Nat.le_of_eq (heq.trans hzero)))

theorem empty_move (hl : LockKept s) (ht : SleepsTested s) (h : Ending s) (hm : Move s e s') :
    waiting s' .available ≤ s'.ender.left .available ∨
      s'.state = .finish ∧ waiting s' .available ≤ 1 ∧
        (s'.occupied = true ∨ ∃ j, s'.pc j = .signal .available) := by
  have hle : waiting s' .available ≤ waiting s .available :=
    waiting_mono fun i => waits_of_move h.ended hm
  have hstate := (state_kept h.called hm).1
  -- the ending call has one signal less to send only where it sends it
  have hleft : s'.ender.left .available = s.ender.left .available ∨
      ∃ left s'', s.ender = .onEmpty left ∧ Signalled s .available s'' ∧
        s' = { s'' with ender := .loop left } := by
    cases hm with
    | end_ hidle _ => exact absurd hidle h.called
    | signal _ hs => exact .inl (congrArg (EnderPc.left · .available) (signalled_fields hs).2.2.2)
    | endPush hender _ =>
      rw [hender]
      exact .inl rfl
    | endEmpty hender hs => exact .inr ⟨_, _, hender, hs, rfl⟩
    | _ => exact .inl rfl
  rcases h.empty with henough | ⟨hfinish, hone, hocc⟩
  · rcases hleft with hsame | ⟨left, s'', hender, hs, rfl⟩
    · exact .inl (hsame ▸ hle.trans henough)
    · rw [hender] at henough
      show waiting s'' .available ≤ (EnderPc.loop left).left .available ∨ _
      rw [left_loop]
      rcases waiting_signalled hs with hlt | ⟨hnone, heq⟩
      · exact .inl (Nat.le_of_lt_succ (Nat.lt_of_lt_of_le hlt henough))
      · by_cases hsleep : ∃ i, s.pc i = .sleep .available
        · obtain ⟨i, hi⟩ := hsleep
          refine .inr ⟨hstate.trans (h.sleeps i _ hi).1, ?_, .inl ?_⟩
          · exact heq ▸ waiting_le_one hl hnone
          · exact (signalled_fields hs).2.1.trans ((ht i _ hi).mp rfl)
        · have hzero : waiting s .available = 0 :=
            waiting_eq_zero fun i hi => hi.elim (hnone i) fun hi => hsleep ⟨i, hi⟩
          exact .inl (heq.trans hzero ▸ Nat.zero_le _)
  · rcases signal_available_move hl hm hone hocc with hzero | hocc'
    · exact .inl (hzero ▸ Nat.zero_le _)
    · exact .inr ⟨hstate.trans hfinish, hle.trans hone, hocc'⟩

/-- Everything that holds of a handover that is ending. -/
structure Ends (s : Handover n) : Prop where
  lock : LockKept s
  tested : SleepsTested s
  ending : Ending s

theorem ends_step (h : Ends s) (e : HandoverEvent n) : Ends (s.step e) := by
  rcases step_cases s e with heq | hm
  · rw [heq]
    exact h
  · refine ⟨lockKept_move h.lock hm, sleepsTested_move h.lock h.tested hm, ?_⟩
    obtain ⟨hstate, hcalled⟩ := state_kept h.ending.called hm
    exact ⟨fun hrun => h.ending.ended (hstate.symm.trans hrun), hcalled,
      fun i w hi => sleeps_move h.ending hm hi, push_move h.ending hm,
      empty_move h.lock h.tested h.ending hm⟩

theorem not_stranded (h : Ends s) : ¬ s.Stranded := by
  rintro ⟨hret, hempty, i, w, hi, hnone⟩
  have hpos : 0 < waiting s w := waiting_pos (.inl hi)
  cases w with
  | occupied =>
    have hpush := h.ending.push
    rw [hret] at hpush
    exact absurd hpos (Nat.not_lt.mpr hpush)
  | available =>
    rcases h.ending.empty with henough | ⟨hfinish, -, hocc⟩
    · rw [hret] at henough
      exact absurd hpos (Nat.not_lt.mpr henough)
    · rcases hocc with hocc | ⟨j, hj⟩
      · rcases hempty with hfree | habort
        · rw [hocc] at hfree
          cases hfree
        · rw [hfinish] at habort
          cases habort
      · exact hnone j hj

/-! ## A thread that is left behind -/

/-- A signal can always be sent. -/
theorem exists_wakeOne (s : Handover n) (w : Awaited) :
    ∃ target s', s.wakeOne w target = some s' ∧ Signalled s w s' := by
  by_cases h : ∃ j, s.pc j = .blocked w
  · obtain ⟨j, hj⟩ := h
    exact ⟨some j, _, if_pos hj, .inl ⟨j, hj, rfl⟩⟩
  · have hnone : ∀ j, s.pc j ≠ .blocked w := fun j hj => h ⟨j, hj⟩
    exact ⟨none, s, if_pos hnone, .inr ⟨hnone, rfl⟩⟩

/-- The ending call has gone on to `pc`, the rest is as it was but for woken threads. -/
structure EnderRan (s : Handover n) (pc : EnderPc) (s' : Handover n) : Prop where
  ender : s'.ender = pc
  state : s'.state = s.state
  occupied : s'.occupied = s.occupied
  pcs : ∀ j, s'.pc j = s.pc j ∨ ∃ w, s.pc j = .blocked w ∧ s'.pc j = .enter w

theorem EnderRan.trans {pc pc' : EnderPc} {s'' : Handover n} (h : EnderRan s pc s')
    (h' : EnderRan s' pc' s'') : EnderRan s pc' s'' := by
  refine ⟨h'.ender, h'.state.trans h.state, h'.occupied.trans h.occupied, fun j => ?_⟩
  rcases h'.pcs j with heq | ⟨w, hblocked, henter⟩
  · rw [heq]
    exact h.pcs j
  · rcases h.pcs j with heq' | ⟨w', -, henter'⟩
    · exact .inr ⟨w, heq' ▸ hblocked, henter⟩
    · rw [henter'] at hblocked
      cases hblocked

theorem enderRan_of_signalled {pc : EnderPc} (hs : Signalled s w s') :
    EnderRan s pc { s' with ender := pc } := by
  obtain ⟨hstate, hocc, -, -⟩ := signalled_fields hs
  refine ⟨rfl, hstate, hocc, fun j => ?_⟩
  rcases signalled_pc hs j with heq | ⟨hblocked, henter⟩
  · exact .inl heq
  · exact .inr ⟨w, hblocked, henter⟩

/-- The ending call can return before any other thread makes a step. -/
theorem exists_ender_returns (left : Nat) (s : Handover n) (h : s.ender = .loop left) :
    ∃ events, EnderRan s .returned (exec Handover.step s events) := by
  induction left generalizing s with
  | zero => exact ⟨[], h, rfl, rfl, fun _ => .inl rfl⟩
  | succ left ih =>
    obtain ⟨t, s', hwake, hs⟩ := exists_wakeOne s .occupied
    have hpush : s.step (.endSignal t) = { s' with ender := .onEmpty left } := by
      simp only [Handover.step, h, EnderPc.loop, hwake]
      rfl
    obtain ⟨t', s'', hwake', hs'⟩ := exists_wakeOne { s' with ender := .onEmpty left } .available
    have hempty : Handover.step { s' with ender := .onEmpty left } (.endSignal t') =
        { s'' with ender := .loop left } := by
      simp only [Handover.step, hwake']
      rfl
    obtain ⟨events, hran⟩ := ih { s'' with ender := .loop left } rfl
    refine ⟨.endSignal t :: .endSignal t' :: events, ?_⟩
    rw [exec_cons, exec_cons, hpush, hempty]
    exact (enderRan_of_signalled hs).trans ((enderRan_of_signalled hs').trans hran)

/-- A thread that has seen the old state can block after the ending call has returned. -/
theorem exists_stranded (hl : LockKept s) (ht : SleepsTested s) {left : Nat}
    (hender : s.ender = .loop left) (hend : s.state ≠ .run) {i : Fin n}
    (hi : s.pc i = .sleep w) (hbad : ¬ (s.state = .finish ∧ w = .available)) :
    ∃ events, (exec Handover.step s events).Stranded := by
  obtain ⟨events, hran⟩ := exists_ender_returns left s hender
  refine ⟨events ++ [.sleep i], ?_⟩
  rw [exec_append_singleton]
  generalize exec Handover.step s events = s' at hran
  have hi' : s'.pc i = .sleep w := by
    rcases hran.pcs i with heq | ⟨w', hblocked, -⟩
    · exact heq.trans hi
    · rw [hi] at hblocked
      cases hblocked
  have hstep : s'.step (.sleep i) = { s'.goto i (.blocked w) with lock := none } := by
    simp only [Handover.step, hi']
  rw [hstep]
  refine ⟨hran.ender, ?_, i, w, goto_pc_self .., fun j hj => ?_⟩
  · cases w with
    | occupied =>
      left
      show s'.occupied = false
      rw [hran.occupied]
      exact Bool.eq_false_iff.mpr fun hocc => Awaited.noConfusion ((ht i _ hi).mpr hocc)
    | available =>
      right
      show s'.state = .abort
      rw [hran.state]
      cases hstate : s.state with
      | run => exact absurd hstate hend
      | abort => rfl
      | finish => exact absurd ⟨hstate, rfl⟩ hbad
  · -- whoever is about to signal has the lock
    have hj' : s'.pc j = .signal w := pc_of_goto hj ThreadPc.noConfusion
    rcases hran.pcs j with heq | ⟨w', -, henter⟩
    · rw [hj'] at heq
      have hij : i = j := hl.unique (by rw [hi]; rfl) (by rw [← heq]; rfl)
      rw [← hij, hi] at heq
      cases heq
    · rw [hj'] at henter
      cases henter

theorem invariant_run (events : List (HandoverEvent n)) :
    LockKept (exec Handover.step (.init n) events) ∧
      SleepsTested (exec Handover.step (.init n) events) := by
  induction events using List.reverseRecOn with
  | nil => exact ⟨lockKept_init n, fun _ _ h => ThreadPc.noConfusion h⟩
  | append_singleton events e ih =>
    rw [exec_append_singleton]
    rcases step_cases (exec Handover.step (.init n) events) e with heq | hm
    · rw [heq]
      exact ih
    · exact ⟨lockKept_move ih.1 hm, sleepsTested_move ih.1 ih.2 hm⟩

end EndingLemmas

open EndingLemmas Handover HandoverLemmas

/-- A call that ends the handover after `before` leaves nobody behind, whatever the threads do
afterwards, if and only if no thread is between its tests and `cnd_wait` when the state is
written, unless it waits for an occupied slot to become available and the handover finishes. -/
theorem ending_strands_nobody_iff {n : Nat} {before : List (HandoverEvent n)}
    (hidle : (exec Handover.step (.init n) before).ender = .idle) {state : HandoverState}
    (hstate : state ≠ .run) :
    (∀ after, ¬ (exec Handover.step (.init n) (before ++ .end_ state :: after)).Stranded) ↔
      ∀ i w, (exec Handover.step (.init n) before).pc i = .sleep w →
        state = .finish ∧ w = .available := by
  obtain ⟨hlock, htested⟩ := invariant_run before
  have hrun (after : List (HandoverEvent n)) :
      exec Handover.step (.init n) (before ++ .end_ state :: after) =
        exec Handover.step { exec Handover.step (.init n) before with
          state := state, ender := .loop n } after := by
    rw [exec_append, exec_cons]
    congr 1
    exact if_pos ⟨hidle, hstate⟩
  simp only [hrun]
  generalize exec Handover.step (.init n) before = s at hlock htested
  constructor
  · intro h i w hi
    by_contra hbad
    obtain ⟨after, hstranded⟩ := exists_stranded (s := { s with state := state, ender := .loop n })
      hlock htested rfl hstate hi hbad
    exact h after hstranded
  · intro h after
    have hends : Ends { s with state := state, ender := .loop n } := by
      refine ⟨hlock, htested, hstate, loop_ne_idle n, h, ?_, .inl ?_⟩
      · exact (waiting_le _ _).trans (Nat.le_of_eq (left_loop n .occupied).symm)
      · exact (waiting_le _ _).trans (Nat.le_of_eq (left_loop n .available).symm)
    refine not_stranded ?_
    induction after using List.reverseRecOn with
    | nil => exact hends
    | append_singleton after e ih =>
      rw [exec_append_singleton]
      exact ends_step ih e

theorem ending_strands_nobody_iff_blocked :
    (∀ i w, (exec Handover.step (.init 1) [.call 0 .occupied, .lock 0, .test 0, .sleep 0]).pc i ≠
        .sleep w) ∧
      ∀ after, ¬ (exec Handover.step (.init 1)
        ([.call 0 .occupied, .lock 0, .test 0, .sleep 0] ++ .end_ .finish :: after)).Stranded := by
  have hnone (i : Fin 1) (w : Awaited) : (exec Handover.step (.init 1)
      [.call 0 .occupied, .lock 0, .test 0, .sleep 0]).pc i ≠ .sleep w := by
    rw [Subsingleton.elim i 0]
    cases w with
    | available => decide
    | occupied => decide
  exact ⟨hnone, (ending_strands_nobody_iff (by decide) (by decide)).mpr fun i w hi =>
    absurd hi (hnone i w)⟩

/-- A consumer has seen that the handover runs and that nothing is in it. All signals are sent
before it blocks. -/
theorem waiter_stranded :
    (exec Handover.step (.init 1) [.call 0 .occupied, .lock 0, .test 0, .end_ .finish,
      .endSignal none, .endSignal none, .sleep 0]).Stranded := by
  refine ⟨by decide, .inl (by decide), 0, .occupied, by decide, ?_⟩
  decide

end Everarch
