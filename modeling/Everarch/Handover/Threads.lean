import Everarch.Basic
import Everarch.Lib.Run
import Mathlib.Data.Fintype.Card
import Mathlib.Data.Fintype.Basic

/-!
# Handovers

handover.c, one access to the context at a time. Threads wait for an item slot to become
available or occupied, and some thread ends the handover. The state and the signals of the
ending call are not protected by the lock, so its accesses can come between any two steps of
the others.

* `Handover.step`: one step of a thread or of the ending call. `cnd_signal` wakes one thread
  of those that are blocked, if there is one; a thread may also wake up without a signal.
* `Handover.Move`: what a step can do.
* `lockKept_move`, `sleepsTested_move`: who has the lock, and what a thread that goes to sleep
  has seen.
-/

namespace Everarch

/-! ## The context and its threads -/

/-- `evr_handover_state_run`, `_abort` and `_finish`. -/
inductive HandoverState where
  | run
  | abort
  | finish
deriving DecidableEq, Repr

/-- What a thread waits for: `evr_wait_for_handover_available` waits on `on_empty` and
`evr_wait_for_handover_occupied` on `on_push`. -/
inductive Awaited where
  | available
  | occupied
deriving DecidableEq, Repr

/-- The tests of the loop of `evr_wait_for_handover_available`. Nothing is returned where
the loop goes on to `cnd_wait`. -/
def testAvailable (state : HandoverState) (occupied : Bool) : Option Res :=
  if state = .abort ∨ state = .finish then some .end_
  else if !occupied then some .ok
  else none

/-- The tests of the loop of `evr_wait_for_handover_occupied`. -/
def testOccupied (state : HandoverState) (occupied : Bool) : Option Res :=
  if state = .abort then some .end_
  else if state = .finish ∧ !occupied then some .end_
  else if occupied then some .ok
  else none

def Awaited.test : Awaited → HandoverState → Bool → Option Res
  | .available => testAvailable
  | .occupied => testOccupied

/-- Where a thread is. -/
inductive ThreadPc where
  /-- Outside of the handover. -/
  | out
  /-- Outside, after a wait returned `evr_end`. -/
  | ended
  /-- In `mtx_lock`, or woken in `cnd_wait` and in need of the lock. -/
  | enter (w : Awaited)
  /-- Has the lock and comes to the tests. -/
  | test (w : Awaited)
  /-- Has the lock, the tests are done and `cnd_wait` comes. -/
  | sleep (w : Awaited)
  /-- In `cnd_wait`. -/
  | blocked (w : Awaited)
  /-- Has the lock after `evr_ok`. -/
  | inside
  /-- Has set `occupied` and comes to `cnd_signal` for those who wait for it. -/
  | signal (w : Awaited)
  /-- Comes to `mtx_unlock`. -/
  | leave
deriving DecidableEq, Repr

/-- Where the call of `evr_end_handover` is, with the passes of its loop that are left. -/
inductive EnderPc where
  | idle
  | onPush (left : Nat)
  | onEmpty (left : Nat)
  | returned
deriving DecidableEq, Repr

/-- The head of the loop of `evr_end_handover`. -/
def EnderPc.loop : Nat → EnderPc
  | 0 => .returned
  | left + 1 => .onPush left

/-- `struct evr_handover_ctx` with `n` threads that take part. -/
structure Handover (n : Nat) where
  state : HandoverState
  occupied : Bool
  lock : Option (Fin n)
  pc : Fin n → ThreadPc
  ender : EnderPc

/-- A step of a thread, or of the ending call. A signal says which of the blocked threads it
wakes. -/
inductive HandoverEvent (n : Nat) where
  | call (i : Fin n) (w : Awaited)
  | acquire (i : Fin n)
  | lock (i : Fin n)
  | test (i : Fin n)
  | sleep (i : Fin n)
  | wake (i : Fin n)
  | occupy (i : Fin n)
  | empty (i : Fin n)
  | signal (i : Fin n) (target : Option (Fin n))
  | unlock (i : Fin n)
  | end_ (state : HandoverState)
  | endSignal (target : Option (Fin n))
deriving DecidableEq

namespace Handover

variable {n : Nat}

/-- `evr_init_handover_ctx`. -/
def init (n : Nat) : Handover n :=
  ⟨.run, false, none, fun _ => .out, .idle⟩

def goto (s : Handover n) (i : Fin n) (pc : ThreadPc) : Handover n :=
  { s with pc := Function.update s.pc i pc }

/-- `cnd_signal`: nothing for a target that is not possible. -/
def wakeOne (s : Handover n) (w : Awaited) : Option (Fin n) → Option (Handover n)
  | some j => if s.pc j = .blocked w then some (s.goto j (.enter w)) else none
  | none => if ∀ j, s.pc j ≠ .blocked w then some s else none

/-- One step. A step that is not possible in a state leaves it as it is. -/
def step (s : Handover n) : HandoverEvent n → Handover n
  | .call i w => if s.pc i = .out ∨ s.pc i = .ended then s.goto i (.enter w) else s
  -- evr_lock_handover
  | .acquire i =>
    if (s.pc i = .out ∨ s.pc i = .ended) ∧ s.lock = none then
      { s.goto i .inside with lock := some i }
    else s
  | .lock i =>
    match s.pc i with
    | .enter w => if s.lock = none then { s.goto i (.test w) with lock := some i } else s
    | _ => s
  | .test i =>
    match s.pc i with
    | .test w =>
      match w.test s.state s.occupied with
      | none => s.goto i (.sleep w)
      | some .ok => s.goto i .inside
      | some _ => { s.goto i .ended with lock := none }
    | _ => s
  | .sleep i =>
    match s.pc i with
    | .sleep w => { s.goto i (.blocked w) with lock := none }
    | _ => s
  | .wake i =>
    match s.pc i with
    | .blocked w => s.goto i (.enter w)
    | _ => s
  | .occupy i =>
    if s.pc i = .inside then { s.goto i (.signal .occupied) with occupied := true } else s
  | .empty i =>
    if s.pc i = .inside then { s.goto i (.signal .available) with occupied := false } else s
  | .signal i target =>
    match s.pc i with
    | .signal w => ((s.wakeOne w target).map (·.goto i .leave)).getD s
    | _ => s
  | .unlock i =>
    if s.pc i = .inside ∨ s.pc i = .leave then { s.goto i .out with lock := none } else s
  | .end_ state =>
    if s.ender = .idle ∧ state ≠ .run then { s with state := state, ender := .loop n } else s
  | .endSignal target =>
    match s.ender with
    | .onPush left => ((s.wakeOne .occupied target).map ({ · with ender := .onEmpty left })).getD s
    | .onEmpty left => ((s.wakeOne .available target).map ({ · with ender := .loop left })).getD s
    | _ => s

/-! ## What a step can do -/

/-- A signal for those who wait for `w` wakes one of them, or there is none. -/
def Signalled (s : Handover n) (w : Awaited) (s' : Handover n) : Prop :=
  (∃ j, s.pc j = .blocked w ∧ s' = s.goto j (.enter w)) ∨ (∀ j, s.pc j ≠ .blocked w) ∧ s' = s

/-- The moves of threads and of the ending call. -/
inductive Move (s : Handover n) : HandoverEvent n → Handover n → Prop
  | call {i : Fin n} {w : Awaited} : s.pc i = .out ∨ s.pc i = .ended →
      Move s (.call i w) (s.goto i (.enter w))
  | acquire {i : Fin n} : s.pc i = .out ∨ s.pc i = .ended → s.lock = none →
      Move s (.acquire i) { s.goto i .inside with lock := some i }
  | lock {i : Fin n} {w : Awaited} : s.pc i = .enter w → s.lock = none →
      Move s (.lock i) { s.goto i (.test w) with lock := some i }
  | doze {i : Fin n} {w : Awaited} : s.pc i = .test w → w.test s.state s.occupied = none →
      Move s (.test i) (s.goto i (.sleep w))
  | proceed {i : Fin n} {w : Awaited} : s.pc i = .test w →
      w.test s.state s.occupied = some .ok → Move s (.test i) (s.goto i .inside)
  | refuse {i : Fin n} {w : Awaited} : s.pc i = .test w →
      w.test s.state s.occupied = some .end_ →
      Move s (.test i) { s.goto i .ended with lock := none }
  | sleep {i : Fin n} {w : Awaited} : s.pc i = .sleep w →
      Move s (.sleep i) { s.goto i (.blocked w) with lock := none }
  | wake {i : Fin n} {w : Awaited} : s.pc i = .blocked w → Move s (.wake i) (s.goto i (.enter w))
  | occupy {i : Fin n} : s.pc i = .inside →
      Move s (.occupy i) { s.goto i (.signal .occupied) with occupied := true }
  | empty {i : Fin n} : s.pc i = .inside →
      Move s (.empty i) { s.goto i (.signal .available) with occupied := false }
  | signal {i : Fin n} {w : Awaited} {target : Option (Fin n)} {s' : Handover n} :
      s.pc i = .signal w → Signalled s w s' → Move s (.signal i target) (s'.goto i .leave)
  | unlock {i : Fin n} : s.pc i = .inside ∨ s.pc i = .leave →
      Move s (.unlock i) { s.goto i .out with lock := none }
  | end_ {state : HandoverState} : s.ender = .idle → state ≠ .run →
      Move s (.end_ state) { s with state := state, ender := .loop n }
  | endPush {left : Nat} {target : Option (Fin n)} {s' : Handover n} : s.ender = .onPush left →
      Signalled s .occupied s' → Move s (.endSignal target) { s' with ender := .onEmpty left }
  | endEmpty {left : Nat} {target : Option (Fin n)} {s' : Handover n} : s.ender = .onEmpty left →
      Signalled s .available s' → Move s (.endSignal target) { s' with ender := .loop left }

/-- How one thread gets from a place to the next. -/
inductive Hop (s : Handover n) : HandoverEvent n → Fin n → ThreadPc → ThreadPc → Prop
  | call {i : Fin n} {w : Awaited} {pc : ThreadPc} : pc = .out ∨ pc = .ended →
      Hop s (.call i w) i pc (.enter w)
  | acquire {i : Fin n} {pc : ThreadPc} : pc = .out ∨ pc = .ended → Hop s (.acquire i) i pc .inside
  | lock {i : Fin n} {w : Awaited} : Hop s (.lock i) i (.enter w) (.test w)
  | doze {i : Fin n} {w : Awaited} : w.test s.state s.occupied = none →
      Hop s (.test i) i (.test w) (.sleep w)
  | proceed {i : Fin n} {w : Awaited} : w.test s.state s.occupied = some .ok →
      Hop s (.test i) i (.test w) .inside
  | refuse {i : Fin n} {w : Awaited} : w.test s.state s.occupied = some .end_ →
      Hop s (.test i) i (.test w) .ended
  | sleep {i : Fin n} {w : Awaited} : Hop s (.sleep i) i (.sleep w) (.blocked w)
  -- on its own or by a signal of another thread
  | wake {e : HandoverEvent n} {i : Fin n} {w : Awaited} : Hop s e i (.blocked w) (.enter w)
  | occupy {i : Fin n} : Hop s (.occupy i) i .inside (.signal .occupied)
  | empty {i : Fin n} : Hop s (.empty i) i .inside (.signal .available)
  | signal {i : Fin n} {w : Awaited} {target : Option (Fin n)} :
      Hop s (.signal i target) i (.signal w) .leave
  | unlock {i : Fin n} {pc : ThreadPc} : pc = .inside ∨ pc = .leave → Hop s (.unlock i) i pc .out

end Handover

namespace HandoverLemmas

open Handover

variable {n : Nat} {s : Handover n} {e : HandoverEvent n}

theorem loop_ne_idle (left : Nat) : EnderPc.loop left ≠ .idle := by
  cases left with
  | zero => exact EnderPc.noConfusion
  | succ left => exact EnderPc.noConfusion

theorem signalled_of_wakeOne {w : Awaited} {target : Option (Fin n)} {s' : Handover n}
    (h : s.wakeOne w target = some s') : Signalled s w s' := by
  unfold wakeOne at h
  split at h
  · next j =>
    split at h
    · next hj => exact .inl ⟨j, hj, (Option.some.inj h).symm⟩
    · cases h
  · split at h
    · next hnone => exact .inr ⟨hnone, (Option.some.inj h).symm⟩
    · cases h

theorem test_eq_some {w : Awaited} {state : HandoverState} {occupied : Bool} {res : Res}
    (h : w.test state occupied = some res) : res = .ok ∨ res = .end_ := by
  cases w with
  | available =>
    simp only [Awaited.test, testAvailable] at h
    split at h
    · exact .inr (Option.some.inj h).symm
    · split at h
      · exact .inl (Option.some.inj h).symm
      · cases h
  | occupied =>
    simp only [Awaited.test, testOccupied] at h
    split at h
    · exact .inr (Option.some.inj h).symm
    · split at h
      · exact .inr (Option.some.inj h).symm
      · split at h
        · exact .inl (Option.some.inj h).symm
        · cases h

/-- Every step is a move, or it is not possible. -/
theorem step_cases (s : Handover n) (e : HandoverEvent n) : s.step e = s ∨ Move s e (s.step e) := by
  cases e with
  | call i w =>
    simp only [Handover.step]
    split
    · next h => exact .inr (.call h)
    · exact .inl rfl
  | acquire i =>
    simp only [Handover.step]
    split
    · next h => exact .inr (.acquire h.1 h.2)
    · exact .inl rfl
  | lock i =>
    simp only [Handover.step]
    split
    · next w hpc =>
      split
      · next hlock => exact .inr (.lock hpc hlock)
      · exact .inl rfl
    · exact .inl rfl
  | test i =>
    simp only [Handover.step]
    split
    · next w hpc =>
      split
      · next htest => exact .inr (.doze hpc htest)
      · next htest => exact .inr (.proceed hpc htest)
      · next res hne htest =>
        rcases test_eq_some htest with rfl | rfl
        · exact absurd rfl hne
        · exact .inr (.refuse hpc htest)
    · exact .inl rfl
  | sleep i =>
    simp only [Handover.step]
    split
    · next w hpc => exact .inr (.sleep hpc)
    · exact .inl rfl
  | wake i =>
    simp only [Handover.step]
    split
    · next w hpc => exact .inr (.wake hpc)
    · exact .inl rfl
  | occupy i =>
    simp only [Handover.step]
    split
    · next hpc => exact .inr (.occupy hpc)
    · exact .inl rfl
  | empty i =>
    simp only [Handover.step]
    split
    · next hpc => exact .inr (.empty hpc)
    · exact .inl rfl
  | signal i target =>
    simp only [Handover.step]
    split
    · next w hpc =>
      cases hwake : s.wakeOne w target with
      | none => exact .inl rfl
      | some s' => exact .inr (.signal hpc (signalled_of_wakeOne hwake))
    · exact .inl rfl
  | unlock i =>
    simp only [Handover.step]
    split
    · next hpc => exact .inr (.unlock hpc)
    · exact .inl rfl
  | end_ state =>
    simp only [Handover.step]
    split
    · next h => exact .inr (.end_ h.1 h.2)
    · exact .inl rfl
  | endSignal target =>
    simp only [Handover.step]
    split
    · next left hend =>
      cases hwake : s.wakeOne .occupied target with
      | none => exact .inl rfl
      | some s' => exact .inr (.endPush hend (signalled_of_wakeOne hwake))
    · next left hend =>
      cases hwake : s.wakeOne .available target with
      | none => exact .inl rfl
      | some s' => exact .inr (.endEmpty hend (signalled_of_wakeOne hwake))
    · exact .inl rfl

/-! ## Program counters -/

@[simp] theorem goto_pc_self (s : Handover n) (i : Fin n) (pc : ThreadPc) :
    (s.goto i pc).pc i = pc :=
  Function.update_self ..

theorem goto_pc_of_ne {i j : Fin n} (h : j ≠ i) (pc : ThreadPc) : (s.goto i pc).pc j = s.pc j :=
  Function.update_of_ne h ..

/-- A place that the moving thread does not come to, or was at before, is one where a thread
was before. -/
theorem pc_of_goto {i j : Fin n} {pc pc' : ThreadPc} (h : (s.goto i pc).pc j = pc')
    (hi : pc = pc' → s.pc i = pc') : s.pc j = pc' := by
  by_cases hji : j = i
  · subst hji
    rw [goto_pc_self] at h
    exact hi h
  · rw [goto_pc_of_ne hji] at h
    exact h

theorem signalled_pc {w : Awaited} {s' : Handover n} (h : Signalled s w s') (j : Fin n) :
    s'.pc j = s.pc j ∨ s.pc j = .blocked w ∧ s'.pc j = .enter w := by
  rcases h with ⟨i, hi, rfl⟩ | ⟨-, rfl⟩
  · by_cases hji : j = i
    · subst hji
      exact .inr ⟨hi, goto_pc_self ..⟩
    · exact .inl (goto_pc_of_ne hji _)
  · exact .inl rfl

theorem signalled_fields {w : Awaited} {s' : Handover n} (h : Signalled s w s') :
    s'.state = s.state ∧ s'.occupied = s.occupied ∧ s'.lock = s.lock ∧ s'.ender = s.ender := by
  rcases h with ⟨i, -, rfl⟩ | ⟨-, rfl⟩
  · exact ⟨rfl, rfl, rfl, rfl⟩
  · exact ⟨rfl, rfl, rfl, rfl⟩

/-- A thread stays where it is, or it goes to the next place. -/
theorem hop_of_move {s' : Handover n} (hm : Move s e s') (j : Fin n) :
    s'.pc j = s.pc j ∨ Hop s e j (s.pc j) (s'.pc j) := by
  have hgoto {i : Fin n} {pc : ThreadPc} (hhop : Hop s e i (s.pc i) pc) :
      (s.goto i pc).pc j = s.pc j ∨ Hop s e j (s.pc j) ((s.goto i pc).pc j) := by
    by_cases hji : j = i
    · subst hji
      rw [goto_pc_self]
      exact .inr hhop
    · exact .inl (goto_pc_of_ne hji pc)
  have hsignalled {w : Awaited} {s' : Handover n} (hs : Signalled s w s') :
      s'.pc j = s.pc j ∨ Hop s e j (s.pc j) (s'.pc j) := by
    rcases signalled_pc hs j with hsame | ⟨hblocked, henter⟩
    · exact .inl hsame
    · rw [hblocked, henter]
      exact .inr .wake
  cases hm with
  | call hpc => exact hgoto (.call hpc)
  | acquire hpc _ => exact hgoto (.acquire hpc)
  | lock hpc _ => exact hgoto (hpc ▸ .lock)
  | doze hpc htest => exact hgoto (hpc ▸ .doze htest)
  | proceed hpc htest => exact hgoto (hpc ▸ .proceed htest)
  | refuse hpc htest => exact hgoto (hpc ▸ .refuse htest)
  | sleep hpc => exact hgoto (hpc ▸ .sleep)
  | wake hpc => exact hgoto (hpc ▸ .wake)
  | occupy hpc => exact hgoto (hpc ▸ .occupy)
  | empty hpc => exact hgoto (hpc ▸ .empty)
  | @signal i w target s' hpc hs =>
    by_cases hji : j = i
    · subst hji
      rw [goto_pc_self, hpc]
      exact .inr .signal
    · rw [goto_pc_of_ne hji]
      exact hsignalled hs
  | unlock hpc => exact hgoto (.unlock hpc)
  | end_ _ _ => exact .inl rfl
  | endPush _ hs =>
    have hhop := hsignalled hs
    exact hhop
  | endEmpty _ hs =>
    have hhop := hsignalled hs
    exact hhop

/-! ## The lock -/

/-- A thread at this place has the lock. -/
def holds : ThreadPc → Bool
  | .test _ | .sleep _ | .inside | .signal _ | .leave => true
  | _ => false

/-- The lock is with the thread that is at a place where it has the lock. -/
def LockKept (s : Handover n) : Prop :=
  ∀ i, holds (s.pc i) = true ↔ s.lock = some i

theorem LockKept.unique (h : LockKept s) {i j : Fin n} (hi : holds (s.pc i) = true)
    (hj : holds (s.pc j) = true) : i = j :=
  Option.some.inj (((h i).mp hi).symm.trans ((h j).mp hj))

theorem lockKept_goto (h : LockKept s) {i : Fin n} {pc : ThreadPc}
    (hsame : holds pc = holds (s.pc i)) : LockKept (s.goto i pc) := by
  intro j
  by_cases hji : j = i
  · subst hji
    rw [goto_pc_self, hsame]
    exact h j
  · rw [goto_pc_of_ne hji]
    exact h j

theorem lockKept_take (h : LockKept s) {i : Fin n} {pc : ThreadPc} (hfree : s.lock = none)
    (hpc : holds pc = true) : LockKept { s.goto i pc with lock := some i } := by
  intro j
  by_cases hji : j = i
  · subst hji
    show holds ((s.goto j pc).pc j) = true ↔ some j = some j
    rw [goto_pc_self]
    exact iff_of_true hpc rfl
  · show holds ((s.goto i pc).pc j) = true ↔ some i = some j
    rw [goto_pc_of_ne hji, h j, hfree]
    exact iff_of_false (Option.some_ne_none j).symm fun heq => hji (Option.some.inj heq).symm

theorem lockKept_release (h : LockKept s) {i : Fin n} {pc : ThreadPc}
    (hheld : holds (s.pc i) = true) (hpc : holds pc = false) :
    LockKept { s.goto i pc with lock := none } := by
  intro j
  refine iff_of_false (fun hj => ?_) (Option.some_ne_none j).symm
  have hj' : holds ((s.goto i pc).pc j) = true := hj
  by_cases hji : j = i
  · subst hji
    rw [goto_pc_self, hpc] at hj'
    cases hj'
  · rw [goto_pc_of_ne hji] at hj'
    exact hji (h.unique hj' hheld)

theorem lockKept_signalled (h : LockKept s) {w : Awaited} {s' : Handover n}
    (hs : Signalled s w s') : LockKept s' := by
  rcases hs with ⟨i, hi, rfl⟩ | ⟨-, rfl⟩
  · refine lockKept_goto h ?_
    rw [hi]
    rfl
  · exact h

theorem lockKept_init (n : Nat) : LockKept (Handover.init n) :=
  fun i => iff_of_false Bool.noConfusion (Option.some_ne_none i).symm

theorem lockKept_move {s' : Handover n} (h : LockKept s) (hm : Move s e s') : LockKept s' := by
  cases hm with
  | call hpc =>
    refine lockKept_goto h ?_
    rcases hpc with hpc | hpc
    · rw [hpc]
      rfl
    · rw [hpc]
      rfl
  | acquire _ hfree => exact lockKept_take h hfree rfl
  | lock _ hfree => exact lockKept_take h hfree rfl
  | doze hpc _ => exact lockKept_goto h (by rw [hpc]; rfl)
  | proceed hpc _ => exact lockKept_goto h (by rw [hpc]; rfl)
  | refuse hpc _ => exact lockKept_release h (by rw [hpc]; rfl) rfl
  | sleep hpc => exact lockKept_release h (by rw [hpc]; rfl) rfl
  | wake hpc => exact lockKept_goto h (by rw [hpc]; rfl)
  | occupy hpc => exact lockKept_goto h (by rw [hpc]; rfl)
  | empty hpc => exact lockKept_goto h (by rw [hpc]; rfl)
  | @signal i w _ s' hpc hs =>
    refine lockKept_goto (lockKept_signalled h hs) ?_
    rcases signalled_pc hs i with hsame | ⟨hblocked, -⟩
    · rw [hsame, hpc]
      rfl
    · rw [hpc] at hblocked
      cases hblocked
  | unlock hpc =>
    refine lockKept_release h ?_ rfl
    rcases hpc with hpc | hpc
    · rw [hpc]
      rfl
    · rw [hpc]
      rfl
  | end_ _ _ => exact h
  | endPush _ hs =>
    have hkept := lockKept_signalled h hs
    exact hkept
  | endEmpty _ hs =>
    have hkept := lockKept_signalled h hs
    exact hkept

/-! ## Threads that go to sleep -/

/-- What a thread has seen that is about to sleep is still so: it has the lock. -/
def SleepsTested (s : Handover n) : Prop :=
  ∀ i w, s.pc i = .sleep w → (w = .available ↔ s.occupied = true)

theorem test_eq_none {w : Awaited} {state : HandoverState} {occupied : Bool}
    (h : w.test state occupied = none) : state = .run ∧ (w = .available ↔ occupied = true) := by
  cases w with
  | available =>
    cases state with
    | run =>
      cases occupied with
      | true => exact ⟨rfl, iff_of_true rfl rfl⟩
      | false => cases h
    | abort => cases h
    | finish => cases h
  | occupied =>
    cases state with
    | run =>
      cases occupied with
      | true => cases h
      | false => exact ⟨rfl, iff_of_false Awaited.noConfusion Bool.noConfusion⟩
    | abort => cases h
    | finish =>
      cases occupied with
      | true => cases h
      | false => cases h

/-- A thread comes to the place before `cnd_wait` by its tests only. -/
theorem sleep_of_move {s' : Handover n} (hm : Move s e s') {i : Fin n} {w : Awaited}
    (h : s'.pc i = .sleep w) :
    s.pc i = .sleep w ∨ e = .test i ∧ w.test s.state s.occupied = none := by
  rcases hop_of_move hm i with hsame | hhop
  · exact .inl (hsame.symm.trans h)
  · rw [h] at hhop
    generalize s.pc i = pc at hhop
    cases hhop with
    | doze htest => exact .inr ⟨rfl, htest⟩

/-- Only a thread that has the lock writes `occupied`. -/
theorem occupied_of_move {s' : Handover n} (hm : Move s e s') :
    s'.occupied = s.occupied ∨
      (∃ i, e = .occupy i ∧ s.pc i = .inside ∧ s'.occupied = true) ∨
      ∃ i, e = .empty i ∧ s.pc i = .inside ∧ s'.occupied = false := by
  cases hm with
  | occupy hpc => exact .inr (.inl ⟨_, rfl, hpc, rfl⟩)
  | empty hpc => exact .inr (.inr ⟨_, rfl, hpc, rfl⟩)
  | signal _ hs => exact .inl (signalled_fields hs).2.1
  | endPush _ hs => exact .inl (signalled_fields hs).2.1
  | endEmpty _ hs => exact .inl (signalled_fields hs).2.1
  | _ => exact .inl rfl

/-- Only the ending call writes the state. -/
theorem state_of_move {s' : Handover n} (hm : Move s e s') :
    s'.state = s.state ∧ (s.ender ≠ .idle → s'.ender ≠ .idle) ∨
      ∃ state, e = .end_ state ∧ s.ender = .idle ∧ s'.state = state ∧ s'.pc = s.pc ∧
        s'.ender = .loop n := by
  cases hm with
  | end_ hidle _ => exact .inr ⟨_, rfl, hidle, rfl, rfl, rfl⟩
  | signal _ hs =>
    obtain ⟨hstate, -, -, hender⟩ := signalled_fields hs
    exact .inl ⟨hstate, fun h => hender ▸ h⟩
  | endPush _ hs => exact .inl ⟨(signalled_fields hs).1, fun _ => EnderPc.noConfusion⟩
  | @endEmpty left _ _ _ hs =>
    refine .inl ⟨(signalled_fields hs).1, fun _ => ?_⟩
    exact loop_ne_idle left
  | _ => exact .inl ⟨rfl, id⟩

theorem sleepsTested_move {s' : Handover n} (hl : LockKept s) (h : SleepsTested s)
    (hm : Move s e s') : SleepsTested s' := by
  intro i w hi
  rcases sleep_of_move hm hi with hsleep | ⟨rfl, htest⟩
  · have hinside {j : Fin n} (hj : s.pc j = .inside) : False := by
      have hij : i = j := hl.unique (by rw [hsleep]; rfl) (by rw [hj]; rfl)
      rw [hij, hj] at hsleep
      cases hsleep
    rcases occupied_of_move hm with hocc | ⟨j, -, hj, -⟩ | ⟨j, -, hj, -⟩
    · rw [hocc]
      exact h i w hsleep
    · exact (hinside hj).elim
    · exact (hinside hj).elim
  · rcases occupied_of_move hm with hocc | ⟨j, hj, -⟩ | ⟨j, hj, -⟩
    · rw [hocc]
      exact (test_eq_none htest).2
    · cases hj
    · cases hj

end HandoverLemmas

end Everarch
