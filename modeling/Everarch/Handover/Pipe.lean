import Everarch.Handover.Threads

/-!
# One producer and many consumers

The way blob sync and the attr index use a handover. The producer waits until the slot is
available, writes the item and occupies the handover, again and again, and finishes it at
last. Consumers wait until it is occupied, read the item and empty it, until they are told
that it has ended.

* `Pipe.step`: the steps of the handover that these programs make, and their accesses to the
  slot. Threads are those of the handover; the producer is thread 0.
* `PipeOk`: the items written and not yet read are the one in the slot, or none.

Result: `handover_exactly_once`.
-/

namespace Everarch

/-- A handover with its slot. `touched` says that the thread which has the lock has accessed
the slot; `written` and `read` are the items of all accesses so far. -/
structure Pipe (n : Nat) (α : Type) where
  ho : Handover (n + 1)
  slot : α
  touched : Bool
  written : List α
  read : List α

/-- A step of the handover, or an access to the slot. -/
inductive PipeEvent (n : Nat) (α : Type) where
  | ho (e : HandoverEvent (n + 1))
  | write (x : α)
  | read (i : Fin (n + 1))

namespace Pipe

variable {n : Nat} {α : Type}

/-- The slot holds anything before the first item. -/
def start (n : Nat) (junk : α) : Pipe n α :=
  ⟨.init (n + 1), junk, false, [], []⟩

/-- The producer has the lock and has not written its item. -/
def CanWrite (s : Pipe n α) : Prop :=
  s.ho.pc 0 = .inside ∧ s.touched = false

/-- The consumer has the lock and has not read the item. -/
def CanRead (s : Pipe n α) (i : Fin (n + 1)) : Prop :=
  i ≠ 0 ∧ s.ho.pc i = .inside ∧ s.touched = false

instance (s : Pipe n α) : Decidable s.CanWrite :=
  inferInstanceAs (Decidable (_ ∧ _))

instance (s : Pipe n α) (i : Fin (n + 1)) : Decidable (s.CanRead i) :=
  inferInstanceAs (Decidable (_ ∧ _))

/-- What a thread waits for. -/
def role (i : Fin (n + 1)) : Awaited :=
  if i = 0 then .available else .occupied

/-- The step is one of the programs of producer and consumers. -/
def Allowed (s : Pipe n α) : HandoverEvent (n + 1) → Prop
  | .call i w => w = role i ∧ s.ho.pc i ≠ .ended ∧ (i = 0 → s.ho.ender = .idle)
  | .acquire _ => False
  | .occupy i => i = 0 ∧ s.ho.pc i = .inside ∧ s.touched = true
  | .empty i => i ≠ 0 ∧ s.ho.pc i = .inside ∧ s.touched = true
  | .unlock i => s.ho.pc i = .leave
  | .end_ state => state = .finish ∧ s.ho.pc 0 = .out
  | .lock _ | .test _ | .sleep _ | .wake _ | .signal _ _ | .endSignal _ => True

instance (s : Pipe n α) : ∀ e, Decidable (s.Allowed e)
  | .call _ _ | .occupy _ | .empty _ | .end_ _ => inferInstanceAs (Decidable (_ ∧ _))
  | .unlock _ => inferInstanceAs (Decidable (_ = _))
  | .acquire _ => inferInstanceAs (Decidable False)
  | .lock _ | .test _ | .sleep _ | .wake _ | .signal _ _ | .endSignal _ =>
    inferInstanceAs (Decidable True)

/-- The slot was not accessed yet when a thread gets the lock. -/
def touchedAfter (s : Pipe n α) : HandoverEvent (n + 1) → Bool
  | .occupy _ | .empty _ => false
  | _ => s.touched

/-- One step. A step that the programs do not make leaves the state as it is. -/
def step (s : Pipe n α) : PipeEvent n α → Pipe n α
  | .ho e => if s.Allowed e then { s with ho := s.ho.step e, touched := s.touchedAfter e } else s
  | .write x =>
    if s.CanWrite then { s with slot := x, touched := true, written := s.written ++ [x] } else s
  | .read i =>
    if s.CanRead i then { s with touched := true, read := s.read ++ [s.slot] } else s

end Pipe

namespace PipeLemmas

open Handover HandoverLemmas Pipe

variable {n : Nat} {α : Type} {s : Pipe n α} {e : HandoverEvent (n + 1)}

/-- The item that was written and not yet read. -/
def unread (s : Pipe n α) : List α :=
  if s.ho.occupied = s.touched then [] else [s.slot]

/-- What a thread in one of the wait functions waits for. -/
def awaits : ThreadPc → Option Awaited
  | .enter w | .test w | .sleep w | .blocked w => some w
  | _ => none

/-- Every thread waits for what it is there for. -/
def RolesKept (ho : Handover (n + 1)) : Prop :=
  ∀ i w, awaits (ho.pc i) = some w → w = role i

structure PipeOk (s : Pipe n α) : Prop where
  lock : LockKept s.ho
  roles : RolesKept s.ho
  /-- The producer is inside with an empty slot, a consumer with an occupied one. -/
  inside : ∀ i, s.ho.pc i = .inside → (i = 0 ↔ s.ho.occupied = false)
  touched : s.touched = true → ∃ i, s.ho.pc i = .inside
  items : s.written = s.read ++ unread s
  /-- The producer ends the handover and does nothing with it afterwards. -/
  finish : s.ho.state ≠ .run → s.ho.state = .finish ∧ s.ho.ender ≠ .idle ∧ s.ho.pc 0 = .out
  ended : ∀ i, i ≠ 0 → s.ho.pc i = .ended → s.ho.state = .finish ∧ s.ho.occupied = false

/-- What holds at the start. -/
theorem pipeOk_start (n : Nat) (junk : α) : PipeOk (Pipe.start n junk) where
  lock := lockKept_init (n + 1)
  roles := fun _ _ h => nomatch h
  inside := fun _ h => ThreadPc.noConfusion h
  touched := Bool.noConfusion
  items := rfl
  finish := fun h => absurd rfl h
  ended := fun _ _ h => ThreadPc.noConfusion h

theorem role_eq_available {i : Fin (n + 1)} : role i = .available ↔ i = 0 := by
  unfold role
  split
  · next h => exact iff_of_true rfl h
  · next h => exact iff_of_false Awaited.noConfusion h

theorem test_eq_ok {w : Awaited} {state : HandoverState} {occupied : Bool}
    (h : w.test state occupied = some .ok) : w = .available ↔ occupied = false := by
  cases w with
  | available =>
    refine iff_of_true rfl ?_
    simp only [Awaited.test, testAvailable] at h
    split at h
    · cases h
    · split at h
      · next hocc => exact Bool.not_eq_true' _ ▸ hocc
      · cases h
  | occupied =>
    refine iff_of_false Awaited.noConfusion ?_
    rintro rfl
    simp only [Awaited.test, testOccupied] at h
    split at h
    · cases h
    · split at h
      · cases h
      · split at h
        · next hocc => cases hocc
        · cases h

theorem test_eq_end {state : HandoverState} {occupied : Bool}
    (h : Awaited.occupied.test state occupied = some .end_) :
    state = .abort ∨ state = .finish ∧ occupied = false := by
  simp only [Awaited.test, testOccupied] at h
  split at h
  · next habort => exact .inl habort
  · split at h
    · next hfinish => exact .inr ⟨hfinish.1, Bool.not_eq_true' _ ▸ hfinish.2⟩
    · split at h
      · cases h
      · cases h

section Move

variable {ho : Handover (n + 1)} (h : PipeOk s)
  (hallowed : s.Allowed e) (hm : Move s.ho e ho)
include h hallowed hm

theorem roles_move : RolesKept ho := by
  intro i w hi
  rcases hop_of_move hm i with hsame | hhop
  · rw [hsame] at hi
    exact h.roles i w hi
  · have hold := h.roles i w
    generalize s.ho.pc i = pc at hhop hold
    generalize ho.pc i = pc' at hhop hi
    cases hhop with
    | call _ =>
      cases hi
      exact hallowed.1
    | lock => exact hold hi
    | doze _ => exact hold hi
    | sleep => exact hold hi
    | wake => exact hold hi
    | _ => cases hi

omit h hallowed in
theorem occupied_of_test {i : Fin (n + 1)} (he : e = .test i) :
    ho.occupied = s.ho.occupied ∧ ho.state = s.ho.state := by
  subst he
  cases hm with
  | doze _ _ => exact ⟨rfl, rfl⟩
  | proceed _ _ => exact ⟨rfl, rfl⟩
  | refuse _ _ => exact ⟨rfl, rfl⟩

omit hallowed in
/-- A thread that stays inside is the only one that could write `occupied`. -/
theorem occupied_of_inside {i : Fin (n + 1)} (hold : s.ho.pc i = .inside)
    (hi : ho.pc i = .inside) : ho.occupied = s.ho.occupied := by
  have hother {j : Fin (n + 1)} (hj : s.ho.pc j = .inside) (hne : ho.pc j ≠ .inside) : False := by
    have hij : i = j := h.lock.unique (by rw [hold]; rfl) (by rw [hj]; rfl)
    exact hne (hij ▸ hi)
  cases hm with
  | @occupy j hj =>
    refine (hother hj ?_).elim
    rw [show _ = ThreadPc.signal .occupied from goto_pc_self ..]
    exact ThreadPc.noConfusion
  | @empty j hj =>
    refine (hother hj ?_).elim
    rw [show _ = ThreadPc.signal .available from goto_pc_self ..]
    exact ThreadPc.noConfusion
  | signal _ hs => exact (signalled_fields hs).2.1
  | endPush _ hs => exact (signalled_fields hs).2.1
  | endEmpty _ hs => exact (signalled_fields hs).2.1
  | _ => rfl

/-- The producer gets to an empty slot, a consumer to an occupied one. -/
theorem inside_move (i : Fin (n + 1)) (hi : ho.pc i = .inside) : i = 0 ↔ ho.occupied = false := by
  rcases hop_of_move hm i with hsame | hhop
  · rw [hsame] at hi
    rw [occupied_of_inside h hm hi (hsame.trans hi)]
    exact h.inside i hi
  · have hrole := h.roles i
    generalize s.ho.pc i = pc at hhop hrole
    rw [hi] at hhop
    cases hhop with
    | acquire _ => exact hallowed.elim
    | @proceed _ w htest =>
      rw [(occupied_of_test hm rfl).1, ← test_eq_ok htest, hrole w rfl]
      exact role_eq_available.symm

theorem touched_move (ht : s.touchedAfter e = true) : ∃ i, ho.pc i = .inside := by
  have hbefore : s.touched = true := by
    cases e with
    | occupy _ => cases ht
    | empty _ => cases ht
    | _ => exact ht
  obtain ⟨i, hi⟩ := h.touched hbefore
  refine ⟨i, ?_⟩
  rcases hop_of_move hm i with hsame | hhop
  · exact hsame.trans hi
  · rw [hi] at hhop
    generalize ho.pc i = pc' at hhop
    cases hhop with
    | call hpc =>
      rcases hpc with hpc | hpc
      · cases hpc
      · cases hpc
    | acquire _ => exact hallowed.elim
    | occupy => cases ht
    | empty => cases ht
    | unlock _ => exact nomatch hi.symm.trans hallowed

theorem items_move :
    s.written = s.read ++ if ho.occupied = s.touchedAfter e then [] else [s.slot] := by
  have hitems := h.items
  unfold unread at hitems
  cases hm with
  | occupy hpc =>
    obtain ⟨rfl, -, htouched⟩ := hallowed
    rw [(h.inside 0 hpc).mp rfl, htouched, if_neg Bool.false_ne_true] at hitems
    exact hitems
  | @empty i hpc =>
    obtain ⟨hne, -, htouched⟩ := hallowed
    have hocc : s.ho.occupied = true := by
      rw [← Bool.not_eq_false]
      exact fun hfree => hne ((h.inside i hpc).mpr hfree)
    rw [hocc, htouched, if_pos rfl] at hitems
    exact hitems
  | signal _ hs =>
    rw [← (signalled_fields hs).2.1] at hitems
    exact hitems
  | endPush _ hs =>
    rw [← (signalled_fields hs).2.1] at hitems
    exact hitems
  | endEmpty _ hs =>
    rw [← (signalled_fields hs).2.1] at hitems
    exact hitems
  | _ => exact hitems

theorem finish_move (hne : ho.state ≠ .run) :
    ho.state = .finish ∧ ho.ender ≠ .idle ∧ ho.pc 0 = .out := by
  rcases state_of_move hm with ⟨hstate, hender⟩ | ⟨state, rfl, -, hstate, hpcs, hender⟩
  · rw [hstate] at hne ⊢
    obtain ⟨hfinish, hcalled, hout⟩ := h.finish hne
    refine ⟨hfinish, hender hcalled, ?_⟩
    rcases hop_of_move hm 0 with hsame | hhop
    · exact hsame.trans hout
    · rw [hout] at hhop
      generalize ho.pc 0 = pc' at hhop
      cases hhop with
      | call _ => exact absurd (hallowed.2.2 rfl) hcalled
      | acquire _ => exact hallowed.elim
      | unlock hpc =>
        rcases hpc with hpc | hpc
        · cases hpc
        · cases hpc
  · obtain ⟨rfl, hout⟩ := hallowed
    rw [hender, hpcs]
    exact ⟨hstate, loop_ne_idle _, hout⟩

theorem ended_move (i : Fin (n + 1)) (hne : i ≠ 0) (hi : ho.pc i = .ended) :
    ho.state = .finish ∧ ho.occupied = false := by
  rcases hop_of_move hm i with hsame | hhop
  · obtain ⟨hfinish, hfree⟩ := h.ended i hne (hsame.symm.trans hi)
    obtain ⟨-, hcalled, hout⟩ := h.finish (by rw [hfinish]; exact HandoverState.noConfusion)
    constructor
    · rcases state_of_move hm with ⟨hstate, -⟩ | ⟨state, -, hidle, -⟩
      · exact hstate.trans hfinish
      · exact absurd hidle hcalled
    · rcases occupied_of_move hm with hocc | ⟨j, rfl, hj, -⟩ | ⟨j, -, -, hocc⟩
      · exact hocc.trans hfree
      · rw [hallowed.1, hout] at hj
        cases hj
      · exact hocc
  · have hrole := h.roles i
    generalize s.ho.pc i = pc at hhop hrole
    rw [hi] at hhop
    cases hhop with
    | @refuse _ w htest =>
      obtain ⟨hocc, hstate⟩ := occupied_of_test hm rfl
      have hw : w = .occupied := by
        rw [hrole w rfl]
        exact if_neg hne
      rw [hw] at htest
      rw [hocc, hstate]
      rcases test_eq_end htest with habort | hend
      · have hfinish := (h.finish (by rw [habort]; exact HandoverState.noConfusion)).1
        rw [habort] at hfinish
        cases hfinish
      · exact hend

end Move

/-- The slot counts as not accessed again only where the handover makes a step. -/
theorem unchanged (hallowed : s.Allowed e) (heq : s.ho.step e = s.ho) :
    s.touchedAfter e = s.touched := by
  have hmoves {i : Fin (n + 1)} {w : Awaited} (hpc : s.ho.pc i = .inside)
      (hgoto : (s.ho.step e).pc i = .signal w) : False := by
    rw [heq, hpc] at hgoto
    cases hgoto
  cases e with
  | occupy i =>
    refine (hmoves (w := .occupied) hallowed.2.1 ?_).elim
    simp only [Handover.step, if_pos hallowed.2.1]
    exact goto_pc_self ..
  | empty i =>
    refine (hmoves (w := .available) hallowed.2.1 ?_).elim
    simp only [Handover.step, if_pos hallowed.2.1]
    exact goto_pc_self ..
  | _ => rfl

theorem pipeOk_step (h : PipeOk s) (e : PipeEvent n α) : PipeOk (s.step e) := by
  cases e with
  | ho e =>
    simp only [Pipe.step]
    split
    · next hallowed =>
      rcases step_cases s.ho e with heq | hm
      · rw [heq, unchanged hallowed heq]
        exact h
      · exact ⟨lockKept_move h.lock hm, roles_move h hallowed hm, inside_move h hallowed hm,
          touched_move h hallowed hm, items_move h hallowed hm, finish_move h hallowed hm,
          ended_move h hallowed hm⟩
    · exact h
  | write x =>
    simp only [Pipe.step]
    split
    · next hcan =>
      obtain ⟨hpc, htouched⟩ := hcan
      refine ⟨h.lock, h.roles, h.inside, fun _ => ⟨0, hpc⟩, ?_, h.finish, h.ended⟩
      have hitems := h.items
      have hfree := (h.inside 0 hpc).mp rfl
      unfold unread at hitems ⊢
      rw [hfree, htouched, if_pos rfl, List.append_nil] at hitems
      show s.written ++ [x] = s.read ++ if s.ho.occupied = true then [] else [x]
      rw [hfree, if_neg Bool.false_ne_true, hitems]
    · exact h
  | read i =>
    simp only [Pipe.step]
    split
    · next hcan =>
      obtain ⟨hne, hpc, htouched⟩ := hcan
      refine ⟨h.lock, h.roles, h.inside, fun _ => ⟨i, hpc⟩, ?_, h.finish, h.ended⟩
      have hitems := h.items
      have hocc : s.ho.occupied = true := by
        rw [← Bool.not_eq_false]
        exact fun hfree => hne ((h.inside i hpc).mpr hfree)
      unfold unread at hitems ⊢
      rw [hocc, htouched, if_neg Bool.noConfusion] at hitems
      show s.written = (s.read ++ [s.slot]) ++ if s.ho.occupied = true then [] else [s.slot]
      rw [if_pos hocc, List.append_nil]
      exact hitems
    · exact h

theorem pipeOk_run (junk : α) (events : List (PipeEvent n α)) :
    PipeOk (exec Pipe.step (.start n junk) events) := by
  induction events using List.reverseRecOn with
  | nil => exact pipeOk_start n junk
  | append_singleton events e ih =>
    rw [exec_append_singleton]
    exact pipeOk_step ih e

/-- A consumer that is told the end leaves no item behind. -/
theorem read_of_ended (h : PipeOk s) {i : Fin (n + 1)} (hne : i ≠ 0) (hi : s.ho.pc i = .ended) :
    s.read = s.written := by
  have hitems := h.items
  obtain ⟨hfinish, hfree⟩ := h.ended i hne hi
  have hout := (h.finish (by rw [hfinish]; exact HandoverState.noConfusion)).2.2
  -- an accessed slot would be the producer's, which is not there any more
  have htouched : s.touched = false := by
    rw [← Bool.not_eq_true]
    intro htouched
    obtain ⟨j, hj⟩ := h.touched htouched
    rw [(h.inside j hj).mpr hfree, hout] at hj
    cases hj
  rw [unread, hfree, htouched, if_pos rfl, List.append_nil] at hitems
  exact hitems.symm

end PipeLemmas

open PipeLemmas

/-- For every number of consumers and every interleaving of their steps with those of the
producer, items are read in the order in which they were written and none twice, no item is
written over one that was not read, and a consumer that is told that the handover has ended
leaves no item behind. -/
theorem handover_exactly_once {α : Type} (n : Nat) (junk : α) (events : List (PipeEvent n α)) :
    (exec Pipe.step (.start n junk) events).read <+:
        (exec Pipe.step (.start n junk) events).written ∧
      ((exec Pipe.step (.start n junk) events).CanWrite →
        (exec Pipe.step (.start n junk) events).read =
          (exec Pipe.step (.start n junk) events).written) ∧
      ∀ i, i ≠ 0 → (exec Pipe.step (.start n junk) events).ho.pc i = .ended →
        (exec Pipe.step (.start n junk) events).read =
          (exec Pipe.step (.start n junk) events).written := by
  have h := pipeOk_run junk events
  generalize exec Pipe.step (.start n junk) events = s at h
  have hitems := h.items
  refine ⟨⟨_, hitems.symm⟩, ?_, fun i hne hi => read_of_ended h hne hi⟩
  rintro ⟨hpc, htouched⟩
  rw [unread, (h.inside 0 hpc).mp rfl, htouched, if_pos rfl, List.append_nil] at hitems
  exact hitems.symm

/-- A consumer that was blocked reads the only item and is told the end. -/
def onePassed : List (PipeEvent 1 Nat) :=
  [.ho (.call 1 .occupied), .ho (.lock 1), .ho (.test 1), .ho (.sleep 1), .ho (.call 0 .available),
    .ho (.lock 0), .ho (.test 0), .write 7, .ho (.occupy 0), .ho (.signal 0 (some 1)),
    .ho (.unlock 0), .ho (.lock 1), .ho (.test 1), .read 1, .ho (.empty 1), .ho (.signal 1 none),
    .ho (.unlock 1), .ho (.end_ .finish), .ho (.call 1 .occupied), .ho (.lock 1), .ho (.test 1)]

example : (exec Pipe.step (.start 1 0) onePassed).read = [7] ∧
    (exec Pipe.step (.start 1 0) onePassed).ho.pc 1 = .ended := by
  decide

end Everarch
