import Everarch.Server.Queue
import Everarch.Lib.Run

/-!
# Runs of a queue

Threads put to a `struct evr_queue` and take from it, in any order. All that they do with it they
do between `mtx_lock` and `mtx_unlock` of its lock, or up to `cnd_timedwait`, which gives the lock
up, so that a step is such a section as a whole.

* `Queue.take`, `Queue.takeWoken`: the two sections of `evr_queue_take`.
* `queue_run_no_gap`: what was taken is what was put first, and nobody gets past an entry that was
  refused.
-/

namespace Everarch

/-! ## Taking -/

namespace Queue

variable {α : Type}

/-- `evr_queue_take` up to `cnd_timedwait`. It answers nothing where it comes to wait. -/
def take (q : Queue α) : Option (Res × Option α) × Queue α :=
  if q.status ≠ .ok then (some (.error, none), q)
  else if q.isEmpty then (none, q)
  else (some (.ok, some q.next.1), q.next.2)

/-- `evr_queue_take` behind `cnd_timedwait`, which returns on a signal, on the timeout and also for
no reason. The status is not looked at again. -/
def takeWoken (q : Queue α) : (Res × Option α) × Queue α :=
  if q.isEmpty then ((.notFound, none), q) else ((.ok, some q.next.1), q.next.2)

end Queue

/-! ## Runs -/

/-- A section of one of the threads. -/
inductive QueueEvent (α : Type)
  | put (entry : α)
  | take (thread : Nat)
  | wake (thread : Nat)

/-- A queue and its threads, those that are in `cnd_timedwait`. `puts` are the entries of all calls
of `evr_queue_put`, `accepted` those of the calls that returned `evr_ok`, and `refused` says that
one did not. -/
structure QueueRun (α : Type) where
  queue : Queue α
  waiting : Nat → Bool
  puts : List α
  accepted : List α
  refused : Bool
  taken : List α

namespace QueueRun

variable {α : Type}

/-- A new queue. -/
def start [Inhabited α] (itemsLenExp : Nat) : QueueRun α :=
  ⟨.create itemsLenExp, fun _ => false, [], [], false, []⟩

/-- One section. A thread that waits is in its call of `evr_queue_take`, and only such a thread
wakes up. -/
def step (s : QueueRun α) : QueueEvent α → QueueRun α
  | .put entry =>
    let (res, queue) := s.queue.put entry
    { s with
      queue := queue
      puts := s.puts ++ [entry]
      accepted := if res = .ok then s.accepted ++ [entry] else s.accepted
      refused := s.refused || res ≠ .ok }
  | .take thread =>
    if s.waiting thread then s
    else
      match s.queue.take with
      | (none, queue) =>
        { s with queue := queue, waiting := Function.update s.waiting thread true }
      | (some (_, entry), queue) =>
        { s with queue := queue, taken := s.taken ++ entry.toList }
  | .wake thread =>
    if s.waiting thread then
      let ((_, entry), queue) := s.queue.takeWoken
      { s with
        queue := queue
        waiting := Function.update s.waiting thread false
        taken := s.taken ++ entry.toList }
    else s

/-- What a queue promises to its threads. -/
structure NoGap (itemsLenExp : Nat) (s : QueueRun α) : Prop where
  order : s.taken ++ s.queue.pending = s.accepted
  gapless : s.accepted <+: s.puts
  all : s.refused = false → s.accepted = s.puts
  room : s.queue.pending.length ≤ 2 ^ itemsLenExp - 1
  put : ∀ entry, (s.queue.put entry).1 =
    if s.refused = true ∨ s.queue.pending.length = 2 ^ itemsLenExp - 1 then .temporaryOccupied
    else .ok
  take : s.refused = true → s.queue.take = (some (.error, none), s.queue)

end QueueRun

namespace QueueRunLemmas

open QueueRun

variable {α : Type} {s : QueueRun α} {itemsLenExp : Nat}

/-- A put is refused if the queue overflowed or is full. -/
theorem put_eq (q : Queue α) (entry : α) :
    (q.put entry).1 = if q.status = .temporaryOccupied ∨
      q.pending.length = q.itemsLen - 1 then .temporaryOccupied else .ok := by
  have hpos : 0 < q.itemsLen := Nat.two_pow_pos _
  have hfull : q.step q.writing = q.reading ↔ q.pending.length = q.itemsLen - 1 := by
    rw [Queue.step_eq, Queue.pending, length_window,
      ringCount_full (n := q.itemsLen) q.reading_lt q.writing_lt]
    omega
  unfold Queue.put
  by_cases hocc : q.status = .temporaryOccupied
  · rw [if_pos hocc, if_pos (.inl hocc)]
  · rw [if_neg hocc, if_neg (not_not_intro (q.status_known.resolve_right hocc))]
    by_cases hroom : q.step q.writing = q.reading
    · rw [if_pos hroom, if_pos (.inr (hfull.mp hroom))]
    · rw [if_neg hroom, if_neg (not_or.mpr ⟨hocc, mt hfull.mpr hroom⟩)]

/-- Taken and pending entries are the accepted ones, and a refusal stays in the status. -/
structure Kept (itemsLenExp : Nat) (s : QueueRun α) : Prop where
  size : s.queue.itemsLenExp = itemsLenExp
  order : s.taken ++ s.queue.pending = s.accepted
  gapless : s.accepted <+: s.puts
  all : s.refused = false → s.accepted = s.puts
  refused : s.refused = true ↔ s.queue.status = .temporaryOccupied

theorem kept_start [Inhabited α] (itemsLenExp : Nat) :
    Kept itemsLenExp (start itemsLenExp : QueueRun α) :=
  ⟨rfl, Queue.pending_create _, List.prefix_refl _, fun _ => rfl,
    iff_of_false Bool.false_ne_true Res.noConfusion⟩

/-- The queue that a take leaves. -/
theorem kept_taken {queue : Queue α} (entry : Option α) {waiting : Nat → Bool}
    (h : Kept itemsLenExp s) (hsize : queue.itemsLenExp = s.queue.itemsLenExp)
    (hstatus : queue.status = s.queue.status)
    (hpending : entry.toList ++ queue.pending = s.queue.pending) :
    Kept itemsLenExp
      { s with queue := queue, waiting := waiting, taken := s.taken ++ entry.toList } where
  size := hsize.trans h.size
  order := by
    rw [List.append_assoc, hpending]
    exact h.order
  gapless := h.gapless
  all := h.all
  refused := hstatus ▸ h.refused

theorem put_size (q : Queue α) (entry : α) : (q.put entry).2.itemsLenExp = q.itemsLenExp := by
  unfold Queue.put
  split
  · rfl
  · split
    · rfl
    · split
      · rfl
      · rfl

/-- What a put answers is the status that it leaves. -/
theorem put_res_status (q : Queue α) (entry : α) :
    (q.put entry).1 = (q.put entry).2.status := by
  unfold Queue.put
  split
  · next hocc => exact hocc.symm
  · next hocc =>
    have hok := q.status_known.resolve_right hocc
    rw [if_neg (not_not_intro hok)]
    split
    · rfl
    · exact hok.symm

theorem kept_put (h : Kept itemsLenExp s) (entry : α) :
    Kept itemsLenExp (s.step (.put entry)) := by
  obtain ⟨hsize, horder, hgapless, hall, hrefused⟩ := h
  have hres := put_res_status s.queue entry
  have hsize' := (put_size s.queue entry).trans hsize
  unfold QueueRun.step
  dsimp only
  rcases s.queue.pending_put entry with ⟨hocc, hsame⟩ | ⟨hok, hok', hpending⟩
  · have hno : ¬ (s.queue.put entry).1 = .ok := by
      rw [hres, hocc]
      exact Res.noConfusion
    have hnow : (s.refused || decide ((s.queue.put entry).1 ≠ .ok)) = true := by
      rw [decide_eq_true hno, Bool.or_true]
    refine ⟨hsize', ?_, ?_, ?_, ?_⟩
    · rw [if_neg hno, hsame]
      exact horder
    · rw [if_neg hno]
      exact hgapless.trans (List.prefix_append _ _)
    · rw [hnow]
      exact fun hnever => Bool.noConfusion hnever
    · exact iff_of_true hnow hocc
  · have hyes : (s.queue.put entry).1 = .ok := hres.trans hok'
    have hnever : s.refused = false := by
      refine Bool.eq_false_iff.mpr fun htrue => ?_
      have hocc := hrefused.mp htrue
      rw [hok] at hocc
      cases hocc
    have hsame : (s.refused || decide ((s.queue.put entry).1 ≠ .ok)) = false := by
      rw [hnever, hyes]
      rfl
    refine ⟨hsize', ?_, ?_, ?_, ?_⟩
    · rw [if_pos hyes, hpending, ← List.append_assoc, horder]
    · have heq := hall hnever
      refine ⟨[], ?_⟩
      rw [if_pos hyes, heq, List.append_nil]
    · rw [if_pos hyes, hall hnever]
      exact fun _ => rfl
    · rw [hsame, hok']
      exact iff_of_false Bool.false_ne_true Res.noConfusion

theorem kept_take (h : Kept itemsLenExp s) (thread : Nat) :
    Kept itemsLenExp (s.step (.take thread)) := by
  unfold QueueRun.step
  dsimp only
  split
  · exact h
  · unfold Queue.take
    split_ifs with hstatus hempty
    · exact kept_taken none h rfl rfl rfl
    · exact ⟨h.size, h.order, h.gapless, h.all, h.refused⟩
    · refine kept_taken (some s.queue.next.1) h rfl rfl ?_
      exact (Queue.pending_next (Bool.eq_false_iff.mpr hempty)).symm

theorem kept_wake (h : Kept itemsLenExp s) (thread : Nat) :
    Kept itemsLenExp (s.step (.wake thread)) := by
  unfold QueueRun.step
  dsimp only
  split
  · unfold Queue.takeWoken
    split_ifs with hempty
    · exact kept_taken none h rfl rfl rfl
    · refine kept_taken (some s.queue.next.1) h rfl rfl ?_
      exact (Queue.pending_next (Bool.eq_false_iff.mpr hempty)).symm
  · exact h

theorem kept_step (h : Kept itemsLenExp s) (e : QueueEvent α) : Kept itemsLenExp (s.step e) := by
  cases e with
  | put entry => exact kept_put h entry
  | take thread => exact kept_take h thread
  | wake thread => exact kept_wake h thread

theorem noGap_of_kept (h : Kept itemsLenExp s) : s.NoGap itemsLenExp := by
  have hlen : s.queue.itemsLen = 2 ^ itemsLenExp := congrArg (2 ^ ·) h.size
  refine ⟨h.order, h.gapless, h.all, ?_, fun entry => ?_, fun htrue => ?_⟩
  · have hlt : ringCount s.queue.itemsLen s.queue.reading s.queue.writing < s.queue.itemsLen :=
      (ringCount_spec s.queue.reading_lt s.queue.writing_lt).1
    rw [Queue.pending, length_window, ← hlen]
    omega
  · rw [put_eq, hlen]
    simp only [h.refused]
  · have hstatus : s.queue.status ≠ .ok := by
      rw [h.refused.mp htrue]
      exact Res.noConfusion
    rw [Queue.take, if_pos hstatus]

/-- A refusal is not forgotten. -/
theorem refused_step (h : s.refused = true) (e : QueueEvent α) : (s.step e).refused = true := by
  cases e with
  | put entry =>
    show (s.refused || _) = true
    rw [h, Bool.true_or]
  | take thread =>
    unfold QueueRun.step
    dsimp only
    split
    · exact h
    · split
      · exact h
      · exact h
  | wake thread =>
    unfold QueueRun.step
    dsimp only
    split
    · exact h
    · exact h

end QueueRunLemmas

open QueueRunLemmas

/-- In every run the taken entries are the first ones that were put. From the first refusal on,
which comes with the first put to a full queue, every put is refused and every take fails. -/
theorem queue_run_no_gap {α : Type} [Inhabited α] (itemsLenExp : Nat)
    (before after : List (QueueEvent α)) :
    let s := exec QueueRun.step (.start itemsLenExp) before
    let s' := exec QueueRun.step s after
    s.NoGap itemsLenExp ∧ s'.NoGap itemsLenExp ∧ (s.refused = true → s'.refused = true) := by
  have hkept : ∀ events : List (QueueEvent α),
      QueueRunLemmas.Kept itemsLenExp (exec QueueRun.step (.start itemsLenExp) events) :=
    fun events => exec_invariant (QueueRunLemmas.Kept itemsLenExp) (kept_start itemsLenExp)
      fun _ e hs => kept_step hs e
  refine ⟨noGap_of_kept (hkept before), ?_, fun hrefused => ?_⟩
  · rw [← exec_append]
    exact noGap_of_kept (hkept (before ++ after))
  · exact exec_invariant (fun s : QueueRun α => s.refused = true) hrefused fun _ e hs =>
      refused_step hs e

end Everarch
