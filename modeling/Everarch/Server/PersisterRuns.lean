import Everarch.Server.Storage
import Everarch.Lib.Run

/-!
# Runs of the persister

concurrent-glacier.c: threads queue tasks in a ring, the worker of the persister takes them out and
appends their blobs, and the threads wait for the tasks that were accepted.

The ring is touched between `mtx_lock` and `mtx_unlock` of `worker_lock` only, or up to `cnd_wait`,
which gives the lock up. Such a section is one step. The mutex `done` of a task is locked by the
thread that queues it and unlocked by the worker, which are steps of their own.

* `PersisterRunLemmas.Kept`: the invariant of all steps.
* `PersisterRunLemmas.work_nearer`: a turn of the worker brings it nearer to every task.
* `persister_run_orderly`: what holds in every run.
-/

namespace Everarch

/-- Where the thread of a task is. -/
inductive TaskPc where
  /-- The task is not in the queue, or no longer after it was refused. -/
  | idle
  /-- Has locked `done` and comes to `worker_lock`. -/
  | locked
  /-- `evr_persister_queue_task` returned `evr_ok`. -/
  | queued
  /-- `evr_persister_wait_for_task` has returned. -/
  | returned
deriving DecidableEq

/-- Where `evr_persister_worker` is. -/
inductive PersisterPc where
  /-- Comes to `worker_lock` and the tests behind it. -/
  | enter
  /-- In `cnd_wait`. -/
  | sleeping
  /-- Has taken a task and comes to `evr_glacier_append_blob`. -/
  | appending (task : Nat)
  /-- Has set the result and comes to unlock `done`. -/
  | finished (task : Nat) (res : Res)
  /-- Comes to `evr_notify_send`. -/
  | notifying
deriving DecidableEq

/-- `struct evr_persister_ctx` with its worker, the tasks and their threads. `accepted`, `taken` and
`appended` are the tasks that were accepted, taken by the worker and given to
`evr_glacier_append_blob` so far. -/
structure PersisterRun where
  tasks : Nat → Nat
  writing : Nat
  reading : Nat
  worker : PersisterPc
  pc : Nat → TaskPc
  done : Nat → Bool
  result : Nat → Option Res
  accepted : List Nat
  taken : List Nat
  appended : List Nat

/-- A step. A thread waits for tasks only that were accepted. `wakeUp` is a return of `cnd_wait` for
no reason, and `res` of the worker's step what `evr_glacier_append_blob` returns. -/
inductive RingEvent where
  | lockDone (task : Nat)
  | queue (task : Nat)
  | wait (task : Nat)
  | wakeUp
  | work (res : Res)

namespace PersisterRun

/-- `evr_persister_start`. -/
def start : PersisterRun :=
  ⟨fun _ => 0, 0, 0, .enter, fun _ => .idle, fun _ => false, fun _ => none, [], [], []⟩

/-- `cnd_signal` for `has_tasks`. -/
def signaled : PersisterPc → PersisterPc
  | .sleeping => .enter
  | pc => pc

/-- `evr_persister_queue_task` behind its lock of `done`. -/
def queueTask (s : PersisterRun) (task : Nat) : Res × PersisterRun :=
  let nextWriting := TaskRing.step s.writing
  if nextWriting = s.reading then
    (.temporaryOccupied, { s with
      done := Function.update s.done task false
      pc := Function.update s.pc task .idle
      worker := signaled s.worker })
  else
    (.ok, { s with
      tasks := Function.update s.tasks s.writing task
      writing := nextWriting
      pc := Function.update s.pc task .queued
      worker := signaled s.worker
      accepted := s.accepted ++ [task] })

/-- What the worker does next. -/
def work (s : PersisterRun) (res : Res) : PersisterRun :=
  match s.worker with
  | .enter =>
    if s.writing = s.reading then { s with worker := .sleeping }
    else
      { s with
        worker := .appending (s.tasks s.reading)
        reading := TaskRing.step s.reading
        taken := s.taken ++ [s.tasks s.reading] }
  | .sleeping => s
  | .appending task =>
    { s with
      worker := .finished task res
      result := Function.update s.result task (some res)
      appended := s.appended ++ [task] }
  | .finished task res =>
    { s with
      worker := if res = .ok then .notifying else .enter
      done := Function.update s.done task false }
  | .notifying => { s with worker := .enter }

def step (s : PersisterRun) : RingEvent → PersisterRun
  | .lockDone task =>
    if s.pc task = .idle ∧ s.done task = false then
      { s with
        pc := Function.update s.pc task .locked
        done := Function.update s.done task true }
    else s
  | .queue task => if s.pc task = .locked then (s.queueTask task).2 else s
  | .wait task =>
    if s.pc task = .queued ∧ s.done task = false then
      { s with
        pc := Function.update s.pc task .returned
        done := Function.update s.done task true }
    else s
  | .wakeUp => if s.worker = .sleeping then { s with worker := .enter } else s
  | .work res => s.work res

/-- The tasks in the ring. -/
def pending (s : PersisterRun) : List Nat :=
  window s.tasks (taskQueueLength + 1) s.reading s.writing

/-- The task that the worker has taken and not appended yet. -/
def inHand (s : PersisterRun) : List Nat :=
  match s.worker with
  | .appending task => [task]
  | _ => []

/-- What the ring promises. -/
structure Orderly (s : PersisterRun) : Prop where
  once : s.accepted.Nodup
  order : s.appended <+: s.taken ∧ s.taken <+: s.accepted
  accepts : ∀ task, s.pc task = .locked →
    (s.queueTask task).2.accepted =
      if (s.queueTask task).1 = .ok then s.accepted ++ [task] else s.accepted
  refuses : ∀ task, s.pc task = .locked →
    (s.queueTask task).1 =
      if s.accepted.length - s.taken.length = taskQueueLength then .temporaryOccupied
      else .ok
  returned : ∀ task, s.pc task = .returned → task ∈ s.appended ∧ (s.result task).isSome

end PersisterRun

namespace PersisterRunLemmas

open PersisterRun

variable {s : PersisterRun} {task : Nat} {worker : PersisterPc}

/-- The invariant of all steps. -/
structure Kept (s : PersisterRun) : Prop where
  writing_lt : s.writing < taskQueueLength + 1
  reading_lt : s.reading < taskQueueLength + 1
  ring : s.taken ++ s.pending = s.accepted
  hand : s.appended ++ s.inHand = s.taken
  once : s.accepted.Nodup
  accepted : ∀ task, task ∈ s.accepted ↔ s.pc task = .queued ∨ s.pc task = .returned
  locked : ∀ task, s.pc task = .locked → s.done task = true
  unlocked : ∀ task, s.pc task = .queued → s.done task = false → task ∈ s.appended
  result : ∀ task ∈ s.appended, (s.result task).isSome
  returned : ∀ task, s.pc task = .returned → task ∈ s.appended
  finished : ∀ task res, s.worker = .finished task res → task ∈ s.appended
  sleeping : s.worker = .sleeping → s.writing = s.reading

theorem kept_start : Kept start where
  writing_lt := by decide
  reading_lt := by decide
  ring := window_empty (by decide)
  hand := rfl
  once := List.nodup_nil
  accepted task := iff_of_false List.not_mem_nil (by rintro (h | h) <;> cases h)
  locked task h := by cases h
  unlocked task h := by cases h
  result task h := absurd h List.not_mem_nil
  returned task h := by cases h
  finished task res h := by cases h
  sleeping h := by cases h

/-- The thread of one task goes on, and its mutex changes with it. -/
theorem kept_thread (h : Kept s) {pc : TaskPc} {done : Bool}
    (haccepted : task ∈ s.accepted ↔ pc = .queued ∨ pc = .returned)
    (hlocked : pc = .locked → done = true)
    (hunlocked : pc = .queued → done = false → task ∈ s.appended)
    (hreturned : pc = .returned → task ∈ s.appended) :
    Kept { s with
      pc := Function.update s.pc task pc
      done := Function.update s.done task done } :=
  { h with
    accepted := fun t => by
      dsimp only
      rcases eq_or_ne t task with rfl | hne
      · rw [Function.update_self]
        exact haccepted
      · rw [Function.update_of_ne hne]
        exact h.accepted t
    locked := fun t => by
      dsimp only
      rcases eq_or_ne t task with rfl | hne
      · rw [Function.update_self, Function.update_self]
        exact hlocked
      · rw [Function.update_of_ne hne, Function.update_of_ne hne]
        exact h.locked t
    unlocked := fun t => by
      dsimp only
      rcases eq_or_ne t task with rfl | hne
      · rw [Function.update_self, Function.update_self]
        exact hunlocked
      · rw [Function.update_of_ne hne, Function.update_of_ne hne]
        exact h.unlocked t
    returned := fun t => by
      dsimp only
      rcases eq_or_ne t task with rfl | hne
      · rw [Function.update_self]
        exact hreturned
      · rw [Function.update_of_ne hne]
        exact h.returned t }

theorem kept_lockDone (h : Kept s) (task : Nat) : Kept (s.step (.lockDone task)) := by
  unfold PersisterRun.step
  dsimp only
  split_ifs with hidle
  · refine kept_thread h ?_ (fun _ => rfl) (fun hpc => by cases hpc) fun hpc => by cases hpc
    rw [h.accepted, hidle.1]
    decide
  · exact h

theorem kept_wait (h : Kept s) (task : Nat) : Kept (s.step (.wait task)) := by
  unfold PersisterRun.step
  dsimp only
  split_ifs with hqueued
  · refine kept_thread h ?_ (fun _ => rfl) (fun hpc => by cases hpc)
      fun _ => h.unlocked task hqueued.1 hqueued.2
    rw [h.accepted, hqueued.1]
    decide
  · exact h

theorem inHand_signaled (hworker : worker = signaled s.worker) :
    PersisterRun.inHand { s with worker := worker } = s.inHand := by
  rw [hworker, PersisterRun.inHand, PersisterRun.inHand]
  cases s.worker <;> rfl

theorem signaled_ne_sleeping (pc : PersisterPc) : signaled pc ≠ .sleeping := by
  cases pc <;> exact PersisterPc.noConfusion

theorem signaled_finished {pc : PersisterPc} {res : Res} (h : signaled pc = .finished task res) :
    pc = .finished task res := by
  cases pc with
  | sleeping => cases h
  | _ => exact h

theorem kept_signaled (h : Kept s) : Kept { s with worker := signaled s.worker } :=
  { h with
    hand := (congrArg (s.appended ++ ·) (inHand_signaled rfl)).trans h.hand
    finished := fun t res hworker => h.finished t res (signaled_finished hworker)
    sleeping := fun hworker => absurd hworker (signaled_ne_sleeping _) }

/-- The ring is full if it holds as many tasks as it may. -/
theorem full_iff (h : Kept s) : TaskRing.step s.writing = s.reading ↔
    s.accepted.length - s.taken.length = taskQueueLength := by
  have hlen := congrArg List.length h.ring
  rw [List.length_append, PersisterRun.pending, length_window] at hlen
  rw [TaskRing.step_eq h.writing_lt, ringCount_full h.reading_lt h.writing_lt]
  omega

/-- A task whose thread is before the queue was not accepted. -/
theorem notMem_accepted (h : Kept s) (hlocked : s.pc task = .locked) : task ∉ s.accepted := by
  rw [h.accepted, hlocked]
  decide

/-- The ring has a place for the task. -/
theorem kept_accept (h : Kept s) (hlocked : s.pc task = .locked)
    (hroom : TaskRing.step s.writing ≠ s.reading) :
    Kept { s with
      tasks := Function.update s.tasks s.writing task
      writing := TaskRing.step s.writing
      pc := Function.update s.pc task .queued
      worker := signaled s.worker
      accepted := s.accepted ++ [task] } := by
  have hnew := notMem_accepted h hlocked
  have hdone := h.locked task hlocked
  rw [TaskRing.step_eq h.writing_lt] at hroom ⊢
  exact { kept_signaled h with
    writing_lt := Nat.mod_lt _ (Nat.succ_pos _)
    ring := by
      show s.taken ++ window _ _ _ _ = s.accepted ++ [task]
      rw [window_write h.reading_lt h.writing_lt hroom, ← List.append_assoc]
      exact congrArg (· ++ [task]) h.ring
    once := h.once.append (List.nodup_singleton task) (List.disjoint_singleton.mpr hnew)
    accepted := fun t => by
      dsimp only
      rcases eq_or_ne t task with rfl | hne
      · rw [Function.update_self]
        exact iff_of_true (List.mem_append_right _ (List.mem_singleton_self _)) (.inl rfl)
      · rw [Function.update_of_ne hne, List.mem_append, List.mem_singleton, or_iff_left hne]
        exact h.accepted t
    locked := fun t => by
      dsimp only
      rcases eq_or_ne t task with rfl | hne
      · exact fun _ => hdone
      · rw [Function.update_of_ne hne]
        exact h.locked t
    unlocked := fun t => by
      dsimp only
      rcases eq_or_ne t task with rfl | hne
      · intro _ hopen
        rw [hdone] at hopen
        cases hopen
      · rw [Function.update_of_ne hne]
        exact h.unlocked t
    returned := fun t => by
      dsimp only
      rcases eq_or_ne t task with rfl | hne
      · rw [Function.update_self]
        exact fun hpc => by cases hpc
      · rw [Function.update_of_ne hne]
        exact h.returned t
    sleeping := fun hworker => absurd hworker (signaled_ne_sleeping _) }

theorem kept_queue (h : Kept s) (task : Nat) : Kept (s.step (.queue task)) := by
  unfold PersisterRun.step
  dsimp only
  split_ifs with hlocked
  · unfold PersisterRun.queueTask
    dsimp only
    split_ifs with hfull
    · refine kept_signaled (kept_thread h ?_ (fun hpc => by cases hpc) (fun hpc => by cases hpc)
        fun hpc => by cases hpc)
      exact iff_of_false (notMem_accepted h hlocked) (by decide)
    · exact kept_accept h hlocked hfull
  · exact h

theorem kept_wakeUp (h : Kept s) : Kept (s.step .wakeUp) := by
  unfold PersisterRun.step
  dsimp only
  split_ifs with hsleeping
  · have hhand : PersisterRun.inHand { s with worker := .enter } = s.inHand := by
      rw [PersisterRun.inHand, PersisterRun.inHand, hsleeping]
    exact { h with
      hand := (congrArg (s.appended ++ ·) hhand).trans h.hand
      finished := fun _ _ hworker => by cases hworker
      sleeping := fun hworker => by cases hworker }
  · exact h

theorem kept_enter (h : Kept s) (hworker : s.worker = .enter) (res : Res) :
    Kept (s.work res) := by
  have hnone : s.appended = s.taken := by
    have hhand := h.hand
    rwa [PersisterRun.inHand, hworker, List.append_nil] at hhand
  unfold PersisterRun.work
  rw [hworker]
  dsimp only
  split_ifs with hempty
  · exact { h with
      hand := (List.append_nil _).trans hnone
      finished := fun _ _ hfinished => by cases hfinished
      sleeping := fun _ => hempty }
  · rw [TaskRing.step_eq h.reading_lt]
    have hread : s.pending = s.tasks s.reading :: window s.tasks (taskQueueLength + 1)
        ((s.reading + 1) % (taskQueueLength + 1)) s.writing :=
      window_read h.reading_lt h.writing_lt hempty
    exact { h with
      reading_lt := Nat.mod_lt _ (Nat.succ_pos _)
      ring := by
        refine Eq.trans ?_ h.ring
        rw [hread]
        exact List.append_assoc _ _ _
      hand := congrArg (· ++ [s.tasks s.reading]) hnone
      finished := fun _ _ hfinished => by cases hfinished
      sleeping := fun hsleeping => by cases hsleeping }

theorem kept_appending (h : Kept s) (hworker : s.worker = .appending task) (res : Res) :
    Kept (s.work res) := by
  have hmem : ∀ t, t ∈ s.appended → t ∈ s.appended ++ [task] :=
    fun t ht => List.mem_append_left _ ht
  unfold PersisterRun.work
  rw [hworker]
  dsimp only
  exact { h with
    hand := by
      have hhand := h.hand
      rw [PersisterRun.inHand, hworker] at hhand
      exact (List.append_nil _).trans hhand
    unlocked := fun t hq hdone => hmem t (h.unlocked t hq hdone)
    result := fun t ht => by
      have hresult := h.result t
      rw [List.mem_append, List.mem_singleton] at ht
      simp only [Function.update_apply]
      grind
    returned := fun t hr => hmem t (h.returned t hr)
    finished := fun t res' hfinished => by
      cases hfinished
      exact List.mem_append_right _ (List.mem_singleton_self _)
    sleeping := fun hsleeping => by cases hsleeping }

theorem kept_finished {res' : Res} (h : Kept s) (hworker : s.worker = .finished task res')
    (res : Res) : Kept (s.work res) := by
  have hhand := h.hand
  rw [PersisterRun.inHand, hworker] at hhand
  have happended := h.finished task res' hworker
  have haccepted : task ∈ s.accepted := by
    rw [← h.ring, ← hhand, List.append_nil]
    exact List.mem_append_left _ happended
  have hpc := (h.accepted task).mp haccepted
  unfold PersisterRun.work
  rw [hworker]
  dsimp only
  exact { h with
    hand := by
      split_ifs
      · exact hhand
      · exact hhand
    locked := fun t ht => by
      have hlocked := h.locked t ht
      simp only [Function.update_apply]
      grind
    unlocked := fun t hq hdone => by
      have hunlocked := h.unlocked t hq
      simp only [Function.update_apply] at hdone
      grind
    finished := fun t res' hfinished => by
      dsimp only at hfinished
      split_ifs at hfinished
    sleeping := fun hsleeping => by
      dsimp only at hsleeping
      split_ifs at hsleeping }

theorem kept_notifying (h : Kept s) (hworker : s.worker = .notifying) (res : Res) :
    Kept (s.work res) := by
  have hhand := h.hand
  rw [PersisterRun.inHand, hworker] at hhand
  unfold PersisterRun.work
  rw [hworker]
  exact { h with
    hand := hhand
    finished := fun _ _ hfinished => by cases hfinished
    sleeping := fun hsleeping => by cases hsleeping }

theorem kept_work (h : Kept s) (res : Res) : Kept (s.work res) := by
  cases hworker : s.worker with
  | enter => exact kept_enter h hworker res
  | sleeping =>
    unfold PersisterRun.work
    rw [hworker]
    exact h
  | appending task => exact kept_appending h hworker res
  | finished task res' => exact kept_finished h hworker res
  | notifying => exact kept_notifying h hworker res

theorem kept_step (h : Kept s) (e : RingEvent) : Kept (s.step e) := by
  cases e with
  | lockDone task => exact kept_lockDone h task
  | queue task => exact kept_queue h task
  | wait task => exact kept_wait h task
  | wakeUp => exact kept_wakeUp h
  | work res => exact kept_work h res

theorem orderly_of_kept (h : Kept s) : s.Orderly where
  once := h.once
  order := ⟨⟨_, h.hand⟩, ⟨_, h.ring⟩⟩
  accepts task _ := by
    unfold PersisterRun.queueTask
    dsimp only
    by_cases hfull : TaskRing.step s.writing = s.reading
    · rw [if_pos hfull]
      rfl
    · rw [if_neg hfull]
      rfl
  refuses task _ := by
    simp only [← full_iff h]
    unfold PersisterRun.queueTask
    dsimp only
    split_ifs
    · rfl
    · rfl
  returned task hreturned := ⟨h.returned task hreturned, h.result task (h.returned task hreturned)⟩

/-! ## Turns of the worker -/

/-- A task that was accepted and is still to be appended. -/
def Outstanding (task : Nat) (s : PersisterRun) : Prop :=
  Kept s ∧ task ∈ s.accepted ∧ task ∉ s.appended

/-- How far the worker is from its next append. -/
def phase : PersisterPc → Nat
  | .appending _ => 0
  | .enter => 1
  | .sleeping => 1
  | .notifying => 2
  | .finished _ _ => 3

/-- An upper bound of the turns of the worker until it appends the task. -/
def rank (task : Nat) (s : PersisterRun) : Nat :=
  4 * (s.accepted.idxOf task + 1 - s.appended.length) + phase s.worker

/-- A task that is outstanding is in the ring or in the hand of the worker. -/
theorem Outstanding.somewhere (h : Outstanding task s) : s.pending ≠ [] ∨ s.inHand ≠ [] := by
  obtain ⟨hkept, haccepted, happended⟩ := h
  rw [← hkept.ring, ← hkept.hand, List.append_assoc, List.mem_append] at haccepted
  have hrest := haccepted.resolve_left happended
  by_contra hnone
  rw [not_or, not_not, not_not] at hnone
  rw [hnone.1, hnone.2] at hrest
  cases hrest

theorem Outstanding.awake (h : Outstanding task s) : s.worker ≠ .sleeping := by
  intro hsleeping
  rcases h.somewhere with hsome | hsome
  · refine hsome ?_
    rw [PersisterRun.pending, h.1.sleeping hsleeping]
    exact window_empty h.1.reading_lt
  · rw [PersisterRun.inHand, hsleeping] at hsome
    exact hsome rfl

theorem Outstanding.position (h : Outstanding task s) :
    s.appended.length ≤ s.accepted.idxOf task := by
  obtain ⟨hkept, -, happended⟩ := h
  rw [← hkept.ring, ← hkept.hand, List.append_assoc, List.idxOf_append_of_notMem happended]
  exact Nat.le_add_right _ _

/-- A turn of the worker brings it nearer to the task. -/
theorem work_nearer (h : Outstanding task s) (res : Res) :
    task ∈ (s.work res).appended ∨
      Outstanding task (s.work res) ∧ rank task (s.work res) < rank task s := by
  have hkept := kept_work h.1 res
  have hreading := h.1.reading_lt
  have hposition := h.position
  have hsomewhere := h.somewhere
  have hawake := h.awake
  obtain ⟨-, haccepted, happended⟩ := h
  by_cases hnow : task ∈ (s.work res).appended
  · exact .inl hnow
  · refine .inr ⟨⟨hkept, ?_, hnow⟩, ?_⟩
    · unfold PersisterRun.work
      split
      · split_ifs
        · exact haccepted
        · exact haccepted
      all_goals exact haccepted
    · unfold rank
      unfold PersisterRun.inHand at hsomewhere
      unfold PersisterRun.work
      split
      · next hworker =>
        rw [hworker] at hsomewhere ⊢
        split_ifs with hempty
        · refine absurd ?_ (hsomewhere.resolve_right fun hne => hne rfl)
          rw [PersisterRun.pending, hempty]
          exact window_empty hreading
        · exact Nat.add_lt_add_left (show 0 < 1 by decide) _
      · next hworker => exact absurd hworker hawake
      · next t hworker =>
        rw [hworker]
        show 4 * (s.accepted.idxOf task + 1 - (s.appended ++ [t]).length) + 3 < 4 * _ + 0
        rw [List.length_append, List.length_singleton]
        omega
      · next t res' hworker =>
        rw [hworker]
        dsimp only
        split_ifs
        · exact Nat.add_lt_add_left (show 2 < 3 by decide) _
        · exact Nat.add_lt_add_left (show 1 < 3 by decide) _
      · next hworker =>
        rw [hworker]
        exact Nat.add_lt_add_left (show 1 < 2 by decide) _

/-- The steps of others do not. -/
theorem others_rank (h : Outstanding task s) {e : RingEvent} (he : ∀ res, e ≠ .work res) :
    Outstanding task (s.step e) ∧ rank task (s.step e) ≤ rank task s := by
  have hkept := kept_step h.1 e
  have hawake := h.awake
  obtain ⟨-, haccepted, happended⟩ := h
  have hsame : ∀ {s' : PersisterRun}, Kept s' → s'.accepted = s.accepted →
      s'.appended = s.appended → s'.worker = s.worker →
      Outstanding task s' ∧ rank task s' ≤ rank task s := by
    intro s' hkept' haccepted' happended' hworker'
    refine ⟨⟨hkept', haccepted' ▸ haccepted, happended' ▸ happended⟩, Nat.le_of_eq ?_⟩
    rw [rank, rank, haccepted', happended', hworker']
  have hsignaled : signaled s.worker = s.worker := by
    cases hworker : s.worker with
    | sleeping => exact absurd hworker hawake
    | _ => rfl
  cases e with
  | lockDone t =>
    unfold PersisterRun.step at hkept ⊢
    dsimp only at hkept ⊢
    split_ifs at hkept ⊢
    · exact hsame hkept rfl rfl rfl
    · exact hsame hkept rfl rfl rfl
  | wait t =>
    unfold PersisterRun.step at hkept ⊢
    dsimp only at hkept ⊢
    split_ifs at hkept ⊢
    · exact hsame hkept rfl rfl rfl
    · exact hsame hkept rfl rfl rfl
  | wakeUp =>
    unfold PersisterRun.step at hkept ⊢
    dsimp only at hkept ⊢
    rw [if_neg hawake] at hkept ⊢
    exact hsame hkept rfl rfl rfl
  | queue t =>
    unfold PersisterRun.step at hkept ⊢
    dsimp only at hkept ⊢
    split_ifs at hkept ⊢
    · unfold PersisterRun.queueTask at hkept ⊢
      dsimp only at hkept ⊢
      split_ifs at hkept ⊢
      · exact hsame hkept rfl rfl hsignaled
      · refine ⟨⟨hkept, List.mem_append_left _ haccepted, happended⟩, Nat.le_of_eq ?_⟩
        unfold rank
        dsimp only
        rw [List.idxOf_append_of_mem haccepted, hsignaled]
    · exact hsame hkept rfl rfl rfl
  | work res => exact absurd rfl (he res)

end PersisterRunLemmas

open PersisterRunLemmas

/-- In every run the tasks are taken and appended in the order in which they were accepted, once
each, a task is refused exactly if the ring holds as many as it may, and nobody is told to go on
without a result. What is accepted is appended as long as the worker gets its turns. -/
theorem persister_run_orderly :
    (∀ events, (exec PersisterRun.step PersisterRun.start events).Orderly) ∧
      ∀ run : Nat → RingEvent, (∀ n, ∃ m, n ≤ m ∧ ∃ res, run m = .work res) →
        ∀ n task, task ∈ (trace PersisterRun.step PersisterRun.start run n).accepted →
          ∃ m, n ≤ m ∧ task ∈ (trace PersisterRun.step PersisterRun.start run m).appended := by
  have hrun : ∀ events,
      PersisterRunLemmas.Kept (exec PersisterRun.step PersisterRun.start events) :=
    fun events => exec_invariant PersisterRunLemmas.Kept kept_start fun _ e hs => kept_step hs e
  refine ⟨fun events => orderly_of_kept (hrun events), fun run hfair n task haccepted => ?_⟩
  by_cases happended : task ∈ (trace PersisterRun.step PersisterRun.start run n).appended
  · exact ⟨n, Nat.le_refl n, happended⟩
  · have hkept : PersisterRunLemmas.Kept (trace PersisterRun.step PersisterRun.start run n) :=
      trace_invariant PersisterRunLemmas.Kept kept_start (fun _ e hs => kept_step hs e) n
    refine eventually_of_rank (fun m => ∃ res, run m = .work res)
      (fun m => Outstanding task (trace PersisterRun.step PersisterRun.start run m))
      (fun m => task ∈ (trace PersisterRun.step PersisterRun.start run m).appended)
      (fun m => rank task (trace PersisterRun.step PersisterRun.start run m)) hfair (fun m hm => ?_)
      (show Outstanding task _ from ⟨hkept, haccepted, happended⟩)
    by_cases hturn : ∃ res, run m = .work res
    · obtain ⟨res, hres⟩ := hturn
      have hnext : trace PersisterRun.step PersisterRun.start run (m + 1) =
          (trace PersisterRun.step PersisterRun.start run m).work res := by
        rw [trace, hres]
        rfl
      rw [hnext]
      exact (work_nearer hm res).imp_right fun h => ⟨h.1, Nat.le_of_lt h.2, fun _ => h.2⟩
    · obtain ⟨hout, hle⟩ := others_rank hm (e := run m) fun res hres => hturn ⟨res, hres⟩
      exact .inr ⟨hout, hle, fun h => absurd h hturn⟩

end Everarch
