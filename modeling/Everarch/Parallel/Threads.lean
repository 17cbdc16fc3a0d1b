import Everarch.Lib.Run
import Everarch.Parallel.CommandLine

/-!
# The threads of evr-parallel

evr-parallel.c: the main thread starts one thread for each command, every thread runs its command
and counts itself out, and the main thread waits until all have done so. A thread whose command
fails ends the process. Signals to the commands are left to them: a command may end at any time.

* `ParallelLemmas.next_hop`: what an event does.
* `ParallelLemmas.kept`: the counter, the condition variable and how commands ended.

Results: `parallel_exit_zero`, `parallel_stuck_iff`; `parallel_exit_zero_two`, a run of two
commands.
-/

namespace Everarch

/-! ## The process -/

/-- Where `evr_run_cmd` is. -/
inductive CmdPc where
  /-- Before the test of `stopping`. -/
  | created
  | spawn
  /-- The command runs, `evr_subprocess_pipe_output` and `waitpid` go with it. -/
  | running
  /-- The command ended well and has to be counted out with the lock. -/
  | lock
  | broadcast
  /-- The command failed. -/
  | failed
  | exit
  /-- Returned after the broadcast. -/
  | returned
  /-- Returned because of `stopping`. -/
  | skipped
deriving DecidableEq, Repr

/-- A thread with the status of its command once that has ended or stopped. -/
structure CmdThread where
  pc : CmdPc
  status : Option Nat
deriving DecidableEq, Repr

/-- Where `main` is. It has the lock but for `wait`, which is in `cnd_wait`. -/
inductive ParallelMain where
  | starting
  | checking
  | wait
  | exited (code : Nat)
deriving DecidableEq, Repr

/-- The variables of the process, its threads in the order of their commands, and whether it
received a signal. -/
structure Parallel where
  main : ParallelMain
  threads : List CmdThread
  stopping : Bool
  runningCounter : Nat
  signalled : Bool
deriving DecidableEq, Repr

inductive ParallelEvent where
  | main
  | thread (i : Nat)
  | cmdEnds (i status : Nat)
  /-- `evr_handle_delegate_signal`. -/
  | signal
  /-- `evr_panic` in any thread. -/
  | panic
deriving DecidableEq, Repr

namespace Parallel

def initial : Parallel :=
  ⟨.starting, [], false, 0, false⟩

def setThread (st : Parallel) (i : Nat) (t : CmdThread) : Parallel :=
  { st with threads := st.threads.set i t }

/-- One step of `evr_start_cmds` for `n` commands, or of the loop in `main`. -/
def nextMain (n : Nat) (st : Parallel) : Parallel :=
  match st.main with
  | .starting =>
    if st.threads.length = n ∨ st.stopping then { st with main := .checking }
    else
      { st with
        runningCounter := st.runningCounter + 1
        threads := st.threads ++ [⟨.created, none⟩] }
  | .checking =>
    if st.runningCounter = 0 then { st with main := .exited 0 } else { st with main := .wait }
  | .wait | .exited _ => st

/-- One step of `evr_run_cmd`. -/
def nextThread (st : Parallel) (i : Nat) (t : CmdThread) : Parallel :=
  match t.pc with
  | .created => st.setThread i { t with pc := if st.stopping then .skipped else .spawn }
  | .spawn => st.setThread i { t with pc := .running }
  | .running =>
    match t.status with
    | none => st
    | some status => st.setThread i { t with pc := if status = 0 then .lock else .failed }
  | .lock =>
    if st.main = .wait then
      { st.setThread i { t with pc := .broadcast } with runningCounter := st.runningCounter - 1 }
    else st
  | .broadcast =>
    { st.setThread i { t with pc := .returned } with
      main := if st.main = .wait then .checking else st.main }
  | .failed => { st.setThread i { t with pc := .exit } with stopping := true }
  | .exit => { st with main := .exited 1 }
  | .returned | .skipped => st

/-- A process that has ended does nothing any more. -/
def next (n : Nat) (st : Parallel) (e : ParallelEvent) : Parallel :=
  match st.main with
  | .exited _ => st
  | _ =>
    match e with
    | .main => st.nextMain n
    | .thread i =>
      match st.threads[i]? with
      | none => st
      | some t => st.nextThread i t
    | .cmdEnds i status =>
      match st.threads[i]? with
      | none => st
      | some t =>
        if t.pc = .running ∧ t.status = none then st.setThread i { t with status := some status }
        else st
    | .signal => { st with stopping := true, signalled := true }
    | .panic => { st with main := .exited 1 }

end Parallel

/-- The process goes on only by a signal or a panic. -/
def Parallel.Stuck (n : Nat) (st : Parallel) : Prop :=
  ∀ e, e ≠ .signal → e ≠ .panic → st.next n e = st

namespace ParallelLemmas

open Parallel

variable {n i : Nat} {st st' : Parallel} {e : ParallelEvent} {t t' : CmdThread}

/-! ## What an event does -/

/-- A step of a thread that changes nothing else. -/
inductive ThreadHop (stopping : Bool) : CmdThread → CmdThread → Prop
  | skip {status : Option Nat} (h : stopping = true) :
    ThreadHop stopping ⟨.created, status⟩ ⟨.skipped, status⟩
  | go {status : Option Nat} (h : stopping = false) :
    ThreadHop stopping ⟨.created, status⟩ ⟨.spawn, status⟩
  | spawned {status : Option Nat} : ThreadHop stopping ⟨.spawn, status⟩ ⟨.running, status⟩
  | ended (status : Nat) : ThreadHop stopping ⟨.running, none⟩ ⟨.running, some status⟩
  | well : ThreadHop stopping ⟨.running, some 0⟩ ⟨.lock, some 0⟩
  | badly {status : Nat} (h : status ≠ 0) :
    ThreadHop stopping ⟨.running, some status⟩ ⟨.failed, some status⟩

inductive Hop (n : Nat) (st : Parallel) : Parallel → Prop
  | start (hmain : st.main = .starting) (hlen : st.threads.length ≠ n) (hstop : st.stopping = false) :
    Hop n st { st with
      runningCounter := st.runningCounter + 1
      threads := st.threads ++ [⟨.created, none⟩] }
  | started (hmain : st.main = .starting) (h : st.threads.length = n ∨ st.stopping = true) :
    Hop n st { st with main := .checking }
  | finish (hmain : st.main = .checking) (hcounter : st.runningCounter = 0) :
    Hop n st { st with main := .exited 0 }
  | sleep (hmain : st.main = .checking) (hcounter : st.runningCounter ≠ 0) :
    Hop n st { st with main := .wait }
  | thread {i : Nat} {t t' : CmdThread} (ht : st.threads[i]? = some t)
    (hop : ThreadHop st.stopping t t') : Hop n st (st.setThread i t')
  | count {i : Nat} {status : Option Nat} (ht : st.threads[i]? = some ⟨.lock, status⟩)
    (hmain : st.main = .wait) :
    Hop n st { st.setThread i ⟨.broadcast, status⟩ with runningCounter := st.runningCounter - 1 }
  | wake {i : Nat} {status : Option Nat} (ht : st.threads[i]? = some ⟨.broadcast, status⟩) :
    Hop n st { st.setThread i ⟨.returned, status⟩ with
      main := if st.main = .wait then .checking else st.main }
  | fail {i : Nat} {status : Option Nat} (ht : st.threads[i]? = some ⟨.failed, status⟩) :
    Hop n st { st.setThread i ⟨.exit, status⟩ with stopping := true }
  | exit : Hop n st { st with main := .exited 1 }
  | signal : Hop n st { st with stopping := true, signalled := true }

theorem nextThread_hop (n : Nat) (ht : st.threads[i]? = some t) :
    st.nextThread i t = st ∨ Hop n st (st.nextThread i t) := by
  obtain ⟨pc, status⟩ := t
  unfold nextThread
  cases pc with
  | created =>
    dsimp only
    cases hstop : st.stopping with
    | true => exact .inr (.thread ht (.skip hstop))
    | false => exact .inr (.thread ht (.go hstop))
  | spawn => exact .inr (.thread ht .spawned)
  | running =>
    cases status with
    | none => exact .inl rfl
    | some status =>
      dsimp only
      split
      · rename_i hzero
        subst hzero
        exact .inr (.thread ht .well)
      · rename_i hbad
        exact .inr (.thread ht (.badly hbad))
  | lock =>
    dsimp only
    split
    · rename_i hmain
      exact .inr (.count ht hmain)
    · exact .inl rfl
  | broadcast => exact .inr (.wake ht)
  | failed => exact .inr (.fail ht)
  | exit => exact .inr .exit
  | returned => exact .inl rfl
  | skipped => exact .inl rfl

theorem nextMain_hop (n : Nat) (st : Parallel) : st.nextMain n = st ∨ Hop n st (st.nextMain n) := by
  unfold nextMain
  split
  · rename_i hmain
    split
    · rename_i h
      exact .inr (.started hmain h)
    · rename_i h
      obtain ⟨hlen, hstop⟩ := not_or.mp h
      exact .inr (.start hmain hlen (Bool.eq_false_iff.mpr hstop))
  · rename_i hmain
    split
    · rename_i hcounter
      exact .inr (.finish hmain hcounter)
    · rename_i hcounter
      exact .inr (.sleep hmain hcounter)
  · exact .inl rfl
  · exact .inl rfl

theorem next_hop (n : Nat) (st : Parallel) (e : ParallelEvent) :
    st.next n e = st ∨ (∀ code, st.main ≠ .exited code) ∧ Hop n st (st.next n e) := by
  unfold next
  split
  · exact .inl rfl
  · rename_i hmain
    have halive : ∀ {st' : Parallel}, st' = st ∨ Hop n st st' →
        st' = st ∨ (∀ code, st.main ≠ .exited code) ∧ Hop n st st' :=
      fun h => h.imp_right fun hop => ⟨hmain, hop⟩
    cases e with
    | main => exact halive (nextMain_hop n st)
    | thread i =>
      dsimp only
      cases ht : st.threads[i]? with
      | none => exact .inl rfl
      | some t => exact halive (nextThread_hop n ht)
    | cmdEnds i status =>
      dsimp only
      cases ht : st.threads[i]? with
      | none => exact .inl rfl
      | some t =>
        obtain ⟨pc, old⟩ := t
        dsimp only
        split
        · rename_i h
          obtain ⟨rfl, rfl⟩ := h
          exact halive (.inr (.thread ht (.ended status)))
        · exact .inl rfl
    | signal => exact halive (.inr .signal)
    | panic => exact halive (.inr .exit)

/-! ## Threads -/

/-- A step of a thread, whatever else it changes. -/
inductive ThreadMove (stopping : Bool) : CmdThread → CmdThread → Prop
  | hop {t t' : CmdThread} (h : ThreadHop stopping t t') : ThreadMove stopping t t'
  | count {status : Option Nat} : ThreadMove stopping ⟨.lock, status⟩ ⟨.broadcast, status⟩
  | wake {status : Option Nat} : ThreadMove stopping ⟨.broadcast, status⟩ ⟨.returned, status⟩
  | fail {status : Option Nat} : ThreadMove stopping ⟨.failed, status⟩ ⟨.exit, status⟩

theorem hop_threads (h : Hop n st st') : st'.threads = st.threads ∨
    st'.threads = st.threads ++ [⟨.created, none⟩] ∨
    ∃ i t t', st.threads[i]? = some t ∧ ThreadMove st.stopping t t' ∧
      st'.threads = st.threads.set i t' := by
  cases h with
  | start _ _ _ => exact .inr (.inl rfl)
  | started _ _ | finish _ _ | sleep _ _ | exit | signal => exact .inl rfl
  | thread ht hop => exact .inr (.inr ⟨_, _, _, ht, .hop hop, rfl⟩)
  | count ht _ => exact .inr (.inr ⟨_, _, _, ht, .count, rfl⟩)
  | wake ht => exact .inr (.inr ⟨_, _, _, ht, .wake, rfl⟩)
  | fail ht => exact .inr (.inr ⟨_, _, _, ht, .fail, rfl⟩)

theorem hop_stopping (h : Hop n st st') (hstop : st.stopping = true) : st'.stopping = true := by
  cases h <;> first | exact hstop | rfl

/-- A property of threads that holds of new ones and is kept by their steps. -/
theorem hop_forall {P : CmdThread → Prop} (h : Hop n st st') (hnew : P ⟨.created, none⟩)
    (hmove : ∀ {t t'}, ThreadMove st.stopping t t' → P t → P t') (hall : ∀ t ∈ st.threads, P t) :
    ∀ t ∈ st'.threads, P t := by
  rcases hop_threads h with heq | heq | ⟨i, t, t', ht, hstep, heq⟩
  · rwa [heq]
  · rw [heq]
    intro t ht
    rcases List.mem_append.mp ht with ht | ht
    · exact hall t ht
    · rwa [List.mem_singleton.mp ht]
  · rw [heq]
    intro t₁ ht₁
    rcases List.mem_or_eq_of_mem_set ht₁ with ht₁ | rfl
    · exact hall t₁ ht₁
    · exact hmove hstep (hall t (List.mem_of_getElem? ht))

/-- A thread other than the one that is changed stays. -/
theorem exists_set {P : CmdThread → Prop} {threads : List CmdThread} (ht : threads[i]? = some t)
    (hnot : ¬P t) (hsome : ∃ t₀ ∈ threads, P t₀) (t' : CmdThread) :
    ∃ t₀ ∈ threads.set i t', P t₀ := by
  obtain ⟨t₀, ht₀, hP⟩ := hsome
  obtain ⟨j, hj⟩ := List.getElem?_of_mem ht₀
  have hij : i ≠ j := by
    rintro rfl
    exact hnot (Option.some.inj (ht.symm.trans hj) ▸ hP)
  exact ⟨t₀, List.mem_of_getElem? ((List.getElem?_set_ne hij).trans hj), hP⟩

/-- A thread that takes no step stays. -/
theorem hop_exists {P : CmdThread → Prop} (h : Hop n st st')
    (hstay : ∀ {t t'}, ThreadMove st.stopping t t' → ¬P t) (hsome : ∃ t ∈ st.threads, P t) :
    ∃ t ∈ st'.threads, P t := by
  rcases hop_threads h with heq | heq | ⟨i, t, t', ht, hmove, heq⟩
  · rwa [heq]
  · obtain ⟨t, ht, hP⟩ := hsome
    exact ⟨t, heq ▸ List.mem_append_left _ ht, hP⟩
  · rw [heq]
    exact exists_set ht (hstay hmove) hsome t'

/-- A thread that has not counted itself out. -/
def owes (t : CmdThread) : Bool :=
  t.pc != .broadcast && t.pc != .returned

theorem owing_set (ht : st.threads[i]? = some t) (t' : CmdThread) :
    (st.threads.set i t').countP owes + (if owes t then 1 else 0) =
      st.threads.countP owes + if owes t' then 1 else 0 := by
  obtain ⟨hi, hget⟩ := List.getElem?_eq_some_iff.mp ht
  rw [List.countP_set hi, hget]
  have hpos : owes t = true → 0 < st.threads.countP owes := fun h =>
    List.countP_pos_iff.mpr ⟨t, List.mem_of_getElem? ht, h⟩
  cases howes : owes t with
  | true =>
    have hpos' := hpos howes
    simp only [if_true]
    omega
  | false => simp

theorem owes_hop {stopping : Bool} (h : ThreadHop stopping t t') : owes t = true ∧ owes t' = true := by
  cases h <;> exact ⟨rfl, rfl⟩

/-! ## What is kept -/

structure Kept (n : Nat) (st : Parallel) : Prop where
  counter : st.runningCounter = st.threads.countP owes
  started : st.main = .checking ∨ st.main = .wait ∨ st.main = .exited 0 →
    st.threads.length = n ∨ st.stopping = true
  stopped : st.stopping = true → st.signalled = true ∨ ∃ t ∈ st.threads, t.pc = .exit
  skipped : ∀ t ∈ st.threads, t.pc = .skipped → st.stopping = true
  woken : st.main = .wait → st.runningCounter ≠ 0 ∨ ∃ t ∈ st.threads, t.pc = .broadcast
  exited : st.main = .exited 0 → st.runningCounter = 0
  well : ∀ t ∈ st.threads, t.pc = .lock ∨ t.pc = .broadcast ∨ t.pc = .returned → t.status = some 0

theorem counter_hop (h : st.runningCounter = st.threads.countP owes) (hop : Hop n st st') :
    st'.runningCounter = st'.threads.countP owes := by
  cases hop with
  | start _ _ _ =>
    rw [List.countP_append, h]
    rfl
  | started _ _ | finish _ _ | sleep _ _ | exit | signal => exact h
  | @thread i t t' ht hop =>
    have hset := owing_set ht t'
    rw [(owes_hop hop).1, (owes_hop hop).2] at hset
    exact h.trans (Nat.add_right_cancel hset).symm
  | @count i status ht _ =>
    have hset := owing_set ht ⟨.broadcast, status⟩
    simp only [owes] at hset
    dsimp only [setThread]
    rw [h]
    exact Nat.sub_eq_of_eq_add hset.symm
  | @wake i status ht =>
    have hset := owing_set ht ⟨.returned, status⟩
    exact h.trans hset.symm
  | @fail i status ht =>
    have hset := owing_set ht ⟨.exit, status⟩
    exact h.trans (Nat.add_right_cancel hset).symm

theorem kept_hop (h : Kept n st) (hmain : ∀ code, st.main ≠ .exited code) (hop : Hop n st st') :
    Kept n st' where
  counter := counter_hop h.counter hop
  started hnow := by
    have hset : ∀ {i : Nat} {t' : CmdThread}, st.threads.length = n ∨ st.stopping = true →
        (st.threads.set i t').length = n ∨ st.stopping = true :=
      fun h => h.imp_left (List.length_set ..).trans
    cases hop with
    | start hmain' _ _ =>
      dsimp only at hnow
      rw [hmain'] at hnow
      rcases hnow with hnow | hnow | hnow <;> cases hnow
    | started _ hdone => exact hdone
    | finish hmain' _ => exact h.started (.inl hmain')
    | sleep hmain' _ => exact h.started (.inl hmain')
    | thread _ _ => exact hset (h.started hnow)
    | count _ _ => exact hset (h.started hnow)
    | wake _ =>
      refine hset (h.started ?_)
      dsimp only at hnow
      split at hnow
      · rename_i hwait
        exact .inr (.inl hwait)
      · exact hnow
    | fail _ => exact .inr rfl
    | exit => rcases hnow with hnow | hnow | hnow <;> cases hnow
    | signal => exact .inr rfl
  stopped hnow := by
    have hkeep : st.stopping = true → st.signalled = true ∨ ∃ t ∈ st'.threads, t.pc = .exit :=
      fun hstop => (h.stopped hstop).imp_right (hop_exists hop fun hmove hexit => by
        cases hmove with
        | hop hhop => cases hhop <;> cases hexit
        | _ => cases hexit)
    cases hop with
    | @fail i status ht =>
      obtain ⟨hi, -⟩ := List.getElem?_eq_some_iff.mp ht
      exact .inr ⟨⟨.exit, status⟩, List.mem_set hi _, rfl⟩
    | signal => exact .inl rfl
    | _ => exact hkeep hnow
  skipped := by
    refine hop_forall hop nofun (fun hmove _ hpc => ?_) fun t ht hpc =>
      hop_stopping hop (h.skipped t ht hpc)
    cases hmove with
    | hop hhop =>
      cases hhop with
      | skip hstop => exact hop_stopping hop hstop
      | _ => cases hpc
    | _ => cases hpc
  woken hnow := by
    cases hop with
    | start hmain' _ _ => cases hmain'.symm.trans hnow
    | started _ _ => cases hnow
    | finish _ _ => cases hnow
    | sleep _ hcounter => exact .inl hcounter
    | @thread i t t' ht hhop =>
      refine (h.woken hnow).imp_right fun hsome => exists_set ht ?_ hsome t'
      intro hpc
      cases hhop <;> cases hpc
    | @count i status ht _ =>
      obtain ⟨hi, -⟩ := List.getElem?_eq_some_iff.mp ht
      exact .inr ⟨⟨.broadcast, status⟩, List.mem_set hi _, rfl⟩
    | wake _ =>
      dsimp only at hnow
      split at hnow
      · cases hnow
      · rename_i hwait
        exact absurd hnow hwait
    | @fail i status ht => exact (h.woken hnow).imp_right fun hsome => exists_set ht nofun hsome _
    | exit => cases hnow
    | signal => exact h.woken hnow
  exited hnow := by
    cases hop with
    | finish _ hcounter => exact hcounter
    | wake _ =>
      dsimp only at hnow
      split at hnow
      · cases hnow
      · exact absurd hnow (hmain 0)
    | exit => cases hnow
    | started _ _ | sleep _ _ => cases hnow
    | _ => exact absurd hnow (hmain 0)
  well := by
    refine hop_forall hop (by rintro (hpc | hpc | hpc) <;> cases hpc) (fun hmove hold hpc => ?_) h.well
    cases hmove with
    | hop hhop =>
      cases hhop with
      | well => rfl
      | _ => rcases hpc with hpc | hpc | hpc <;> cases hpc
    | count => exact hold (.inl rfl)
    | wake => exact hold (.inr (.inl rfl))
    | fail => rcases hpc with hpc | hpc | hpc <;> cases hpc

theorem kept_next (h : Kept n st) (e : ParallelEvent) : Kept n (st.next n e) := by
  rcases next_hop n st e with heq | ⟨hmain, hop⟩
  · rwa [heq]
  · exact kept_hop h hmain hop

theorem kept (n : Nat) (es : List ParallelEvent) : Kept n (exec (Parallel.next n) .initial es) := by
  refine exec_invariant (Kept n) ?_ fun st e h => kept_next h e
  exact ⟨rfl, (by rintro (h | h | h) <;> cases h), nofun, nofun, nofun, nofun, nofun⟩

/-- A thread that returned without counting itself out. -/
def Skipped (st : Parallel) : Prop :=
  ∃ t ∈ st.threads, t.pc = .skipped

theorem skipped_next (h : Skipped st) (e : ParallelEvent) : Skipped (st.next n e) := by
  rcases next_hop n st e with heq | ⟨-, hop⟩
  · rwa [heq]
  · refine hop_exists hop (fun hmove hpc => ?_) h
    cases hmove with
    | hop hhop => cases hhop <;> cases hpc
    | _ => cases hpc

/-- With such a thread the counter does not come to zero. -/
theorem skipped_counter (h : Kept n st) (hskip : Skipped st) : st.runningCounter ≠ 0 := by
  obtain ⟨t, ht, hpc⟩ := hskip
  have howes : owes t = true := by simp [owes, hpc]
  have hpos : 0 < st.threads.countP owes := List.countP_pos_iff.mpr ⟨t, ht, howes⟩
  rw [h.counter]
  exact hpos.ne'

/-! ## Getting stuck -/

theorem setThread_ne (ht : st.threads[i]? = some t) (hne : t' ≠ t) : st.setThread i t' ≠ st := by
  intro heq
  obtain ⟨hi, hget⟩ := List.getElem?_eq_some_iff.mp ht
  have hthreads := congrArg (fun st => st.threads[i]?) heq
  dsimp only [setThread] at hthreads
  rw [List.getElem?_set_self hi, ht] at hthreads
  exact hne (Option.some.inj hthreads)

/-- What a process that has not ended does in an event that is not a signal or a panic. -/
theorem next_thread (hmain : ∀ code, st.main ≠ .exited code) (ht : st.threads[i]? = some t) :
    st.next n (.thread i) = st.nextThread i t := by
  unfold next
  split
  · rename_i code hcode
    exact absurd hcode (hmain code)
  · simp only [ht]

/-- A thread can go on where it has not returned, as soon as the main thread waits. -/
theorem thread_goes_on (hwait : st.main = .wait) (ht : st.threads[i]? = some t)
    (hstuck : st.Stuck n) : t.pc = .skipped ∨ t.pc = .returned := by
  have hmain : ∀ code, st.main ≠ .exited code := fun code h => by
    rw [hwait] at h
    cases h
  have hnext := hstuck (.thread i) nofun nofun
  rw [next_thread hmain ht] at hnext
  obtain ⟨pc, status⟩ := t
  have hne : ∀ {pc'}, pc' ≠ pc → st.setThread i ⟨pc', status⟩ ≠ st := fun hpc =>
    setThread_ne ht fun heq => hpc (congrArg CmdThread.pc heq)
  cases pc with
  | created =>
    refine absurd hnext (hne ?_)
    split <;> exact nofun
  | spawn => exact absurd hnext (hne nofun)
  | running =>
    cases status with
    | none =>
      have hends := hstuck (.cmdEnds i 0) nofun nofun
      have hset : st.next n (.cmdEnds i 0) = st.setThread i ⟨.running, some 0⟩ := by
        unfold next
        simp [hwait, ht]
      rw [hset] at hends
      exact absurd hends (setThread_ne ht nofun)
    | some status =>
      refine absurd hnext (hne ?_)
      split <;> exact nofun
  | lock =>
    have hthreads := congrArg (fun st => st.threads) hnext
    simp only [nextThread, if_pos hwait] at hthreads
    have heq : st.setThread i ⟨.broadcast, status⟩ = st := by
      rw [setThread]
      dsimp only [setThread] at hthreads
      rw [hthreads]
    exact absurd heq (hne nofun)
  | broadcast =>
    have hnow := congrArg Parallel.main hnext
    simp [nextThread, hwait] at hnow
  | failed =>
    have hthreads := congrArg (fun st => st.threads) hnext
    have heq : st.setThread i ⟨.exit, status⟩ = st := by
      dsimp only [nextThread, setThread] at hthreads ⊢
      rw [hthreads]
    exact absurd heq (hne nofun)
  | exit =>
    have hnow := congrArg Parallel.main hnext
    simp [nextThread, hwait] at hnow
  | returned => exact .inr rfl
  | skipped => exact .inl rfl

/-- The main thread of a process that is stuck waits. -/
theorem stuck_waits (hmain : ∀ code, st.main ≠ .exited code) (hstuck : st.Stuck n) :
    st.main = .wait := by
  have hnext := hstuck .main nofun nofun
  have hnow : st.nextMain n = st := by
    unfold next at hnext
    split at hnext
    · rename_i code hcode
      exact absurd hcode (hmain code)
    · exact hnext
  unfold nextMain at hnow
  cases hst : st.main with
  | starting =>
    simp only [hst] at hnow
    split at hnow
    · have hchecking := congrArg Parallel.main hnow
      cases hchecking.trans hst
    · have hlen := congrArg (fun st => st.threads.length) hnow
      simp at hlen
  | checking =>
    simp only [hst] at hnow
    split at hnow
    · have hexited := congrArg Parallel.main hnow
      cases hexited.trans hst
    · have hwait := congrArg Parallel.main hnow
      cases hwait.trans hst
  | wait => rfl
  | exited code => exact absurd hst (hmain code)

theorem stuck_of_returned (hwait : st.main = .wait)
    (h : ∀ t ∈ st.threads, t.pc = .skipped ∨ t.pc = .returned) : st.Stuck n := by
  intro e hsignal hpanic
  unfold next
  cases e with
  | main => simp [hwait, nextMain]
  | thread i =>
    simp only [hwait]
    cases ht : st.threads[i]? with
    | none => rfl
    | some t =>
      rcases h t (List.mem_of_getElem? ht) with hpc | hpc <;> simp [nextThread, hpc]
  | cmdEnds i status =>
    simp only [hwait]
    cases ht : st.threads[i]? with
    | none => rfl
    | some t =>
      rcases h t (List.mem_of_getElem? ht) with hpc | hpc <;> simp [hpc]
  | signal => exact absurd rfl hsignal
  | panic => exact absurd rfl hpanic

end ParallelLemmas

open ParallelLemmas in
/-- `evr_split_cmds` reads the commands of a command line as they were written. However their
threads run: when the process exits with 0 every thread has run its command, which exited with 0 and
was not left out, and without a signal these are all commands. -/
theorem parallel_exit_zero (cmdsLen : Nat) (cmds : List Cmd) (h : ∀ cmd ∈ cmds, cmd.Writable)
    (hne : cmds ≠ []) (hlen : cmds.length ≤ cmdsLen) :
    splitCmds cmdsLen [] .empty (commandLine cmds) = some cmds ∧
    ∀ es, (exec (Parallel.next (startedCmds cmds).length) .initial es).main = .exited 0 →
      (∀ t ∈ (exec (Parallel.next (startedCmds cmds).length) .initial es).threads,
        t.status = some 0 ∧ t.pc ≠ .skipped) ∧
      ((exec (Parallel.next (startedCmds cmds).length) .initial es).signalled = false →
        (exec (Parallel.next (startedCmds cmds).length) .initial es).threads.length =
          cmds.length) := by
  refine ⟨splitCmds_commandLine h hne (by simpa using hlen), fun es hexit => ?_⟩
  rw [startedCmds_writable h] at hexit ⊢
  have hkept := kept cmds.length es
  generalize exec (Parallel.next cmds.length) .initial es = st at hkept hexit ⊢
  have hzero := hkept.exited hexit
  have hcounted : ∀ t ∈ st.threads, owes t ≠ true :=
    List.countP_eq_zero.mp (hkept.counter.symm.trans hzero)
  have hpc : ∀ t ∈ st.threads, t.pc = .broadcast ∨ t.pc = .returned := by
    intro t ht
    have howes := hcounted t ht
    unfold owes at howes
    cases hpc : t.pc <;> simp [hpc] at howes ⊢
  refine ⟨fun t ht => ⟨hkept.well t ht (.inr (hpc t ht)), fun hskip => ?_⟩, fun hsignal => ?_⟩
  · rcases hpc t ht with hpc | hpc <;> cases hskip.symm.trans hpc
  · refine (hkept.started (.inr (.inr hexit))).resolve_right fun hstop => ?_
    rcases hkept.stopped hstop with hsignalled | ⟨t, ht, hexit⟩
    · cases hsignal.symm.trans hsignalled
    · rcases hpc t ht with hpc | hpc <;> cases hexit.symm.trans hpc

/-- Two commands that run side by side. -/
def twoWell : List ParallelEvent :=
  [.main, .thread 0, .main, .main, .thread 0, .main, .thread 1, .cmdEnds 0 0, .thread 1, .cmdEnds 1 0,
    .thread 1, .thread 0, .thread 0, .thread 0, .main, .thread 1, .thread 1, .main, .main]

/-- The second command has a user. -/
theorem parallel_exit_zero_two :
    splitCmds 16 [] .empty [[97], [59], userOption, [117], [98]] =
        some [⟨none, [[97]]⟩, ⟨some [117], [[98]]⟩] ∧
      (exec (Parallel.next 2) .initial twoWell).main = .exited 0 ∧
      (exec (Parallel.next 2) .initial twoWell).threads.length = 2 := by
  have hwritable : ∀ cmd ∈ [Cmd.mk none [[97]], Cmd.mk (some [117]) [[98]]], cmd.Writable := by
    intro cmd hcmd
    rcases List.mem_cons.mp hcmd with rfl | hcmd
    · exact ⟨by decide, [97], [], rfl, by decide⟩
    · rw [List.mem_singleton.mp hcmd]
      exact ⟨by decide, [98], [], rfl, by decide⟩
  have hexit : (exec (Parallel.next 2) .initial twoWell).main = .exited 0 := by decide
  obtain ⟨hread, hrun⟩ := parallel_exit_zero 16 _ hwritable (by simp) (by decide)
  exact ⟨hread, hexit, (hrun twoWell hexit).2 (by decide)⟩

open ParallelLemmas in
/-- A process that has not ended can only be stuck in one way: it received a signal, a thread
returned because of it without counting itself out, all others have counted themselves out, and the
main thread waits for a counter that does not come to zero any more. -/
theorem parallel_stuck_iff (n : Nat) (es : List ParallelEvent) :
    ((exec (Parallel.next n) .initial es).Stuck n ↔
      (∃ code, (exec (Parallel.next n) .initial es).main = .exited code) ∨
      (exec (Parallel.next n) .initial es).main = .wait ∧
        (exec (Parallel.next n) .initial es).signalled = true ∧
        (∃ t ∈ (exec (Parallel.next n) .initial es).threads, t.pc = .skipped) ∧
        ∀ t ∈ (exec (Parallel.next n) .initial es).threads, t.pc = .skipped ∨ t.pc = .returned) ∧
    ((∃ t ∈ (exec (Parallel.next n) .initial es).threads, t.pc = .skipped) →
      ∀ es', (exec (Parallel.next n) .initial (es ++ es')).main ≠ .exited 0) := by
  refine ⟨?_, fun hskip es' hexit => ?_⟩
  · have hkept := kept n es
    generalize exec (Parallel.next n) .initial es = st at hkept ⊢
    constructor
    · intro hstuck
      by_cases hexited : ∃ code, st.main = .exited code
      · exact .inl hexited
      · have hwait := stuck_waits (fun code h => hexited ⟨code, h⟩) hstuck
        have hreturned : ∀ t ∈ st.threads, t.pc = .skipped ∨ t.pc = .returned := by
          intro t ht
          obtain ⟨i, hi⟩ := List.getElem?_of_mem ht
          exact thread_goes_on hwait hi hstuck
        have hskip : ∃ t ∈ st.threads, t.pc = .skipped := by
          rcases hkept.woken hwait with hcounter | ⟨t, ht, hpc⟩
          · rw [hkept.counter, ← Nat.pos_iff_ne_zero, List.countP_pos_iff] at hcounter
            obtain ⟨t, ht, howes⟩ := hcounter
            refine ⟨t, ht, (hreturned t ht).resolve_right fun hpc => ?_⟩
            simp [owes, hpc] at howes
          · rcases hreturned t ht with h | h <;> cases hpc.symm.trans h
        obtain ⟨t, ht, hpc⟩ := hskip
        have hsignalled : st.signalled = true := by
          refine (hkept.stopped (hkept.skipped t ht hpc)).resolve_right ?_
          rintro ⟨t', ht', hexit⟩
          rcases hreturned t' ht' with h | h <;> cases hexit.symm.trans h
        exact .inr ⟨hwait, hsignalled, ⟨t, ht, hpc⟩, hreturned⟩
    · rintro (⟨code, hexited⟩ | ⟨hwait, -, -, hreturned⟩)
      · intro e _ _
        unfold Parallel.next
        simp only [hexited]
      · exact stuck_of_returned hwait hreturned
  · have hkept := kept n (es ++ es')
    have hstays : Skipped (exec (Parallel.next n) .initial (es ++ es')) := by
      rw [exec_append]
      exact exec_invariant Skipped hskip fun st e h => skipped_next h e
    exact skipped_counter hkept hstays (hkept.exited hexit)

/-- A signal before the thread of the second command has tested for it. -/
def signalledEarly : List ParallelEvent :=
  [.main, .main, .thread 0, .signal, .thread 1, .main, .main, .thread 0, .cmdEnds 0 0, .thread 0,
    .thread 0, .thread 0, .main]

example : (exec (Parallel.next 2) .initial signalledEarly).main = .wait ∧
    (exec (Parallel.next 2) .initial signalledEarly).threads.map (·.pc) = [.returned, .skipped] := by
  decide

end Everarch
