import Everarch.Basic
import Everarch.Lib.Owners
import Everarch.Lib.Run

/-!
# The queues of watch commands

A watch command registers a queue with notify.c and is to unregister it when it ends. The storage
server and the attr index have a command of their own, `evr_work_watch_blobs` and
`evr_watch_index`, with about ten places each where it can end.

* `NotifyCtx`: the observer table.
* `watchBlobsStep`, `watchIndexStep`: the commands, one call after the other.
* `watchers_exact_iff`: the tables hold the queues of the commands that run, as long as no attr
  index command fails to send its status.
-/

namespace Everarch

/-! ## The observer table -/

/-- `struct evr_notify_ctx`. A queue is given by a number that is new with each
`evr_create_queue`. `unregistered` are the queues that were freed. -/
structure NotifyCtx where
  observers : List (Option Nat)
  nextQueue : Nat
  unregistered : List Nat

namespace NotifyCtx

/-- `evr_create_notify_ctx(32, …)`, as both servers call it. -/
def create : NotifyCtx :=
  ⟨List.replicate 32 none, 0, []⟩

/-- `evr_notify_register`: the first free slot. None where there is none. -/
def register (nt : NotifyCtx) : Option (Nat × NotifyCtx) :=
  let slot := nt.observers.findIdx (· == none)
  if slot < nt.observers.length then
    some (nt.nextQueue, { nt with
      observers := nt.observers.set slot (some nt.nextQueue)
      nextQueue := nt.nextQueue + 1 })
  else none

/-- `evr_notify_unregister`: the first slot with the queue. -/
def unregister (nt : NotifyCtx) (queue : Nat) : NotifyCtx :=
  let slot := nt.observers.findIdx (· == some queue)
  if slot < nt.observers.length then
    { nt with
      observers := nt.observers.set slot none
      unregistered := nt.unregistered ++ [queue] }
  else nt

end NotifyCtx

/-! ## The commands -/

/-- What a command meets in its next step: what the function it calls returns (`.end_` for a peer that
is to shut down), whether the filter it parses has the sort order of a live watch, and `running`. -/
structure WatchEvent where
  connection : Nat
  res : Res
  liveWatch : Bool
  running : Bool

/-- Where the loops are in which both commands send what their queue holds. -/
inductive WatchLoopPc where
  /-- `while(running)` and `received_shutdown`. -/
  | outer
  /-- The inner `while(running)` and `evr_queue_take`. -/
  | take
  /-- `write_n` of an entry. -/
  | write
  /-- `if(!running)` and `evr_peer_hang_up`. -/
  | hangUp
deriving DecidableEq

/-- The next step of the loops, none for `out_with_rm_watcher`. -/
def watchLoopStep (e : WatchEvent) : WatchLoopPc → Option WatchLoopPc
  | .outer => if e.running ∧ e.res ≠ .end_ then some .take else none
  | .take =>
    if !e.running then none
    else if e.res = .notFound then some .hangUp
    else if e.res ≠ .ok then none
    else some .write
  | .write => if e.res = .ok then some .take else none
  | .hangUp => if e.running ∧ e.res = .ok then some .outer else none

/-- Where `evr_work_watch_blobs` is. `queue` is its `mod_blobs`. -/
inductive WatchBlobsPc where
  | bodySize
  | readFilter
  | parseFilter
  | writeHeader (liveWatch : Bool)
  | addWatcher
  | ensureRctx (queue : Option Nat)
  | listBlobs (queue : Option Nat)
  | flushList (queue : Option Nat)
  | loop (queue : Nat) (pc : WatchLoopPc)
  | rmWatcher (queue : Option Nat)
deriving DecidableEq

def WatchBlobsPc.queue : WatchBlobsPc → Option Nat
  | .ensureRctx queue | .listBlobs queue | .flushList queue | .rmWatcher queue => queue
  | .loop queue _ => some queue
  | _ => none

/-- `evr_work_watch_blobs`. The command has ended where there is no next step. -/
def watchBlobsStep (nt : NotifyCtx) (e : WatchEvent) :
    WatchBlobsPc → NotifyCtx × Option WatchBlobsPc
  | .bodySize => (nt, if e.res = .ok then some .readFilter else none)
  | .readFilter => (nt, if e.res = .ok then some .parseFilter else none)
  | .parseFilter => (nt, if e.res = .ok then some (.writeHeader e.liveWatch) else none)
  | .writeHeader liveWatch =>
    (nt, if e.res ≠ .ok then none
      else if liveWatch then some .addWatcher
      else some (.ensureRctx none))
  | .addWatcher =>
    -- without memory for a queue there is none, as if the table were full
    match (if e.res = .ok then nt.register else none) with
    | some (queue, nt) => (nt, some (.ensureRctx (some queue)))
    | none => (nt, none)
  | .ensureRctx queue =>
    (nt, some (if e.res = .ok then .listBlobs queue else .rmWatcher queue))
  | .listBlobs queue =>
    (nt, some (if e.res = .ok then .flushList queue else .rmWatcher queue))
  | .flushList queue =>
    (nt, some (if e.res ≠ .ok then .rmWatcher queue
      else match queue with
        | some queue => .loop queue .outer
        | none => .rmWatcher none))
  | .loop queue pc =>
    (nt, some (match watchLoopStep e pc with
      | some pc => .loop queue pc
      | none => .rmWatcher (some queue)))
  | .rmWatcher queue =>
    (match queue with
      | some queue => nt.unregister queue
      | none => nt, none)

/-- Where `evr_watch_index` is. `queue` is its `msgs`. -/
inductive WatchIndexPc where
  | register
  | respondStatus (queue : Nat)
  | loop (queue : Nat) (pc : WatchLoopPc)
  | rmWatcher (queue : Nat)
deriving DecidableEq

def WatchIndexPc.queue : WatchIndexPc → Option Nat
  | .register => none
  | .respondStatus queue | .loop queue _ | .rmWatcher queue => some queue

/-- `evr_watch_index`. -/
def watchIndexStep (nt : NotifyCtx) (e : WatchEvent) :
    WatchIndexPc → NotifyCtx × Option WatchIndexPc
  | .register =>
    match (if e.res = .ok then nt.register else none) with
    | some (queue, nt) => (nt, some (.respondStatus queue))
    | none => (nt, none)
  -- a return, and not a goto to out_with_rm_watcher
  | .respondStatus queue => (nt, if e.res = .ok then some (.loop queue .outer) else none)
  | .loop queue pc =>
    (nt, some (match watchLoopStep e pc with
      | some pc => .loop queue pc
      | none => .rmWatcher queue))
  | .rmWatcher queue => (nt.unregister queue, none)

/-! ## Servers -/

/-- The observer table of a server and the watch commands of its connections, none where a
connection runs no watch command. -/
structure WatchServer (Pc : Type) where
  notify : NotifyCtx
  command : Nat → Option Pc

/-- A step of a connection. Without a watch command it starts one. -/
def WatchServer.step {Pc : Type} (first : Pc)
    (next : NotifyCtx → WatchEvent → Pc → NotifyCtx × Option Pc) (s : WatchServer Pc)
    (e : WatchEvent) : WatchServer Pc :=
  match s.command e.connection with
  | none => { s with command := Function.update s.command e.connection (some first) }
  | some pc =>
    let (notify, command) := next s.notify e pc
    ⟨notify, Function.update s.command e.connection command⟩

/-- The storage server and the attr index. -/
structure WatchServers where
  storage : WatchServer WatchBlobsPc
  attrIndex : WatchServer WatchIndexPc

/-- A step of a connection of one of them. -/
inductive WatchServersEvent where
  | storage (e : WatchEvent)
  | attrIndex (e : WatchEvent)

namespace WatchServers

def start : WatchServers :=
  ⟨⟨.create, fun _ => none⟩, ⟨.create, fun _ => none⟩⟩

def step (s : WatchServers) : WatchServersEvent → WatchServers
  | .storage e => { s with storage := s.storage.step .bodySize watchBlobsStep e }
  | .attrIndex e => { s with attrIndex := s.attrIndex.step .register watchIndexStep e }

end WatchServers

/-- The queue of the watch command of a connection. -/
def WatchServer.queue {Pc : Type} (queue : Pc → Option Nat) (s : WatchServer Pc) (i : Nat) :
    Option Nat :=
  (s.command i).bind queue

/-- The observer table holds exactly the queues of the commands that run, one slot and one command
for each, and every other queue that was registered was unregistered once. -/
structure WatchServer.Exact {Pc : Type} (queue : Pc → Option Nat) (s : WatchServer Pc) : Prop where
  table : ∀ q, some q ∈ s.notify.observers ↔ ∃ i, s.queue queue i = some q
  owner : ∀ i j q, s.queue queue i = some q → s.queue queue j = some q → i = j
  slots : ∀ q, s.notify.observers.count (some q) ≤ 1
  once : ∀ q < s.notify.nextQueue,
    s.notify.unregistered.count q = if some q ∈ s.notify.observers then 0 else 1

namespace WatchServers

def Exact (s : WatchServers) : Prop :=
  s.storage.Exact WatchBlobsPc.queue ∧ s.attrIndex.Exact WatchIndexPc.queue

/-- The step is not one in which an attr index command fails to send its status. -/
def SendsStatus (s : WatchServers) : WatchServersEvent → Prop
  | .storage _ => True
  | .attrIndex e => ∀ queue, s.attrIndex.command e.connection = some (.respondStatus queue) →
      e.res = .ok

end WatchServers

namespace WatchSlotsLemmas

/-! ## One table -/

section Table

variable {nt nt' : NotifyCtx} {own : Nat → Option Nat} {queue : Nat}

/-- A queue in the table has one owner, and every queue is in the table or was unregistered. -/
structure Tabled (nt : NotifyCtx) (own : Nat → Option Nat) : Prop where
  owned : Owned own fun q => decide (some q ∈ nt.observers)
  counted : ∀ q, nt.unregistered.count q + nt.observers.count (some q) =
    if q < nt.nextQueue then 1 else 0

/-- What a step of a command can do to the table and to its queue. -/
inductive QueueEffect (nt nt' : NotifyCtx) (before after : Option Nat) : Prop
  | same (hnt : nt' = nt) (hafter : after = before)
  | registered (queue : Nat) (hnt : nt.register = some (queue, nt')) (hbefore : before = none)
      (hafter : after = some queue)
  | unregistered (queue : Nat) (hnt : nt' = nt.unregister queue) (hbefore : before = some queue)
      (hafter : after = none)

theorem register_spec (h : nt.register = some (queue, nt')) :
    queue = nt.nextQueue ∧ nt'.nextQueue = nt.nextQueue + 1 ∧
      nt'.unregistered = nt.unregistered ∧
      ∀ q, nt'.observers.count (some q) =
        nt.observers.count (some q) + if q = nt.nextQueue then 1 else 0 := by
  unfold NotifyCtx.register at h
  dsimp only at h
  split_ifs at h with hlt
  cases h
  refine ⟨rfl, rfl, rfl, fun q => ?_⟩
  have hfree : nt.observers[nt.observers.findIdx (· == none)] = none :=
    eq_of_beq (List.findIdx_getElem (w := hlt))
  rw [List.count_set hlt, hfree]
  by_cases hq : q = nt.nextQueue
  · simp [hq]
  · simp [hq, Ne.symm hq]

theorem unregister_spec (h : some queue ∈ nt.observers) :
    (nt.unregister queue).nextQueue = nt.nextQueue ∧
      (nt.unregister queue).unregistered = nt.unregistered ++ [queue] ∧
      ∀ q, (nt.unregister queue).observers.count (some q) =
        nt.observers.count (some q) - if q = queue then 1 else 0 := by
  have hlt : nt.observers.findIdx (· == some queue) < nt.observers.length :=
    List.findIdx_lt_length_of_exists ⟨some queue, h, beq_self_eq_true _⟩
  unfold NotifyCtx.unregister
  rw [if_pos hlt]
  refine ⟨rfl, rfl, fun q => ?_⟩
  have hslot : nt.observers[nt.observers.findIdx (· == some queue)] = some queue :=
    eq_of_beq (List.findIdx_getElem (w := hlt))
  rw [List.count_set hlt, hslot]
  by_cases hq : q = queue
  · simp [hq]
  · simp [hq, Ne.symm hq]

theorem mem_iff_count (nt : NotifyCtx) (q : Nat) :
    decide (some q ∈ nt.observers) = decide (0 < nt.observers.count (some q)) :=
  decide_eq_decide.mpr List.count_pos_iff.symm

theorem tabled_create : Tabled .create fun _ => none where
  owned := by
    refine ⟨fun _ _ _ h => absurd h (Option.some_ne_none _).symm, fun q => ?_⟩
    rw [decide_eq_true_iff]
    refine iff_of_false (fun hmem => ?_) (by rintro ⟨_, h⟩; cases h)
    cases List.eq_of_mem_replicate hmem
  counted q := by
    show 0 + (List.replicate 32 none).count (some q) = 0
    rw [List.count_replicate]
    simp

/-- The effect of a step of the command of connection `i`. -/
theorem tabled_effect {i : Nat} {after : Option Nat} (h : Tabled nt own)
    (heffect : QueueEffect nt nt' (own i) after) :
    Tabled nt' (Function.update own i after) := by
  obtain ⟨howned, hcounted⟩ := h
  cases heffect with
  | same hnt hafter =>
    rw [hnt, hafter, Function.update_eq_self]
    exact ⟨howned, hcounted⟩
  | registered queue hnt hbefore hafter =>
    obtain ⟨hqueue, hnext, hun, hcount⟩ := register_spec hnt
    have hnew : nt.observers.count (some queue) = 0 := by
      have hq := hcounted queue
      rw [hqueue, if_neg (Nat.lt_irrefl _)] at hq
      rw [hqueue]
      omega
    have hunused : decide (some queue ∈ nt.observers) = false := by
      rw [mem_iff_count, hnew]
      rfl
    have hused : (fun q => decide (some q ∈ nt'.observers)) =
        Function.update (fun q => decide (some q ∈ nt.observers)) queue true := by
      funext q
      rw [Function.update_apply, mem_iff_count, mem_iff_count, hcount, hqueue]
      split_ifs
      · exact decide_eq_true (Nat.succ_pos _)
      · rfl
    refine ⟨?_, fun q => ?_⟩
    · rw [hafter, hused]
      exact howned.take hbefore hunused
    · have hq := hcounted q
      rw [hun, hcount, hnext]
      split_ifs at hq ⊢ <;> omega
  | unregistered queue hnt hbefore hafter =>
    have hmem : some queue ∈ nt.observers :=
      of_decide_eq_true ((howned.used_iff queue).mpr ⟨i, hbefore⟩)
    obtain ⟨hnext, hun, hcount⟩ := unregister_spec hmem
    rw [← hnt] at hnext hun hcount
    have hone : nt.observers.count (some queue) = 1 := by
      have hq := hcounted queue
      have hpos := List.count_pos_iff.mpr hmem
      split_ifs at hq <;> omega
    have hused : (fun q => decide (some q ∈ nt'.observers)) =
        Function.update (fun q => decide (some q ∈ nt.observers)) queue false := by
      funext q
      rw [Function.update_apply, mem_iff_count, mem_iff_count, hcount]
      split_ifs with heq
      · rw [heq, hone]
        rfl
      · rfl
    refine ⟨?_, fun q => ?_⟩
    · rw [hafter, hused]
      exact howned.giveUp hbefore
    · have hq := hcounted q
      rw [hun, hcount, hnext, List.count_append, List.count_singleton]
      by_cases heq : q = queue
      · rw [heq] at hq ⊢
        rw [if_pos rfl, beq_self_eq_true, if_pos rfl]
        omega
      · rw [if_neg heq, if_neg (fun hbeq => heq (eq_of_beq hbeq).symm)]
        exact hq

end Table

/-! ## The commands -/

section Commands

variable {nt : NotifyCtx} {e : WatchEvent}

/-- The queue behind a step, none where the command has ended. -/
def queueAfter {Pc : Type} (queue : Pc → Option Nat) (r : NotifyCtx × Option Pc) : Option Nat :=
  r.2.bind queue

theorem blobs_effect (nt : NotifyCtx) (e : WatchEvent) (pc : WatchBlobsPc) :
    QueueEffect nt (watchBlobsStep nt e pc).1 pc.queue
      (queueAfter WatchBlobsPc.queue (watchBlobsStep nt e pc)) := by
  cases pc with
  | bodySize | readFilter | parseFilter =>
    refine .same rfl ?_
    unfold watchBlobsStep queueAfter
    dsimp only
    split_ifs
    · rfl
    · rfl
  | writeHeader liveWatch =>
    refine .same rfl ?_
    unfold watchBlobsStep queueAfter
    dsimp only
    split_ifs
    · rfl
    · rfl
    · rfl
  | addWatcher =>
    unfold watchBlobsStep
    dsimp only
    split
    · next queue nt' hreg =>
      split_ifs at hreg
      exact .registered queue hreg rfl rfl
    · exact .same rfl rfl
  | ensureRctx queue | listBlobs queue =>
    refine .same rfl ?_
    unfold watchBlobsStep queueAfter
    dsimp only
    split_ifs
    · rfl
    · rfl
  | flushList queue =>
    refine .same rfl ?_
    unfold watchBlobsStep queueAfter
    dsimp only
    split_ifs
    · rfl
    · cases queue with
      | none => rfl
      | some queue => rfl
  | loop queue pc =>
    refine .same rfl ?_
    unfold watchBlobsStep queueAfter
    dsimp only
    cases watchLoopStep e pc with
    | none => rfl
    | some pc => rfl
  | rmWatcher queue =>
    cases queue with
    | none => exact .same rfl rfl
    | some queue => exact .unregistered queue rfl rfl rfl

theorem index_effect (nt : NotifyCtx) (e : WatchEvent) (pc : WatchIndexPc)
    (hstatus : ∀ queue, pc = .respondStatus queue → e.res = .ok) :
    QueueEffect nt (watchIndexStep nt e pc).1 pc.queue
      (queueAfter WatchIndexPc.queue (watchIndexStep nt e pc)) := by
  cases pc with
  | register =>
    unfold watchIndexStep
    dsimp only
    split
    · next queue nt' hreg =>
      split_ifs at hreg
      exact .registered queue hreg rfl rfl
    · exact .same rfl rfl
  | respondStatus queue =>
    refine .same rfl ?_
    unfold watchIndexStep queueAfter
    dsimp only
    rw [if_pos (hstatus queue rfl)]
    rfl
  | loop queue pc =>
    refine .same rfl ?_
    unfold watchIndexStep queueAfter
    dsimp only
    cases watchLoopStep e pc with
    | none => rfl
    | some pc => rfl
  | rmWatcher queue => exact .unregistered queue rfl rfl rfl

end Commands

/-! ## The servers -/

section Servers

variable {Pc : Type} {queue : Pc → Option Nat} {first : Pc}
  {next : NotifyCtx → WatchEvent → Pc → NotifyCtx × Option Pc} {s : WatchServer Pc}
  {e : WatchEvent}

theorem exact_of_tabled (h : Tabled s.notify (s.queue queue)) : s.Exact queue := by
  obtain ⟨⟨hunique, hused⟩, hcounted⟩ := h
  refine ⟨fun q => ?_, hunique, fun q => ?_, fun q hq => ?_⟩
  · rw [← hused, decide_eq_true_iff]
  · have hcount := hcounted q
    split_ifs at hcount <;> omega
  · have hcount := hcounted q
    rw [if_pos hq] at hcount
    split_ifs with hmem
    · have hpos := List.count_pos_iff.mpr hmem
      omega
    · rw [List.count_eq_zero.mpr hmem] at hcount
      exact hcount

theorem queue_update (s : WatchServer Pc) (notify : NotifyCtx) (i : Nat) (command : Option Pc) :
    WatchServer.queue queue ⟨notify, Function.update s.command i command⟩ =
      Function.update (s.queue queue) i (command.bind queue) := by
  funext j
  show (Function.update s.command i command j).bind queue = _
  rw [Function.update_apply, Function.update_apply]
  split_ifs
  · rfl
  · rfl

theorem tabled_step (hfirst : queue first = none) (h : Tabled s.notify (s.queue queue))
    (heffect : ∀ pc, s.command e.connection = some pc → QueueEffect s.notify
      (next s.notify e pc).1 (queue pc) (queueAfter queue (next s.notify e pc))) :
    Tabled (s.step first next e).notify ((s.step first next e).queue queue) := by
  unfold WatchServer.step
  split
  · next hidle =>
    have hnone : s.queue queue e.connection = none := by
      rw [WatchServer.queue, hidle]
      rfl
    rw [queue_update]
    exact tabled_effect h (.same rfl (hfirst.trans hnone.symm))
  · next pc hpc =>
    have hqueue : s.queue queue e.connection = queue pc := by
      rw [WatchServer.queue, hpc]
      rfl
    have hstep := heffect pc hpc
    rw [← hqueue] at hstep
    dsimp only
    rw [queue_update]
    exact tabled_effect h hstep

end Servers

/-- Both tables are in order. -/
def BothTabled (s : WatchServers) : Prop :=
  Tabled s.storage.notify (s.storage.queue WatchBlobsPc.queue) ∧
    Tabled s.attrIndex.notify (s.attrIndex.queue WatchIndexPc.queue)

theorem bothTabled_start : BothTabled .start :=
  ⟨tabled_create, tabled_create⟩

theorem exact_of_bothTabled {s : WatchServers} (h : BothTabled s) : s.Exact :=
  ⟨exact_of_tabled h.1, exact_of_tabled h.2⟩

theorem bothTabled_step {s : WatchServers} (h : BothTabled s) {e : WatchServersEvent}
    (hstatus : s.SendsStatus e) : BothTabled (s.step e) := by
  cases e with
  | storage e =>
    exact ⟨tabled_step rfl h.1 fun pc _ => blobs_effect s.storage.notify e pc, h.2⟩
  | attrIndex e =>
    refine ⟨h.1, tabled_step rfl h.2 fun pc hpc => ?_⟩
    exact index_effect s.attrIndex.notify e pc fun queue hq => hstatus queue (hq ▸ hpc)

/-- A command that cannot send its status leaves its queue behind. -/
theorem not_exact_of_unsent {s : WatchServers} (h : BothTabled s) {e : WatchEvent} {queue : Nat}
    (hcommand : s.attrIndex.command e.connection = some (.respondStatus queue))
    (hres : e.res ≠ .ok) : ¬ (s.step (.attrIndex e)).Exact := by
  rintro ⟨-, htable, -⟩
  have hqueue : s.attrIndex.queue WatchIndexPc.queue e.connection = some queue := by
    rw [WatchServer.queue, hcommand]
    rfl
  have hnext : s.attrIndex.step .register watchIndexStep e =
      ⟨s.attrIndex.notify, Function.update s.attrIndex.command e.connection none⟩ := by
    rw [WatchServer.step, hcommand]
    dsimp only
    rw [watchIndexStep, if_neg hres]
  have hmem : some queue ∈ s.attrIndex.notify.observers :=
    of_decide_eq_true ((h.2.owned.used_iff queue).mpr ⟨_, hqueue⟩)
  obtain ⟨j, hj⟩ := (htable queue).mp (by
    show some queue ∈ (s.attrIndex.step .register watchIndexStep e).notify.observers
    rw [hnext]
    exact hmem)
  change (s.attrIndex.step .register watchIndexStep e).queue _ j = _ at hj
  rw [hnext, queue_update, Function.update_apply] at hj
  split_ifs at hj with hji
  · cases hj
  · exact hji (h.2.owned.unique j e.connection queue hj hqueue)

end WatchSlotsLemmas

open WatchSlotsLemmas

/-- In a run the observer tables are always exact if and only if no command of the attr index fails
to send its status. -/
theorem watchers_exact_iff (events : List WatchServersEvent) :
    (∀ before, before <+: events → (exec WatchServers.step .start before).Exact) ↔
      Along WatchServers.step WatchServers.SendsStatus .start events := by
  refine goal_iff_along BothTabled WatchServers.Exact bothTabled_start
    (fun _ h => exact_of_bothTabled h) (fun s e h => ⟨fun hexact => ?_, fun hstatus => ?_⟩)
    fun _ _ h hstatus => bothTabled_step h hstatus
  · cases e with
    | storage e => trivial
    | attrIndex e =>
      intro queue hcommand
      by_contra hres
      exact not_exact_of_unsent h hcommand hres hexact
  · exact exact_of_bothTabled (bothTabled_step h hstatus)

/-- A watch command of the attr index whose peer is gone before it gets the status. -/
def unsentStatus : List WatchServersEvent :=
  [.attrIndex ⟨0, .ok, true, true⟩, .attrIndex ⟨0, .ok, true, true⟩,
    .attrIndex ⟨0, .error, true, true⟩]

theorem watchers_leaked :
    (exec WatchServers.step .start unsentStatus).attrIndex.command 0 = none ∧
      some 0 ∈ (exec WatchServers.step .start unsentStatus).attrIndex.notify.observers ∧
      ¬ (exec WatchServers.step .start unsentStatus).Exact := by
  have hstarted : BothTabled
      (WatchServers.start.step (.attrIndex ⟨0, .ok, true, true⟩)) := by
    refine bothTabled_step bothTabled_start ?_
    exact fun _ _ => rfl
  have hregistered : BothTabled
      ((WatchServers.start.step (.attrIndex ⟨0, .ok, true, true⟩)).step
        (.attrIndex ⟨0, .ok, true, true⟩)) := by
    refine bothTabled_step hstarted ?_
    exact fun _ _ => rfl
  exact ⟨rfl, List.mem_cons_self, not_exact_of_unsent hregistered rfl Res.noConfusion⟩

end Everarch
