import Everarch.Glacier.Check
import Everarch.Glacier.Append
import Everarch.Server.Connection

/-!
# The storage server

evr-glacier-storage.c and concurrent-glacier.c: any number of connection workers and the
persister, whose steps interleave in any order. A run is given by the list of its events.
An event that is not possible in a state leaves it as it is.

* `Server.turn`: a worker's next step that is not a read of its socket.
* `Server.persist`: the persister's next step, one call of `evr_glacier_append_blob` at
  a time.
* `Server.step`: the server.
* `Server.turned`: what a worker can do in its turn.
-/

namespace Everarch

/-! ## Tasks -/

/-- `evr_persister_task_queue_length`. -/
def taskQueueLength : Nat := 32

/-- `struct evr_persister_task` with the connection that waits for it. -/
structure Task where
  owner : Nat
  blob : WritingBlob

instance : Inhabited WritingBlob :=
  ⟨⟨default, 0, 0, .avoid, [], chunks_full_nil, Nat.zero_le _⟩⟩

instance : Inhabited Task :=
  ⟨⟨0, default⟩⟩

/-- `tasks`, `writing` and `reading` of `struct evr_persister_ctx`. -/
structure TaskRing where
  tasks : Nat → Task
  writing : Nat
  reading : Nat
  writing_lt : writing < taskQueueLength + 1
  reading_lt : reading < taskQueueLength + 1

namespace TaskRing

/-- `evr_persister_ctx_step`. -/
def step (p : Nat) : Nat :=
  if p + 1 = taskQueueLength + 1 then 0 else p + 1

theorem step_eq {p : Nat} (h : p < taskQueueLength + 1) :
    step p = (p + 1) % (taskQueueLength + 1) := by
  unfold step
  split
  · next heq => rw [heq, Nat.mod_self]
  · next hne => exact (Nat.mod_eq_of_lt (Nat.lt_of_le_of_ne h hne)).symm

theorem step_lt {p : Nat} (h : p < taskQueueLength + 1) : step p < taskQueueLength + 1 := by
  rw [step_eq h]
  exact Nat.mod_lt _ (Nat.succ_pos _)

def empty : TaskRing where
  tasks := fun _ => default
  writing := 0
  reading := 0
  writing_lt := Nat.succ_pos _
  reading_lt := Nat.succ_pos _

/-- `evr_persister_queue_task`, none for `evr_temporary_occupied`. -/
def queueTask (r : TaskRing) (task : Task) : Option TaskRing :=
  if step r.writing = r.reading then none
  else some { r with
    tasks := Function.update r.tasks r.writing task
    writing := step r.writing
    writing_lt := step_lt r.writing_lt }

/-- The next task of `evr_persister_worker`. -/
def takeTask (r : TaskRing) : Option (Task × TaskRing) :=
  if r.writing = r.reading then none
  else some (r.tasks r.reading,
    { r with reading := step r.reading, reading_lt := step_lt r.reading_lt })

/-- The tasks in the order in which they are taken. -/
def queued (r : TaskRing) : List Task :=
  window r.tasks (taskQueueLength + 1) r.reading r.writing

theorem queued_empty : empty.queued = [] :=
  window_empty empty.reading_lt

theorem queued_queueTask {r r' : TaskRing} {task : Task} (h : r.queueTask task = some r') :
    r'.queued = r.queued ++ [task] := by
  unfold queueTask at h
  split at h
  · cases h
  · next hroom =>
    cases h
    rw [step_eq r.writing_lt] at hroom
    unfold queued
    simp only [step_eq r.writing_lt]
    exact window_write r.reading_lt r.writing_lt hroom task

theorem queued_takeTask {r r' : TaskRing} {task : Task} (h : r.takeTask = some (task, r')) :
    r.queued = task :: r'.queued := by
  unfold takeTask at h
  split at h
  · cases h
  · next hsome =>
    cases h
    unfold queued
    simp only [step_eq r.reading_lt]
    exact window_read r.reading_lt r.writing_lt hsome

end TaskRing

/-! ## The server -/

/-- Where `evr_persister_worker` is. -/
inductive Persister where
  | idle
  | appending (task : Task) (lastModified : UInt64) (ops : List Op)
  | finished (task : Task) (lastModified : UInt64) (res : Res)
  | notifying (blob : ModifiedBlob)

/-- The hash and the size of the buckets, and the orders in which SQLite returns rows. -/
structure StorageEnv where
  hash : Bytes → BlobRef
  maxBucketSize : Nat
  byLastModified : List BlobPosition → List BlobPosition
  byLastModified_perm : ∀ rows, (byLastModified rows).Perm rows
  byLastModified_sorted : ∀ rows,
    (byLastModified rows).Pairwise fun r r' => r.lastModified ≤ r'.lastModified
  byKey : List BlobPosition → List BlobPosition
  byKey_perm : ∀ rows, (byKey rows).Perm rows
  byKey_sorted : ∀ rows, (byKey rows).Pairwise fun r r' => r.key.toList ≤ r'.key.toList

/-- Rows with the same time or key in the order in which they came about. -/
def StorageEnv.inOrder (hash : Bytes → BlobRef) (maxBucketSize : Nat) : StorageEnv where
  hash := hash
  maxBucketSize := maxBucketSize
  byLastModified := List.insertionSort fun r r' => r.lastModified ≤ r'.lastModified
  byLastModified_perm := List.perm_insertionSort _
  byLastModified_sorted rows := by
    have : Std.Total fun r r' : BlobPosition => r.lastModified ≤ r'.lastModified :=
      ⟨fun r r' => Int.le_total r.lastModified r'.lastModified⟩
    have : IsTrans BlobPosition fun r r' => r.lastModified ≤ r'.lastModified :=
      ⟨fun _ _ _ h h' => Int.le_trans h h'⟩
    exact List.pairwise_insertionSort _ rows
  byKey := List.insertionSort fun r r' => r.key.toList ≤ r'.key.toList
  byKey_perm := List.perm_insertionSort _
  byKey_sorted rows := by
    have : Std.Total fun r r' : BlobPosition => r.key.toList ≤ r'.key.toList :=
      ⟨fun r r' => List.le_total r.key.toList r'.key.toList⟩
    have : IsTrans BlobPosition fun r r' => r.key.toList ≤ r'.key.toList :=
      ⟨fun _ _ _ h h' => List.le_trans h h'⟩
    exact List.pairwise_insertionSort _ rows

/-- The process: the persister with its glacier, tasks and watchers, and the connections.
`halted` is set by `evr_panic`. `notified` has the blobs that were passed to
`evr_notify_send`; it is no part of the process. -/
structure Server where
  glacier : Glacier
  tasks : TaskRing
  persister : Persister
  watchers : Observers
  connection : Nat → Connection
  running : Bool
  working : Bool
  halted : Bool
  notified : List ModifiedBlob

/-- The server when it starts on an empty bucket directory. -/
def Server.start : Server where
  glacier := emptyGlacier
  tasks := .empty
  persister := .idle
  watchers := createNotifyCtx
  connection := fun _ => .accepted
  running := true
  working := true
  halted := false
  notified := []

/-! ## Listing -/

/-- `evr_cmd_watch_sort_order_*`. -/
def sortOrderLastModified : UInt8 := 0x01
def sortOrderRef : UInt8 := 0x02

/-- `evr_watch_flag_eob`. -/
def watchFlagEob : Int := 0x01

/-- `evr_handle_blob_list`. -/
def handleBlobList (row : BlobPosition) (lastBlob : Bool) : ModifiedBlob :=
  ⟨row.key, (row.lastModified % 2 ^ 64).toNat, if lastBlob then watchFlagEob else 0⟩

/-- The loop of `evr_glacier_list_blobs`. A blob is visited when the next one is found. -/
def listBlobsLoop (f : BlobFilter) : Option BlobPosition → List BlobPosition → List ModifiedBlob
  | found, [] => (found.map (handleBlobList · true)).toList
  | found, row :: rows =>
    if f.passes (toInt32 row.flags) then
      (found.map (handleBlobList · false)).toList ++ listBlobsLoop f (some row) rows
    else listBlobsLoop f found rows

/-- `LLONG_MAX`. -/
def llongMax : Nat := 2 ^ 63 - 1

/-- `evr_glacier_list_blobs`, none if it refuses the filter. -/
def glacierListBlobs (env : StorageEnv) (db : IndexDb) (f : BlobFilter) :
    Option (List ModifiedBlob) :=
  let rows := db.blobPosition.filter fun r => (f.lastModifiedAfter : Int) ≤ r.lastModified
  if llongMax < f.lastModifiedAfter then none
  else if f.sortOrder = sortOrderLastModified then
    some (listBlobsLoop f none (env.byLastModified rows))
  else if f.sortOrder = sortOrderRef then some (listBlobsLoop f none (env.byKey rows))
  else none

/-! ## Steps -/

namespace Server

def setConnection (s : Server) (i : Nat) (c : Connection) : Server :=
  { s with connection := Function.update s.connection i c }

@[simp] theorem setConnection_self (s : Server) (i : Nat) (c : Connection) :
    (s.setConnection i c).connection i = c := by
  simp [setConnection]

theorem setConnection_of_ne (s : Server) {i j : Nat} (h : j ≠ i) (c : Connection) :
    (s.setConnection i c).connection j = s.connection j := by
  simp [setConnection, h]

/-- `out_with_rm_watcher` of `evr_work_watch_blobs`, and the connection ends. -/
def endWatch (s : Server) (i : Nat) (slot : Option Nat) (res : Res) : Server :=
  let s := s.setConnection i ((s.connection i).goto (.ended res))
  match slot with
  | some slot => { s with watchers := notifyUnregister s.watchers slot }
  | none => s

/-- `evr_work_watch_blobs` has an entry of its queue and sends it. -/
def sendTaken (s : Server) (i slot : Nat) (o : Observer) : Server :=
  let r := o.messages.next
  let s := s.setConnection i ((s.connection i).answer
    (.modified ⟨r.1.key, r.1.lastModified, watchFlagEob⟩) (.takeBlob slot))
  { s with watchers := s.watchers.set slot (some { o with messages := r.2 }) }

/-- The row that `find_blob_stmt` returns. -/
def findBlob (s : Server) (key : BlobRef) : Option BlobPosition :=
  s.glacier.db.blobPosition.find? fun r => r.key = key

/-- The next step of the worker of a connection unless it waits for its socket or for the
persister. A `read` of a bucket returns at most `n` bytes. -/
def turn (env : StorageEnv) (s : Server) (i n : Nat) : Server :=
  let c := s.connection i
  match c.worker with
  | .findBlob key =>
    match s.findBlob key with
    | none => s.setConnection i (c.answer (.notFound key) (Connection.nextCommand s.running))
    | some row => s.setConnection i (c.goto (.openBucket key row))
  | .openBucket key row =>
    let bucket := (row.bucketIndex % 2 ^ 64).toNat
    match s.glacier.dir.file bucket with
    -- stdout has no magic number to read
    | none => s.setConnection i (c.goto (.ended .error))
    | some file =>
      if !validateBucketMagicNumber file then s.setConnection i (c.goto (.ended .error))
      -- lseek refuses negative offsets
      else if toInt32 row.bucketBlobOffset < 0 then s.setConnection i (c.goto (.ended .error))
      else s.setConnection i (c.goto (.sendBlob key (toInt32 row.flags) bucket
        (columnSize row.bucketBlobOffset) (columnSize row.blobSize) []))
  | .sendBlob key flags bucket offset remaining data =>
    if remaining = 0 then
      s.setConnection i (c.answer (.blob key flags data) (Connection.nextCommand s.running))
    else
      match s.glacier.dir.file bucket with
      | none => s
      | some file =>
        let buf := readAt file offset (min n (min readBufferSize remaining))
        s.setConnection i (c.goto (.sendBlob key flags bucket (offset + buf.length)
          (remaining - buf.length) (data ++ buf)))
  | .queueTask blob =>
    match s.tasks.queueTask ⟨i, blob⟩ with
    | none => s.setConnection i (c.goto (.ended .error))
    | some tasks => { s.setConnection i (c.goto .waitForTask) with tasks := tasks }
  | .taskDone res =>
    if res = .ok then s.setConnection i (c.answer .stored (Connection.nextCommand s.running))
    else s.setConnection i (c.goto (.ended .error))
  | .statBlob key =>
    match s.findBlob key with
    | none => s.setConnection i (c.answer (.notFound key) (Connection.nextCommand s.running))
    | some row => s.setConnection i (c.answer
        (.stat (toInt32 row.flags) (columnSize row.blobSize)) (Connection.nextCommand s.running))
  | .addWatcher f =>
    if f.sortOrder = sortOrderLastModified then
      match notifyRegister s.watchers f with
      | none => s.setConnection i (c.goto (.ended .error))
      | some (slot, watchers) =>
        { s.setConnection i (c.goto (.listBlobs f (some slot))) with watchers := watchers }
    else s.setConnection i (c.goto (.listBlobs f none))
  | .listBlobs f slot =>
    match glacierListBlobs env s.glacier.db f with
    | none => s.endWatch i slot .error
    | some blobs => s.setConnection i (c.goto (.sendList slot blobs))
  | .sendList slot (blob :: blobs) =>
    s.setConnection i (c.answer (.modified blob) (.sendList slot blobs))
  | .sendList none [] => s.endWatch i none .ok
  | .sendList (some slot) [] => s.setConnection i (c.goto (.takeBlob slot))
  | .takeBlob slot =>
    if !s.running then s.endWatch i (some slot) .ok
    else
      match s.watchers[slot]? with
      | some (some o) =>
        if o.messages.status ≠ .ok then s.endWatch i (some slot) .error
        else if o.messages.isEmpty then s.setConnection i (c.goto (.waitFill slot))
        else s.sendTaken i slot o
      | _ => s
  -- the status is not looked at again
  | .waitFill slot =>
    match s.watchers[slot]? with
    | some (some o) =>
      if o.messages.isEmpty then s.setConnection i (c.goto (.takeBlob slot))
      else s.sendTaken i slot o
    | _ => s
  | .reading .. | .waitForTask | .ended _ => s

/-- The peer is gone or the socket fails. A worker that does not use its socket does not
notice. -/
def hangUp (s : Server) (i : Nat) : Server :=
  let c := s.connection i
  match c.worker with
  | .reading .header _ _ => s.setConnection i (c.goto (.ended .ok))
  | .queueTask _ | .waitForTask | .ended _ => s
  | .listBlobs _ slot => s.endWatch i slot .error
  | .sendList slot _ => s.endWatch i slot .error
  | .takeBlob slot => s.endWatch i (some slot) .error
  | .waitFill slot => s.endWatch i (some slot) .error
  | _ => s.setConnection i (c.goto (.ended .error))

/-- `evr_persister_worker` takes a task and starts `evr_glacier_append_blob`. -/
def takeTask (env : StorageEnv) (s : Server) (now : UInt64) : Server :=
  match s.persister with
  | .idle =>
    if !s.working then s
    else
      match s.tasks.takeTask with
      | none => s
      | some (task, tasks) =>
        match appendOps env.maxBucketSize s.glacier.ctx task.blob now with
        | none => { s with tasks := tasks, persister := .finished task now .error }
        | some ops => { s with tasks := tasks, persister := .appending task now ops }
  | _ => s

/-- `task->done` is unlocked, for which `evr_persister_wait_for_task` waits. -/
def unlockDone (s : Server) (i : Nat) (res : Res) : Server :=
  match (s.connection i).worker with
  | .waitForTask => s.setConnection i ((s.connection i).goto (.taskDone res))
  | _ => s

/-- The blob that the persister notifies the watchers of. -/
def taskModified (task : Task) (lastModified : UInt64) : ModifiedBlob :=
  ⟨task.blob.key, lastModified.toNat, task.blob.flags⟩

/-- The next step of `evr_persister_worker` in a task. -/
def persist (s : Server) : Server :=
  match s.persister with
  | .idle => s
  | .appending task lastModified [] =>
    { s with persister := .finished task lastModified .ok }
  | .appending task lastModified (op :: ops) =>
    match runOp s.glacier op with
    | (.ok, g) => { s with glacier := g, persister := .appending task lastModified ops }
    | (.noReturn, g) => { s with glacier := g, halted := true }
    | (_, g) => { s with glacier := g, persister := .finished task lastModified .error }
  | .finished task lastModified res =>
    { s.unlockDone task.owner res with
      persister := if res = .ok then .notifying (taskModified task lastModified) else .idle }
  | .notifying blob =>
    let r := notifySend s.watchers blob
    { s with
      watchers := r.2
      notified := s.notified ++ [blob]
      persister := .idle
      halted := decide (r.1 ≠ .ok) }

end Server

/-- What can happen next. -/
inductive ServerEvent where
  | receive (i : Nat) (data : Bytes)
  | hangUp (i : Nat)
  | turn (i n : Nat)
  | takeTask (now : UInt64)
  | persist
  | shutdown
  | stopPersister

/-- One step of the server. -/
def Server.step (env : StorageEnv) (s : Server) (e : ServerEvent) : Server :=
  if s.halted then s
  else
    match e with
    | .receive i data =>
      s.setConnection i ((s.connection i).receive env.hash s.running data)
    | .hangUp i => s.hangUp i
    | .turn i n => s.turn env i n
    | .takeTask now => s.takeTask env now
    | .persist => s.persist
    | .shutdown => { s with running := false }
    | .stopPersister => { s with working := false }

/-! ## Turns -/

namespace Server

/-- A worker answers its command and goes on to the next one. -/
inductive Answers (s : Server) : Worker → Reply → Prop
  | notFound {key : BlobRef} (hrow : s.findBlob key = none) :
      Answers s (.findBlob key) (.notFound key)
  | blob {key : BlobRef} {flags : Int} {bucket offset : Nat} {data : Bytes} :
      Answers s (.sendBlob key flags bucket offset 0 data) (.blob key flags data)
  | stored : Answers s (.taskDone .ok) .stored
  | notStated {key : BlobRef} (hrow : s.findBlob key = none) :
      Answers s (.statBlob key) (.notFound key)
  | stated {key : BlobRef} {row : BlobPosition} (hrow : s.findBlob key = some row) :
      Answers s (.statBlob key) (.stat (toInt32 row.flags) (columnSize row.blobSize))

/-- A worker goes on to its next step, which touches nothing but itself. -/
inductive Moves (env : StorageEnv) (s : Server) (n : Nat) : Worker → Worker → Prop
  | found {key : BlobRef} {row : BlobPosition} (hrow : s.findBlob key = some row) :
      Moves env s n (.findBlob key) (.openBucket key row)
  | notOpened {key : BlobRef} {row : BlobPosition} :
      Moves env s n (.openBucket key row) (.ended .error)
  | opened {key : BlobRef} {row : BlobPosition} {file : Bytes}
      (hfile : s.glacier.dir.file (row.bucketIndex % 2 ^ 64).toNat = some file)
      (hmagic : validateBucketMagicNumber file = true)
      (hoffset : 0 ≤ toInt32 row.bucketBlobOffset) :
      Moves env s n (.openBucket key row) (.sendBlob key (toInt32 row.flags)
        (row.bucketIndex % 2 ^ 64).toNat (columnSize row.bucketBlobOffset)
        (columnSize row.blobSize) [])
  | read {key : BlobRef} {flags : Int} {bucket offset remaining : Nat} {data file buf : Bytes}
      (hfile : s.glacier.dir.file bucket = some file)
      (hbuf : readAt file offset (min n (min readBufferSize remaining)) = buf) :
      Moves env s n (.sendBlob key flags bucket offset remaining data)
        (.sendBlob key flags bucket (offset + buf.length) (remaining - buf.length) (data ++ buf))
  | notQueued {blob : WritingBlob} : Moves env s n (.queueTask blob) (.ended .error)
  | notStored {res : Res} (hres : res ≠ .ok) : Moves env s n (.taskDone res) (.ended .error)
  | notWatching {f : BlobFilter} (hregister : notifyRegister s.watchers f = none) :
      Moves env s n (.addWatcher f) (.ended .error)
  | listing {f : BlobFilter} (hsort : f.sortOrder ≠ sortOrderLastModified) :
      Moves env s n (.addWatcher f) (.listBlobs f none)
  | listed {f : BlobFilter} {slot : Option Nat} {blobs : List ModifiedBlob}
      (hlist : glacierListBlobs env s.glacier.db f = some blobs) :
      Moves env s n (.listBlobs f slot) (.sendList slot blobs)
  | drained {slot : Nat} : Moves env s n (.sendList (some slot) []) (.takeBlob slot)
  | waits {slot : Nat} : Moves env s n (.takeBlob slot) (.waitFill slot)
  | woken {slot : Nat} : Moves env s n (.waitFill slot) (.takeBlob slot)

/-- A watch with a slot or none ends. -/
inductive EndsWatch : Worker → Option Nat → Prop
  | notListed {f : BlobFilter} {slot : Option Nat} : EndsWatch (.listBlobs f slot) slot
  | listed : EndsWatch (.sendList none []) none
  | taking {slot : Nat} : EndsWatch (.takeBlob slot) (some slot)

/-- What a worker can do in its turn. -/
inductive Turned (env : StorageEnv) (s : Server) (i n : Nat) : Server → Prop
  | idle : Turned env s i n s
  | answered {w : Worker} {r : Reply} (hworker : (s.connection i).worker = w)
      (hanswers : s.Answers w r) :
      Turned env s i n
        (s.setConnection i ((s.connection i).answer r (Connection.nextCommand s.running)))
  | moved {w w' : Worker} (hworker : (s.connection i).worker = w) (hmoves : s.Moves env n w w') :
      Turned env s i n (s.setConnection i ((s.connection i).goto w'))
  | queued {blob : WritingBlob} {tasks : TaskRing}
      (hworker : (s.connection i).worker = .queueTask blob)
      (htasks : s.tasks.queueTask ⟨i, blob⟩ = some tasks) :
      Turned env s i n
        { s.setConnection i ((s.connection i).goto .waitForTask) with tasks := tasks }
  | watching {f : BlobFilter} {slot : Nat} {watchers : Observers}
      (hworker : (s.connection i).worker = .addWatcher f)
      (hregister : notifyRegister s.watchers f = some (slot, watchers)) :
      Turned env s i n
        { s.setConnection i ((s.connection i).goto (.listBlobs f (some slot))) with
          watchers := watchers }
  | reported {slot : Option Nat} {blob : ModifiedBlob} {blobs : List ModifiedBlob}
      (hworker : (s.connection i).worker = .sendList slot (blob :: blobs)) :
      Turned env s i n
        (s.setConnection i ((s.connection i).answer (.modified blob) (.sendList slot blobs)))
  | ended {w : Worker} {slot : Option Nat} {res : Res} (hworker : (s.connection i).worker = w)
      (hends : EndsWatch w slot) : Turned env s i n (s.endWatch i slot res)
  | took {slot : Nat} {o : Observer}
      (hworker : (s.connection i).worker = .takeBlob slot ∨
        (s.connection i).worker = .waitFill slot)
      (ho : s.watchers[slot]? = some (some o)) : Turned env s i n (s.sendTaken i slot o)

/-- A turn is one of these. -/
theorem turned (env : StorageEnv) (s : Server) (i n : Nat) :
    Turned env s i n (s.turn env i n) := by
  unfold turn
  dsimp only
  split
  · next key hw =>
    split
    · next hrow => exact .answered hw (.notFound hrow)
    · next row hrow => exact .moved hw (.found hrow)
  · next key row hw =>
    split
    · exact .moved hw .notOpened
    · next file hfile =>
      split_ifs with hmagic hoffset
      · exact .moved hw .notOpened
      · exact .moved hw .notOpened
      · rw [Bool.not_eq_true, Bool.not_eq_false'] at hmagic
        exact .moved hw (.opened hfile hmagic (Int.not_lt.mp hoffset))
  · next key flags bucket offset remaining data hw =>
    split_ifs with hzero
    · subst hzero
      exact .answered hw .blob
    · split
      · exact .idle
      · next file hfile => exact .moved hw (.read hfile rfl)
  · next blob hw =>
    split
    · exact .moved hw .notQueued
    · next tasks htasks => exact .queued hw htasks
  · next res hw =>
    split_ifs with hres
    · subst hres
      exact .answered hw .stored
    · exact .moved hw (.notStored hres)
  · next key hw =>
    split
    · next hrow => exact .answered hw (.notStated hrow)
    · next row hrow => exact .answered hw (.stated hrow)
  · next f hw =>
    split_ifs with hsort
    · split
      · next hregister => exact .moved hw (.notWatching hregister)
      · next slot watchers hregister => exact .watching hw hregister
    · exact .moved hw (.listing hsort)
  · next f slot hw =>
    split
    · exact .ended hw .notListed
    · next blobs hlist => exact .moved hw (.listed hlist)
  · next slot blob blobs hw => exact .reported hw
  · next hw => exact .ended hw .listed
  · next slot hw => exact .moved hw .drained
  · next slot hw =>
    split_ifs
    · exact .ended hw .taking
    · split
      · next o ho =>
        split_ifs
        · exact .ended hw .taking
        · exact .moved hw .waits
        · exact .took (.inl hw) ho
      · exact .idle
  · next slot hw =>
    split
    · next o ho =>
      split_ifs
      · exact .moved hw .woken
      · exact .took (.inr hw) ho
    · exact .idle
  · exact .idle
  · exact .idle
  · exact .idle

end Server

end Everarch
