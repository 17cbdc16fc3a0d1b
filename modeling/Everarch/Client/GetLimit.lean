import Everarch.Client.Get
import Everarch.Server.Integrity

/-!
# The greatest blob

`evr_work_put_blob` compares the size of a blob with `evr_max_blob_data_size`, and
`evr_req_cmd_get_blob` and `evr_write_blob_to_file` that of a response, which has one byte of
flags more. A blob of the greatest size is stored and cannot be fetched.
`evr_read_cmd_get_resp_blob` allows for the flags, after the other check.

* `PutLemmas.put_stored`: a put of any size up to the greatest is answered.

Result: `stored_blob_fetched_iff`.
-/

namespace Everarch

namespace PutLemmas

open FramingLemmas AppendLemmas

/-! ## Receiving a put command -/

section Receive

variable {hash : Bytes → BlobRef} {running : Bool} {c : Connection}

/-- All bytes that a call of `read_n` asks for arrive at once. -/
theorem receive_all {r : Reading} {n : Nat} {buf data : Bytes} (hw : c.worker = .reading r n buf)
    (hlen : data.length = n) (hpos : 0 < n) (hlimit : r.limit n = n) :
    c.receive hash running data = ({ c with received := c.received ++ data } : Connection).completed
      hash running (buf ++ data) (r.sideEffect data) := by
  have hsome : ¬(data = [] ∨ r.limit n < data.length) := by
    rintro (hnil | hlt)
    · rw [hnil] at hlen
      exact Nat.ne_of_lt hpos hlen
    · rw [hlimit, hlen] at hlt
      exact Nat.lt_irrefl n hlt
  unfold Connection.receive
  rw [hw]
  dsimp only
  rw [if_neg hsome, hlen, if_neg (Nat.lt_irrefl n)]

theorem chunkSize_pos : 0 < chunkSize := by decide

/-- The rest of an upload, chunk by chunk. -/
theorem upload_run (c : Connection) (cmd : CmdHeader) (u : Upload) (rest : Bytes) (hu : u.Filled)
    (hrest : u.remaining = rest.length) (hhash : hash (u.hashed ++ rest) = u.key) :
    ∃ pieces blob, (exec (Connection.receive hash running) (c.nextChunk hash cmd u) pieces) =
        ({ c with received := c.received ++ rest } : Connection).goto (.queueTask blob) ∧
      blob.size = u.blobSize := by
  induction hn : rest.length using Nat.strongRecOn generalizing c u rest with
  | ind n ih =>
    by_cases hzero : u.remaining = 0
    · obtain rfl : rest = [] := List.length_eq_zero_iff.mp (hrest.symm.trans hzero)
      rw [List.append_nil] at hhash
      refine ⟨[], u.blob c.syncStrategy hzero, ?_, rfl⟩
      rw [List.append_nil, exec_nil, Connection.nextChunk, dif_pos hzero, if_neg (not_not.mpr hhash)]
    · have hpos : 0 < u.chunkReadSize := Nat.lt_min.mpr ⟨Nat.pos_of_ne_zero hzero, chunkSize_pos⟩
      have hle : u.chunkReadSize ≤ rest.length := hrest ▸ Nat.min_le_left ..
      have hpiece : (rest.take u.chunkReadSize).length = u.chunkReadSize :=
        List.length_take_of_le hle
      generalize hu' : (u.write (rest.take u.chunkReadSize)).addChunk (rest.take u.chunkReadSize) = u'
      have hfilled : u'.Filled := by
        have hfills := fills_write (fills_of_filled hu hzero) (Nat.le_of_eq hpiece)
        rw [hpiece, Nat.sub_self, List.nil_append] at hfills
        rw [← hu']
        exact filled_addChunk hfills
      have hhashed : u'.hashed = u.hashed ++ rest.take u.chunkReadSize := by
        rw [← hu']
        rfl
      have hremaining : u'.remaining = (rest.drop u.chunkReadSize).length := by
        rw [← hu', List.length_drop, ← hrest]
        rfl
      have hstart : c.nextChunk hash cmd u =
          c.goto (.reading (.putChunk cmd u) u.chunkReadSize []) := by
        unfold Connection.nextChunk
        rw [dif_neg hzero]
      have hreceive : (c.nextChunk hash cmd u).receive hash running (rest.take u.chunkReadSize) =
          ({ c with received := c.received ++ rest.take u.chunkReadSize } : Connection).nextChunk
            hash cmd u' := by
        rw [hstart, receive_all rfl hpiece hpos rfl, ← hu']
        rfl
      obtain ⟨pieces, blob, hrun, hsize⟩ := ih (rest.drop u.chunkReadSize).length
        (by rw [List.length_drop]; omega)
        ({ c with received := c.received ++ rest.take u.chunkReadSize } : Connection) u'
        (rest.drop u.chunkReadSize) hfilled hremaining
        (by rw [hhashed, List.append_assoc, List.take_append_drop, hhash, ← hu']; rfl) rfl
      refine ⟨rest.take u.chunkReadSize :: pieces, blob, ?_, by rw [hsize, ← hu']; rfl⟩
      rw [exec_cons, hreceive, hrun, List.append_assoc, List.take_append_drop]

theorem parseCmdHeader_bytes {cmd : CmdHeader} (h : cmd.bodySize < 2 ^ 32) :
    parseCmdHeader cmd.bytes = cmd := by
  have hsplit : cmd.bytes = [cmd.type] ++ beBytes 4 cmd.bodySize ++ [] :=
    (List.append_nil _).symm
  have hread : readAt cmd.bytes 1 4 = beBytes 4 cmd.bodySize :=
    readAt_middle hsplit rfl (length_beBytes 4 _)
  have hlt : cmd.bodySize < 256 ^ 4 := h
  unfold parseCmdHeader
  rw [hread, ofBeBytes_beBytes hlt]
  rfl

theorem blobRefOf_toList (key : BlobRef) : blobRefOf key.toList = key :=
  Vector.toList_inj.mp (toList_blobRefOf key.length_toList)

theorem putBlobSize_of_le {n : Nat} (h : n ≤ maxBlobDataSize) :
    putBlobSize (blobRefSize + 1 + n) = n := by
  unfold putBlobSize maxBlobDataSize at *
  omega

theorem startCommand_put (c : Connection) {cmd : CmdHeader} {n : Nat}
    (htype : cmd.type = cmdTypePutBlob) (hsize : cmd.bodySize = blobRefSize + 1 + n)
    (hle : n ≤ maxBlobDataSize) :
    c.startCommand true cmd = c.goto (.reading (.putKey cmd n) blobRefSize []) := by
  have hne : cmdTypePutBlob ≠ cmdTypeGetBlob := by decide
  have hnot : ¬cmd.bodySize < blobRefSize := by
    rw [hsize]
    omega
  unfold Connection.startCommand
  rw [htype, if_neg hne, if_pos rfl, if_neg hnot, hsize, putBlobSize_of_le hle,
    if_neg (Nat.not_lt.mpr hle)]

/-- A whole put command is received and given to the persister. -/
theorem put_received (key : BlobRef) (flags : UInt8) {body : Bytes} (hhash : hash body = key)
    (hle : body.length ≤ maxBlobDataSize) :
    ∃ pieces blob, exec (Connection.receive hash true) .accepted pieces =
        ⟨.default, .queueTask blob, CmdHeader.bytes ⟨cmdTypePutBlob, (putBody key flags body).length⟩ ++
          putBody key flags body, []⟩ ∧
      blob.size = body.length := by
  generalize hcmd : (⟨cmdTypePutBlob, (putBody key flags body).length⟩ : CmdHeader) = cmd
  have hbodySize : cmd.bodySize = blobRefSize + 1 + body.length := by
    rw [← hcmd]
    exact length_putBody key flags body
  have hfits : cmd.bodySize < 2 ^ 32 := by
    rw [hbodySize]
    unfold maxBlobDataSize blobRefSize at *
    omega
  have hheader : Connection.accepted.receive hash true cmd.bytes =
      ⟨.default, .reading (.putKey cmd body.length) blobRefSize [], cmd.bytes, []⟩ := by
    have hbytes : cmd.bytes.length = cmdHeaderSize := by
      rw [CmdHeader.bytes, List.length_cons, length_beBytes]
      rfl
    rw [receive_all (r := .header) rfl hbytes (by decide) rfl]
    show Connection.startCommand true _ (parseCmdHeader cmd.bytes) = _
    rw [parseCmdHeader_bytes hfits, startCommand_put _ (hcmd ▸ rfl) hbodySize hle]
    rfl
  have hkey : Connection.receive hash true
      ⟨.default, .reading (.putKey cmd body.length) blobRefSize [], cmd.bytes, []⟩ key.toList =
      ⟨.default, .reading (.putFlags cmd body.length key) 1 [], cmd.bytes ++ key.toList, []⟩ := by
    rw [receive_all rfl key.length_toList (by decide) rfl]
    show Connection.goto _ (.reading (.putFlags cmd body.length (blobRefOf key.toList)) 1 []) = _
    rw [blobRefOf_toList]
    rfl
  have hflags : Connection.receive hash true
      ⟨.default, .reading (.putFlags cmd body.length key) 1 [], cmd.bytes ++ key.toList, []⟩
      [flags] = Connection.nextChunk hash ⟨.default, .reading (.putFlags cmd body.length key) 1 [],
        cmd.bytes ++ key.toList ++ [flags], []⟩ cmd (.start key flags body.length) := by
    rw [receive_all (n := 1) rfl rfl Nat.one_pos rfl]
    rfl
  obtain ⟨pieces, blob, hrun, hsize⟩ := @upload_run hash true
    ⟨.default, .reading (.putFlags cmd body.length key) 1 [], cmd.bytes ++ key.toList ++ [flags], []⟩
    cmd (.start key flags body.length) body (filled_start ..) rfl hhash
  refine ⟨cmd.bytes :: key.toList :: [flags] :: pieces, blob, ?_, hsize⟩
  rw [exec_cons, exec_cons, exec_cons, hheader, hkey, hflags, hrun]
  unfold putBody
  rw [List.append_assoc, List.append_assoc, List.append_assoc]
  rfl

end Receive

/-! ## Storing the blob -/

section Store

variable {env : StorageEnv} {c : Connection}

theorem setConnection_setConnection (s : Server) (i : Nat) (c c' : Connection) :
    (s.setConnection i c).setConnection i c' = s.setConnection i c' := by
  unfold Server.setConnection
  rw [Function.update_idem]

/-- The connection receives its pieces. -/
theorem exec_receives {s : Server} (hup : s.halted = false) (i : Nat) (pieces : List Bytes) :
    exec (Server.step env) s (pieces.map (.receive i ·)) =
      s.setConnection i (exec (Connection.receive env.hash s.running) (s.connection i) pieces) := by
  induction pieces generalizing s with
  | nil =>
    unfold Server.setConnection
    rw [List.map_nil, exec_nil, exec_nil, Function.update_eq_self]
  | cons piece pieces ih =>
    have hstep : s.step env (.receive i piece) =
        s.setConnection i ((s.connection i).receive env.hash s.running piece) := by
      unfold Server.step
      rw [hup, if_neg Bool.false_ne_true]
    rw [List.map_cons, exec_cons, hstep]
    rw [ih (by exact hup), setConnection_setConnection, Server.setConnection_self]
    rfl

theorem runOps_cons {op : Op} {ops : List Op} {g g' : Glacier}
    (h : runOps (op :: ops) g = (.ok, g')) :
    ∃ g1, runOp g op = (.ok, g1) ∧ runOps ops g1 = (.ok, g') := by
  rcases hop : runOp g op with ⟨res, g1⟩
  cases res with
  | ok => exact ⟨g1, rfl, (runOps_cons_ok hop).symm.trans h⟩
  | _ =>
    rw [runOps, hop] at h
    cases h

/-- The persister makes the calls of an append. -/
theorem exec_persist {s : Server} (hup : s.halted = false) {task : Task} {lastModified : UInt64}
    {ops : List Op} (hp : s.persister = .appending task lastModified ops) {g : Glacier}
    (hrun : runOps ops s.glacier = (.ok, g)) :
    exec (Server.step env) s (List.replicate ops.length .persist) =
      { s with glacier := g, persister := .appending task lastModified [] } := by
  induction ops generalizing s with
  | nil =>
    cases hrun
    rw [List.length_nil, List.replicate_zero, exec_nil, ← hp]
  | cons op ops ih =>
    obtain ⟨g1, hop, hops⟩ := runOps_cons hrun
    have hstep : s.step env .persist =
        { s with glacier := g1, persister := .appending task lastModified ops } := by
      unfold Server.step Server.persist
      rw [hup, if_neg Bool.false_ne_true]
      simp only [hp, hop]
    rw [List.length_cons, List.replicate_succ, exec_cons, hstep, ih (by exact hup) rfl hops]

theorem takeTask_of_queued {r : TaskRing} {task : Task} (h : r.queued = [task]) :
    ∃ r', r.takeTask = some (task, r') := by
  rcases htake : r.takeTask with _ | ⟨task', r'⟩
  · unfold TaskRing.takeTask at htake
    split at htake
    · next hempty =>
      rw [TaskRing.queued, hempty, window_empty r.reading_lt] at h
      cases h
    · cases htake
  · rw [TaskRing.queued_takeTask htake] at h
    rw [(List.cons.inj h).1]
    exact ⟨r', rfl⟩

/-- The first task is queued, and taken next. -/
theorem take_queued (task : Task) :
    ∃ queue, TaskRing.empty.queueTask task = some queue ∧
      ∃ queue', queue.takeTask = some (task, queue') := by
  have hqueue : TaskRing.empty.queueTask task = some _ := if_neg (by decide : ¬TaskRing.step 0 = 0)
  have hqueued := TaskRing.queued_queueTask hqueue
  rw [TaskRing.queued_empty, List.nil_append] at hqueued
  exact ⟨_, hqueue, takeTask_of_queued hqueued⟩

/-- A blob is appended to the first bucket. -/
theorem append_first (blob : WritingBlob) (lastModified : UInt64)
    (hroom : bucketHeaderSize + (bucketBlobHeaderSize + blob.size) ≤ env.maxBucketSize)
    (hmax : env.maxBucketSize < 2 ^ 31) :
    ∃ ops g, appendOps env.maxBucketSize emptyGlacier.ctx blob lastModified = some ops ∧
      runOps ops emptyGlacier = (.ok, g) := by
  have h := represents_emptyGlacier
  have hpos : emptyGlacier.ctx.currentBucketPos = bucketHeaderSize := h.currentBucketPos
  have hsize : blob.size < 2 ^ 32 := by omega
  have hfits : bucketSize ([] ++ [recordOf blob lastModified hsize]) < 2 ^ 31 := by
    rw [bucketSize_recordOf]
    exact Nat.lt_of_le_of_lt hroom hmax
  obtain ⟨g, hrun, -⟩ := represents_add h hsize hfits
  refine ⟨_, g, ?_, hrun⟩
  unfold appendOps
  rw [hpos]
  dsimp only
  rw [if_neg (Nat.not_lt.mpr hroom), if_neg (Nat.not_lt.mpr hroom)]

section Steps

variable {s : Server} (hup : s.halted = false)
include hup

/-- The worker gives its task to the persister. -/
theorem step_queueTask {i : Nat} {blob : WritingBlob} {queue : TaskRing} (n : Nat)
    (hw : (s.connection i).worker = .queueTask blob)
    (hqueue : s.tasks.queueTask ⟨i, blob⟩ = some queue) :
    s.step env (.turn i n) =
      { s.setConnection i ((s.connection i).goto .waitForTask) with tasks := queue } := by
  unfold Server.step Server.turn
  rw [hup, if_neg Bool.false_ne_true]
  simp only [hw, hqueue]

theorem step_taskDone {i : Nat} (n : Nat) (hw : (s.connection i).worker = .taskDone .ok) :
    s.step env (.turn i n) = s.setConnection i
      ((s.connection i).answer .stored (Connection.nextCommand s.running)) := by
  unfold Server.step Server.turn
  rw [hup, if_neg Bool.false_ne_true]
  simp only [hw, if_true]

theorem step_takeTask {task : Task} {now : UInt64} {queue : TaskRing} {ops : List Op}
    (hworking : s.working = true) (hidle : s.persister = .idle)
    (htake : s.tasks.takeTask = some (task, queue))
    (hops : appendOps env.maxBucketSize s.glacier.ctx task.blob now = some ops) :
    s.step env (.takeTask now) =
      { s with tasks := queue, persister := .appending task now ops } := by
  unfold Server.step Server.takeTask
  rw [hup, if_neg Bool.false_ne_true]
  simp only [hidle, hworking, htake, hops, Bool.not_true, Bool.false_eq_true, if_false]

/-- The last call of an append has returned. -/
theorem step_appended {task : Task} {lastModified : UInt64}
    (hp : s.persister = .appending task lastModified []) :
    s.step env .persist = { s with persister := .finished task lastModified .ok } := by
  unfold Server.step Server.persist
  rw [hup, if_neg Bool.false_ne_true]
  simp only [hp]

theorem step_unlockDone {task : Task} {lastModified : UInt64}
    (hp : s.persister = .finished task lastModified .ok)
    (hw : (s.connection task.owner).worker = .waitForTask) :
    s.step env .persist = { s.setConnection task.owner
      ((s.connection task.owner).goto (.taskDone .ok)) with
      persister := .notifying (Server.taskModified task lastModified) } := by
  have hunlocked : s.unlockDone task.owner .ok =
      s.setConnection task.owner ((s.connection task.owner).goto (.taskDone .ok)) := by
    unfold Server.unlockDone
    rw [hw]
  unfold Server.step Server.persist
  rw [hup, if_neg Bool.false_ne_true]
  simp only [hp, hunlocked, if_true]

end Steps

/-- A connection's task is taken, its blob is appended and it is answered. -/
theorem exec_task {blob : WritingBlob} (hc : c.worker = .queueTask blob)
    (hroom : bucketHeaderSize + (bucketBlobHeaderSize + blob.size) ≤ env.maxBucketSize)
    (hmax : env.maxBucketSize < 2 ^ 31) :
    ∃ events, (exec (Server.step env) (Server.start.setConnection 0 c) events).connection 0 =
      c.answer .stored (Connection.nextCommand true) := by
  obtain ⟨queue, hqueue, queue', htake⟩ := take_queued ⟨0, blob⟩
  obtain ⟨ops, g, hops, hrun⟩ := append_first blob 0 hroom hmax
  have hself : ∀ c', (Server.start.setConnection 0 c').connection 0 = c' :=
    fun c' => Server.setConnection_self ..
  have hqueued : (Server.start.setConnection 0 c).step env (.turn 0 0) =
      { Server.start.setConnection 0 (c.goto .waitForTask) with tasks := queue } := by
    rw [step_queueTask rfl 0 (by rw [hself, hc]) hqueue, hself, setConnection_setConnection]
  have htaken : Server.step env
      { Server.start.setConnection 0 (c.goto .waitForTask) with tasks := queue } (.takeTask 0) =
      { Server.start.setConnection 0 (c.goto .waitForTask) with
        tasks := queue', persister := .appending ⟨0, blob⟩ 0 ops } :=
    step_takeTask rfl rfl rfl htake hops
  have hfinished : Server.step env
      { Server.start.setConnection 0 (c.goto .waitForTask) with
        tasks := queue', glacier := g, persister := .appending ⟨0, blob⟩ 0 [] } .persist =
      { Server.start.setConnection 0 (c.goto .waitForTask) with
        tasks := queue', glacier := g, persister := .finished ⟨0, blob⟩ 0 .ok } :=
    step_appended rfl rfl
  have hunlocked : Server.step env
      { Server.start.setConnection 0 (c.goto .waitForTask) with
        tasks := queue', glacier := g, persister := .finished ⟨0, blob⟩ 0 .ok } .persist =
      { Server.start.setConnection 0 (c.goto (.taskDone .ok)) with
        tasks := queue', glacier := g, persister := .notifying (Server.taskModified ⟨0, blob⟩ 0) } := by
    rw [step_unlockDone rfl rfl (by rw [hself]; rfl), hself]
    exact congrArg (fun s : Server => { s with
      tasks := queue', glacier := g, persister := .notifying (Server.taskModified ⟨0, blob⟩ 0) })
      (setConnection_setConnection Server.start 0 (c.goto .waitForTask) (c.goto (.taskDone .ok)))
  refine ⟨.turn 0 0 :: .takeTask 0 :: (List.replicate ops.length .persist ++
    [.persist, .persist, .turn 0 0]), ?_⟩
  rw [exec_cons, exec_cons, exec_append, hqueued, htaken, exec_persist rfl rfl hrun, exec_cons,
    exec_cons, exec_cons, exec_nil, hfinished, hunlocked, step_taskDone rfl 0 (by rw [hself]; rfl)]
  exact Server.setConnection_self ..

end Store

open IntegrityLemmas in
/-- A put command with a blob of any size up to the greatest is answered with ok. -/
theorem put_stored (env : StorageEnv) (hmax : env.maxBucketSize < 2 ^ 31) {key : BlobRef}
    (flags : UInt8) {body : Bytes} (hhash : env.hash body = key)
    (hle : body.length ≤ maxBlobDataSize)
    (hroom : bucketHeaderSize + (bucketBlobHeaderSize + body.length) ≤ env.maxBucketSize) :
    ∃ events, .stored ∈ ((exec (Server.step env) .start events).connection 0).replies ∧
      PutReceived ((exec (Server.step env) .start events).connection 0).received key body := by
  obtain ⟨pieces, blob, hreceived, hsize⟩ := put_received key flags hhash hle
  obtain ⟨events, htask⟩ := @exec_task env (exec (Connection.receive env.hash true)
    .accepted pieces) blob (by rw [hreceived]) (hsize.symm ▸ hroom) hmax
  refine ⟨pieces.map (.receive 0 ·) ++ events, ?_⟩
  rw [exec_append, exec_receives rfl]
  rw [show Server.start.running = true from rfl, show Server.start.connection 0 = .accepted from rfl,
    htask, hreceived]
  refine ⟨List.mem_append_right _ (List.mem_singleton_self _), ?_⟩
  have hfits : (putBody key flags body).length < 2 ^ 32 := by
    rw [length_putBody]
    unfold maxBlobDataSize blobRefSize at *
    omega
  exact ⟨[], ⟨cmdTypePutBlob, putBody key flags body, hfits⟩, flags, [], rfl, rfl,
    (List.append_nil _).symm⟩

end PutLemmas

open IntegrityLemmas GetLemmas PutLemmas

/-- In every run, a blob that the server sends as the response to a get command is one it
has received, and the clients receive it if and only if it is smaller than the greatest
blob that a put command may have. -/
theorem stored_blob_fetched_iff (env : StorageEnv) (hmax : env.maxBucketSize ≤ 2 ^ 31 - 1)
    (events : List ServerEvent) (i : Nat) (key : BlobRef) (flags : Int) (data rest : Bytes)
    (hsent : .blob key flags data ∈ ((exec (Server.step env) .start events).connection i).replies) :
    (∃ j, PutReceived ((exec (Server.step env) .start events).connection j).received key data) ∧
      ((fetchBlob env.hash key (getResponse flags data ++ rest) = some data ∧
        syncFetch (getResponse flags data ++ rest) = some data ∧
        fileFetch env.hash key (getResponse flags data ++ rest) = some data) ↔
      data.length < maxBlobDataSize) := by
  obtain ⟨hkey, hreceived⟩ :=
    (sound_run (Nat.lt_of_le_of_lt hmax (by decide)) events).replies i _ _ _ hsent
  refine ⟨hreceived, fun h => ?_, fetched_of_lt flags rest hkey⟩
  exact Nat.lt_of_not_le fun hge => not_fetched_of_ge flags rest hge h.1

/-- Another client gets the letter. -/
theorem stored_blob_fetched_iff_letter :
    fetchBlob sampleHash letterBlob.key (getResponse 0 [0x78] ++ []) = some [0x78] ∧
      syncFetch (getResponse 0 [0x78] ++ []) = some [0x78] ∧
      fileFetch sampleHash letterBlob.key (getResponse 0 [0x78] ++ []) = some [0x78] :=
  have hsent : .blob letterBlob.key 0 [0x78] ∈ ((exec (Server.step (.inOrder sampleHash 1024))
      .start uploadThenGet).connection 1).replies := by decide +kernel
  (stored_blob_fetched_iff (.inOrder sampleHash 1024) (by decide) uploadThenGet 1 _ _ _ []
    hsent).2.mpr (by decide)

/-- A blob of the greatest size. -/
def greatestBlob : Bytes :=
  List.replicate maxBlobDataSize 0

/-- It is stored, and no client can have it. -/
theorem greatest_blob_not_fetched :
    (∃ events, .stored ∈ ((exec (Server.step (.inOrder sampleHash (1024 * 1024 * 1024))) .start
        events).connection 0).replies ∧
      PutReceived ((exec (Server.step (.inOrder sampleHash (1024 * 1024 * 1024))) .start
        events).connection 0).received (sampleHash greatestBlob) greatestBlob) ∧
      fetchBlob sampleHash (sampleHash greatestBlob) (getResponse 0 greatestBlob) = none ∧
      syncFetch (getResponse 0 greatestBlob) = none ∧
      fileFetch sampleHash (sampleHash greatestBlob) (getResponse 0 greatestBlob) = none := by
  have hlen : greatestBlob.length = maxBlobDataSize := List.length_replicate
  have hreq : reqCmdGetBlob (getResponse 0 greatestBlob) = none := by
    rw [← List.append_nil (getResponse 0 greatestBlob), reqCmdGetBlob_getResponse, hlen]
    exact if_pos (by decide)
  refine ⟨put_stored _ (by decide : 1024 * 1024 * 1024 < 2 ^ 31) 0 rfl (Nat.le_of_eq hlen) ?_,
    ?_, ?_, ?_⟩
  · rw [hlen]
    show _ ≤ 1024 * 1024 * 1024
    decide
  · rw [fetchBlob, hreq]
  · rw [syncFetch, hreq]
  · rw [fileFetch, hreq]

end Everarch
