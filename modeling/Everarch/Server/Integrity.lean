import Everarch.Glacier.Intact
import Everarch.Glacier.Walkable
import Everarch.Server.Framing
import Everarch.Server.Storage

/-!
# Content integrity

Whatever the connections send and however their workers and the persister interleave,
what the server streams for a key is the body of a put command for it that it received
before.

* `IntegrityLemmas.sound_step`: one step of the server keeps what this rests on.
* `streamed_blobs_intact`: every run.
-/

namespace Everarch

/-- The body has the hash, and some connection received a put command of it. -/
def Uploaded (hash : Bytes → BlobRef) (connection : Nat → Connection) (key : BlobRef)
    (body : Bytes) : Prop :=
  hash body = key ∧ ∃ j, PutReceived (connection j).received key body

/-- What is sent, and what comes next, are in the bucket. -/
def StreamSound (known : BlobRef → Bytes → Prop) (g : Glacier) : Worker → Prop
  | .openBucket key row => row ∈ g.db.blobPosition ∧ row.key = key
  | .sendBlob key _ bucket offset remaining data =>
    ∃ row ∈ g.db.blobPosition, ∃ (i start : Nat) (rest : Bytes), known key (data ++ rest) ∧
      SafeAt g row (data ++ rest) ∧ row.bucketIndex = i ∧ row.bucketBlobOffset = start ∧
      bucket = i ∧ offset = start + data.length ∧ remaining = rest.length
  | _ => True

/-- Between two appends the glacier is that of a log. In an append it is what the calls
made so far have left, and those to come are allowed. -/
def PersisterSound (env : StorageEnv) (known : BlobRef → Bytes → Prop) (g : Glacier) :
    Persister → Prop
  | .appending task lastModified ops =>
    ∃ (g0 : Glacier) (log : SegLog Record) (made : List Op), Represents g0 log ∧
      appendOps env.maxBucketSize g0.ctx task.blob lastModified = some (made ++ ops) ∧
      runOps made g0 = (.ok, g) ∧ Along stepOp (Allowed known) g ops
  | _ => ∃ log, Represents g log

/-- What every step keeps. -/
structure Sound (env : StorageEnv) (s : Server) : Prop where
  framed : ∀ i, Framed env.hash (s.connection i)
  intact : Intact (Uploaded env.hash s.connection) s.glacier
  tasks : ∀ t ∈ s.tasks.queued, Uploaded env.hash s.connection t.blob.key t.blob.body
  persister : s.halted = false →
    PersisterSound env (Uploaded env.hash s.connection) s.glacier s.persister
  streams : ∀ i, StreamSound (Uploaded env.hash s.connection) s.glacier (s.connection i).worker
  replies : ∀ i key flags data, .blob key flags data ∈ (s.connection i).replies →
    Uploaded env.hash s.connection key data

namespace IntegrityLemmas

open AppendLemmas IntactLemmas WalkableLemmas FramingLemmas

/-! ## More is known -/

section Mono

variable {known known' : BlobRef → Bytes → Prop} {g : Glacier}

theorem intact_mono (h : Intact known g) (hle : ∀ key body, known key body → known' key body) :
    Intact known' g where
  fresh := h.fresh
  keys := h.keys
  rows row hrow := by
    obtain ⟨body, hknown, hsafe⟩ := h.rows row hrow
    exact ⟨body, hle _ _ hknown, hsafe⟩

theorem allowed_mono {op : Op} (h : Allowed known g op)
    (hle : ∀ key body, known key body → known' key body) : Allowed known' g op := by
  cases op with
  | assign f => exact intact_mono h hle
  | insertBlob =>
    obtain ⟨hopened, body, hknown, hsafe⟩ := h
    exact ⟨hopened, body, hle _ _ hknown, hsafe⟩
  | _ => exact h

theorem streamSound_mono {w : Worker} (h : StreamSound known g w)
    (hle : ∀ key body, known key body → known' key body) : StreamSound known' g w := by
  cases w with
  | sendBlob =>
    obtain ⟨row, hrow, i, start, rest, hknown, hrest⟩ := h
    exact ⟨row, hrow, i, start, rest, hle _ _ hknown, hrest⟩
  | _ => exact h

theorem persisterSound_mono {env : StorageEnv} {p : Persister} (h : PersisterSound env known g p)
    (hle : ∀ key body, known key body → known' key body) : PersisterSound env known' g p := by
  cases p with
  | appending task lastModified ops =>
    obtain ⟨g0, log, made, hlog, hops, hrun, halong⟩ := h
    exact ⟨g0, log, made, hlog, hops, hrun, halong.imp fun _ _ h => allowed_mono h hle⟩
  | _ => exact h

theorem uploaded_update {hash : Bytes → BlobRef} {connection : Nat → Connection} {i : Nat}
    {c : Connection} {more : Bytes} (hmore : c.received = (connection i).received ++ more)
    {key : BlobRef} {body : Bytes} (h : Uploaded hash connection key body) :
    Uploaded hash (Function.update connection i c) key body := by
  obtain ⟨hhash, j, hput⟩ := h
  refine ⟨hhash, j, ?_⟩
  by_cases hj : j = i
  · rw [hj, Function.update_self, hmore]
    exact putReceived_append (hj ▸ hput) more
  · rw [Function.update_of_ne hj]
    exact hput

end Mono

/-! ## A connection moves on -/

section Frame

variable {env : StorageEnv} {s : Server} {i : Nat} {c : Connection}

/-- A connection moves on, and nothing else does. -/
theorem sound_setConnection (h : Sound env s) {more : Bytes}
    (hmore : c.received = (s.connection i).received ++ more) (hframed : Framed env.hash c)
    (hstream : StreamSound (Uploaded env.hash s.connection) s.glacier c.worker)
    (hreplies : ∀ key flags data, .blob key flags data ∈ c.replies →
      .blob key flags data ∈ (s.connection i).replies ∨ Uploaded env.hash s.connection key data) :
    Sound env (s.setConnection i c) := by
  have hle : ∀ key body, Uploaded env.hash s.connection key body →
      Uploaded env.hash (Function.update s.connection i c) key body :=
    fun _ _ => uploaded_update hmore
  refine ⟨fun j => ?_, intact_mono h.intact hle, fun t ht => hle _ _ (h.tasks t ht),
    fun hup => persisterSound_mono (h.persister hup) hle, fun j => ?_, fun j key flags data => ?_⟩
  · by_cases hj : j = i
    · rw [hj, Server.setConnection_self]
      exact hframed
    · rw [Server.setConnection_of_ne _ hj]
      exact h.framed j
  · refine streamSound_mono ?_ hle
    by_cases hj : j = i
    · rw [hj, Server.setConnection_self]
      exact hstream
    · rw [Server.setConnection_of_ne _ hj]
      exact h.streams j
  · by_cases hj : j = i
    · rw [hj, Server.setConnection_self]
      intro hmem
      rcases hreplies key flags data hmem with hold | hnew
      · exact hle _ _ (h.replies i key flags data hold)
      · exact hle _ _ hnew
    · rw [Server.setConnection_of_ne _ hj]
      exact fun hmem => hle _ _ (h.replies j key flags data hmem)

/-- The worker goes on without a reply. -/
theorem sound_goto (h : Sound env s) {w : Worker}
    (hframed : Framed env.hash ((s.connection i).goto w))
    (hstream : StreamSound (Uploaded env.hash s.connection) s.glacier w) :
    Sound env (s.setConnection i ((s.connection i).goto w)) :=
  sound_setConnection h (List.append_nil _).symm hframed hstream fun _ _ _ hmem => .inl hmem

theorem sound_ended (h : Sound env s) (res : Res) :
    Sound env (s.setConnection i ((s.connection i).goto (.ended res))) :=
  sound_goto h trivial trivial

/-- A reply that is no blob, or an uploaded one. -/
theorem sound_answer (h : Sound env s) {r : Reply} {w : Worker}
    (hframed : Framed env.hash ((s.connection i).answer r w))
    (hstream : StreamSound (Uploaded env.hash s.connection) s.glacier w)
    (hreply : ∀ key flags data, r = .blob key flags data →
      Uploaded env.hash s.connection key data) :
    Sound env (s.setConnection i ((s.connection i).answer r w)) := by
  refine sound_setConnection h (List.append_nil _).symm hframed hstream fun key flags data hmem => ?_
  rcases List.mem_append.mp hmem with hold | hnew
  · exact .inl hold
  · exact .inr (hreply key flags data (List.mem_singleton.mp hnew).symm)

theorem streamSound_nextCommand {known : BlobRef → Bytes → Prop} {g : Glacier} {running : Bool} :
    StreamSound known g (Connection.nextCommand running) := by
  cases running with
  | false => trivial
  | true => trivial

/-- The command is done. -/
theorem sound_next (h : Sound env s) {r : Reply}
    (hwhole : ∃ cmds, (s.connection i).received = frames cmds)
    (hreply : ∀ key flags data, r = .blob key flags data →
      Uploaded env.hash s.connection key data) :
    Sound env (s.setConnection i
      ((s.connection i).answer r (Connection.nextCommand s.running))) := by
  obtain ⟨cmds, hcmds⟩ := hwhole
  exact sound_answer h (framed_nextCommand rfl hcmds) streamSound_nextCommand hreply

theorem sound_watchers (h : Sound env s) (watchers : Observers) :
    Sound env { s with watchers := watchers } :=
  ⟨h.framed, h.intact, h.tasks, h.persister, h.streams, h.replies⟩

theorem sound_endWatch (h : Sound env s) (slot : Option Nat) (res : Res) :
    Sound env (s.endWatch i slot res) := by
  cases slot with
  | none => exact sound_ended h res
  | some slot => exact sound_watchers (sound_ended h res) _

theorem sound_sendTaken (h : Sound env s) {slot : Nat} {o : Observer}
    (hwhole : ∃ cmds, (s.connection i).received = frames cmds) :
    Sound env (s.sendTaken i slot o) := by
  refine sound_watchers (sound_answer h (w := .takeBlob slot) hwhole trivial ?_) _
  intro key flags data heq
  cases heq

end Frame

/-! ## Steps of a worker -/

section Worker

variable {env : StorageEnv} {s : Server}

/-- A command is read, and no blob is sent. -/
structure ReadsOn (c c' : Connection) : Prop where
  received : c'.received = c.received
  replies : ∀ key flags data, .blob key flags data ∈ c'.replies → .blob key flags data ∈ c.replies
  stream : ∀ known g, StreamSound known g c'.worker

theorem readsOn_goto (c : Connection) {w : Worker} (hw : ∀ known g, StreamSound known g w) :
    ReadsOn c (c.goto w) :=
  ⟨rfl, fun _ _ _ h => h, hw⟩

theorem readsOn_answer (c : Connection) {r : Reply} {w : Worker}
    (hr : ∀ key flags data, r ≠ .blob key flags data) (hw : ∀ known g, StreamSound known g w) :
    ReadsOn c (c.answer r w) := by
  refine ⟨rfl, fun key flags data hmem => ?_, hw⟩
  rcases List.mem_append.mp hmem with hold | hnew
  · exact hold
  · exact absurd (List.mem_singleton.mp hnew).symm (hr key flags data)

theorem readsOn_proceeds {hash : Bytes → BlobRef} {running : Bool} {c c' : Connection}
    {consumed : Bytes} (h : Proceeds hash running c consumed c') : ReadsOn c c' := by
  cases h with
  | refused | reads | uploaded | finds | stats => exact readsOn_goto c fun _ _ => trivial
  | watches => exact readsOn_answer c (fun _ _ _ => Reply.noConfusion) fun _ _ => trivial
  | @answers _ reply _ hreply syncStrategy =>
    have hnoBlob (key : BlobRef) (flags : Int) (data : Bytes) : reply ≠ .blob key flags data := by
      rcases hreply with rfl | rfl
      · exact Reply.noConfusion
      · exact Reply.noConfusion
    obtain ⟨hreceived, hreplies, hstream⟩ := readsOn_answer
      { c with syncStrategy := syncStrategy } hnoBlob fun _ _ => @streamSound_nextCommand _ _ running
    exact ⟨hreceived, hreplies, hstream⟩

/-- A piece of bytes arrives. -/
theorem sound_receive (h : Sound env s) (i : Nat) (data : Bytes) :
    Sound env (s.setConnection i ((s.connection i).receive env.hash s.running data)) := by
  have hframed : Framed env.hash ((s.connection i).receive env.hash s.running data) :=
    framed_receive (h.framed i) data
  rcases proceeds_receive env.hash s.running (s.connection i) data with
    hsame | ⟨r, remaining, buf, hworker, hproceeds⟩
  · rw [hsame] at hframed ⊢
    exact sound_setConnection h (List.append_nil _).symm hframed (h.streams i) fun _ _ _ => .inl
  · have hbefore := h.framed i
    rw [Framed, hworker] at hbefore
    have hreads := readsOn_proceeds (hproceeds hbefore.1)
    exact sound_setConnection h hreads.received hframed (hreads.stream _ _)
      fun key flags body hmem => .inl (hreads.replies key flags body hmem)

/-- The row of a blob that is opened. -/
theorem streamSound_open {g : Glacier} {known : BlobRef → Bytes → Prop} (h : Intact known g)
    {row : BlobPosition} (hrow : row ∈ g.db.blobPosition) (flags : Int) :
    StreamSound known g (.sendBlob row.key flags (row.bucketIndex % 2 ^ 64).toNat
      (columnSize row.bucketBlobOffset) (columnSize row.blobSize) []) := by
  obtain ⟨body, hknown, hsafe⟩ := h.rows row hrow
  obtain ⟨i, offset, file, hi, hoff, hsize, hlt, hend, -⟩ := id hsafe
  refine ⟨row, hrow, i, offset, body, hknown, hsafe, hi, hoff, ?_, ?_, ?_⟩
  · rw [hi]
    omega
  · rw [hoff, columnSize_of_lt (by omega)]
    rfl
  · rw [hsize, columnSize_of_lt (by omega)]

/-- The next bytes of the bucket are the next bytes of the body. -/
theorem streamSound_read {g : Glacier} {known : BlobRef → Bytes → Prop} {key : BlobRef}
    {flags : Int} {bucket offset remaining : Nat} {data file : Bytes}
    (h : StreamSound known g (.sendBlob key flags bucket offset remaining data))
    (hfile : g.dir.file bucket = some file) {k : Nat} (hk : k ≤ remaining) :
    StreamSound known g (.sendBlob key flags bucket (offset + (readAt file offset k).length)
      (remaining - (readAt file offset k).length) (data ++ readAt file offset k)) := by
  obtain ⟨row, hrow, i, start, rest, hknown, hsafe, hi, hstart, hbucket, hoffset, hremaining⟩ := h
  have hread : readAt file offset k = rest.take k := by
    obtain ⟨i', start', file', hi', hstart', -, -, -, hfile', -, -, hread, -⟩ := hsafe
    have hindex : i = i' := Int.ofNat.inj (hi.symm.trans hi')
    have hsame : start = start' := Int.ofNat.inj (hstart.symm.trans hstart')
    rw [← hindex, ← hbucket, hfile] at hfile'
    cases hfile'
    have hpart : data.length + k ≤ (data ++ rest).length := by
      rw [List.length_append, ← hremaining]
      exact Nat.add_le_add_left hk _
    rw [hoffset, hsame, readAt_part hpart, hread, List.drop_left]
  have hsplit : data ++ rest = data ++ readAt file offset k ++ rest.drop k := by
    rw [hread, List.append_assoc, List.take_append_drop]
  refine ⟨row, hrow, i, start, rest.drop k, hsplit ▸ hknown, hsplit ▸ hsafe, hi, hstart, hbucket, ?_, ?_⟩
  · rw [hoffset, List.length_append, Nat.add_assoc]
  · rw [hread, List.length_drop, List.length_take, hremaining]
    omega

/-- A worker that does not read has read its command as a whole. -/
theorem whole_of_framed {hash : Bytes → BlobRef} {c : Connection} (h : Framed hash c)
    (hreading : ∀ r remaining buf, c.worker ≠ .reading r remaining buf)
    (hended : ∀ res, c.worker ≠ .ended res) : ∃ cmds, c.received = frames cmds := by
  unfold Framed at h
  split at h
  · next r remaining buf hw => exact absurd hw (hreading r remaining buf)
  · exact h.2.2
  · next res hw => exact absurd hw (hended res)
  · exact h

/-- A worker that answers has read its command as a whole, and sends no blob but an uploaded
one. -/
theorem sound_answers (h : Sound env s) {w : Worker} {r : Reply}
    (hw : (s.connection i).worker = w) (hanswers : s.Answers w r) :
    Sound env (s.setConnection i
      ((s.connection i).answer r (Connection.nextCommand s.running))) := by
  have hstream := h.streams i
  rw [hw] at hstream
  refine sound_next h (whole_of_framed (h.framed i) ?_ ?_) fun key flags data heq => ?_
  · intro r remaining buf hreading
    rw [hw] at hreading
    cases hanswers with
    | _ => cases hreading
  · intro res hended
    rw [hw] at hended
    cases hanswers with
    | _ => cases hended
  · cases hanswers with
    | blob =>
      cases heq
      obtain ⟨row, hrow, i', start, rest, hknown, -, -, -, -, -, hrest⟩ := hstream
      have hnil : rest = [] := List.length_eq_zero_iff.mp hrest.symm
      rwa [hnil, List.append_nil] at hknown
    | _ => cases heq

theorem streamSound_moves (h : Sound env s) {n : Nat} {w w' : Worker}
    (hw : (s.connection i).worker = w) (hmoves : s.Moves env n w w') :
    StreamSound (Uploaded env.hash s.connection) s.glacier w' := by
  have hstream := h.streams i
  rw [hw] at hstream
  cases hmoves with
  | found hrow =>
    unfold Server.findBlob at hrow
    have hkey := List.find?_some hrow
    exact ⟨List.mem_of_find?_eq_some hrow, of_decide_eq_true hkey⟩
  | opened =>
    obtain ⟨hrow, rfl⟩ := hstream
    exact streamSound_open h.intact hrow _
  | read hfile hbuf =>
    rw [← hbuf]
    refine streamSound_read hstream hfile ?_
    exact Nat.le_trans (Nat.min_le_right _ _) (Nat.min_le_right _ _)
  | _ => trivial

theorem sound_moves (h : Sound env s) {n : Nat} {w w' : Worker}
    (hw : (s.connection i).worker = w) (hmoves : s.Moves env n w w') :
    Sound env (s.setConnection i ((s.connection i).goto w')) := by
  refine sound_goto h ?_ (streamSound_moves h hw hmoves)
  have hwhole := whole_of_framed (h.framed i)
  rw [hw] at hwhole
  cases hmoves with
  | notOpened | notQueued | notStored | notWatching => trivial
  | _ => exact hwhole (fun _ _ _ => Worker.noConfusion) fun _ => Worker.noConfusion

/-- A worker takes its turn. -/
theorem sound_turn (h : Sound env s) (i n : Nat) : Sound env (s.turn env i n) := by
  have hwhole := whole_of_framed (h.framed i)
  have hturned := s.turned env i n
  generalize s.turn env i n = s' at hturned ⊢
  cases hturned with
  | idle => exact h
  | answered hw hanswers => exact sound_answers h hw hanswers
  | moved hw hmoves => exact sound_moves h hw hmoves
  | queued hw htasks =>
    have hput := h.framed i
    rw [Framed, hw] at hput
    have hnext : Sound env (s.setConnection i ((s.connection i).goto .waitForTask)) :=
      sound_goto h hput.2.2 trivial
    refine ⟨hnext.framed, hnext.intact, fun t ht => ?_, hnext.persister, hnext.streams,
      hnext.replies⟩
    rw [TaskRing.queued_queueTask htasks] at ht
    rcases List.mem_append.mp ht with hold | hnew
    · exact hnext.tasks t hold
    · rw [List.mem_singleton.mp hnew]
      have hmore : ((s.connection i).goto .waitForTask).received =
        (s.connection i).received ++ [] := (List.append_nil _).symm
      exact uploaded_update hmore ⟨hput.2.1, i, hput.1⟩
  | @watching f slot watchers hw =>
    have hnext : Sound env (s.setConnection i ((s.connection i).goto
      (.listBlobs f (some slot)))) :=
        sound_goto h (hwhole (by simp [hw]) (by simp [hw])) trivial
    exact sound_watchers hnext watchers
  | reported hw =>
    refine sound_answer h (hwhole (by simp [hw]) (by simp [hw])) trivial ?_
    exact fun _ _ _ => Reply.noConfusion
  | ended => exact sound_endWatch h _ _
  | took hw =>
    rcases hw with hw | hw
    · exact sound_sendTaken h (hwhole (by simp [hw]) (by simp [hw]))
    · exact sound_sendTaken h (hwhole (by simp [hw]) (by simp [hw]))

theorem sound_hangUp (h : Sound env s) (i : Nat) : Sound env (s.hangUp i) := by
  unfold Server.hangUp
  simp only
  split
  · exact sound_ended h _
  · exact h
  · exact h
  · exact h
  · exact sound_endWatch h _ _
  · exact sound_endWatch h _ _
  · exact sound_endWatch h _ _
  · exact sound_endWatch h _ _
  · exact sound_ended h _

end Worker

/-! ## Steps of the persister -/

section Persister

variable {env : StorageEnv} {s : Server}

theorem opened_of_represents {g : Glacier} {log : SegLog Record} (h : Represents g log) :
    Opened g := by
  unfold Opened
  rw [h.currentBucketIndex]
  exact ⟨h.currentBucketF, _, h.file_current⟩

theorem sound_takeTask (hmax : env.maxBucketSize < 2 ^ 31) (h : Sound env s)
    (hup : s.halted = false) (now : UInt64) : Sound env (s.takeTask env now) := by
  have hpersister := h.persister hup
  unfold Server.takeTask
  split
  · next hidle =>
    rw [hidle] at hpersister
    obtain ⟨log, hlog⟩ := hpersister
    split
    · exact h
    · split
      · exact h
      · next task tasks htake =>
        have hqueued := TaskRing.queued_takeTask htake
        have hrest : ∀ t ∈ tasks.queued, Uploaded env.hash s.connection t.blob.key t.blob.body :=
          fun t ht => h.tasks t (hqueued ▸ List.mem_cons_of_mem task ht)
        have htask : Uploaded env.hash s.connection task.blob.key task.blob.body :=
          h.tasks task (hqueued ▸ List.mem_cons_self)
        split
        · exact ⟨h.framed, h.intact, hrest, fun _ => ⟨log, hlog⟩, h.streams, h.replies⟩
        · next ops hops =>
          have hindex : s.glacier.ctx.currentBucketIndex + 1 < 2 ^ 63 := by
            rw [hlog.currentBucketIndex]
            exact Nat.lt_of_le_of_lt (Nat.succ_le_succ (length_segments_le hlog)) (by decide)
          obtain ⟨halong, -⟩ := along_appendOps h.intact (opened_of_represents hlog) hindex hmax
            htask hops
          exact ⟨h.framed, h.intact, hrest,
            fun _ => ⟨s.glacier, log, [], hlog, hops, rfl, halong⟩, h.streams, h.replies⟩
  · exact h

/-- A call of the append keeps the streams. -/
theorem streamSound_stepOp {known : BlobRef → Bytes → Prop} {g : Glacier} {op : Op}
    (hallowed : Allowed known g op) {w : Worker} (h : StreamSound known g w) :
    StreamSound known (stepOp g op) w := by
  cases w with
  | openBucket key row => exact ⟨subset_stepOp g op h.1, h.2⟩
  | sendBlob key flags bucket offset remaining data =>
    obtain ⟨row, hrow, i, start, rest, hknown, hsafe, hrest⟩ := h
    exact ⟨row, subset_stepOp g op hrow, i, start, rest, hknown,
      safeAt_stepOp hallowed hrow hsafe, hrest⟩
  | _ => trivial

theorem sound_unlockDone (h : Sound env s) (i : Nat) (res : Res) :
    Sound env (s.unlockDone i res) := by
  unfold Server.unlockDone
  split
  · next hw =>
    have hcmds := whole_of_framed (h.framed i) (by simp [hw]) (by simp [hw])
    exact sound_goto h hcmds trivial
  · exact h

theorem unlockDone_glacier (s : Server) (i : Nat) (res : Res) :
    (s.unlockDone i res).glacier = s.glacier := by
  unfold Server.unlockDone
  split
  · rfl
  · rfl

theorem sound_persist (hmax : env.maxBucketSize < 2 ^ 31) (h : Sound env s)
    (hup : s.halted = false) : Sound env s.persist := by
  have hpersister := h.persister hup
  unfold Server.persist
  split
  · exact h
  · next task lastModified hp =>
    rw [hp] at hpersister
    obtain ⟨g0, log, made, hlog, hops, hrun, -⟩ := hpersister
    have happend : appendBlob env.maxBucketSize g0 task.blob lastModified = (.ok, s.glacier) := by
      rw [List.append_nil] at hops
      rw [appendBlob, hops]
      exact hrun
    obtain ⟨hsize, -, hlog', -⟩ := represents_appendBlob hmax hlog (congrArg Prod.fst happend)
    rw [happend] at hlog'
    exact ⟨h.framed, h.intact, h.tasks, fun _ => ⟨_, hlog'⟩, h.streams, h.replies⟩
  · next task lastModified op ops hp =>
    rw [hp] at hpersister
    obtain ⟨g0, log, made, hlog, hops, hrun, hallowed, halong⟩ := hpersister
    rcases runOp_of_allowed hallowed with hok | ⟨hpanic, -⟩
    · rw [hok]
      refine ⟨h.framed, intact_stepOp h.intact hallowed, h.tasks, fun _ => ?_,
        fun i => streamSound_stepOp hallowed (h.streams i), h.replies⟩
      refine ⟨g0, log, made ++ [op], hlog, ?_, ?_, halong⟩
      · rw [List.append_assoc]
        exact hops
      · rw [runOps_append_ok hrun, runOps_cons_ok hok]
        rfl
    · rw [hpanic]
      exact ⟨h.framed, h.intact, h.tasks, fun hup' => (nomatch hup'), h.streams, h.replies⟩
  · next task lastModified res hp =>
    rw [hp] at hpersister
    have hnext := sound_unlockDone h task.owner res
    refine ⟨hnext.framed, hnext.intact, hnext.tasks, fun _ => ?_, hnext.streams, hnext.replies⟩
    rw [unlockDone_glacier]
    simp only
    split
    · exact hpersister
    · exact hpersister
  · next blob hp =>
    rw [hp] at hpersister
    exact ⟨h.framed, h.intact, h.tasks, fun _ => hpersister, h.streams, h.replies⟩

end Persister

theorem sound_start (env : StorageEnv) : Sound env .start where
  framed _ := by
    have hworker : Connection.accepted.worker = Connection.nextCommand true := rfl
    have hreceived : Connection.accepted.received = frames [] := rfl
    exact framed_nextCommand hworker hreceived
  intact := intact_emptyGlacier _
  tasks t ht := by
    rw [show Server.start.tasks.queued = [] from TaskRing.queued_empty] at ht
    exact absurd ht List.not_mem_nil
  persister _ := ⟨_, represents_emptyGlacier⟩
  streams _ := by
    show StreamSound _ _ (Connection.nextCommand true)
    exact streamSound_nextCommand
  replies _ _ _ _ hmem := absurd hmem List.not_mem_nil

/-- One step of the server. -/
theorem sound_step {env : StorageEnv} (hmax : env.maxBucketSize < 2 ^ 31) {s : Server}
    (h : Sound env s) (e : ServerEvent) : Sound env (s.step env e) := by
  unfold Server.step
  split
  · exact h
  · next hup =>
    have hup' : s.halted = false := Bool.not_eq_true _ ▸ hup
    cases e with
    | receive i data => exact sound_receive h i data
    | hangUp i => exact sound_hangUp h i
    | turn i n => exact sound_turn h i n
    | takeTask now => exact sound_takeTask hmax h hup' now
    | persist => exact sound_persist hmax h hup'
    | shutdown => exact ⟨h.framed, h.intact, h.tasks, h.persister, h.streams, h.replies⟩
    | stopPersister => exact ⟨h.framed, h.intact, h.tasks, h.persister, h.streams, h.replies⟩

theorem sound_run {env : StorageEnv} (hmax : env.maxBucketSize < 2 ^ 31)
    (events : List ServerEvent) : Sound env (exec (Server.step env) .start events) := by
  induction events using List.reverseRecOn with
  | nil => exact sound_start env
  | append_singleton events e ih =>
    rw [exec_append_singleton]
    exact sound_step hmax ih e

end IntegrityLemmas

open IntegrityLemmas

/-- In every state of every run, a blob that a connection is being sent for a key is a
prefix of a body with that hash of which a put command was received, and a blob that was
sent to its end is such a body. -/
theorem streamed_blobs_intact (env : StorageEnv) (hmax : env.maxBucketSize ≤ 2 ^ 31 - 1)
    (events : List ServerEvent) (i : Nat) :
    (∀ key flags bucket offset remaining data,
      ((exec (Server.step env) .start events).connection i).worker =
        .sendBlob key flags bucket offset remaining data →
      ∃ rest, remaining = rest.length ∧ env.hash (data ++ rest) = key ∧
        ∃ j, PutReceived ((exec (Server.step env) .start events).connection j).received key
          (data ++ rest)) ∧
    ∀ key flags data,
      .blob key flags data ∈ ((exec (Server.step env) .start events).connection i).replies →
      env.hash data = key ∧
        ∃ j, PutReceived ((exec (Server.step env) .start events).connection j).received key data := by
  have h := sound_run (Nat.lt_of_le_of_lt hmax (by decide)) events
  refine ⟨fun key flags bucket offset remaining data hw => ?_, h.replies i⟩
  have hstream := h.streams i
  rw [hw] at hstream
  obtain ⟨row, -, bucket', start, rest, hknown, -, -, -, -, -, hremaining⟩ := hstream
  exact ⟨rest, hremaining, hknown⟩

/-- A client uploads the blob "x", and the persister takes the task. -/
def uploadLetter : List ServerEvent :=
  [.receive 0 [0x02, 0, 0, 0, 30], .receive 0 letterBlob.key.toList, .receive 0 [0],
    .receive 0 [0x78], .turn 0 0, .takeTask 7]

/-- Another client gets it. -/
def getLetter : List ServerEvent :=
  [.turn 0 0, .receive 1 [0x01, 0, 0], .receive 1 [0, 28], .receive 1 letterBlob.key.toList,
    .turn 1 0, .turn 1 0, .turn 1 4096, .turn 1 0]

def uploadThenGet : List ServerEvent :=
  uploadLetter ++ List.replicate 13 .persist ++ getLetter

/-- The other client receives what the first one sent. -/
theorem streamed_blobs_intact_letter :
    .blob letterBlob.key 0 [0x78] ∈ ((exec (Server.step (.inOrder sampleHash 1024)) .start
        uploadThenGet).connection 1).replies ∧
      sampleHash [0x78] = letterBlob.key ∧
      ∃ j, PutReceived ((exec (Server.step (.inOrder sampleHash 1024)) .start
        uploadThenGet).connection j).received letterBlob.key [0x78] :=
  have hsent : .blob letterBlob.key 0 [0x78] ∈ ((exec (Server.step (.inOrder sampleHash 1024))
      .start uploadThenGet).connection 1).replies := by decide +kernel
  ⟨hsent, (streamed_blobs_intact (.inOrder sampleHash 1024) (by decide) uploadThenGet 1).2 _ _ _
    hsent⟩

end Everarch
