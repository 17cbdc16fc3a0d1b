import Everarch.Cli.Compare
import Everarch.Handover.Pipe
import Everarch.Server.Framing
import Everarch.Server.Storage

/-!
# Syncing two storages

`evr_cli_sync` with its four workers, the two watch connections and the two storages. The
connections can be cut: a watch after any byte, that of a worker in each of its steps.

* `WatchStream`: what arrives of a watch before its connection ends, byte by byte.
* `SyncWorker.work`: one step of `blob_sync_worker` outside of the handover.
* `SyncRun.step`: one step of the comparing loop, of a worker or of a storage.
* `SyncRun.SyncOk`: what holds in every state.

The comparing loop writes its states before it hands an item over, not after it; nobody else
sees them.
-/

namespace Everarch

/-! ## Watches -/

/-- `evr_watch_blobs_body_n_size`. -/
def watchBlobsBodySize : Nat := blobRefSize + 8 + 1

/-- The bytes of a blob in the list of a watch. -/
def formatWatchBlobsBody (blob : ModifiedBlob) : Bytes :=
  blob.key.toList ++ beBytes 8 blob.lastModified ++ [UInt8.ofInt blob.flags]

/-- `evr_parse_watch_blobs_body`. -/
def parseWatchBlobsBody (buf : Bytes) : ModifiedBlob :=
  ⟨blobRefOf (readAt buf 0 blobRefSize), ofBeBytes (readAt buf blobRefSize 8),
    (buf.getD (blobRefSize + 8) 0).toNat⟩

/-- What arrives of a watch, and whether an error comes after it or the end. -/
structure WatchStream where
  bytes : Bytes
  fails : Bool

/-- `evr_read_watch_blobs_body`. `read_n` does not tell an end inside of a body from one
between two of them. -/
def readWatchBlobsBody (s : WatchStream) : Except Res (ModifiedBlob × WatchStream) :=
  if watchBlobsBodySize ≤ s.bytes.length then
    .ok (parseWatchBlobsBody (s.bytes.take watchBlobsBodySize),
      { s with bytes := s.bytes.drop watchBlobsBodySize })
  else .error (if s.fails then .error else .end_)

/-- Where the connection of a watch is cut. -/
structure Cut where
  after : Nat
  fails : Bool

/-- The blobs of a storage, in the order of their refs. -/
structure Content where
  rows : List BlobPosition
  ascending : Ascending (rows.map (·.key))
  dated : ∀ row ∈ rows, 0 ≤ row.lastModified

/-- The fields of `struct cli_cfg` that a sync reads. -/
structure SyncCfg where
  twoWay : Bool
  flags : UInt8

namespace SyncCfg

/-- The filter of both watches. -/
def filter (cfg : SyncCfg) : BlobFilter :=
  ⟨sortOrderRef, cfg.flags, 0⟩

def Matches (cfg : SyncCfg) (row : BlobPosition) : Prop :=
  cfg.filter.passes (toInt32 row.flags) = true

instance (cfg : SyncCfg) (row : BlobPosition) : Decidable (cfg.Matches row) :=
  inferInstanceAs (Decidable (_ = true))

/-- The blobs that a storage lists. -/
def listed (cfg : SyncCfg) (c : Content) : List ModifiedBlob :=
  listBlobsLoop cfg.filter none c.rows

def stream (cfg : SyncCfg) (c : Content) (cut : Cut) : WatchStream :=
  ⟨((cfg.listed c).flatMap formatWatchBlobsBody).take cut.after, cut.fails⟩

/-- The refs of the bodies that arrive completely. -/
def received (cfg : SyncCfg) (c : Content) (cut : Cut) : List BlobRef :=
  ((cfg.listed c).map (·.key)).take (cut.after / watchBlobsBodySize)

end SyncCfg

/-! ## Workers -/

/-- The calls of `blob_sync_worker` between two items. -/
inductive SyncStage where
  | connectSrc
  | connectDst
  | configure
  | get
  | readFlags
  | writePut (flags : Int)
  | pipe (flags : Int)
  | readResp
deriving DecidableEq

inductive WorkerPc where
  /-- Waits for an item or comes to it. -/
  | waiting
  /-- Has read the item and empties the handover. -/
  | got (item : SyncItem)
  | trying (item : SyncItem) (tries : Nat) (stage : SyncStage)
  | ended (res : Res)
deriving DecidableEq

/-- `c_src` and `c_dst` say which connections are open. -/
structure SyncWorker where
  cSrc : Bool
  cDst : Bool
  pc : WorkerPc
deriving DecidableEq

/-- How a call ends. After a call that failed the connections are closed, and that can fail
too. -/
inductive Outcome where
  | ok
  | fails
  | closeFails
deriving DecidableEq

/-- `max_tries`. -/
def maxTries : Nat := 3

namespace SyncWorker

def start : SyncWorker := ⟨false, false, .waiting⟩

/-- Connections that are open stay so. -/
def firstStage (w : SyncWorker) : SyncStage :=
  if !w.cSrc then .connectSrc
  else if !w.cDst then .connectDst
  else .get

/-- `continue_with_retry`. -/
def retry (item : SyncItem) (tries : Nat) : SyncWorker :=
  ⟨false, false,
    if tries + 1 < maxTries then .trying item (tries + 1) .connectSrc else .ended .error⟩

/-- A call that succeeds. `found` are the flags of the blob in the storage that it is read
from, `stored` says that the other storage has it. A response to get without flags is waited
for, and so is a response to put before the blob is stored. -/
def succeed (w : SyncWorker) (found : Option Int) (stored : Bool) (item : SyncItem) (tries : Nat) :
    SyncStage → SyncWorker
  | .connectSrc =>
    { w with cSrc := true, pc := .trying item tries (if w.cDst then .get else .connectDst) }
  | .connectDst => { w with cDst := true, pc := .trying item tries .configure }
  | .configure => { w with pc := .trying item tries .get }
  | .get => { w with pc := .trying item tries .readFlags }
  | .readFlags =>
    match found with
    | some flags => { w with pc := .trying item tries (.writePut flags) }
    | none => w
  | .writePut flags => { w with pc := .trying item tries (.pipe flags) }
  | .pipe _ => { w with pc := .trying item tries .readResp }
  | .readResp => if stored then { w with pc := .waiting } else w

/-- One call of `blob_sync_worker`. -/
def work (w : SyncWorker) (found : Option Int) (stored : Bool) (o : Outcome) : SyncWorker :=
  match w.pc, o with
  | .trying item tries stage, .ok => w.succeed found stored item tries stage
  | .trying _ _ .configure, .fails => ⟨false, false, .ended .error⟩
  | .trying item tries _, .fails => retry item tries
  | .trying _ _ _, .closeFails => if w.cSrc ∨ w.cDst then ⟨false, false, .ended .error⟩ else w
  | _, _ => w

end SyncWorker

/-! ## Runs -/

/-- Where `evr_cli_sync` is. -/
inductive LoopPc where
  | compare
  /-- In need of the handover for an item. -/
  | hand (item : SyncItem)
  /-- Has written the item and leaves the handover. -/
  | pushed
  /-- At `out_with_join_sync_thrds`. -/
  | finish
  | returned (res : Res)
deriving DecidableEq

def LoopPc.hands : LoopPc → Bool
  | .hand _ => true
  | _ => false

/-- `sync_thrd_count`. -/
def syncThrdCount : Nat := 4

instance (priority := 2000) : NeZero (syncThrdCount + 1) :=
  ⟨Nat.succ_ne_zero _⟩

/-- A run of `evr_cli_sync`. Thread 0 of the handover is the comparing loop, the others are the
workers. `handed` are the items that the loop has come to so far, `sent` those that a put
command was sent for, with the flags. -/
structure SyncRun where
  loop : LoopPc
  src : SideState
  dst : SideState
  srcStream : WatchStream
  dstStream : WatchStream
  handed : List SyncItem
  pipe : Pipe syncThrdCount SyncItem
  worker : Fin (syncThrdCount + 1) → SyncWorker
  srcRows : List BlobPosition
  dstRows : List BlobPosition
  sent : List (SyncItem × Int)

/-- A step of the loop, of a handover, of a worker or of a storage. -/
inductive SyncEvent where
  | pass (ready : Bool × Bool)
  | selectFails
  | ho (e : HandoverEvent (syncThrdCount + 1))
  | write
  | resume
  | read (i : Fin (syncThrdCount + 1))
  | begin (i : Fin (syncThrdCount + 1))
  | work (i : Fin (syncThrdCount + 1)) (o : Outcome)
  | quit (i : Fin (syncThrdCount + 1)) (closed : Bool)
  | store (item : SyncItem) (row : BlobPosition)
  | join (closed : Bool)

namespace SyncRun

def start (cfg : SyncCfg) (src dst : Content) (srcCut dstCut : Cut) : SyncRun where
  loop := .compare
  src := .want
  dst := .want
  srcStream := cfg.stream src srcCut
  dstStream := cfg.stream dst dstCut
  handed := []
  pipe := .start syncThrdCount ⟨.srcToDst, Vector.replicate blobRefSize 0⟩
  worker := fun _ => .start
  srcRows := src.rows
  dstRows := dst.rows
  sent := []

/-- The rows of the storage that an item is read from and of the one that it is written to. -/
def fromRows (s : SyncRun) : SyncDir → List BlobPosition
  | .srcToDst => s.srcRows
  | .dstToSrc => s.dstRows

def toRows (s : SyncRun) : SyncDir → List BlobPosition
  | .srcToDst => s.dstRows
  | .dstToSrc => s.srcRows

def Stored (s : SyncRun) (item : SyncItem) : Prop :=
  item.ref ∈ (s.toRows item.dir).map (·.key)

instance (s : SyncRun) (item : SyncItem) : Decidable (s.Stored item) :=
  inferInstanceAs (Decidable (_ ∈ _))

/-- The flags with which an item is read. -/
def found (s : SyncRun) (item : SyncItem) : Option Int :=
  ((s.fromRows item.dir).find? fun row => row.key = item.ref).map (·.flags)

/-- A read of a stream that is ready and of which a ref is wanted, none after an error. -/
def readIfReady (side : SideState) (stream : WatchStream) (ready : Bool) :
    Option (SideState × WatchStream) :=
  if side = .want ∧ ready then
    match readWatchBlobsBody stream with
    | .ok (blob, stream') => some (.has blob.key, stream')
    | .error .end_ => some (.end_, stream)
    | .error _ => none
  else some (side, stream)

/-- A pass of the loop up to the handover. -/
def pass (cfg : SyncCfg) (s : SyncRun) (ready : Bool × Bool) : SyncRun :=
  match readIfReady s.src s.srcStream ready.1, readIfReady s.dst s.dstStream ready.2 with
  | some (src, srcStream), some (dst, dstStream) =>
    let s := { s with srcStream := srcStream, dstStream := dstStream }
    match compareSides cfg.twoWay src dst with
    | .again => { s with src := src, dst := dst }
    | .stop => { s with src := src, dst := dst, loop := .finish }
    | .go none src dst => { s with src := src, dst := dst }
    | .go (some item) src dst =>
      { s with src := src, dst := dst, handed := s.handed ++ [item], loop := .hand item }
  -- the workers are not joined
  | _, _ => { s with loop := .returned .error }

def setWorker (s : SyncRun) (i : Fin (syncThrdCount + 1)) (w : SyncWorker) : SyncRun :=
  { s with worker := Function.update s.worker i w }

/-- What a worker does to the storages and to itself. -/
def workAt (s : SyncRun) (i : Fin (syncThrdCount + 1)) (o : Outcome) : SyncRun :=
  match (s.worker i).pc with
  | .trying item _ stage =>
    let s' := s.setWorker i ((s.worker i).work (s.found item) (s.Stored item) o)
    match stage, o with
    | .pipe flags, .ok => { s' with sent := s.sent ++ [(item, flags)] }
    | _, _ => s'
  | _ => s

/-- A storage stores a blob that it has received, unless it has it. -/
def store (s : SyncRun) (item : SyncItem) (row : BlobPosition) : SyncRun :=
  if (item, row.flags) ∈ s.sent ∧ row.key = item.ref ∧ ¬s.Stored item then
    match item.dir with
    | .srcToDst => { s with dstRows := s.dstRows ++ [row] }
    | .dstToSrc => { s with srcRows := s.srcRows ++ [row] }
  else s

/-- The worker is at its end, with a result. -/
def endedWith (s : SyncRun) (i : Fin (syncThrdCount + 1)) : Option Res :=
  match (s.worker i).pc with
  | .ended res => some res
  | _ => none

/-- No worker is left. -/
def AllEnded (s : SyncRun) : Prop :=
  ∀ i, i ≠ 0 → s.endedWith i ≠ none

instance (s : SyncRun) : Decidable s.AllEnded :=
  inferInstanceAs (Decidable (∀ _, _))

/-- `evr_finish_handover` has signalled once for each worker. The loop itself is one more
thread of the handover. -/
def Signalled (s : SyncRun) : Prop :=
  s.pipe.ho.ender = .loop 1

instance (s : SyncRun) : Decidable s.Signalled :=
  inferInstanceAs (Decidable (_ = _))

/-- Who calls the functions of the handover, and when. -/
def Calls (s : SyncRun) : HandoverEvent (syncThrdCount + 1) → Prop
  | .call i _ => if i = 0 then s.loop.hands = true else (s.worker i).pc = .waiting
  | .end_ _ => s.loop = .finish
  | .endSignal _ => ¬s.Signalled
  | _ => True

instance (s : SyncRun) : ∀ e, Decidable (s.Calls e)
  | .call i _ => inferInstanceAs (Decidable (if i = 0 then _ else _))
  | .end_ _ => inferInstanceAs (Decidable (_ = _))
  | .endSignal _ => inferInstanceAs (Decidable (¬_))
  | .acquire _ | .lock _ | .test _ | .sleep _ | .wake _ | .occupy _ | .empty _ | .signal _ _
  | .unlock _ => inferInstanceAs (Decidable True)

/-- One step. A step that is not possible in a state leaves it as it is. -/
def step (cfg : SyncCfg) (s : SyncRun) : SyncEvent → SyncRun
  | .pass ready => if s.loop = .compare then s.pass cfg ready else s
  | .selectFails => if s.loop = .compare then { s with loop := .returned .error } else s
  | .ho e => if s.Calls e then { s with pipe := s.pipe.step (.ho e) } else s
  | .write =>
    match s.loop with
    | .hand item =>
      if s.pipe.CanWrite then { s with pipe := s.pipe.step (.write item), loop := .pushed } else s
    | _ => s
  | .resume => if s.loop = .pushed ∧ s.pipe.ho.pc 0 = .out then { s with loop := .compare } else s
  | .read i =>
    if s.pipe.CanRead i ∧ (s.worker i).pc = .waiting then
      { s.setWorker i { s.worker i with pc := .got s.pipe.slot } with
        pipe := s.pipe.step (.read i) }
    else s
  | .begin i =>
    match (s.worker i).pc with
    | .got item =>
      if s.pipe.ho.pc i = .out then
        s.setWorker i { s.worker i with pc := .trying item 0 (s.worker i).firstStage }
      else s
    | _ => s
  | .work i o => s.workAt i o
  | .quit i closed =>
    if i ≠ 0 ∧ (s.worker i).pc = .waiting ∧ s.pipe.ho.pc i = .ended then
      s.setWorker i ⟨false, false, .ended (if closed then .ok else .error)⟩
    else s
  | .store item row => s.store item row
  | .join closed =>
    if s.loop = .finish ∧ s.Signalled ∧ s.AllEnded then
      let ok := closed ∧ ∀ i, i ≠ 0 → s.endedWith i = some .ok
      { s with loop := .returned (if ok then .ok else .error) }
    else s

end SyncRun

namespace SyncLemmas

open HandoverLemmas PipeLemmas CompareLemmas

/-! ## Lists -/

theorem keys_listBlobsLoop (f : BlobFilter) (found : Option BlobPosition)
    (rows : List BlobPosition) :
    (listBlobsLoop f found rows).map (·.key) = (found.map (·.key)).toList ++
      (rows.filter fun row => f.passes (toInt32 row.flags)).map (·.key) := by
  induction rows generalizing found with
  | nil =>
    cases found with
    | none => rfl
    | some row => rfl
  | cons row rows ih =>
    unfold listBlobsLoop
    split
    · next hpasses =>
      rw [List.filter_cons, if_pos hpasses, List.map_append, ih]
      cases found with
      | none => rfl
      | some row => rfl
    · next hpasses => rw [List.filter_cons, if_neg hpasses, ih]

/-- A storage lists the blobs that match. -/
theorem keys_listed (cfg : SyncCfg) (c : Content) :
    (cfg.listed c).map (·.key) = (c.rows.filter fun row => cfg.Matches row).map (·.key) := by
  unfold SyncCfg.listed
  rw [keys_listBlobsLoop]
  refine congrArg (List.map _) (List.filter_congr fun row _ => ?_)
  exact Bool.decide_eq_true.symm

theorem lt_of_memcmp {as bs : Bytes} (h : memcmp as bs = .lt) : as < bs := by
  induction as generalizing bs with
  | nil => cases h
  | cons a as ih =>
    cases bs with
    | nil => cases h
    | cons b bs =>
      unfold memcmp at h
      split at h
      · next heq =>
        subst heq
        exact List.Lex.cons (ih h)
      · split at h
        · next hlt => exact List.Lex.rel hlt
        · cases h

theorem sorted_rows (c : Content) :
    c.rows.Pairwise fun row row' => row.key.toList ≤ row'.key.toList := by
  refine (List.pairwise_map.mp c.ascending).imp fun {row row'} hlt => ?_
  exact List.le_of_lt (lt_of_memcmp hlt)

theorem unique_rows (c : Content) {row row' : BlobPosition} (hrow : row ∈ c.rows)
    (hrow' : row' ∈ c.rows) (hkey : row.key = row'.key) : row = row' := by
  have hnodup : (c.rows.map (·.key)).Nodup := c.ascending.imp fun hlt => ne_of_cmp hlt
  exact List.inj_on_of_nodup_map hnodup hrow hrow' hkey

/-- The server's list of a storage with these rows. -/
theorem glacierListBlobs_eq_listed (env : StorageEnv) (db : IndexDb) (cfg : SyncCfg) (c : Content)
    (hrows : db.blobPosition.Perm c.rows) :
    glacierListBlobs env db cfg.filter = some (cfg.listed c) := by
  have hdated : db.blobPosition.filter (fun row => ((0 : Nat) : Int) ≤ row.lastModified) =
      db.blobPosition := by
    refine List.filter_eq_self.mpr fun row hrow => decide_eq_true ?_
    exact c.dated row (hrows.subset hrow)
  have hsorted : env.byKey db.blobPosition = c.rows := by
    refine List.Perm.eq_of_pairwise ?_ (env.byKey_sorted _) (sorted_rows c)
      ((env.byKey_perm _).trans hrows)
    intro row row' hrow hrow' hle hge
    refine unique_rows c (hrows.subset ((env.byKey_perm _).subset hrow)) hrow' ?_
    exact Vector.toList_inj.mp (List.le_antisymm hle hge)
  show some (listBlobsLoop cfg.filter none (env.byKey (db.blobPosition.filter
    fun row => ((0 : Nat) : Int) ≤ row.lastModified))) = _
  rw [hdated, hsorted]
  rfl

/-! ## Streams -/

theorem length_formatWatchBlobsBody (blob : ModifiedBlob) :
    (formatWatchBlobsBody blob).length = watchBlobsBodySize := by
  unfold formatWatchBlobsBody
  rw [List.length_append, List.length_append, length_beBytes, Vector.length_toList]
  rfl

theorem key_parse_format (blob : ModifiedBlob) :
    (parseWatchBlobsBody (formatWatchBlobsBody blob)).key = blob.key := by
  have hread : readAt (formatWatchBlobsBody blob) 0 blobRefSize = blob.key.toList := by
    have hsplit : formatWatchBlobsBody blob = [] ++ blob.key.toList ++
        (beBytes 8 blob.lastModified ++ [UInt8.ofInt blob.flags]) := List.append_assoc ..
    exact readAt_middle hsplit rfl blob.key.length_toList
  show blobRefOf (readAt (formatWatchBlobsBody blob) 0 blobRefSize) = blob.key
  rw [hread]
  exact Vector.toList_inj.mp (FramingLemmas.toList_blobRefOf blob.key.length_toList)

/-- The refs of the bodies that still arrive completely. -/
def Arrives (stream : WatchStream) (rest : List BlobRef) : Prop :=
  ∃ (blobs : List ModifiedBlob) (cut : Nat), stream.bytes = (blobs.flatMap formatWatchBlobsBody).take cut ∧
    rest = (blobs.map (·.key)).take (cut / watchBlobsBodySize)

theorem arrives_stream (cfg : SyncCfg) (c : Content) (cut : Cut) :
    Arrives (cfg.stream c cut) (cfg.received c cut) :=
  ⟨_, _, rfl, rfl⟩

/-- Not even one body arrives. -/
theorem read_nil {stream : WatchStream} (h : Arrives stream []) :
    readWatchBlobsBody stream = .error (if stream.fails then .error else .end_) := by
  obtain ⟨blobs, cut, hbytes, hrest⟩ := h
  refine if_neg fun hle => ?_
  cases blobs with
  | nil =>
    rw [hbytes, List.flatMap_nil, List.take_nil] at hle
    exact absurd hle (by decide)
  | cons blob blobs =>
    have hcut : watchBlobsBodySize ≤ cut := by
      rw [hbytes, List.length_take] at hle
      exact hle.trans (Nat.min_le_left ..)
    have hpos : 0 < cut / watchBlobsBodySize := Nat.div_pos hcut (by decide)
    rw [← Nat.succ_pred_eq_of_pos hpos] at hrest
    cases hrest

theorem read_cons {stream : WatchStream} {ref : BlobRef} {rest : List BlobRef}
    (h : Arrives stream (ref :: rest)) :
    ∃ blob stream', readWatchBlobsBody stream = .ok (blob, stream') ∧ blob.key = ref ∧
      Arrives stream' rest := by
  obtain ⟨blobs, cut, hbytes, hrest⟩ := h
  cases blobs with
  | nil =>
    rw [List.map_nil, List.take_nil] at hrest
    cases hrest
  | cons blob blobs =>
    have hpos : 0 < cut / watchBlobsBodySize := by
      refine Nat.pos_of_ne_zero fun hzero => ?_
      rw [hzero] at hrest
      cases hrest
    have hcut : watchBlobsBodySize ≤ cut := (Nat.div_pos_iff.mp hpos).2
    have hlen := length_formatWatchBlobsBody blob
    -- the first body and what comes after it
    have hsplit : stream.bytes = formatWatchBlobsBody blob ++
        (blobs.flatMap formatWatchBlobsBody).take (cut - watchBlobsBodySize) := by
      rw [hbytes, List.flatMap_cons, List.take_append, hlen,
        List.take_of_length_le (hlen.trans_le hcut)]
    have hle : watchBlobsBodySize ≤ stream.bytes.length := by
      rw [hsplit, List.length_append, hlen]
      exact Nat.le_add_right ..
    rw [← Nat.succ_pred_eq_of_pos hpos, List.map_cons, List.take_succ_cons] at hrest
    obtain ⟨href, hrest⟩ := List.cons.inj hrest
    refine ⟨_, _, if_pos hle, ?_, blobs, cut - watchBlobsBodySize, ?_, ?_⟩
    · rw [hsplit, List.take_left' hlen, key_parse_format, href]
    · show stream.bytes.drop _ = _
      rw [hsplit, List.drop_left' hlen]
    · have hdiv := Nat.sub_mul_div cut watchBlobsBodySize 1
      rw [Nat.mul_one] at hdiv
      rw [hrest, hdiv]
      rfl

/-- A read of the bytes is a read of the refs. -/
theorem readIfReady_arrives {side side' : SideState} {stream stream' : WatchStream}
    {rest : List BlobRef} {ready : Bool} (h : Arrives stream rest)
    (hread : SyncRun.readIfReady side stream ready = some (side', stream')) :
    ∃ rest', Comparison.readIfReady side rest ready = (side', rest') ∧ Arrives stream' rest' := by
  unfold SyncRun.readIfReady at hread
  unfold Comparison.readIfReady
  split at hread
  · next hwant =>
    rw [if_pos hwant]
    cases rest with
    | nil =>
      rw [read_nil h] at hread
      cases hfails : stream.fails with
      | true =>
        rw [hfails] at hread
        cases hread
      | false =>
        rw [hfails] at hread
        cases hread
        exact ⟨[], rfl, h⟩
    | cons ref rest =>
      obtain ⟨blob, stream'', hok, rfl, harrives⟩ := read_cons h
      rw [hok] at hread
      cases hread
      exact ⟨rest, rfl, harrives⟩
  · next hwant =>
    rw [if_neg hwant]
    cases hread
    exact ⟨rest, rfl, h⟩

/-! ## What one call of a worker does -/

theorem work_cases {w : SyncWorker} {item : SyncItem} {tries : Nat} {stage : SyncStage}
    (hpc : w.pc = .trying item tries stage) (found : Option Int) (stored : Bool) (o : Outcome) :
    (∃ tries' stage', (w.work found stored o).pc = .trying item tries' stage') ∨
      (w.work found stored o).pc = .waiting ∧ stored = true ∨
      (w.work found stored o).pc = .ended .error := by
  have hretry : (∃ tries' stage', (SyncWorker.retry item tries).pc = .trying item tries' stage') ∨
      (SyncWorker.retry item tries).pc = .waiting ∧ stored = true ∨
      (SyncWorker.retry item tries).pc = .ended .error := by
    unfold SyncWorker.retry
    split
    · exact .inl ⟨_, _, rfl⟩
    · exact .inr (.inr rfl)
  unfold SyncWorker.work
  rw [hpc]
  cases o with
  | ok =>
    cases stage with
    | readFlags =>
      cases found with
      | none => exact .inl ⟨_, _, hpc⟩
      | some flags => exact .inl ⟨_, _, rfl⟩
    | readResp =>
      cases stored with
      | true => exact .inr (.inl ⟨rfl, rfl⟩)
      | false => exact .inl ⟨_, _, hpc⟩
    | _ => exact .inl ⟨_, _, rfl⟩
  | fails =>
    cases stage with
    | configure => exact .inr (.inr rfl)
    | _ => exact hretry
  | closeFails =>
    dsimp only
    split
    · exact .inr (.inr rfl)
    · exact .inl ⟨_, _, hpc⟩

/-! ## The invariant -/

/-- The item that the loop has come to and not yet written. -/
def unwritten : LoopPc → Option SyncItem
  | .hand item => some item
  | _ => none

/-- The loop has ended. -/
def isOver : LoopPc → Bool
  | .finish | .returned _ => true
  | _ => false

/-- The item that a worker is about to copy. -/
def held : WorkerPc → Option SyncItem
  | .got item | .trying item _ _ => some item
  | _ => none

/-- Where a worker is in the handover. -/
def Placed : WorkerPc → ThreadPc → Prop
  | .trying _ _ _, pc => pc = .out
  | .ended .ok, pc => pc = .ended
  | .ended _, pc => pc = .out ∨ pc = .ended
  | _, _ => True

/-- Rows that were there at first, and those of items that were read from the handover. -/
def Grown (s : SyncRun) (dir : SyncDir) (rows rows' : List BlobPosition) : Prop :=
  ∃ new, rows' = rows ++ new ∧ ∀ row ∈ new, ⟨dir, row.key⟩ ∈ s.pipe.read

structure SyncOk (cfg : SyncCfg) (src dst : Content) (srcCut dstCut : Cut) (s : SyncRun) :
    Prop where
  pipe : PipeOk s.pipe
  streams : ∃ srcRest dstRest, Arrives s.srcStream srcRest ∧ Arrives s.dstStream dstRest ∧
    CompareOk cfg.twoWay (cfg.received src srcCut) (cfg.received dst dstCut)
      ⟨s.src, s.dst, srcRest, dstRest, s.handed, decide (s.src = .end_ ∧ s.dst = .end_)⟩
  ends : s.loop = .finish ∨ s.loop = .returned .ok → s.src = .end_ ∧ s.dst = .end_
  ended : s.src = .end_ ∧ s.dst = .end_ → isOver s.loop = true
  hands : s.handed = s.pipe.written ++ (unwritten s.loop).toList
  awaiting : awaits (s.pipe.ho.pc 0) ≠ none → s.loop.hands = true
  placed : ∀ i, i ≠ 0 → Placed (s.worker i).pc (s.pipe.ho.pc i)
  heldRead : ∀ i item, held (s.worker i).pc = some item → item ∈ s.pipe.read
  /-- An item that was read is copied, or a worker is at it, or a worker has given up. -/
  items : ∀ item ∈ s.pipe.read, s.Stored item ∨ (∃ i, i ≠ 0 ∧ held (s.worker i).pc = some item) ∨
    ∃ i, i ≠ 0 ∧ s.endedWith i = some .error
  sent : ∀ p ∈ s.sent, p.1 ∈ s.pipe.read
  srcRows : Grown s .dstToSrc src.rows s.srcRows
  dstRows : Grown s .srcToDst dst.rows s.dstRows
  returned : s.loop = .returned .ok → ∀ i, i ≠ 0 → s.endedWith i = some .ok
  first : (s.worker 0).pc = .waiting

section Step

variable {cfg : SyncCfg} {src dst : Content} {srcCut dstCut : Cut} {s : SyncRun}

theorem not_ends {src dst : SideState} (h : src = .want ∨ dst = .want) :
    ¬(src = .end_ ∧ dst = .end_) := by
  rintro ⟨hsrc, hdst⟩
  rw [hsrc, hdst] at h
  rcases h with h | h
  · cases h
  · cases h

theorem handed_of_unwritten (h : SyncOk cfg src dst srcCut dstCut s)
    (hnone : unwritten s.loop = none) : s.handed = s.pipe.written := by
  rw [h.hands, hnone]
  exact List.append_nil _

theorem idle_of_not_hands (h : SyncOk cfg src dst srcCut dstCut s)
    (hnot : s.loop.hands = false) : awaits (s.pipe.ho.pc 0) = none := by
  by_contra hawaits
  rw [h.awaiting hawaits] at hnot
  cases hnot

/-- While the loop goes on, a stream has more. -/
theorem not_ends_of_running (h : SyncOk cfg src dst srcCut dstCut s)
    (hruns : isOver s.loop = false) : ¬(s.src = .end_ ∧ s.dst = .end_) := by
  intro hends
  rw [h.ended hends] at hruns
  cases hruns

/-- The loop ends without the workers. -/
theorem syncOk_failed (h : SyncOk cfg src dst srcCut dstCut s) (hloop : s.loop = .compare) :
    SyncOk cfg src dst srcCut dstCut { s with loop := .returned .error } := by
  have hhands := handed_of_unwritten h (by rw [hloop]; rfl)
  have hidle := idle_of_not_hands h (by rw [hloop]; rfl)
  refine ⟨h.pipe, h.streams, ?_, fun _ => rfl, ?_, fun hawaits => absurd hidle hawaits, h.placed,
    h.heldRead, h.items, h.sent, h.srcRows, h.dstRows, ?_, h.first⟩
  · rintro (hends | hends)
    · cases hends
    · cases hends
  · exact hhands.trans (List.append_nil _).symm
  · exact fun hret => absurd (LoopPc.returned.inj hret) Res.noConfusion

theorem syncOk_pass (h : SyncOk cfg src dst srcCut dstCut s) (hloop : s.loop = .compare)
    (ready : Bool × Bool) : SyncOk cfg src dst srcCut dstCut (s.pass cfg ready) := by
  obtain ⟨srcRest, dstRest, hsrc, hdst, hkept⟩ := h.streams
  have hhands := handed_of_unwritten h (by rw [hloop]; rfl)
  have hidle := idle_of_not_hands h (by rw [hloop]; rfl)
  have hgoes := not_ends_of_running h (by rw [hloop]; rfl)
  have hcompares : ¬(s.loop = .finish ∨ s.loop = .returned .ok) := by
    rw [hloop]
    rintro (hends | hends)
    · cases hends
    · cases hends
  unfold SyncRun.pass
  split
  · next src' srcStream dst' dstStream hreadSrc hreadDst =>
    obtain ⟨srcRest', hreadSrc', hsrc'⟩ := readIfReady_arrives hsrc hreadSrc
    obtain ⟨dstRest', hreadDst', hdst'⟩ := readIfReady_arrives hdst hreadDst
    have hstep := kept_step hkept ready
    simp only [Comparison.step, hreadSrc', hreadDst', decide_eq_true_eq, if_neg hgoes] at hstep
    dsimp only
    split
    · next hagain =>
      rw [hagain] at hstep
      have hnot : ¬(src' = .end_ ∧ dst' = .end_) := not_ends (wants_of_again hagain)
      refine ⟨h.pipe, ⟨_, _, hsrc', hdst', ?_⟩, ?_, fun hends => absurd hends hnot, h.hands,
        h.awaiting, h.placed, h.heldRead, h.items, h.sent, h.srcRows, h.dstRows, h.returned,
        h.first⟩
      · rw [decide_eq_false hnot]
        exact hstep
      · exact fun hends => absurd hends hcompares
    · next hstop =>
      rw [hstop] at hstep
      have hends := ended_of_stop hstop
      refine ⟨h.pipe, ⟨_, _, hsrc', hdst', ?_⟩, fun _ => hends, fun _ => rfl, ?_,
        fun hawaits => absurd hidle hawaits, h.placed, h.heldRead, h.items, h.sent, h.srcRows,
        h.dstRows, LoopPc.noConfusion, h.first⟩
      · rw [decide_eq_true hends]
        exact hstep
      · exact hhands.trans (List.append_nil _).symm
    · next src'' dst'' hgo =>
      rw [hgo] at hstep
      have hnot : ¬(src'' = .end_ ∧ dst'' = .end_) := not_ends (ends_compareSides hgo).2.2
      refine ⟨h.pipe, ⟨_, _, hsrc', hdst', ?_⟩, ?_, fun hends => absurd hends hnot, h.hands,
        h.awaiting, h.placed, h.heldRead, h.items, h.sent, h.srcRows, h.dstRows, h.returned,
        h.first⟩
      · rw [decide_eq_false hnot]
        exact (List.append_nil s.handed) ▸ hstep
      · exact fun hends => absurd hends hcompares
    · next item src'' dst'' hgo =>
      rw [hgo] at hstep
      have hnot : ¬(src'' = .end_ ∧ dst'' = .end_) := not_ends (ends_compareSides hgo).2.2
      refine ⟨h.pipe, ⟨_, _, hsrc', hdst', ?_⟩, ?_, fun hends => absurd hends hnot, ?_,
        fun _ => rfl, h.placed, h.heldRead, h.items, h.sent, h.srcRows, h.dstRows,
        LoopPc.noConfusion, h.first⟩
      · rw [decide_eq_false hnot]
        exact hstep
      · rintro (hends | hends)
        · cases hends
        · cases hends
      · show s.handed ++ [item] = _
        rw [hhands]
        rfl
  · exact syncOk_failed h hloop

/-! ### Steps of the handover -/

theorem ho_keeps (p : Pipe syncThrdCount SyncItem) (e : HandoverEvent (syncThrdCount + 1)) :
    (p.step (.ho e)).written = p.written ∧ (p.step (.ho e)).read = p.read := by
  simp only [Pipe.step]
  split
  · exact ⟨rfl, rfl⟩
  · exact ⟨rfl, rfl⟩

/-- A thread stays where it is, or its program makes the step. -/
theorem ho_hop (p : Pipe syncThrdCount SyncItem) (e : HandoverEvent (syncThrdCount + 1))
    (i : Fin (syncThrdCount + 1)) :
    (p.step (.ho e)).ho.pc i = p.ho.pc i ∨
      p.Allowed e ∧ Handover.Hop p.ho e i (p.ho.pc i) ((p.step (.ho e)).ho.pc i) := by
  simp only [Pipe.step]
  split
  · next hallowed =>
    rcases step_cases p.ho e with hsame | hmove
    · exact .inl (congrArg (·.pc i) hsame)
    · exact (hop_of_move hmove i).imp_right fun hhop => ⟨hallowed, hhop⟩
  · exact .inl rfl

/-- The loop comes to wait for the handover by a call only. -/
theorem awaiting_ho (h : SyncOk cfg src dst srcCut dstCut s)
    {e : HandoverEvent (syncThrdCount + 1)} (hcalls : s.Calls e)
    (hawaits : awaits ((s.pipe.step (.ho e)).ho.pc 0) ≠ none) : s.loop.hands = true := by
  rcases ho_hop s.pipe e 0 with hsame | ⟨-, hhop⟩
  · exact h.awaiting (hsame ▸ hawaits)
  · have hold := h.awaiting
    generalize s.pipe.ho.pc 0 = pc at hhop hold
    generalize (s.pipe.step (.ho e)).ho.pc 0 = pc' at hhop hawaits
    cases hhop with
    | call _ => exact hcalls
    | lock => exact hold hawaits
    | doze _ => exact hold hawaits
    | sleep => exact hold hawaits
    | wake => exact hold hawaits
    | _ => exact absurd rfl hawaits

/-- A worker that is outside of the handover stays there while it does not wait for an item. -/
theorem outside_ho {e : HandoverEvent (syncThrdCount + 1)} (hcalls : s.Calls e)
    {i : Fin (syncThrdCount + 1)} (hi : i ≠ 0) (hbusy : (s.worker i).pc ≠ .waiting)
    (hout : s.pipe.ho.pc i = .out ∨ s.pipe.ho.pc i = .ended) :
    (s.pipe.step (.ho e)).ho.pc i = s.pipe.ho.pc i := by
  rcases ho_hop s.pipe e i with hsame | ⟨hallowed, hhop⟩
  · exact hsame
  · generalize s.pipe.ho.pc i = pc at hhop hout
    generalize (s.pipe.step (.ho e)).ho.pc i = pc' at hhop
    cases hhop with
    | call _ => exact absurd ((if_neg hi).mp hcalls) hbusy
    | acquire _ => exact hallowed.elim
    | unlock hpc =>
      rcases hpc with rfl | rfl
      · rcases hout with hout | hout
        · cases hout
        · cases hout
      · rcases hout with hout | hout
        · cases hout
        · cases hout
    | _ =>
      rcases hout with hout | hout
      · cases hout
      · cases hout

theorem placed_ho (h : SyncOk cfg src dst srcCut dstCut s)
    {e : HandoverEvent (syncThrdCount + 1)} (hcalls : s.Calls e) (i : Fin (syncThrdCount + 1))
    (hi : i ≠ 0) : Placed (s.worker i).pc ((s.pipe.step (.ho e)).ho.pc i) := by
  have hold := h.placed i hi
  cases hpc : (s.worker i).pc with
  | waiting => trivial
  | got item => trivial
  | trying item tries stage =>
    rw [hpc] at hold
    rw [outside_ho hcalls hi (by rw [hpc]; exact WorkerPc.noConfusion) (.inl hold)]
    exact hold
  | ended res =>
    have hout : s.pipe.ho.pc i = .out ∨ s.pipe.ho.pc i = .ended := by
      rw [hpc] at hold
      cases res with
      | ok => exact .inr hold
      | _ => exact hold
    rw [outside_ho hcalls hi (by rw [hpc]; exact WorkerPc.noConfusion) hout, ← hpc]
    exact hold

theorem syncOk_ho (h : SyncOk cfg src dst srcCut dstCut s)
    {e : HandoverEvent (syncThrdCount + 1)} (hcalls : s.Calls e) :
    SyncOk cfg src dst srcCut dstCut { s with pipe := s.pipe.step (.ho e) } := by
  obtain ⟨hwritten, hread⟩ := ho_keeps s.pipe e
  refine ⟨pipeOk_step h.pipe (.ho e), h.streams, h.ends, h.ended, ?_, awaiting_ho h hcalls,
    placed_ho h hcalls, ?_, ?_, ?_, ?_, ?_, h.returned, h.first⟩
  · exact hwritten.symm ▸ h.hands
  · exact hread.symm ▸ h.heldRead
  · exact hread.symm ▸ h.items
  · exact hread.symm ▸ h.sent
  · obtain ⟨new, hnew, hmem⟩ := h.srcRows
    exact ⟨new, hnew, hread.symm ▸ hmem⟩
  · obtain ⟨new, hnew, hmem⟩ := h.dstRows
    exact ⟨new, hnew, hread.symm ▸ hmem⟩

/-! ### Steps of the loop -/

theorem syncOk_write (h : SyncOk cfg src dst srcCut dstCut s) {item : SyncItem}
    (hloop : s.loop = .hand item) (hcan : s.pipe.CanWrite) :
    SyncOk cfg src dst srcCut dstCut
      { s with pipe := s.pipe.step (.write item), loop := .pushed } := by
  have hpipe := pipeOk_step h.pipe (.write item)
  have hwrite : s.pipe.step (.write item) =
      ⟨s.pipe.ho, item, true, s.pipe.written ++ [item], s.pipe.read⟩ := if_pos hcan
  have hgoes := not_ends_of_running h (by rw [hloop]; rfl)
  rw [hwrite] at hpipe ⊢
  refine ⟨hpipe, h.streams, ?_, fun hends => absurd hends hgoes, ?_, ?_, h.placed, h.heldRead,
    h.items, h.sent, h.srcRows, h.dstRows, LoopPc.noConfusion, h.first⟩
  · rintro (hends | hends)
    · cases hends
    · cases hends
  · have hhands := h.hands
    rw [hloop] at hhands
    exact hhands.trans (List.append_nil _).symm
  · intro hawaits
    have hpc : s.pipe.ho.pc 0 = .inside := hcan.1
    rw [hpc] at hawaits
    exact absurd rfl hawaits

theorem syncOk_resume (h : SyncOk cfg src dst srcCut dstCut s) (hloop : s.loop = .pushed)
    (hout : s.pipe.ho.pc 0 = .out) :
    SyncOk cfg src dst srcCut dstCut { s with loop := .compare } := by
  have hhands := handed_of_unwritten h (by rw [hloop]; rfl)
  have hgoes := not_ends_of_running h (by rw [hloop]; rfl)
  refine ⟨h.pipe, h.streams, ?_, fun hends => absurd hends hgoes, ?_, ?_, h.placed, h.heldRead,
    h.items, h.sent, h.srcRows, h.dstRows, LoopPc.noConfusion, h.first⟩
  · rintro (hends | hends)
    · cases hends
    · cases hends
  · exact hhands.trans (List.append_nil _).symm
  · intro hawaits
    have hnone : awaits (s.pipe.ho.pc 0) ≠ none := hawaits
    rw [hout] at hnone
    exact absurd rfl hnone

theorem syncOk_join (h : SyncOk cfg src dst srcCut dstCut s) (hloop : s.loop = .finish)
    {res : Res} (hres : res = .ok → ∀ i, i ≠ 0 → s.endedWith i = some .ok) :
    SyncOk cfg src dst srcCut dstCut { s with loop := .returned res } := by
  have hhands := handed_of_unwritten h (by rw [hloop]; rfl)
  have hidle := idle_of_not_hands h (by rw [hloop]; rfl)
  refine ⟨h.pipe, h.streams, fun _ => h.ends (.inl hloop), fun _ => rfl, ?_,
    fun hawaits => absurd hidle hawaits, h.placed, h.heldRead, h.items, h.sent, h.srcRows,
    h.dstRows, fun hret => hres (LoopPc.returned.inj hret), h.first⟩
  exact hhands.trans (List.append_nil _).symm

/-! ### Steps of the workers -/

@[simp] theorem setWorker_self (s : SyncRun) (i : Fin (syncThrdCount + 1)) (w : SyncWorker) :
    (s.setWorker i w).worker i = w :=
  Function.update_self ..

theorem setWorker_of_ne {i j : Fin (syncThrdCount + 1)} (h : j ≠ i) (w : SyncWorker) :
    (s.setWorker i w).worker j = s.worker j :=
  Function.update_of_ne h ..

theorem endedWith_eq_some {i : Fin (syncThrdCount + 1)} {res : Res} :
    s.endedWith i = some res ↔ (s.worker i).pc = .ended res := by
  unfold SyncRun.endedWith
  split
  · next res' hpc =>
    rw [hpc]
    exact ⟨fun heq => congrArg _ (Option.some.inj heq), fun heq => congrArg _ (WorkerPc.ended.inj heq)⟩
  · next hne => exact iff_of_false (Option.some_ne_none res).symm (hne res)

/-- A worker that is not at its end gets on with its item, or has copied it, or gives up. -/
structure Proceeds (s : SyncRun) (i : Fin (syncThrdCount + 1)) (w : SyncWorker) : Prop where
  proper : i ≠ 0
  live : ∀ res, (s.worker i).pc ≠ .ended res
  placed : Placed w.pc (s.pipe.ho.pc i)
  held : ∀ item, held w.pc = some item → held (s.worker i).pc = some item
  item : ∀ item, SyncLemmas.held (s.worker i).pc = some item →
    s.Stored item ∨ SyncLemmas.held w.pc = some item ∨ w.pc = .ended .error

theorem syncOk_setWorker (h : SyncOk cfg src dst srcCut dstCut s) {i : Fin (syncThrdCount + 1)}
    {w : SyncWorker} (hw : Proceeds s i w) :
    SyncOk cfg src dst srcCut dstCut (s.setWorker i w) := by
  refine ⟨h.pipe, h.streams, h.ends, h.ended, h.hands, h.awaiting, ?_, ?_, ?_, h.sent, h.srcRows,
    h.dstRows, ?_, ?_⟩
  · intro j hj
    by_cases hji : j = i
    · subst hji
      rw [setWorker_self]
      exact hw.placed
    · rw [setWorker_of_ne hji]
      exact h.placed j hj
  · intro j item hitem
    by_cases hji : j = i
    · subst hji
      rw [setWorker_self] at hitem
      exact h.heldRead j item (hw.held item hitem)
    · rw [setWorker_of_ne hji] at hitem
      exact h.heldRead j item hitem
  · intro item hitem
    rcases h.items item hitem with hstored | ⟨j, hj, hheld⟩ | ⟨j, hj, hended⟩
    · exact .inl hstored
    · by_cases hji : j = i
      · subst hji
        rcases hw.item item hheld with hstored | hheld' | hended
        · exact .inl hstored
        · exact .inr (.inl ⟨j, hj, by rw [setWorker_self]; exact hheld'⟩)
        · refine .inr (.inr ⟨j, hj, endedWith_eq_some.mpr ?_⟩)
          rw [setWorker_self]
          exact hended
      · exact .inr (.inl ⟨j, hj, by rw [setWorker_of_ne hji]; exact hheld⟩)
    · have hpc := endedWith_eq_some.mp hended
      have hji : j ≠ i := by
        rintro rfl
        exact hw.live _ hpc
      refine .inr (.inr ⟨j, hj, endedWith_eq_some.mpr ?_⟩)
      rw [setWorker_of_ne hji]
      exact hpc
  · intro hret j hj
    have hpc := endedWith_eq_some.mp (h.returned hret j hj)
    have hji : j ≠ i := by
      rintro rfl
      exact hw.live _ hpc
    rw [endedWith_eq_some, setWorker_of_ne hji]
    exact hpc
  · rw [setWorker_of_ne hw.proper.symm]
    exact h.first

theorem grown_read {s' : SyncRun} {dir : SyncDir} {rows rows' : List BlobPosition}
    (h : Grown s dir rows rows') (hread : s.pipe.read ⊆ s'.pipe.read) :
    Grown s' dir rows rows' := by
  obtain ⟨new, hnew, hmem⟩ := h
  exact ⟨new, hnew, fun row hrow => hread (hmem row hrow)⟩

theorem syncOk_read (h : SyncOk cfg src dst srcCut dstCut s) {i : Fin (syncThrdCount + 1)}
    (hcan : s.pipe.CanRead i) (hwaits : (s.worker i).pc = .waiting) :
    SyncOk cfg src dst srcCut dstCut
      { s.setWorker i { s.worker i with pc := .got s.pipe.slot } with
        pipe := s.pipe.step (.read i) } := by
  have hpipe := pipeOk_step h.pipe (.read i)
  have hread : s.pipe.step (.read i) =
      ⟨s.pipe.ho, s.pipe.slot, true, s.pipe.written, s.pipe.read ++ [s.pipe.slot]⟩ := if_pos hcan
  rw [hread] at hpipe ⊢
  -- the worker had no item and was not at its end
  have hother {j : Fin (syncThrdCount + 1)} (hj : (s.worker j).pc ≠ .waiting) :
      (s.setWorker i { s.worker i with pc := .got s.pipe.slot }).worker j = s.worker j := by
    refine setWorker_of_ne ?_ _
    rintro rfl
    exact hj hwaits
  refine ⟨hpipe, h.streams, h.ends, h.ended, h.hands, h.awaiting, ?_, ?_, ?_, ?_, ?_, ?_, ?_, ?_⟩
  · intro j hj
    show Placed ((s.setWorker i _).worker j).pc _
    by_cases hji : j = i
    · subst hji
      rw [setWorker_self]
      trivial
    · rw [setWorker_of_ne hji]
      exact h.placed j hj
  · intro j item hitem
    have hheld : held ((s.setWorker i _).worker j).pc = some item := hitem
    by_cases hji : j = i
    · subst hji
      rw [setWorker_self] at hheld
      cases hheld
      exact List.mem_append_right _ (List.mem_singleton.mpr rfl)
    · rw [setWorker_of_ne hji] at hheld
      exact List.mem_append_left _ (h.heldRead j item hheld)
  · intro item hitem
    rcases List.mem_append.mp hitem with hold | hnew
    · rcases h.items item hold with hstored | ⟨j, hj, hheld⟩ | ⟨j, hj, hended⟩
      · exact .inl hstored
      · refine .inr (.inl ⟨j, hj, ?_⟩)
        show held ((s.setWorker i _).worker j).pc = some item
        rw [hother]
        · exact hheld
        · intro hpc
          rw [hpc] at hheld
          cases hheld
      · refine .inr (.inr ⟨j, hj, endedWith_eq_some.mpr ?_⟩)
        have hpc := endedWith_eq_some.mp hended
        show ((s.setWorker i _).worker j).pc = _
        rw [hother]
        · exact hpc
        · rw [hpc]
          exact WorkerPc.noConfusion
    · obtain rfl := List.mem_singleton.mp hnew
      refine .inr (.inl ⟨i, hcan.1, ?_⟩)
      show held ((s.setWorker i _).worker i).pc = _
      rw [setWorker_self]
      rfl
  · exact fun p hp => List.mem_append_left _ (h.sent p hp)
  · exact grown_read h.srcRows (List.subset_append_left ..)
  · exact grown_read h.dstRows (List.subset_append_left ..)
  · intro hret
    have hended := h.returned hret i hcan.1
    rw [endedWith_eq_some, hwaits] at hended
    cases hended
  · show ((s.setWorker i _).worker 0).pc = _
    rw [setWorker_of_ne hcan.1.symm]
    exact h.first

theorem proper_of_busy (h : SyncOk cfg src dst srcCut dstCut s) {i : Fin (syncThrdCount + 1)}
    (hbusy : (s.worker i).pc ≠ .waiting) : i ≠ 0 := by
  rintro rfl
  exact hbusy h.first

theorem syncOk_begin (h : SyncOk cfg src dst srcCut dstCut s) {i : Fin (syncThrdCount + 1)}
    {item : SyncItem} (hpc : (s.worker i).pc = .got item) (hout : s.pipe.ho.pc i = .out) :
    SyncOk cfg src dst srcCut dstCut
      (s.setWorker i { s.worker i with pc := .trying item 0 (s.worker i).firstStage }) := by
  refine syncOk_setWorker h ⟨?_, ?_, hout, ?_, ?_⟩
  · exact proper_of_busy h (by rw [hpc]; exact WorkerPc.noConfusion)
  · rw [hpc]
    exact fun _ => WorkerPc.noConfusion
  · rw [hpc]
    exact fun _ => id
  · rw [hpc]
    exact fun _ hitem => .inr (.inl hitem)

theorem proceeds_work (h : SyncOk cfg src dst srcCut dstCut s) {i : Fin (syncThrdCount + 1)}
    {item : SyncItem} {tries : Nat} {stage : SyncStage}
    (hpc : (s.worker i).pc = .trying item tries stage) (o : Outcome) :
    Proceeds s i ((s.worker i).work (s.found item) (s.Stored item) o) := by
  have hi : i ≠ 0 := proper_of_busy h (by rw [hpc]; exact WorkerPc.noConfusion)
  have hout : s.pipe.ho.pc i = .out := by
    have hplaced := h.placed i hi
    rw [hpc] at hplaced
    exact hplaced
  have hlive : ∀ res, (s.worker i).pc ≠ .ended res := by
    rw [hpc]
    exact fun _ => WorkerPc.noConfusion
  rcases work_cases hpc (s.found item) (s.Stored item) o with ⟨_, _, hw⟩ | ⟨hw, hstored⟩ | hw
  · refine ⟨hi, hlive, hw ▸ hout, ?_, ?_⟩
    · rw [hw, hpc]
      exact fun _ => id
    · rw [hw, hpc]
      exact fun _ hitem => .inr (.inl hitem)
  · refine ⟨hi, hlive, hw ▸ trivial, ?_, ?_⟩
    · rw [hw]
      rintro _ ⟨⟩
    · rw [hpc]
      rintro _ ⟨⟩
      exact .inl (of_decide_eq_true hstored)
  · refine ⟨hi, hlive, hw ▸ .inl hout, ?_, ?_⟩
    · rw [hw]
      rintro _ ⟨⟩
    · exact fun _ _ => .inr (.inr hw)

theorem syncOk_work (h : SyncOk cfg src dst srcCut dstCut s) (i : Fin (syncThrdCount + 1))
    (o : Outcome) : SyncOk cfg src dst srcCut dstCut (s.workAt i o) := by
  unfold SyncRun.workAt
  split
  · next item tries stage hpc =>
    have h' := syncOk_setWorker h (proceeds_work h hpc o)
    dsimp only
    split
    · refine { h' with sent := fun p hp => ?_ }
      rcases List.mem_append.mp hp with hold | hnew
      · exact h.sent p hold
      · obtain rfl := List.mem_singleton.mp hnew
        exact h.heldRead i item (by rw [hpc]; rfl)
    · exact h'
  · exact h

theorem syncOk_quit (h : SyncOk cfg src dst srcCut dstCut s) {i : Fin (syncThrdCount + 1)}
    (hi : i ≠ 0) (hwaits : (s.worker i).pc = .waiting) (hended : s.pipe.ho.pc i = .ended)
    (closed : Bool) :
    SyncOk cfg src dst srcCut dstCut
      (s.setWorker i ⟨false, false, .ended (if closed then .ok else .error)⟩) := by
  refine syncOk_setWorker h ⟨hi, ?_, ?_, ?_, ?_⟩
  · rw [hwaits]
    exact fun _ => WorkerPc.noConfusion
  · cases closed with
    | true => exact hended
    | false => exact .inr hended
  · rintro _ ⟨⟩
  · rw [hwaits]
    rintro _ ⟨⟩

/-! ### Steps of the storages -/

theorem grown_append {dir : SyncDir} {rows rows' : List BlobPosition} {row : BlobPosition}
    (h : Grown s dir rows rows') (hrow : ⟨dir, row.key⟩ ∈ s.pipe.read) :
    Grown s dir rows (rows' ++ [row]) := by
  obtain ⟨new, hnew, hmem⟩ := h
  refine ⟨new ++ [row], by rw [hnew, List.append_assoc], fun row' hrow' => ?_⟩
  rcases List.mem_append.mp hrow' with hold | hlast
  · exact hmem row' hold
  · obtain rfl := List.mem_singleton.mp hlast
    exact hrow

theorem stored_mono {s' : SyncRun} (hsrc : s.srcRows ⊆ s'.srcRows) (hdst : s.dstRows ⊆ s'.dstRows)
    {item : SyncItem} (h : s.Stored item) : s'.Stored item := by
  obtain ⟨dir, ref⟩ := item
  cases dir with
  | srcToDst => exact List.map_subset _ hdst h
  | dstToSrc => exact List.map_subset _ hsrc h

theorem syncOk_store (h : SyncOk cfg src dst srcCut dstCut s) (item : SyncItem)
    (row : BlobPosition) : SyncOk cfg src dst srcCut dstCut (s.store item row) := by
  unfold SyncRun.store
  split
  · next hsent =>
    obtain ⟨hsent, hkey, -⟩ := hsent
    have hread := h.sent _ hsent
    obtain ⟨dir, ref⟩ := item
    obtain rfl : row.key = ref := hkey
    cases dir with
    | srcToDst =>
      refine { h with items := fun item hitem => ?_, dstRows := grown_append h.dstRows hread }
      refine (h.items item hitem).imp_left fun hstored => stored_mono ?_ ?_ hstored
      · exact List.Subset.refl _
      · exact List.subset_append_left ..
    | dstToSrc =>
      refine { h with items := fun item hitem => ?_, srcRows := grown_append h.srcRows hread }
      refine (h.items item hitem).imp_left fun hstored => stored_mono ?_ ?_ hstored
      · exact List.subset_append_left ..
      · exact List.Subset.refl _
  · exact h

/-! ### Runs -/

theorem syncOk_step (h : SyncOk cfg src dst srcCut dstCut s) (e : SyncEvent) :
    SyncOk cfg src dst srcCut dstCut (s.step cfg e) := by
  cases e with
  | pass ready =>
    simp only [SyncRun.step]
    split
    · next hloop => exact syncOk_pass h hloop ready
    · exact h
  | selectFails =>
    simp only [SyncRun.step]
    split
    · next hloop => exact syncOk_failed h hloop
    · exact h
  | ho e =>
    simp only [SyncRun.step]
    split
    · next hcalls => exact syncOk_ho h hcalls
    · exact h
  | write =>
    simp only [SyncRun.step]
    split
    · next item hloop =>
      split
      · next hcan => exact syncOk_write h hloop hcan
      · exact h
    · exact h
  | resume =>
    simp only [SyncRun.step]
    split
    · next hresume => exact syncOk_resume h hresume.1 hresume.2
    · exact h
  | read i =>
    simp only [SyncRun.step]
    split
    · next hread => exact syncOk_read h hread.1 hread.2
    · exact h
  | begin i =>
    simp only [SyncRun.step]
    split
    · next item hpc =>
      split
      · next hout => exact syncOk_begin h hpc hout
      · exact h
    · exact h
  | work i o => exact syncOk_work h i o
  | quit i closed =>
    simp only [SyncRun.step]
    split
    · next hquit => exact syncOk_quit h hquit.1 hquit.2.1 hquit.2.2 closed
    · exact h
  | store item row => exact syncOk_store h item row
  | join closed =>
    simp only [SyncRun.step]
    split
    · next hjoin =>
      refine syncOk_join h hjoin.1 ?_
      split
      · next hok => exact fun _ => hok.2
      · exact fun hres => Res.noConfusion hres
    · exact h

theorem ascending_received (cfg : SyncCfg) (c : Content) (cut : Cut) :
    Ascending (cfg.received c cut) := by
  refine ascending_sublist c.ascending ((List.take_sublist ..).trans ?_)
  rw [keys_listed]
  exact List.filter_sublist.map _

theorem syncOk_start (cfg : SyncCfg) (src dst : Content) (srcCut dstCut : Cut) :
    SyncOk cfg src dst srcCut dstCut (.start cfg src dst srcCut dstCut) where
  pipe := pipeOk_start ..
  streams := ⟨_, _, arrives_stream cfg src srcCut, arrives_stream cfg dst dstCut,
    kept_start (ascending_received ..) (ascending_received ..)⟩
  ends := by
    rintro (hends | hends)
    · cases hends
    · cases hends
  ended := fun hends => SideState.noConfusion hends.1
  hands := rfl
  awaiting := fun hawaits => absurd rfl hawaits
  placed := fun _ _ => trivial
  heldRead := by
    rintro _ _ ⟨⟩
  items := fun _ hitem => absurd hitem List.not_mem_nil
  sent := fun _ hsent => absurd hsent List.not_mem_nil
  srcRows := ⟨[], (List.append_nil _).symm, fun _ hrow => absurd hrow List.not_mem_nil⟩
  dstRows := ⟨[], (List.append_nil _).symm, fun _ hrow => absurd hrow List.not_mem_nil⟩
  returned := LoopPc.noConfusion
  first := rfl

theorem syncOk_run (cfg : SyncCfg) (src dst : Content) (srcCut dstCut : Cut)
    (events : List SyncEvent) : SyncOk cfg src dst srcCut dstCut
      (exec (SyncRun.step cfg) (.start cfg src dst srcCut dstCut) events) := by
  induction events using List.reverseRecOn with
  | nil => exact syncOk_start cfg src dst srcCut dstCut
  | append_singleton events e ih =>
    rw [exec_append_singleton]
    exact syncOk_step ih e

end Step

end SyncLemmas

end Everarch
