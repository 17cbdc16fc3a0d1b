import Everarch.Glacier.Store
import Everarch.Server.Queue

/-!
# Reading commands

The part of `evr_connection_worker` that reads from the socket. A worker waits in one of
the calls of `read_n` (`Reading`) for the rest of its bytes, which arrive in pieces of any
size. The other states of a worker (`Worker`) take their turns in `Everarch.Server.Storage`.

* `Connection.receive`: a piece of bytes arrives.
* `Upload`: `read_into_chunks` with the hash of what it has read.
-/

namespace Everarch

/-! ## Commands -/

/-- `struct evr_cmd_header`. -/
structure CmdHeader where
  type : UInt8
  bodySize : Nat
deriving DecidableEq

/-- `evr_cmd_header_n_size`. -/
def cmdHeaderSize : Nat := 5

/-- `evr_parse_cmd_header`. -/
def parseCmdHeader (buf : Bytes) : CmdHeader :=
  ⟨buf.getD 0 0, ofBeBytes (readAt buf 1 4)⟩

def cmdTypeGetBlob : UInt8 := 0x01
def cmdTypePutBlob : UInt8 := 0x02
def cmdTypeStatBlob : UInt8 := 0x03
def cmdTypeWatchBlobs : UInt8 := 0x04
def cmdTypeConfigureConnection : UInt8 := 0x05

/-- `evr_max_blob_data_size`. -/
def maxBlobDataSize : Nat := 16 * 1024 * 1024

/-- `evr_blob_filter_n_size`. -/
def blobFilterSize : Nat := 1 + 1 + 8

/-- `blob_size` of `evr_work_put_blob`. It is a `size_t`. -/
@[irreducible] def putBlobSize (bodySize : Nat) : Nat :=
  (bodySize - blobRefSize + (2 ^ 64 - 1)) % 2 ^ 64

/-- A reference that was read into a buffer. -/
def blobRefOf (buf : Bytes) : BlobRef :=
  Vector.ofFn fun i : Fin blobRefSize => buf.getD i 0

/-- `evr_parse_blob_filter`. -/
def parseBlobFilter (buf : Bytes) : BlobFilter :=
  ⟨buf.getD 0 0, buf.getD 1 0, ofBeBytes (readAt buf 2 8)⟩

/-- The sync strategy of `evr_work_configure_connection`. Unknown ones are the default. -/
def parseSyncStrategy (buf : Bytes) : SyncStrategy :=
  if buf.getD 0 0 = 0x01 then .perBlob
  else if buf.getD 0 0 = 0x02 then .avoid
  else .default

/-! ## Uploads -/

/-- A put command in `read_into_chunks`: the chunks that are complete, the size still to
be read in the next ones and what has been written to the hash. -/
structure Upload where
  key : BlobRef
  flags : UInt8
  blobSize : Nat
  chunks : List Bytes
  remaining : Nat
  hashed : Bytes
  chunks_full : ∀ c ∈ chunks, c.length = chunkSize
  chunks_enough : blobSize ≤ chunks.length * chunkSize + remaining

namespace Upload

/-- The state before the first chunk. -/
def start (key : BlobRef) (flags : UInt8) (blobSize : Nat) : Upload where
  key := key
  flags := flags
  blobSize := blobSize
  chunks := []
  remaining := blobSize
  hashed := []
  chunks_full := chunks_full_nil
  chunks_enough := Nat.le_add_left _ _

/-- `chunk_read_size`. -/
def chunkReadSize (u : Upload) : Nat :=
  min u.remaining chunkSize

/-- `evr_blob_ref_write_se`. -/
def write (u : Upload) (data : Bytes) : Upload :=
  { u with hashed := u.hashed ++ data }

/-- A chunk with the bytes that were read into it. The rest of it is not initialised. -/
def chunkOf (buf : Bytes) : Bytes :=
  (buf ++ List.replicate chunkSize 0).take chunkSize

theorem length_chunkOf (buf : Bytes) : (chunkOf buf).length = chunkSize := by
  rw [chunkOf, List.length_take, List.length_append, List.length_replicate]
  exact Nat.min_eq_left (Nat.le_add_left _ _)

/-- The chunk is complete. -/
def addChunk (u : Upload) (buf : Bytes) : Upload :=
  { u with
    chunks := u.chunks ++ [chunkOf buf]
    remaining := u.remaining - u.chunkReadSize
    chunks_full := by
      intro c hc
      rcases List.mem_append.mp hc with hold | hnew
      · exact u.chunks_full c hold
      · rw [List.mem_singleton.mp hnew]
        exact length_chunkOf buf
    chunks_enough := by
      have henough := u.chunks_enough
      rw [List.length_append, List.length_singleton, Nat.succ_mul, chunkReadSize]
      omega }

/-- The blob of a complete upload. -/
def blob (u : Upload) (syncStrategy : SyncStrategy) (h : u.remaining = 0) : WritingBlob where
  key := u.key
  flags := u.flags.toNat
  size := u.blobSize
  syncStrategy := if syncStrategy = .default then .perBlob else syncStrategy
  chunks := u.chunks
  chunks_full := u.chunks_full
  chunks_enough := by
    have henough := u.chunks_enough
    rwa [h, Nat.add_zero] at henough

end Upload

/-! ## Connections -/

/-- The call of `read_n` or `dump_n` a worker is in. -/
inductive Reading where
  | header
  | unknown (cmd : CmdHeader)
  | getKey (cmd : CmdHeader)
  | putKey (cmd : CmdHeader) (blobSize : Nat)
  | putFlags (cmd : CmdHeader) (blobSize : Nat) (key : BlobRef)
  | putChunk (cmd : CmdHeader) (upload : Upload)
  | statKey (cmd : CmdHeader)
  | filter (cmd : CmdHeader)
  | configure (cmd : CmdHeader)

/-- Where a worker is. `reading` has the bytes read so far and the number of those to
come, `sendBlob` the open bucket, the offset and the size of the next read and what has
been sent. The slot of a watch that is not live is none. -/
inductive Worker where
  | reading (r : Reading) (remaining : Nat) (buf : Bytes)
  | findBlob (key : BlobRef)
  | openBucket (key : BlobRef) (row : BlobPosition)
  | sendBlob (key : BlobRef) (flags : Int) (bucket offset remaining : Nat) (data : Bytes)
  | queueTask (blob : WritingBlob)
  | waitForTask
  | taskDone (res : Res)
  | statBlob (key : BlobRef)
  | addWatcher (f : BlobFilter)
  | listBlobs (f : BlobFilter) (slot : Option Nat)
  | sendList (slot : Option Nat) (blobs : List ModifiedBlob)
  | takeBlob (slot : Nat)
  | waitFill (slot : Nat)
  | ended (res : Res)

/-- A response with its body, or a blob that a watch reports. -/
inductive Reply where
  | blob (key : BlobRef) (flags : Int) (data : Bytes)
  | notFound (key : BlobRef)
  | stored
  | stat (flags : Int) (blobSize : Nat)
  | unknownRequest
  | configured
  | watching
  | modified (blob : ModifiedBlob)
deriving DecidableEq

/-- `struct evr_connection` with the state of its worker, all bytes that were received
after the client authenticated and all that was sent. -/
structure Connection where
  syncStrategy : SyncStrategy
  worker : Worker
  received : Bytes
  replies : List Reply

namespace Connection

/-- The head of the loop of `evr_connection_worker`. -/
def nextCommand (running : Bool) : Worker :=
  if running then .reading .header cmdHeaderSize [] else .ended .ok

/-- A connection whose client authenticated. -/
def accepted : Connection :=
  ⟨.default, nextCommand true, [], []⟩

def goto (c : Connection) (w : Worker) : Connection :=
  { c with worker := w }

/-- A response, and the worker goes on. -/
def answer (c : Connection) (r : Reply) (w : Worker) : Connection :=
  { c with worker := w, replies := c.replies ++ [r] }

/-- The switch of `evr_connection_worker`, and what the functions it calls do before they
read. -/
def startCommand (running : Bool) (c : Connection) (cmd : CmdHeader) : Connection :=
  if cmd.type = cmdTypeGetBlob then
    if cmd.bodySize ≠ blobRefSize then c.goto (.ended .error)
    else c.goto (.reading (.getKey cmd) blobRefSize [])
  else if cmd.type = cmdTypePutBlob then
    if cmd.bodySize < blobRefSize then c.goto (.ended .error)
    else if maxBlobDataSize < putBlobSize cmd.bodySize then c.goto (.ended .error)
    else c.goto (.reading (.putKey cmd (putBlobSize cmd.bodySize)) blobRefSize [])
  else if cmd.type = cmdTypeStatBlob then
    if cmd.bodySize ≠ blobRefSize then c.goto (.ended .error)
    else c.goto (.reading (.statKey cmd) blobRefSize [])
  else if cmd.type = cmdTypeWatchBlobs then
    if cmd.bodySize ≠ blobFilterSize then c.goto (.ended .error)
    else c.goto (.reading (.filter cmd) blobFilterSize [])
  else if cmd.type = cmdTypeConfigureConnection then
    if cmd.bodySize < 1 ∨ 512 < cmd.bodySize then c.goto (.ended .error)
    else c.goto (.reading (.configure cmd) cmd.bodySize [])
  else if cmd.bodySize = 0 then c.answer .unknownRequest (nextCommand running)
  else c.goto (.reading (.unknown cmd) cmd.bodySize [])

/-- The next chunk of an upload, or the check of the hash. -/
def nextChunk (hash : Bytes → BlobRef) (c : Connection) (cmd : CmdHeader) (u : Upload) :
    Connection :=
  if h : u.remaining = 0 then
    if hash u.hashed ≠ u.key then c.goto (.ended .error)
    else c.goto (.queueTask (u.blob c.syncStrategy h))
  else c.goto (.reading (.putChunk cmd u) u.chunkReadSize [])

/-- A call of `read_n` is complete. -/
def completed (hash : Bytes → BlobRef) (running : Bool) (c : Connection) (buf : Bytes) :
    Reading → Connection
  | .header => c.startCommand running (parseCmdHeader buf)
  | .unknown _ => c.answer .unknownRequest (nextCommand running)
  | .getKey _ => c.goto (.findBlob (blobRefOf buf))
  | .putKey cmd blobSize => c.goto (.reading (.putFlags cmd blobSize (blobRefOf buf)) 1 [])
  | .putFlags cmd blobSize key => c.nextChunk hash cmd (.start key (buf.getD 0 0) blobSize)
  | .putChunk cmd u => c.nextChunk hash cmd (u.addChunk buf)
  | .statKey _ => c.goto (.statBlob (blobRefOf buf))
  | .filter _ => c.answer .watching (.addWatcher (parseBlobFilter buf))
  | .configure _ =>
    ({ c with syncStrategy := parseSyncStrategy buf } : Connection).answer .configured (nextCommand running)

end Connection

/-- The side effect of a call of `read_n`. -/
def Reading.sideEffect (r : Reading) (data : Bytes) : Reading :=
  match r with
  | .putChunk cmd u => .putChunk cmd (u.write data)
  | r => r

/-- What a single `read` asks for. `dump_n` has a small buffer. -/
def Reading.limit (r : Reading) (remaining : Nat) : Nat :=
  match r with
  | .unknown _ => min 4096 remaining
  | _ => remaining

/-- A `read` of the socket returns some bytes. It returns none only at the end. -/
def Connection.receive (hash : Bytes → BlobRef) (running : Bool) (c : Connection) (data : Bytes) :
    Connection :=
  match c.worker with
  | .reading r remaining buf =>
    if data = [] ∨ r.limit remaining < data.length then c
    else
      let c := { c with received := c.received ++ data }
      let r := r.sideEffect data
      if data.length < remaining then
        c.goto (.reading r (remaining - data.length) (buf ++ data))
      else c.completed hash running (buf ++ data) r
  | _ => c

end Everarch
