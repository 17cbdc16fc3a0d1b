import Everarch.Glacier.Bucket

/-!
# Appending blobs

The index.db of a glacier, its write context and `evr_glacier_append_blob`. A call
that writes is given by the list of the system calls, index statements and
assignments it makes, in their order (`Op`), so that a run of it can be cut anywhere.

* `createNextBucketOps`, `appendOps`: the calls of `create_next_bucket` and
  `evr_glacier_append_blob`.
* `createGlacierWriteCtx`: `evr_create_glacier_write_ctx`.
-/

namespace Everarch

/-! ## The index -/

/-- A row of `blob_position`. -/
structure BlobPosition where
  key : BlobRef
  flags : Int
  bucketIndex : Int
  bucketBlobOffset : Int
  blobSize : Int
  lastModified : Int
deriving DecidableEq

/-- A row of `bucket`. -/
structure BucketRow where
  bucketIndex : Int
  endOffset : Int
deriving DecidableEq

/-- The tables of index.db. -/
structure IndexDb where
  blobPosition : List BlobPosition
  bucket : List BucketRow
deriving DecidableEq

/-- The tables that `evr_create_index_db` creates. -/
def IndexDb.empty : IndexDb :=
  ⟨[], []⟩

/-- `insert_bucket_stmt`, none if the primary key exists. The index is bound as `int`. -/
def insertBucket (db : IndexDb) (bucketIndex : Nat) : Option IndexDb :=
  if db.bucket.any fun r => r.bucketIndex = toInt32 bucketIndex then none
  else some { db with bucket := db.bucket ++ [⟨toInt32 bucketIndex, bucketHeaderSize⟩] }

/-- `update_bucket_end_offset_stmt`. Both values are bound as `int`. -/
def updateBucketEndOffset (db : IndexDb) (bucketIndex : Nat) (endOffset : Int) : IndexDb :=
  { db with bucket := db.bucket.map fun r =>
    if r.bucketIndex = toInt32 bucketIndex then { r with endOffset := toInt32 endOffset } else r }

/-- `find_bucket_end_offset_stmt`. -/
def findBucketEndOffset (db : IndexDb) (bucketIndex : Nat) : Option Int :=
  (db.bucket.find? fun r => r.bucketIndex = toInt32 bucketIndex).map (·.endOffset)

/-- `evr_glacier_add_blob_to_index`. A row with the key stays as it is. -/
def addBlobToIndex (db : IndexDb) (bucketIndex : Nat) (ref : BlobRef) (flags : Int)
    (blobOffset blobSize lastModified : Nat) : IndexDb :=
  if db.blobPosition.any fun r => r.key = ref then db
  else { db with blobPosition := db.blobPosition ++
    [⟨ref, flags, toInt64 bucketIndex, toInt32 blobOffset, toInt32 blobSize,
      toInt64 lastModified⟩] }

/-! ## The bucket directory -/

/-- The bucket files by their index, and the indices in some order. -/
structure BucketDir where
  file : Nat → Option Bytes
  names : List Nat
  nodup : names.Nodup
  mem_names : ∀ i, i ∈ names ↔ (file i).isSome

namespace BucketDir

/-- The empty directory. -/
def empty : BucketDir where
  file := fun _ => none
  names := []
  nodup := List.nodup_nil
  mem_names := by simp

/-- The directory with another content of a file, which is created if need be. -/
def put (d : BucketDir) (i : Nat) (content : Bytes) : BucketDir where
  file := fun j => if j = i then some content else d.file j
  names := if (d.file i).isSome then d.names else d.names ++ [i]
  nodup := by
    split
    · exact d.nodup
    · next h =>
      refine List.nodup_append.mpr ⟨d.nodup, List.pairwise_singleton _ i, ?_⟩
      intro a ha b hb hab
      rw [List.mem_singleton.mp hb] at hab
      exact h ((d.mem_names i).mp (hab ▸ ha))
  mem_names := by
    intro j
    by_cases hj : j = i
    · subst hj
      split
      · next h => simp [(d.mem_names j).mpr h]
      · simp
    · have hmem := d.mem_names j
      split <;> simp [hj, hmem]

@[simp] theorem put_file_self (d : BucketDir) (i : Nat) (content : Bytes) :
    (d.put i content).file i = some content := if_pos rfl

theorem put_file_of_ne (d : BucketDir) {i j : Nat} (h : j ≠ i) (content : Bytes) :
    (d.put i content).file j = d.file j := if_neg h

end BucketDir

/-! ## The write context -/

/-- The file that a file descriptor stands for. `evr_open_bucket` returns 1 when
`open` fails. -/
inductive Fd where
  | bucket (i : Nat)
  | stdout
deriving DecidableEq

/-- `struct evr_glacier_write_ctx`. -/
structure WriteCtx where
  currentBucketIndex : Nat
  currentBucketF : Option Fd
  currentBucketPos : Nat
  currentBucketSync : Bool
deriving DecidableEq

/-- A glacier that is opened for writing. -/
structure Glacier where
  dir : BucketDir
  db : IndexDb
  ctx : WriteCtx

/-- `evr_sync_strategy_*`. -/
inductive SyncStrategy where
  | default
  | perBlob
  | avoid
deriving DecidableEq

/-- `evr_chunk_size`. -/
def chunkSize : Nat := 1024 * 1024

/-- `struct evr_writing_blob`: enough chunks for its size, all of them of the full
size. -/
structure WritingBlob where
  key : BlobRef
  flags : Int
  size : Nat
  syncStrategy : SyncStrategy
  chunks : List Bytes
  chunks_full : ∀ c ∈ chunks, c.length = chunkSize
  chunks_enough : size ≤ chunks.length * chunkSize

/-- No chunk is not full. -/
theorem chunks_full_nil : ∀ c ∈ ([] : List Bytes), c.length = chunkSize :=
  fun _ h => absurd h List.not_mem_nil

/-- What the loop of `evr_glacier_append_blob` over the chunks writes. -/
def bodyPieces : Nat → List Bytes → List Bytes
  | _, [] => []
  | remaining, c :: chunks =>
    if remaining = 0 then []
    else c.take (min remaining chunkSize) ::
      bodyPieces (remaining - min remaining chunkSize) chunks

/-- The content of a blob. -/
def WritingBlob.body (blob : WritingBlob) : Bytes :=
  (bodyPieces blob.size blob.chunks).flatten

/-! ## Calls -/

/-- A system call on the current bucket file, an index statement or an assignment to
the context. A sync is fatal if the process ends where `fdatasync` fails. -/
inductive Op where
  | assign (f : WriteCtx → WriteCtx)
  | create
  | write (offset : Nat) (data : Bytes)
  | sync (fatal : Bool)
  | insertBucket
  | insertBlob (ref : BlobRef) (flags : Int) (blobOffset blobSize lastModified : Nat)
  | updateEndOffset (endOffset : Nat)

/-- `lseek` and `write_n` on the current bucket file. -/
def writeCurrentBucket (g : Glacier) (offset : Nat) (data : Bytes) : Res × Glacier :=
  match g.ctx.currentBucketF with
  | some (.bucket i) =>
    match g.dir.file i with
    | some file => (.ok, { g with dir := g.dir.put i (writeAt file offset data) })
    | none => (.error, g)
  | _ => (.error, g)

/-- One call. A statement that violates a constraint makes `sqlite3_reset` fail, and
that is a panic. -/
def runOp (g : Glacier) : Op → Res × Glacier
  | .assign f => (.ok, { g with ctx := f g.ctx })
  | .create =>
    match g.dir.file g.ctx.currentBucketIndex with
    | some _ => (.ok, { g with ctx := { g.ctx with currentBucketF := some .stdout } })
    | none =>
      (.ok, { g with
        dir := g.dir.put g.ctx.currentBucketIndex []
        ctx := { g.ctx with currentBucketF := some (.bucket g.ctx.currentBucketIndex) } })
  | .write offset data => writeCurrentBucket g offset data
  | .sync _ => (.ok, g)
  | .insertBucket =>
    match insertBucket g.db g.ctx.currentBucketIndex with
    | some db => (.ok, { g with db := db })
    | none => (.noReturn, g)
  | .insertBlob ref flags blobOffset blobSize lastModified =>
    let i := g.ctx.currentBucketIndex
    (.ok, { g with db := addBlobToIndex g.db i ref flags blobOffset blobSize lastModified })
  | .updateEndOffset endOffset =>
    (.ok, { g with db := updateBucketEndOffset g.db g.ctx.currentBucketIndex endOffset })

/-- The calls one after the other, up to the first that does not succeed. -/
def runOps : List Op → Glacier → Res × Glacier
  | [], g => (.ok, g)
  | op :: ops, g =>
    match runOp g op with
    | (.ok, g) => runOps ops g
    | r => r

/-- `close_current_bucket`. A failed sync is a panic. -/
def closeCurrentBucketOps (ctx : WriteCtx) : List Op :=
  match ctx.currentBucketF with
  | none => []
  | some _ =>
    (if ctx.currentBucketSync then []
      else [.sync true, .assign fun ctx => { ctx with currentBucketSync := true }]) ++
    [.assign fun ctx => { ctx with currentBucketF := none }]

/-- `create_next_bucket`. -/
def createNextBucketOps (ctx : WriteCtx) : List Op :=
  closeCurrentBucketOps ctx ++
    [.assign fun ctx => { ctx with currentBucketIndex := ctx.currentBucketIndex + 1 },
      .create,
      .assign fun ctx => { ctx with currentBucketPos := bucketHeaderSize },
      .write 0 bucketMagicNumber,
      .write bucketMagicNumber.length (beBytes bucketEndOffsetSize bucketHeaderSize),
      .sync false,
      .insertBucket]

/-- Pieces written behind each other. -/
def writePieces : Nat → List Bytes → List Op
  | _, [] => []
  | offset, piece :: pieces => .write offset piece :: writePieces (offset + piece.length) pieces

/-- `fdatasync` of the body, if the blob asks for it. When it fails, `log_error` gets one
argument for two strings. -/
def WritingBlob.syncBodyOps (blob : WritingBlob) : List Op :=
  if blob.syncStrategy = .perBlob then
    [.sync true, .assign fun ctx => { ctx with currentBucketSync := true }]
  else []

/-- `fdatasync` of the end offset, if the blob asks for it. -/
def WritingBlob.syncOps (blob : WritingBlob) : List Op :=
  if blob.syncStrategy = .perBlob then [.sync false] else []

/-- `evr_glacier_append_blob` from the seek to `pos` on. -/
def appendRecordOps (pos : Nat) (blob : WritingBlob) (lastModified : UInt64) : List Op :=
  let blobOffset := pos + bucketBlobHeaderSize
  let endOffset := pos + (bucketBlobHeaderSize + blob.size)
  .write pos (blobHeader blob.key (UInt8.ofInt blob.flags) lastModified.toNat blob.size) ::
    writePieces blobOffset (bodyPieces blob.size blob.chunks) ++ blob.syncBodyOps ++
    [.assign fun ctx => { ctx with currentBucketPos := endOffset },
      .write bucketMagicNumber.length (beBytes bucketEndOffsetSize endOffset)] ++
    blob.syncOps ++
    [.assign fun ctx => { ctx with currentBucketSync := blob.syncStrategy = .perBlob },
      .insertBlob blob.key blob.flags blobOffset blob.size lastModified.toNat,
      .updateEndOffset endOffset]

/-- The calls of `evr_glacier_append_blob`, none if the blob is too big for any
bucket. -/
def appendOps (maxBucketSize : Nat) (ctx : WriteCtx) (blob : WritingBlob)
    (lastModified : UInt64) : Option (List Op) :=
  let blobDiskSize := bucketBlobHeaderSize + blob.size
  if maxBucketSize < bucketHeaderSize + blobDiskSize then none
  else if maxBucketSize < ctx.currentBucketPos + blobDiskSize then
    some (createNextBucketOps ctx ++ appendRecordOps bucketHeaderSize blob lastModified)
  else some (appendRecordOps ctx.currentBucketPos blob lastModified)

/-- `evr_glacier_append_blob` at the time `lastModified`. -/
def appendBlob (maxBucketSize : Nat) (g : Glacier) (blob : WritingBlob) (lastModified : UInt64) :
    Res × Glacier :=
  match appendOps maxBucketSize g.ctx blob lastModified with
  | none => (.error, g)
  | some ops => runOps ops g

/-! ## Opening -/

/-- The files of a glacier, with or without an index.db. -/
structure Disk where
  dir : BucketDir
  db : Option IndexDb

/-- `evr_walk_buckets` over the bucket files in the order of `readdir`. -/
def walkBuckets {σ : Type} (visit : σ → Nat → Res × σ) : List Nat → σ → Res × σ
  | [], st => (.ok, st)
  | i :: names, st =>
    match visit st i with
    | (.ok, st) => walkBuckets visit names st
    | (.noReturn, st) => (.noReturn, st)
    | (_, st) => (.error, st)

/-- `move_to_last_bucket`. The order of the names does not matter to it. -/
def moveToLastBucket (dir : BucketDir) : Nat :=
  (walkBuckets (fun last i => (.ok, if last < i then i else last)) dir.names 0).2

/-- `evr_create_glacier_write_ctx`. -/
def createGlacierWriteCtx (disk : Disk) : Res × Glacier :=
  let last := moveToLastBucket disk.dir
  let g : Glacier := ⟨disk.dir, disk.db.getD .empty, ⟨last, none, 0, true⟩⟩
  if last = 0 then runOps (createNextBucketOps g.ctx) g
  else
    match g.dir.file last with
    -- stdout has no magic number to read
    | none => (.error, { g with ctx := { g.ctx with currentBucketF := some .stdout } })
    | some file =>
      let g := { g with ctx := { g.ctx with currentBucketF := some (.bucket last) } }
      if !validateBucketMagicNumber file then (.error, g)
      else
        match readBucketEndOffset file with
        | none => (.error, g)
        | some endOffset =>
          let g := { g with ctx := { g.ctx with currentBucketPos := endOffset } }
          if endOffset = bucketEndOffsetCorrupt then runOps (createNextBucketOps g.ctx) g
          else (.ok, g)

end Everarch
