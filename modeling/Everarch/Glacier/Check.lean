import Everarch.Glacier.Store
import Mathlib.Data.List.Sort

/-!
# Checking and reindexing a glacier

`evr_quick_check_glacier` and what it calls: the check of the index against the
buckets, and the rebuild of the index from the buckets.
-/

namespace Everarch

/-- A row of `blob_position` as it is stored. The schema lets a key have any size. -/
structure StoredPosition where
  key : Bytes
  flags : Int
  bucketIndex : Int
  bucketBlobOffset : Int
  blobSize : Int
  lastModified : Int
deriving DecidableEq

/-- The columns of a row whose key is a ref. -/
def BlobPosition.stored (row : BlobPosition) : StoredPosition :=
  ⟨row.key.toList, row.flags, row.bucketIndex, row.bucketBlobOffset, row.blobSize,
    row.lastModified⟩

/-- The bytes of a key column as a ref, if they are as many. -/
def columnRef (key : Bytes) : Option BlobRef :=
  if h : key.length = blobRefSize then some ⟨key.toArray, h⟩ else none

/-- What the check depends on outside of the glacier: the hash, the order of
`readdir`, the order of rows with equal `last_modified` and SQLite's `RANDOM()`. -/
structure GlacierEnv where
  hash : Bytes → BlobRef
  readdir : List Nat → List Nat
  readdir_perm : ∀ names, (readdir names).Perm names
  latest : List StoredPosition → List StoredPosition
  latest_perm : ∀ rows, (latest rows).Perm rows
  latest_sorted : ∀ rows, (latest rows).Pairwise fun r r' => r'.lastModified ≤ r.lastModified
  random : List StoredPosition → List StoredPosition
  random_perm : ∀ rows, (random rows).Perm rows

/-- Directory entries and rows in the order in which they came about. -/
def GlacierEnv.inOrder (hash : Bytes → BlobRef) : GlacierEnv where
  hash := hash
  readdir := id
  readdir_perm := List.Perm.refl
  latest := List.insertionSort fun r r' => r'.lastModified ≤ r.lastModified
  latest_perm := List.perm_insertionSort _
  latest_sorted rows := by
    have : Std.Total fun r r' : StoredPosition => r'.lastModified ≤ r.lastModified :=
      ⟨fun r r' => Int.le_total r'.lastModified r.lastModified⟩
    have : IsTrans StoredPosition fun r r' => r'.lastModified ≤ r.lastModified :=
      ⟨fun _ _ _ h h' => Int.le_trans h' h⟩
    exact List.pairwise_insertionSort _ rows
  random := id
  random_perm := List.Perm.refl

/-! ## Reading blobs -/

/-- `evr_read_buffer_size`. -/
def readBufferSize : Nat := 1024 * 1024

section Read

variable {σ : Type} (onData : σ → Bytes → Res × σ)

/-- The loop of `evr_glacier_read_blob` at `offset`. A read behind the end of the file
returns no bytes and the loop goes on: it does not return unless `on_data` gives up.
A pass that reads something is one of at most `remaining`. -/
def readBlobLoop (file : Bytes) : Nat → Nat → Nat → σ → Res × σ
  | 0, _, _, st => (.noReturn, st)
  | passes + 1, offset, remaining, st =>
    if remaining = 0 then (.ok, st)
    else
      let buf := readAt file offset (min readBufferSize remaining)
      match onData st buf with
      | (.ok, st) => readBlobLoop file passes (offset + buf.length) (remaining - buf.length) st
      | (.noReturn, st) => (.noReturn, st)
      | (_, st) => (.error, st)

/-- `size_t` of `sqlite3_column_int`. -/
def columnSize (value : Int) : Nat :=
  (toInt32 value % 2 ^ 64).toNat

/-- `evr_glacier_read_blob`. -/
def readBlob (status : σ → Bool → Int → Nat → Res × σ) (dir : BucketDir) (db : IndexDb)
    (key : BlobRef) (st : σ) : Res × σ :=
  match db.blobPosition.find? fun r => r.key = key with
  | none =>
    match status st false 0 0 with
    | (.ok, st) => (.notFound, st)
    | (.end_, st) => (.end_, st)
    | (.noReturn, st) => (.noReturn, st)
    | (_, st) => (.error, st)
  | some row =>
    let blobSize := columnSize row.blobSize
    match dir.file (row.bucketIndex % 2 ^ 64).toNat with
    -- the check runs before any bucket is descriptor 1, and stdout has no magic number to read
    | none => (.error, st)
    | some file =>
      if !validateBucketMagicNumber file then (.error, st)
      -- lseek refuses negative offsets
      else if toInt32 row.bucketBlobOffset < 0 then (.error, st)
      else
        match status st true (toInt32 row.flags) blobSize with
        | (.ok, st) =>
          readBlobLoop onData file (blobSize + 1) (columnSize row.bucketBlobOffset) blobSize st
        | (.end_, st) => (.end_, st)
        | (.noReturn, st) => (.noReturn, st)
        | (_, st) => (.error, st)

end Read

/-! ## Checking the index -/

/-- `struct evr_glacier_blob_check_ctx` with what has been written to the hash. -/
structure BlobCheckCtx where
  flags : Int
  blobSize : Nat
  ret : Res
  hashed : Bytes

/-- `evr_glacier_blob_check_status`. -/
def blobCheckStatus (ctx : BlobCheckCtx) (blobExists : Bool) (flags : Int) (blobSize : Nat) :
    Res × BlobCheckCtx :=
  if !blobExists || flags ≠ ctx.flags || blobSize ≠ ctx.blobSize then
    (.end_, { ctx with ret := .glacierIndexDbCorrupt })
  else (.ok, { ctx with ret := .ok })

/-- `evr_glacier_blob_check_data`. -/
def blobCheckData (ctx : BlobCheckCtx) (data : Bytes) : Res × BlobCheckCtx :=
  (.ok, { ctx with hashed := ctx.hashed ++ data })

/-- `evr_glacier_check_blobs` over the rows that its statement returns. -/
def checkBlobs (env : GlacierEnv) (dir : BucketDir) (db : IndexDb) : List StoredPosition → Res
  | [] => .ok
  | row :: rows =>
    match columnRef row.key with
    | none => .glacierIndexDbCorrupt
    | some ref =>
      let bctx : BlobCheckCtx := ⟨toInt32 row.flags, columnSize row.blobSize, .error, []⟩
      match readBlob blobCheckData blobCheckStatus dir db ref bctx with
      | (.ok, bctx) =>
        if bctx.ret = .glacierIndexDbCorrupt then .glacierIndexDbCorrupt
        else if bctx.ret ≠ .ok then .error
        else if env.hash bctx.hashed ≠ ref then .glacierIndexDbCorrupt
        else checkBlobs env dir db rows
      | (.noReturn, _) => .noReturn
      | _ => .error

/-- `evr_glacier_check_index_db` where index.db also has `others`, rows whose key is no ref. No
ref finds them. -/
def checkIndexDbWith (others : List StoredPosition) (env : GlacierEnv) (g : Glacier) : Res :=
  let stored := g.db.blobPosition.map BlobPosition.stored ++ others
  match g.ctx.currentBucketF with
  | some (.bucket i) =>
    match g.dir.file i with
    | none => .error
    | some file =>
      match findBucketEndOffset g.db g.ctx.currentBucketIndex with
      | none => .glacierIndexDbCorrupt
      | some dbEndOffset =>
        if toInt32 dbEndOffset ≠ file.length then .glacierIndexDbCorrupt
        else
          match checkBlobs env g.dir g.db ((env.latest stored).take 1024) with
          | .ok => checkBlobs env g.dir g.db ((env.random stored).take 1024)
          | .glacierIndexDbCorrupt => .glacierIndexDbCorrupt
          | .noReturn => .noReturn
          | _ => .error
  | _ => .error

/-- `evr_glacier_check_index_db` on an index.db as the glacier writes it. -/
def checkIndexDb (env : GlacierEnv) (g : Glacier) : Res :=
  checkIndexDbWith [] env g

@[simp] theorem checkIndexDbWith_nil (env : GlacierEnv) (g : Glacier) :
    checkIndexDbWith [] env g = checkIndexDb env g := rfl

/-! ## Rebuilding the index -/

/-- `evr_glacier_reindex_visit_blob` in the bucket file that is walked. -/
def reindexVisitBlob (hash : Bytes → BlobRef) (file : Bytes) (bucketIndex : Nat) (db : IndexDb)
    (stat : BlobStat) : Res × IndexDb :=
  if !stat.checksumValid then (.end_, db)
  else
    let body := readAt file stat.offset stat.size
    if body.length < stat.size then (.error, db)
    else if hash body ≠ stat.ref then (.ok, db)
    else
      (.ok, addBlobToIndex db bucketIndex stat.ref stat.flags stat.offset stat.size
        stat.lastModified)

/-- The end of `evr_glacier_reindex_bucket`: the end offset goes to the bucket and to
the index. -/
def reindexEndOffset (bucketIndex : Nat) (file : Bytes) (endOffset : Int) (dir : BucketDir)
    (db : IndexDb) : Res × BucketDir × IndexDb :=
  let dir := dir.put bucketIndex (writeBucketEndOffset file (endOffset % 2 ^ 64).toNat)
  match insertBucket db bucketIndex with
  | none => (.noReturn, dir, db)
  | some db => (.ok, dir, updateBucketEndOffset db bucketIndex endOffset)

/-- `evr_glacier_reindex_bucket`. -/
def reindexBucket (env : GlacierEnv) (st : BucketDir × IndexDb) (bucketIndex : Nat) :
    Res × BucketDir × IndexDb :=
  let (dir, db) := st
  match dir.file bucketIndex with
  -- stdout has no magic number to read
  | none => (.error, dir, db)
  | some file =>
    if !validateBucketMagicNumber file then (.error, dir, db)
    else
      match walkBucket (reindexVisitBlob env.hash file bucketIndex) file db with
      | (.end_, db) => reindexEndOffset bucketIndex file bucketEndOffsetCorrupt dir db
      | (.ok, db) =>
        if toInt32 file.length = -1 then (.error, dir, db)
        else reindexEndOffset bucketIndex file (toInt32 file.length) dir db
      | (.noReturn, db) => (.noReturn, dir, db)
      | (_, db) => (.error, dir, db)

/-- `evr_glacier_recreate_index_db`. -/
def recreateIndexDb (env : GlacierEnv) (disk : Disk) : Res × Disk :=
  match disk.db with
  -- unlink fails
  | none => (.error, disk)
  | some _ =>
    match createGlacierWriteCtx { disk with db := none } with
    | (.ok, g) =>
      match walkBuckets (reindexBucket env) (env.readdir g.dir.names) (g.dir, g.db) with
      | (res, dir, db) => (res, ⟨dir, some db⟩)
    | (.noReturn, g) => (.noReturn, ⟨g.dir, some g.db⟩)
    | (_, g) => (.error, ⟨g.dir, some g.db⟩)

/-- `evr_quick_check_glacier` where index.db also has `others`. A rebuild that fails is a panic,
and so is a check that fails. -/
def quickCheckGlacierWith (others : List StoredPosition) (env : GlacierEnv) (disk : Disk) :
    Res × Disk :=
  match createGlacierWriteCtx disk with
  | (.ok, g) =>
    let disk : Disk := ⟨g.dir, some g.db⟩
    match checkIndexDbWith others env g with
    | .ok => (.ok, disk)
    | .glacierIndexDbCorrupt =>
      match recreateIndexDb env disk with
      | (.ok, disk) => (.ok, disk)
      | (_, disk) => (.noReturn, disk)
    | _ => (.noReturn, disk)
  | (.noReturn, g) => (.noReturn, ⟨g.dir, some g.db⟩)
  | (_, g) => (.error, ⟨g.dir, some g.db⟩)

/-- `evr_quick_check_glacier` on an index.db as the glacier writes it. -/
def quickCheckGlacier (env : GlacierEnv) (disk : Disk) : Res × Disk :=
  quickCheckGlacierWith [] env disk

end Everarch
