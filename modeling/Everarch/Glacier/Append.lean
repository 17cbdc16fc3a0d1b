import Everarch.Glacier.Store
import Everarch.Lib.SegLog

/-!
# The bucket store

What `evr_glacier_append_blob` does to the files, the index and the context. In the
abstract a glacier is a segmented log of records (`SegLog`); `Represents` connects it
to the bytes.

* `runOps_appendRecordOps`, `runOps_createNextBucketOps`: the state after a call.
* `represents_appendBlob`: a successful append pushes the record to the log.

Result: `bucket_store_invariant`; `bucket_exceeds_max`: a bucket size that has no room
for the header of a bucket.
-/

namespace Everarch

/-! ## The abstract store -/

/-- The file of a bucket with the given records. -/
def bucketFile (rs : List Record) : Bytes :=
  bucketBytes (bucketHeaderSize + (recordsBytes rs).length) (recordsBytes rs)

/-- The length of the file of a bucket. -/
def bucketSize (rs : List Record) : Nat :=
  bucketHeaderSize + (recordsBytes rs).length

/-- The row points at the body of a record with its key and its size. -/
def PointsAt (segs : List (List Record)) (row : BlobPosition) : Prop :=
  ∃ (i : Nat) (rs : List Record) (fPos : Nat) (r : Record), segs[i]? = some rs ∧
    (fPos, r) ∈ positions bucketHeaderSize rs ∧ row.key = r.key ∧ row.bucketIndex = i + 1 ∧
    row.bucketBlobOffset = fPos + bucketBlobHeaderSize ∧ row.blobSize = r.body.length

/-- The row points at these bytes. -/
def HoldsBytes (dir : BucketDir) (row : BlobPosition) (body : Bytes) : Prop :=
  ∃ (i offset : Nat) (file : Bytes), row.bucketIndex = i ∧ row.bucketBlobOffset = offset ∧
    row.blobSize = body.length ∧ dir.file i = some file ∧ readAt file offset body.length = body

/-- The files, the index and the context of a glacier are those of the records in the
log. Bucket `i + 1` holds segment `i`. -/
structure Represents (g : Glacier) (log : SegLog Record) : Prop where
  file_zero : g.dir.file 0 = none
  file : ∀ i, g.dir.file (i + 1) = log.segments[i]?.map bucketFile
  endOffset : ∀ (i : Nat) rs, log.segments[i]? = some rs →
    findBucketEndOffset g.db (i + 1) = some (bucketSize rs : Int)
  bucketRows : ∀ row ∈ g.db.bucket, ∃ i < log.segments.length, row.bucketIndex = toInt32 (i + 1 : Nat)
  distinct : ∀ i < log.segments.length, ∀ j < log.segments.length,
    toInt32 (i + 1 : Nat) = toInt32 (j + 1 : Nat) → i = j
  keys : (g.db.blobPosition.map (·.key)).Nodup
  rows : ∀ row ∈ g.db.blobPosition, PointsAt log.segments row
  indexed : ∀ r ∈ log.items, ∃ row ∈ g.db.blobPosition, row.key = r.key
  currentBucketIndex : g.ctx.currentBucketIndex = log.segments.length
  currentBucketF : g.ctx.currentBucketF = some (.bucket log.segments.length)
  currentBucketPos : g.ctx.currentBucketPos = bucketSize log.current

theorem Represents.file_current {g : Glacier} {log : SegLog Record} (h : Represents g log) :
    g.dir.file log.segments.length = some (bucketFile log.current) := by
  rw [log.length_segments, h.file, SegLog.getElem?_current]
  rfl

theorem length_bodyPieces {remaining : Nat} {chunks : List Bytes}
    (hfull : ∀ c ∈ chunks, c.length = chunkSize) (henough : remaining ≤ chunks.length * chunkSize) :
    (bodyPieces remaining chunks).flatten.length = remaining := by
  induction chunks generalizing remaining with
  | nil =>
    have hzero : remaining = 0 := by simpa using henough
    simp [bodyPieces, hzero]
  | cons c chunks ih =>
    have hc := hfull c List.mem_cons_self
    have hrest : remaining - min remaining chunkSize ≤ chunks.length * chunkSize := by
      rw [List.length_cons, Nat.succ_mul] at henough
      omega
    unfold bodyPieces
    split
    · next hzero => rw [hzero]; rfl
    · rw [List.flatten_cons, List.length_append, List.length_take, hc,
        ih (fun c hc => hfull c (List.mem_cons_of_mem _ hc)) hrest]
      omega

/-- The loop over the chunks writes the first bytes of them. -/
theorem flatten_bodyPieces {remaining : Nat} {chunks : List Bytes}
    (hfull : ∀ c ∈ chunks, c.length = chunkSize) :
    (bodyPieces remaining chunks).flatten = chunks.flatten.take remaining := by
  induction chunks generalizing remaining with
  | nil => simp [bodyPieces]
  | cons c chunks ih =>
    have hc := hfull c List.mem_cons_self
    unfold bodyPieces
    split
    · next hzero => rw [hzero, List.take_zero, List.flatten_nil]
    · rw [List.flatten_cons, List.flatten_cons, ih fun c hc => hfull c (List.mem_cons_of_mem _ hc),
        List.take_append, hc]
      rcases Nat.le_total remaining chunkSize with hle | hle
      · rw [Nat.min_eq_left hle, Nat.sub_self, Nat.sub_eq_zero_of_le hle]
      · rw [Nat.min_eq_right hle, List.take_of_length_le (Nat.le_of_eq hc),
          List.take_of_length_le (Nat.le_trans (Nat.le_of_eq hc) hle)]

theorem WritingBlob.body_eq (blob : WritingBlob) : blob.body = blob.chunks.flatten.take blob.size :=
  flatten_bodyPieces blob.chunks_full

theorem WritingBlob.length_body (blob : WritingBlob) : blob.body.length = blob.size :=
  length_bodyPieces blob.chunks_full blob.chunks_enough

/-- The record of a blob. -/
def recordOf (blob : WritingBlob) (lastModified : UInt64) (h : blob.size < 2 ^ 32) : Record where
  key := blob.key
  flags := UInt8.ofInt blob.flags
  lastModified := lastModified.toNat
  body := blob.body
  lastModified_lt := lastModified.toNat_lt
  size_lt := blob.length_body ▸ h

/-- No bucket is bigger than `bound`, and the files, the index and the context agree. -/
def StoreInvariant (bound : Nat) (g : Glacier) : Prop :=
  ∃ log, Represents g log ∧ log.Fits bucketSize bound

/-- What follows the header of a bucket file stays there, and only grows at its end. -/
def RecordsKept (g g' : Glacier) : Prop :=
  ∀ i file, g.dir.file i = some file →
    ∃ file', g'.dir.file i = some file' ∧ file.drop bucketHeaderSize <+: file'.drop bucketHeaderSize

/-! ## Runs -/

/-- A call of `evr_glacier_append_blob`. -/
structure AppendStep where
  blob : WritingBlob
  lastModified : UInt64

/-- The glacier after the call. -/
def nextGlacier (maxBucketSize : Nat) (g : Glacier) (s : AppendStep) : Glacier :=
  (appendBlob maxBucketSize g s.blob s.lastModified).2

/-- The call returns `evr_ok`. -/
def Appended (maxBucketSize : Nat) (g : Glacier) (s : AppendStep) : Prop :=
  (appendBlob maxBucketSize g s.blob s.lastModified).1 = .ok

instance (maxBucketSize : Nat) (g : Glacier) (s : AppendStep) :
    Decidable (Appended maxBucketSize g s) :=
  inferInstanceAs (Decidable (_ = _))

/-- A glacier opened in an empty directory. -/
def emptyGlacier : Glacier :=
  (createGlacierWriteCtx ⟨.empty, none⟩).2

namespace AppendLemmas

open BucketLemmas

/-! ## Calls one after the other -/

theorem runOps_append (ops ops' : List Op) (g : Glacier) :
    runOps (ops ++ ops') g =
      match runOps ops g with
      | (.ok, g) => runOps ops' g
      | r => r := by
  induction ops generalizing g with
  | nil => rfl
  | cons op ops ih =>
    rw [List.cons_append, runOps, runOps]
    rcases runOp g op with ⟨res, g'⟩
    cases res with
    | ok => exact ih g'
    | _ => rfl

theorem runOps_append_ok {ops ops' : List Op} {g g' : Glacier} (h : runOps ops g = (.ok, g')) :
    runOps (ops ++ ops') g = runOps ops' g' := by
  rw [runOps_append, h]

theorem runOps_cons_ok {op : Op} {ops : List Op} {g g' : Glacier} (h : runOp g op = (.ok, g')) :
    runOps (op :: ops) g = runOps ops g' := by
  rw [runOps, h]

@[simp] theorem put_put (d : BucketDir) (i : Nat) (content content' : Bytes) :
    (d.put i content).put i content' = d.put i content' := by
  unfold BucketDir.put
  simp only [if_true, Option.isSome_some]
  congr 1
  funext j
  split <;> rfl

theorem put_self {d : BucketDir} {i : Nat} {content : Bytes} (h : d.file i = some content) :
    d.put i content = d := by
  unfold BucketDir.put
  cases d with
  | mk file names nodup mem_names =>
    congr 1
    · funext j
      split
      · next hj => rw [hj]; exact h.symm
      · rfl
    · simp only at h
      simp [h]

theorem runOp_write {g : Glacier} {n : Nat} {file : Bytes}
    (hf : g.ctx.currentBucketF = some (.bucket n)) (hfile : g.dir.file n = some file)
    (offset : Nat) (data : Bytes) :
    runOp g (.write offset data) =
      (.ok, { g with dir := g.dir.put n (writeAt file offset data) }) := by
  simp only [runOp, writeCurrentBucket, hf, hfile]

theorem runOps_writePieces {g : Glacier} {n : Nat} {file : Bytes}
    (hf : g.ctx.currentBucketF = some (.bucket n)) (hfile : g.dir.file n = some file)
    (offset : Nat) (pieces : List Bytes) :
    runOps (writePieces offset pieces) g =
      (.ok, { g with dir := g.dir.put n (writeAt file offset pieces.flatten) }) := by
  induction pieces generalizing g file offset with
  | nil => simp [writePieces, runOps, put_self hfile]
  | cons piece pieces ih =>
    have hnext := ih (g := { g with dir := g.dir.put n (writeAt file offset piece) }) hf
      (BucketDir.put_file_self _ _ _) (offset + piece.length)
    rw [writePieces, runOps_cons_ok (runOp_write hf hfile offset piece), hnext, put_put,
      writeAt_writeAt, List.flatten_cons]

theorem runOps_syncOps (blob : WritingBlob) (g : Glacier) : runOps blob.syncOps g = (.ok, g) := by
  unfold WritingBlob.syncOps
  split
  · rfl
  · rfl

theorem runOps_syncBodyOps (blob : WritingBlob) (g : Glacier) :
    ∃ sync, runOps blob.syncBodyOps g =
      (.ok, { g with ctx := { g.ctx with currentBucketSync := sync } }) := by
  unfold WritingBlob.syncBodyOps
  split
  · exact ⟨true, rfl⟩
  · exact ⟨g.ctx.currentBucketSync, rfl⟩

/-- The bytes that an append adds to the bucket. -/
def blobBytes (blob : WritingBlob) (lastModified : UInt64) : Bytes :=
  blobHeader blob.key (UInt8.ofInt blob.flags) lastModified.toNat blob.size ++ blob.body

/-- The index after an append to bucket `n` at `pos`. -/
def indexAppended (db : IndexDb) (n pos : Nat) (blob : WritingBlob) (lastModified : UInt64) :
    IndexDb :=
  updateBucketEndOffset (addBlobToIndex db n blob.key blob.flags (pos + bucketBlobHeaderSize)
    blob.size lastModified.toNat) n (pos + (bucketBlobHeaderSize + blob.size) : Nat)

/-- The pieces of `blobBytes`. -/
def blobPieces (blob : WritingBlob) (lastModified : UInt64) : List Bytes :=
  blobHeader blob.key (UInt8.ofInt blob.flags) lastModified.toNat blob.size ::
    bodyPieces blob.size blob.chunks

/-- An append after the pieces have been written. -/
def finishOps (pos : Nat) (blob : WritingBlob) (lastModified : UInt64) : List Op :=
  blob.syncBodyOps ++ (.assign fun ctx =>
      { ctx with currentBucketPos := pos + (bucketBlobHeaderSize + blob.size) }) ::
    .write bucketMagicNumber.length
      (beBytes bucketEndOffsetSize (pos + (bucketBlobHeaderSize + blob.size))) ::
    (blob.syncOps ++
      [.assign fun ctx => { ctx with currentBucketSync := blob.syncStrategy = .perBlob },
        .insertBlob blob.key blob.flags (pos + bucketBlobHeaderSize) blob.size lastModified.toNat,
        .updateEndOffset (pos + (bucketBlobHeaderSize + blob.size))])

theorem appendRecordOps_eq (pos : Nat) (blob : WritingBlob) (lastModified : UInt64) :
    appendRecordOps pos blob lastModified =
      writePieces pos (blobPieces blob lastModified) ++ finishOps pos blob lastModified := by
  unfold appendRecordOps finishOps blobPieces
  rw [writePieces, length_blobHeader]
  simp only [List.append_assoc, List.cons_append, List.nil_append]

theorem flatten_blobPieces (blob : WritingBlob) (lastModified : UInt64) :
    (blobPieces blob lastModified).flatten = blobBytes blob lastModified := rfl

theorem runOps_finishOps {g : Glacier} {n : Nat} {file : Bytes}
    (hindex : g.ctx.currentBucketIndex = n) (hf : g.ctx.currentBucketF = some (.bucket n))
    (hfile : g.dir.file n = some file) (pos : Nat) (blob : WritingBlob) (lastModified : UInt64) :
    runOps (finishOps pos blob lastModified) g =
      (.ok, {
        dir := g.dir.put n
          (writeBucketEndOffset file (pos + (bucketBlobHeaderSize + blob.size)))
        db := indexAppended g.db n pos blob lastModified
        ctx := { g.ctx with
          currentBucketPos := pos + (bucketBlobHeaderSize + blob.size)
          currentBucketSync := blob.syncStrategy = .perBlob } }) := by
  obtain ⟨sync, hsync⟩ := runOps_syncBodyOps blob g
  rw [finishOps, runOps_append_ok hsync, runOps_cons_ok rfl]
  simp only [runOps, runOp, writeCurrentBucket, hf, hfile]
  rw [runOps_append_ok (runOps_syncOps _ _)]
  simp only [runOps, runOp, indexAppended, hindex]
  rfl

theorem runOps_appendRecordOps {g : Glacier} {n : Nat} {file : Bytes}
    (hindex : g.ctx.currentBucketIndex = n) (hf : g.ctx.currentBucketF = some (.bucket n))
    (hfile : g.dir.file n = some file) (pos : Nat) (blob : WritingBlob) (lastModified : UInt64) :
    runOps (appendRecordOps pos blob lastModified) g =
      (.ok, {
        dir := g.dir.put n (writeBucketEndOffset (writeAt file pos (blobBytes blob lastModified))
          (pos + (bucketBlobHeaderSize + blob.size)))
        db := indexAppended g.db n pos blob lastModified
        ctx := { g.ctx with
          currentBucketPos := pos + (bucketBlobHeaderSize + blob.size)
          currentBucketSync := blob.syncStrategy = .perBlob } }) := by
  have hpieces := runOps_writePieces hf hfile pos (blobPieces blob lastModified)
  rw [flatten_blobPieces] at hpieces
  have hfinish := runOps_finishOps
    (g := { g with dir := g.dir.put n (writeAt file pos (blobBytes blob lastModified)) }) hindex hf
    (BucketDir.put_file_self _ _ _) pos blob lastModified
  rw [appendRecordOps_eq, runOps_append_ok hpieces, hfinish, put_put]

theorem runOps_closeCurrentBucketOps (g : Glacier) :
    ∃ sync, runOps (closeCurrentBucketOps g.ctx) g =
      (.ok, { g with ctx := { g.ctx with currentBucketF := none, currentBucketSync := sync } }) := by
  unfold closeCurrentBucketOps
  split
  · next hf =>
    refine ⟨g.ctx.currentBucketSync, ?_⟩
    rw [runOps, ← hf]
  · split
    · exact ⟨g.ctx.currentBucketSync, rfl⟩
    · exact ⟨true, rfl⟩

/-- The state after `create_next_bucket`, which fails if the index has a row for the
new bucket. -/
theorem runOps_createNextBucketOps {g : Glacier} {n : Nat} (hindex : g.ctx.currentBucketIndex = n)
    (hnew : g.dir.file (n + 1) = none) :
    ∃ sync, runOps (createNextBucketOps g.ctx) g =
      match insertBucket g.db (n + 1) with
      | some db => (.ok, ⟨g.dir.put (n + 1) (bucketFile []), db,
          ⟨n + 1, some (.bucket (n + 1)), bucketHeaderSize, sync⟩⟩)
      | none => (.noReturn, ⟨g.dir.put (n + 1) (bucketFile []), g.db,
          ⟨n + 1, some (.bucket (n + 1)), bucketHeaderSize, sync⟩⟩) := by
  obtain ⟨sync, hclose⟩ := runOps_closeCurrentBucketOps g
  refine ⟨sync, ?_⟩
  rw [createNextBucketOps, runOps_append_ok hclose]
  simp only [runOps, runOp, hindex, hnew, writeCurrentBucket, BucketDir.put_file_self, put_put]
  cases insertBucket g.db (n + 1) with
  | none => rfl
  | some db => rfl

/-! ## Records and positions -/

theorem recordsBytes_append (rs rs' : List Record) :
    recordsBytes (rs ++ rs') = recordsBytes rs ++ recordsBytes rs' :=
  List.flatMap_append

theorem recordsBytes_singleton (r : Record) : recordsBytes [r] = r.bytes := by
  simp [recordsBytes]

theorem recordsBytes_concat (rs : List Record) (r : Record) :
    recordsBytes (rs ++ [r]) = recordsBytes rs ++ r.bytes := by
  rw [recordsBytes_append, recordsBytes_singleton]

theorem bucketSize_append (rs : List Record) (r : Record) :
    bucketSize (rs ++ [r]) = bucketSize rs + (bucketBlobHeaderSize + r.body.length) := by
  rw [bucketSize, bucketSize, recordsBytes_concat, List.length_append, length_bytes, Nat.add_assoc]

@[simp] theorem length_bucketFile (rs : List Record) : (bucketFile rs).length = bucketSize rs :=
  length_bucketBytes _ _

theorem drop_bucketFile (rs : List Record) :
    (bucketFile rs).drop bucketHeaderSize = recordsBytes rs :=
  drop_bucketBytes _ _ 0

theorem bucketFile_append_bytes (rs : List Record) (tail : Bytes) :
    bucketFile rs ++ tail = bucketBytes (bucketSize rs) (recordsBytes rs ++ tail) := by
  rw [bucketFile, bucketBytes, bucketBytes, List.append_assoc]
  rfl

theorem bucketFile_append (rs : List Record) (r : Record) :
    writeBucketEndOffset (bucketFile rs ++ r.bytes) (bucketSize (rs ++ [r])) =
      bucketFile (rs ++ [r]) := by
  rw [bucketFile_append_bytes, ← recordsBytes_concat, writeBucketEndOffset_bucketBytes]
  rfl

theorem positions_append (fPos : Nat) (rs rs' : List Record) :
    positions fPos (rs ++ rs') =
      positions fPos rs ++ positions (fPos + (recordsBytes rs).length) rs' := by
  induction rs generalizing fPos with
  | nil => rfl
  | cons r rs ih =>
    have hlen : (recordsBytes (r :: rs)).length = r.bytes.length + (recordsBytes rs).length := by
      simp [recordsBytes]
    rw [List.cons_append, positions, positions, ih, hlen, List.cons_append, Nat.add_assoc]

theorem positions_mono {fPos : Nat} {rs rs' : List Record} (h : rs <+: rs') :
    positions fPos rs <+: positions fPos rs' := by
  obtain ⟨more, rfl⟩ := h
  rw [positions_append]
  exact List.prefix_append _ _

theorem pointsAt_mono {log log' : SegLog Record} {row : BlobPosition}
    (h : PointsAt log.segments row) (hgrows : log.Grows log') : PointsAt log'.segments row := by
  obtain ⟨i, rs, fPos, r, hrs, hr, hrow⟩ := h
  obtain ⟨rs', hrs', hpre⟩ := hgrows i rs hrs
  exact ⟨i, rs', fPos, r, hrs', (positions_mono hpre).subset hr, hrow⟩

/-! ## The index -/

theorem eq_of_insertBucket {db db' : IndexDb} {n : Nat} (h : insertBucket db n = some db') :
    db' = { db with bucket := db.bucket ++ [⟨toInt32 n, bucketHeaderSize⟩] } := by
  unfold insertBucket at h
  split at h
  · cases h
  · exact (Option.some.inj h).symm

theorem findBucketEndOffset_insert_of_some {db db' : IndexDb} {n i : Nat} {endOffset : Int}
    (h : insertBucket db n = some db') (hi : findBucketEndOffset db i = some endOffset) :
    findBucketEndOffset db' i = some endOffset := by
  rw [eq_of_insertBucket h]
  unfold findBucketEndOffset at hi ⊢
  obtain ⟨row, hrow, hend⟩ := Option.map_eq_some_iff.mp hi
  rw [List.find?_append, hrow]
  exact congrArg some hend

theorem findBucketEndOffset_insert_self {db db' : IndexDb} {n : Nat}
    (h : insertBucket db n = some db') :
    findBucketEndOffset db' n = some (bucketHeaderSize : Int) := by
  unfold insertBucket at h
  split at h
  · cases h
  · next hnone =>
    cases h
    have hfind : (db.bucket.find? fun r => r.bucketIndex = toInt32 n) = none := by
      rw [List.find?_eq_none]
      intro row hrow hidx
      exact hnone (List.any_eq_true.mpr ⟨row, hrow, hidx⟩)
    unfold findBucketEndOffset
    rw [List.find?_append, hfind]
    simp

theorem ne_of_insertBucket {db db' : IndexDb} {n i : Nat} {endOffset : Int}
    (h : insertBucket db n = some db') (hi : findBucketEndOffset db i = some endOffset) :
    toInt32 i ≠ toInt32 n := by
  intro heq
  obtain ⟨row, hrow, -⟩ := Option.map_eq_some_iff.mp hi
  unfold insertBucket at h
  rw [if_pos] at h
  · cases h
  · refine List.any_eq_true.mpr ⟨row, List.mem_of_find?_eq_some hrow, ?_⟩
    have hidx := List.find?_some hrow
    rw [← heq]
    exact hidx

theorem findBucketEndOffset_update (db : IndexDb) (n i : Nat) (endOffset : Int) :
    findBucketEndOffset (updateBucketEndOffset db n endOffset) i =
      (findBucketEndOffset db i).map fun e =>
        if toInt32 i = toInt32 n then toInt32 endOffset else e := by
  have hkey (r : BucketRow) : (if r.bucketIndex = toInt32 n then
      { r with endOffset := toInt32 endOffset } else r).bucketIndex = r.bucketIndex := by
    split
    · rfl
    · rfl
  unfold findBucketEndOffset updateBucketEndOffset
  simp only [List.find?_map, Function.comp_def, hkey, Option.map_map]
  cases hfind : db.bucket.find? fun r => r.bucketIndex = toInt32 i with
  | none => simp only [Option.map_none]
  | some row =>
    have hidx : row.bucketIndex = toInt32 i := by simpa using List.find?_some hfind
    simp only [Option.map_some, hidx]
    split
    · rfl
    · rfl

theorem addBlobToIndex_bucket (db : IndexDb) (n : Nat) (ref : BlobRef) (flags : Int)
    (blobOffset blobSize lastModified : Nat) :
    (addBlobToIndex db n ref flags blobOffset blobSize lastModified).bucket = db.bucket := by
  unfold addBlobToIndex
  split
  · rfl
  · rfl

/-- The rows after an insert: the old ones, and the new one if its key is new. -/
theorem mem_addBlobToIndex {db : IndexDb} {n : Nat} {ref : BlobRef} {flags : Int}
    {blobOffset blobSize lastModified : Nat} {row : BlobPosition}
    (h : row ∈ (addBlobToIndex db n ref flags blobOffset blobSize lastModified).blobPosition) :
    row ∈ db.blobPosition ∨ row = ⟨ref, flags, toInt64 n, toInt32 blobOffset, toInt32 blobSize,
      toInt64 lastModified⟩ := by
  unfold addBlobToIndex at h
  split at h
  · exact .inl h
  · rcases List.mem_append.mp h with hold | hnew
    · exact .inl hold
    · exact .inr (List.mem_singleton.mp hnew)

theorem subset_addBlobToIndex {db : IndexDb} {n : Nat} {ref : BlobRef} {flags : Int}
    {blobOffset blobSize lastModified : Nat} :
    db.blobPosition ⊆ (addBlobToIndex db n ref flags blobOffset blobSize lastModified).blobPosition := by
  unfold addBlobToIndex
  split
  · exact fun _ h => h
  · exact List.subset_append_left _ _

theorem exists_key_addBlobToIndex (db : IndexDb) (n : Nat) (ref : BlobRef) (flags : Int)
    (blobOffset blobSize lastModified : Nat) :
    ∃ row ∈ (addBlobToIndex db n ref flags blobOffset blobSize lastModified).blobPosition,
      row.key = ref := by
  unfold addBlobToIndex
  split
  · next h =>
    obtain ⟨row, hrow, hkey⟩ := List.any_eq_true.mp h
    exact ⟨row, hrow, of_decide_eq_true hkey⟩
  · exact ⟨_, List.mem_append_right _ List.mem_cons_self, rfl⟩

theorem nodup_addBlobToIndex {db : IndexDb} {n : Nat} {ref : BlobRef} {flags : Int}
    {blobOffset blobSize lastModified : Nat} (h : (db.blobPosition.map (·.key)).Nodup) :
    ((addBlobToIndex db n ref flags blobOffset blobSize lastModified).blobPosition.map
      (·.key)).Nodup := by
  unfold addBlobToIndex
  split
  · exact h
  · next hnew =>
    rw [List.map_append, List.nodup_append]
    refine ⟨h, List.pairwise_singleton _ _, ?_⟩
    rintro key hkey _ hlast rfl
    obtain ⟨row, hrow, rfl⟩ := List.mem_map.mp hkey
    exact hnew (List.any_eq_true.mpr ⟨row, hrow, decide_eq_true (List.mem_singleton.mp hlast)⟩)

theorem findBucketEndOffset_indexAppended (db : IndexDb) (n pos i : Nat) (blob : WritingBlob)
    (lastModified : UInt64) :
    findBucketEndOffset (indexAppended db n pos blob lastModified) i =
      (findBucketEndOffset db i).map fun e =>
        if toInt32 i = toInt32 n then
          toInt32 (pos + (bucketBlobHeaderSize + blob.size) : Nat) else e := by
  rw [indexAppended, findBucketEndOffset_update]
  unfold findBucketEndOffset
  rw [addBlobToIndex_bucket]

theorem mem_bucket_indexAppended {db : IndexDb} {n pos : Nat} {blob : WritingBlob}
    {lastModified : UInt64} {row : BucketRow}
    (h : row ∈ (indexAppended db n pos blob lastModified).bucket) :
    ∃ row' ∈ db.bucket, row.bucketIndex = row'.bucketIndex := by
  obtain ⟨row', hrow', rfl⟩ := List.mem_map.mp h
  rw [addBlobToIndex_bucket] at hrow'
  refine ⟨row', hrow', ?_⟩
  split
  · simp only
  · rfl

/-! ## The store after a call -/

/-- The row of one more bucket is that of no other one. -/
theorem distinct_succ {n : Nat}
    (h : ∀ i < n, ∀ j < n, toInt32 (i + 1 : Nat) = toInt32 (j + 1 : Nat) → i = j)
    (hfresh : ∀ i < n, toInt32 (i + 1 : Nat) ≠ toInt32 (n + 1 : Nat)) :
    ∀ i < n + 1, ∀ j < n + 1, toInt32 (i + 1 : Nat) = toInt32 (j + 1 : Nat) → i = j := by
  intro i hi j hj heq
  rw [Nat.lt_succ_iff_lt_or_eq] at hi hj
  rcases hi with hi | rfl
  · rcases hj with hj | rfl
    · exact h i hi j hj heq
    · exact absurd heq (hfresh i hi)
  · rcases hj with hj | rfl
    · exact absurd heq.symm (hfresh j hj)
    · rfl

theorem represents_roll {g g' : Glacier} {log : SegLog Record} (h : Represents g log)
    (hrun : runOps (createNextBucketOps g.ctx) g = (.ok, g')) :
    Represents g' log.roll ∧ g'.db.blobPosition = g.db.blobPosition := by
  have hlen := log.length_segments
  have hnew : g.dir.file (log.segments.length + 1) = none := by
    rw [h.file, List.getElem?_eq_none (Nat.le_refl _)]
    rfl
  obtain ⟨sync, hops⟩ := runOps_createNextBucketOps h.currentBucketIndex hnew
  rw [hops] at hrun
  cases hins : insertBucket g.db (log.segments.length + 1) with
  | none =>
    rw [hins] at hrun
    cases hrun
  | some db =>
    rw [hins] at hrun
    cases hrun
    have hroll : log.roll.segments.length = log.segments.length + 1 := by
      simp [SegLog.roll]
    have hdb := eq_of_insertBucket hins
    have hfresh (i : Nat) (hi : i < log.segments.length) :
        toInt32 (i + 1 : Nat) ≠ toInt32 (log.segments.length + 1 : Nat) :=
      ne_of_insertBucket hins (h.endOffset i _ (List.getElem?_eq_getElem hi))
    refine ⟨?_, by rw [hdb]⟩
    refine
      { file_zero := ?_, file := ?_, endOffset := ?_, bucketRows := ?_, distinct := ?_,
        keys := ?_, rows := ?_, indexed := ?_, currentBucketIndex := ?_, currentBucketF := ?_,
        currentBucketPos := ?_ }
    · rw [BucketDir.put_file_of_ne _ (Nat.succ_ne_zero _).symm]
      exact h.file_zero
    · intro i
      rw [SegLog.getElem?_roll, ← hlen]
      split
      · next hi => rw [hi, BucketDir.put_file_self]; rfl
      · next hi =>
        rw [BucketDir.put_file_of_ne _ fun heq => hi (Nat.succ.inj heq)]
        exact h.file i
    · intro i rs hrs
      rw [SegLog.getElem?_roll, ← hlen] at hrs
      split at hrs
      · next hi =>
        cases hrs
        rw [hi]
        exact findBucketEndOffset_insert_self hins
      · exact findBucketEndOffset_insert_of_some hins (h.endOffset i rs hrs)
    · intro row hrow
      rw [hdb] at hrow
      rcases List.mem_append.mp hrow with hold | hnew
      · obtain ⟨i, hi, hidx⟩ := h.bucketRows row hold
        exact ⟨i, by omega, hidx⟩
      · rw [List.mem_singleton.mp hnew]
        refine ⟨log.segments.length, by omega, ?_⟩
        simp only
    · rw [hroll]
      exact distinct_succ h.distinct hfresh
    · rw [hdb]
      exact h.keys
    · intro row hrow
      rw [hdb] at hrow
      exact pointsAt_mono (h.rows row hrow) log.roll_grows
    · intro r hr
      rw [SegLog.roll_items] at hr
      rw [hdb]
      exact h.indexed r hr
    · exact hroll.symm
    · rw [hroll]
    · rfl

theorem bytes_recordOf (blob : WritingBlob) (lastModified : UInt64) (h : blob.size < 2 ^ 32) :
    (recordOf blob lastModified h).bytes = blobBytes blob lastModified := by
  unfold Record.bytes blobBytes recordOf
  rw [blob.length_body]

/-- There is no bucket 2^32 + 1: its row would be that of bucket 1. -/
theorem length_segments_le {g : Glacier} {log : SegLog Record} (h : Represents g log) :
    log.segments.length ≤ 2 ^ 32 := by
  refine Nat.le_of_not_lt fun hlt => ?_
  have hwrap : toInt32 (0 + 1 : Nat) = toInt32 (2 ^ 32 + 1 : Nat) := by decide
  exact absurd (h.distinct 0 (by omega) (2 ^ 32) hlt hwrap) (by decide)

/-- The row of a blob that is appended to the current bucket. -/
def newRow (log : SegLog Record) (blob : WritingBlob) (lastModified : UInt64) : BlobPosition where
  key := blob.key
  flags := blob.flags
  bucketIndex := toInt64 log.segments.length
  bucketBlobOffset := toInt32 (bucketSize log.current + bucketBlobHeaderSize : Nat)
  blobSize := toInt32 blob.size
  lastModified := toInt64 lastModified.toNat

section Add

variable {g : Glacier} {log : SegLog Record} {blob : WritingBlob} {lastModified : UInt64}

theorem bucketSize_recordOf (rs : List Record) (hsize : blob.size < 2 ^ 32) :
    bucketSize (rs ++ [recordOf blob lastModified hsize]) =
      bucketSize rs + (bucketBlobHeaderSize + blob.size) := by
  rw [bucketSize_append, recordOf, blob.length_body]

/-- The current bucket ends behind the new record, the others where they did. -/
theorem endOffset_add (h : Represents g log) (hsize : blob.size < 2 ^ 32)
    (hfits : bucketSize (log.current ++ [recordOf blob lastModified hsize]) < 2 ^ 31) {i : Nat}
    {rs : List Record}
    (hrs : (log.add (recordOf blob lastModified hsize)).segments[i]? = some rs) :
    findBucketEndOffset (indexAppended g.db log.segments.length (bucketSize log.current) blob
      lastModified) (i + 1) = some (bucketSize rs : Int) := by
  have hlen := log.length_segments
  have hold : ∃ rs, log.segments[i]? = some rs := by
    rw [SegLog.getElem?_add] at hrs
    split at hrs
    · next hi => exact ⟨log.current, by rw [hi, SegLog.getElem?_current]⟩
    · exact ⟨rs, hrs⟩
  obtain ⟨rs', hrs'⟩ := hold
  have hi : i < log.segments.length := (List.getElem?_eq_some_iff.mp hrs').1
  rw [findBucketEndOffset_indexAppended, h.endOffset i rs' hrs', Option.map_some,
    ← bucketSize_recordOf log.current hsize]
  rw [SegLog.getElem?_add] at hrs
  split at hrs
  · next heq =>
    cases hrs
    rw [heq, ← hlen, if_pos rfl, toInt32_of_lt hfits]
  · next hne =>
    rw [hrs] at hrs'
    cases hrs'
    rw [if_neg]
    intro heq
    rw [hlen] at heq
    exact hne (h.distinct i hi log.closed.length (by omega) heq)

/-- The new row points at the new record. -/
theorem pointsAt_newRow (h : Represents g log) (hsize : blob.size < 2 ^ 32)
    (hfits : bucketSize (log.current ++ [recordOf blob lastModified hsize]) < 2 ^ 31) :
    PointsAt (log.add (recordOf blob lastModified hsize)).segments
      (newRow log blob lastModified) := by
  have hlen := log.length_segments
  have hle := length_segments_le h
  rw [bucketSize_recordOf] at hfits
  have hindex : toInt64 log.segments.length = log.closed.length + 1 :=
    (toInt64_of_lt (by omega)).trans (congrArg Nat.cast hlen)
  have hoffset : toInt32 (bucketSize log.current + bucketBlobHeaderSize : Nat) =
      bucketSize log.current + bucketBlobHeaderSize := toInt32_of_lt (by omega)
  have hbody : toInt32 blob.size = (recordOf blob lastModified hsize).body.length :=
    (toInt32_of_lt (by omega)).trans (congrArg Nat.cast blob.length_body.symm)
  refine ⟨log.closed.length, log.current ++ [recordOf blob lastModified hsize],
    bucketSize log.current, recordOf blob lastModified hsize, ?_, ?_, rfl, ?_, ?_, ?_⟩
  · rw [SegLog.getElem?_add, if_pos rfl]
  · rw [positions_append]
    exact List.mem_append_right _ List.mem_cons_self
  · simp only [newRow, hindex]
  · simp only [newRow, hoffset]
  · simp only [newRow, hbody]

theorem represents_add (h : Represents g log) (hsize : blob.size < 2 ^ 32)
    (hfits : bucketSize (log.current ++ [recordOf blob lastModified hsize]) < 2 ^ 31) :
    ∃ g', runOps (appendRecordOps g.ctx.currentBucketPos blob lastModified) g = (.ok, g') ∧
      Represents g' (log.add (recordOf blob lastModified hsize)) ∧
      ∀ row ∈ g'.db.blobPosition, row ∈ g.db.blobPosition ∨ row = newRow log blob lastModified := by
  have hlen := log.length_segments
  have hadd : (log.add (recordOf blob lastModified hsize)).segments.length = log.segments.length := by
    simp [SegLog.add]
  have hrun := runOps_appendRecordOps h.currentBucketIndex h.currentBucketF h.file_current
    (bucketSize log.current) blob lastModified
  have hwrite : writeAt (bucketFile log.current) (bucketSize log.current)
      (recordOf blob lastModified hsize).bytes =
        bucketFile log.current ++ (recordOf blob lastModified hsize).bytes := by
    rw [← length_bucketFile, writeAt_length]
  rw [← bytes_recordOf blob lastModified hsize, ← bucketSize_recordOf log.current hsize, hwrite,
    bucketFile_append] at hrun
  rw [h.currentBucketPos]
  refine ⟨_, hrun, ?_, fun row hrow => mem_addBlobToIndex hrow⟩
  refine
    { file_zero := ?_, file := ?_, endOffset := fun i rs hrs => endOffset_add h hsize hfits hrs,
      bucketRows := ?_, distinct := ?_, keys := nodup_addBlobToIndex h.keys, rows := ?_,
      indexed := ?_, currentBucketIndex := h.currentBucketIndex.trans hadd.symm,
      currentBucketF := ?_, currentBucketPos := rfl }
  · rw [BucketDir.put_file_of_ne _ (by omega)]
    exact h.file_zero
  · intro i
    rw [SegLog.getElem?_add]
    split
    · next hi => rw [hi, ← hlen, BucketDir.put_file_self]; rfl
    · next hi =>
      rw [BucketDir.put_file_of_ne _ (by omega)]
      exact h.file i
  · intro row hrow
    obtain ⟨row', hrow', hidx⟩ := mem_bucket_indexAppended hrow
    rw [hidx, hadd]
    exact h.bucketRows row' hrow'
  · rw [hadd]
    exact h.distinct
  · intro row hrow
    rcases mem_addBlobToIndex hrow with hold | rfl
    · exact pointsAt_mono (h.rows row hold) (log.add_grows _)
    · exact pointsAt_newRow h hsize hfits
  · intro r hr
    rw [SegLog.add_items] at hr
    rcases List.mem_append.mp hr with hold | hnew
    · obtain ⟨row, hrow, hkey⟩ := h.indexed r hold
      exact ⟨row, subset_addBlobToIndex hrow, hkey⟩
    · rw [List.mem_singleton.mp hnew]
      exact exists_key_addBlobToIndex _ _ _ _ _ _ _
  · rw [hadd]
    exact h.currentBucketF

end Add

theorem appendOps_eq {maxBucketSize : Nat} {ctx : WriteCtx} {blob : WritingBlob}
    {lastModified : UInt64} {ops : List Op}
    (h : appendOps maxBucketSize ctx blob lastModified = some ops) :
    bucketHeaderSize + (bucketBlobHeaderSize + blob.size) ≤ maxBucketSize ∧
      ops = if maxBucketSize < ctx.currentBucketPos + (bucketBlobHeaderSize + blob.size) then
        createNextBucketOps ctx ++ appendRecordOps bucketHeaderSize blob lastModified
      else appendRecordOps ctx.currentBucketPos blob lastModified := by
  unfold appendOps at h
  simp only at h
  split at h
  · cases h
  · next hmin =>
    refine ⟨Nat.not_lt.mp hmin, ?_⟩
    split at h
    · next hfull => rw [if_pos hfull]; exact (Option.some.inj h).symm
    · next hroom => rw [if_neg hroom]; exact (Option.some.inj h).symm

theorem appendBlob_ok {maxBucketSize : Nat} {g : Glacier} {blob : WritingBlob}
    {lastModified : UInt64} (hok : (appendBlob maxBucketSize g blob lastModified).1 = .ok) :
    ∃ ops, appendOps maxBucketSize g.ctx blob lastModified = some ops ∧
      runOps ops g = (.ok, (appendBlob maxBucketSize g blob lastModified).2) := by
  unfold appendBlob at hok ⊢
  cases hops : appendOps maxBucketSize g.ctx blob lastModified with
  | none =>
    rw [hops] at hok
    cases hok
  | some ops =>
    rw [hops] at hok
    exact ⟨ops, rfl, Prod.ext hok rfl⟩

/-- A successful append pushes the record of the blob. -/
theorem represents_appendBlob {maxBucketSize : Nat} (hmax : maxBucketSize < 2 ^ 31) {g : Glacier}
    {log : SegLog Record} (h : Represents g log) {blob : WritingBlob} {lastModified : UInt64}
    (hok : (appendBlob maxBucketSize g blob lastModified).1 = .ok) :
    ∃ hsize : blob.size < 2 ^ 32,
      bucketSize [recordOf blob lastModified hsize] ≤ maxBucketSize ∧
      Represents (appendBlob maxBucketSize g blob lastModified).2
        (log.push bucketSize maxBucketSize (recordOf blob lastModified hsize)) ∧
      ∃ log1, log.push bucketSize maxBucketSize (recordOf blob lastModified hsize) =
          log1.add (recordOf blob lastModified hsize) ∧
        ∀ row ∈ (appendBlob maxBucketSize g blob lastModified).2.db.blobPosition,
          row ∈ g.db.blobPosition ∨ row = newRow log1 blob lastModified := by
  obtain ⟨ops, hops, hrun⟩ := appendBlob_ok hok
  obtain ⟨hmin, heq⟩ := appendOps_eq hops
  have hsize : blob.size < 2 ^ 32 := by omega
  have hend (rs : List Record) : bucketSize (rs ++ [recordOf blob lastModified hsize]) =
      bucketSize rs + (bucketBlobHeaderSize + blob.size) := bucketSize_recordOf rs hsize
  have hone : bucketSize [recordOf blob lastModified hsize] ≤ maxBucketSize :=
    (hend []).trans_le hmin
  refine ⟨hsize, hone, ?_⟩
  rw [h.currentBucketPos] at heq
  unfold SegLog.push
  split at heq
  · next hfull =>
    rw [if_neg (by rw [hend]; omega)]
    rw [heq, runOps_append] at hrun
    rcases hroll : runOps (createNextBucketOps g.ctx) g with ⟨res, g1⟩
    rw [hroll] at hrun
    cases res with
    | ok =>
      obtain ⟨h1, hrows⟩ := represents_roll h hroll
      obtain ⟨g2, hrun2, h2, hrows2⟩ := represents_add h1 hsize (Nat.lt_of_le_of_lt hone hmax)
      rw [h1.currentBucketPos] at hrun2
      cases hrun.symm.trans hrun2
      rw [hrows] at hrows2
      exact ⟨h2, log.roll, rfl, hrows2⟩
    | _ => cases hrun
  · next hroom =>
    rw [if_pos (by rw [hend]; omega)]
    obtain ⟨g1, hrun1, h1, hrows1⟩ := represents_add h hsize (by rw [hend]; omega)
    rw [h.currentBucketPos] at hrun1
    rw [heq] at hrun
    cases hrun.symm.trans hrun1
    exact ⟨h1, log, rfl, hrows1⟩

theorem represents_emptyGlacier : Represents emptyGlacier .empty := by
  have hsegs : (SegLog.empty : SegLog Record).segments = [[]] := rfl
  have hbucket : emptyGlacier.db.bucket = [⟨1, 7⟩] := by decide
  refine
    { file_zero := rfl, file := ?_, endOffset := ?_, bucketRows := ?_, distinct := ?_,
      keys := List.nodup_nil, rows := fun row hrow => absurd hrow List.not_mem_nil,
      indexed := fun r hr => absurd hr List.not_mem_nil,
      currentBucketIndex := rfl, currentBucketF := rfl, currentBucketPos := rfl }
  · intro i
    cases i with
    | zero => rfl
    | succ i => rfl
  · intro i rs hrs
    cases i with
    | zero => cases hrs; decide
    | succ i => cases hrs
  · intro row hrow
    rw [hbucket] at hrow
    exact ⟨0, by decide, by rw [List.mem_singleton.mp hrow]; decide⟩
  · intro i hi j hj _
    rw [hsegs] at hi hj
    exact (Nat.lt_one_iff.mp hi).trans (Nat.lt_one_iff.mp hj).symm

/-- The records of the appended blobs in their order. -/
def Holds (log : SegLog Record) (steps : List AppendStep) : Prop :=
  log.items.map (fun r => (r.key, r.body)) = steps.map fun s => (s.blob.key, s.blob.body)

theorem map_key_of_holds {log : SegLog Record} {steps : List AppendStep} (h : Holds log steps) :
    log.items.map (·.key) = steps.map (·.blob.key) := by
  have hfst := congrArg (List.map Prod.fst) h
  rw [List.map_map, List.map_map] at hfst
  exact hfst

theorem exists_step_of_mem {log : SegLog Record} {steps : List AppendStep} (h : Holds log steps)
    {r : Record} (hr : r ∈ log.items) :
    ∃ s ∈ steps, s.blob.key = r.key ∧ s.blob.body = r.body := by
  have hpair : (r.key, r.body) ∈ steps.map fun s => (s.blob.key, s.blob.body) :=
    h ▸ List.mem_map_of_mem hr
  obtain ⟨s, hs, heq⟩ := List.mem_map.mp hpair
  exact ⟨s, hs, congrArg Prod.fst heq, congrArg Prod.snd heq⟩

theorem exists_mem_of_step {log : SegLog Record} {steps : List AppendStep} (h : Holds log steps)
    {s : AppendStep} (hs : s ∈ steps) :
    ∃ r ∈ log.items, r.key = s.blob.key ∧ r.body = s.blob.body := by
  have hpair : (s.blob.key, s.blob.body) ∈ log.items.map fun r => (r.key, r.body) :=
    h ▸ List.mem_map_of_mem hs
  obtain ⟨r, hr, heq⟩ := List.mem_map.mp hpair
  exact ⟨r, hr, congrArg Prod.fst heq, congrArg Prod.snd heq⟩

theorem represents_step {maxBucketSize : Nat} (hmax : maxBucketSize < 2 ^ 31) {g : Glacier}
    {log : SegLog Record} (h : Represents g log)
    (hfits : log.Fits bucketSize (max maxBucketSize bucketHeaderSize)) {s : AppendStep}
    (hok : Appended maxBucketSize g s) :
    ∃ log', Represents (nextGlacier maxBucketSize g s) log' ∧
      log'.Fits bucketSize (max maxBucketSize bucketHeaderSize) ∧ log.Grows log' ∧
      (log.Filled → log'.Filled) ∧
      log'.items.map (fun r => (r.key, r.body)) =
        log.items.map (fun r => (r.key, r.body)) ++ [(s.blob.key, s.blob.body)] := by
  obtain ⟨hsize, hone, h', -⟩ := represents_appendBlob hmax h hok
  refine ⟨_, h', ?_, log.push_grows _, fun hfilled => hfilled.push hone, ?_⟩
  · have hmin : max maxBucketSize bucketHeaderSize = maxBucketSize :=
      Nat.max_eq_left (Nat.le_trans (Nat.le_add_right _ _) hone)
    rw [hmin] at hfits ⊢
    exact hfits.push (Nat.le_trans (Nat.le_add_right _ _) hone) hone
  · rw [SegLog.push_items, List.map_append]
    rfl

/-- A run of successful appends from a state that represents a log. -/
theorem represents_run_from {maxBucketSize : Nat} (hmax : maxBucketSize < 2 ^ 31) {g : Glacier}
    {log : SegLog Record} (h : Represents g log)
    (hfits : log.Fits bucketSize (max maxBucketSize bucketHeaderSize)) {steps : List AppendStep}
    (hok : Along (nextGlacier maxBucketSize) (Appended maxBucketSize) g steps) :
    ∃ log', Represents (exec (nextGlacier maxBucketSize) g steps) log' ∧
      log'.Fits bucketSize (max maxBucketSize bucketHeaderSize) ∧ log.Grows log' ∧
      (log.Filled → log'.Filled) ∧
      log'.items.map (fun r => (r.key, r.body)) =
        log.items.map (fun r => (r.key, r.body)) ++ steps.map fun s => (s.blob.key, s.blob.body) := by
  refine hok.invariant_inputs
    (fun before g' => ∃ log', Represents g' log' ∧
      log'.Fits bucketSize (max maxBucketSize bucketHeaderSize) ∧ log.Grows log' ∧
      (log.Filled → log'.Filled) ∧ log'.items.map (fun r => (r.key, r.body)) =
        log.items.map (fun r => (r.key, r.body)) ++ before.map fun s => (s.blob.key, s.blob.body)) ?_ ?_
  · exact ⟨log, h, hfits, .refl log, id, by rw [List.map_nil, List.append_nil]⟩
  · rintro before s g' - ⟨log', h', hfits', hgrows, hfilled, hitems⟩ hs
    obtain ⟨log'', h'', hfits'', hgrows', hfilled', hitems'⟩ := represents_step hmax h' hfits' hs
    refine ⟨log'', h'', hfits'', hgrows.trans hgrows', fun h => hfilled' (hfilled h), ?_⟩
    rw [hitems', hitems, List.map_append, List.append_assoc]
    rfl

/-- The state after a run of successful appends. -/
theorem represents_run {maxBucketSize : Nat} (hmax : maxBucketSize < 2 ^ 31)
    {steps : List AppendStep}
    (hok : Along (nextGlacier maxBucketSize) (Appended maxBucketSize) emptyGlacier steps) :
    ∃ log, Represents (exec (nextGlacier maxBucketSize) emptyGlacier steps) log ∧
      log.Fits bucketSize (max maxBucketSize bucketHeaderSize) ∧ log.Filled ∧ Holds log steps := by
  have hfits : (SegLog.empty : SegLog Record).Fits bucketSize
      (max maxBucketSize bucketHeaderSize) := by
    intro rs hrs
    rw [List.mem_singleton.mp hrs]
    exact Nat.le_max_right _ _
  obtain ⟨log, h, hfits', -, hfilled, hitems⟩ :=
    represents_run_from hmax represents_emptyGlacier hfits hok
  exact ⟨log, h, hfits', hfilled fun rs hrs => absurd hrs List.not_mem_nil, hitems⟩

theorem recordsKept_of_grows {g g' : Glacier} {log log' : SegLog Record} (h : Represents g log)
    (h' : Represents g' log') (hgrows : log.Grows log') : RecordsKept g g' := by
  intro i file hfile
  cases i with
  | zero =>
    rw [h.file_zero] at hfile
    cases hfile
  | succ i =>
    rw [h.file] at hfile
    obtain ⟨rs, hrs, rfl⟩ := Option.map_eq_some_iff.mp hfile
    obtain ⟨rs', hrs', more, rfl⟩ := hgrows i rs hrs
    refine ⟨bucketFile (rs ++ more), by rw [h'.file, hrs']; rfl, ?_⟩
    rw [drop_bucketFile, drop_bucketFile, recordsBytes_append]
    exact List.prefix_append _ _

/-- The records of a state are kept by the appends that follow. -/
theorem recordsKept_run {maxBucketSize : Nat} (hmax : maxBucketSize < 2 ^ 31) {g : Glacier}
    {log : SegLog Record} (h : Represents g log)
    (hfits : log.Fits bucketSize (max maxBucketSize bucketHeaderSize)) {steps : List AppendStep}
    (hok : Along (nextGlacier maxBucketSize) (Appended maxBucketSize) g steps) :
    RecordsKept g (exec (nextGlacier maxBucketSize) g steps) := by
  obtain ⟨log', h', -, hgrows, -⟩ := represents_run_from hmax h hfits hok
  exact recordsKept_of_grows h h' hgrows

end AppendLemmas

open AppendLemmas

/-- After every run of successful appends the files, the index and the context agree,
no bucket has outgrown the bound and no record has been changed. -/
theorem bucket_store_invariant (maxBucketSize : Nat) (hmax : maxBucketSize < 2 ^ 31)
    (steps : List AppendStep)
    (hok : Along (nextGlacier maxBucketSize) (Appended maxBucketSize) emptyGlacier steps) :
    StoreInvariant (max maxBucketSize bucketHeaderSize)
        (exec (nextGlacier maxBucketSize) emptyGlacier steps) ∧
      ∀ before after, steps = before ++ after →
        RecordsKept (exec (nextGlacier maxBucketSize) emptyGlacier before)
          (exec (nextGlacier maxBucketSize) emptyGlacier steps) := by
  constructor
  · obtain ⟨log, h, hfits, -, -⟩ := represents_run hmax hok
    exact ⟨log, h, hfits⟩
  · rintro before after rfl
    obtain ⟨hbefore, hafter⟩ := along_append.mp hok
    obtain ⟨log, h, hfits, -, -⟩ := represents_run hmax hbefore
    rw [exec_append]
    exact recordsKept_run hmax h hfits hafter

/-- The empty blob under the SHA3-224 hash of nothing. -/
def emptyBlob : WritingBlob where
  key := #v[0x6b, 0x4e, 0x03, 0x42, 0x36, 0x67, 0xdb, 0xb7, 0x3b, 0x6e, 0x15, 0x45, 0x4f, 0x0e,
    0xb1, 0xab, 0xd4, 0x59, 0x7f, 0x9a, 0x1b, 0x07, 0x8e, 0x3f, 0x5b, 0x5a, 0x6b, 0xc7]
  flags := 0
  size := 0
  syncStrategy := .default
  chunks := []
  chunks_full := by simp
  chunks_enough := Nat.le_refl _

/-- The blob "x" under its SHA3-224 hash. -/
def letterBlob : WritingBlob where
  key := #v[0x63, 0xe6, 0xce, 0xb2, 0x8a, 0xd4, 0x74, 0xfa, 0x51, 0xc3, 0xd5, 0xdd, 0xa2, 0x23,
    0x9a, 0xdb, 0x5e, 0x58, 0xa1, 0xae, 0x26, 0x00, 0xd1, 0x8c, 0x6e, 0x11, 0x67, 0x46]
  flags := 0
  size := 1
  syncStrategy := .default
  chunks := [0x78 :: List.replicate (chunkSize - 1) 0]
  chunks_full := by
    intro c hc
    rw [List.mem_singleton.mp hc, List.length_cons, List.length_replicate]
    exact Nat.sub_add_cancel (by decide)
  chunks_enough := by decide

/-- The hash on the two blobs. -/
def sampleHash (body : Bytes) : BlobRef :=
  if body = [] then emptyBlob.key else letterBlob.key

/-- Two blobs in buckets that take one each. -/
theorem bucket_store_invariant_two :
    Along (nextGlacier 49) (Appended 49) emptyGlacier [⟨emptyBlob, 5⟩, ⟨emptyBlob, 6⟩] ∧
      StoreInvariant 49 (exec (nextGlacier 49) emptyGlacier [⟨emptyBlob, 5⟩, ⟨emptyBlob, 6⟩]) :=
  have hok : Along (nextGlacier 49) (Appended 49) emptyGlacier
      [⟨emptyBlob, 5⟩, ⟨emptyBlob, 6⟩] := by decide +kernel
  ⟨hok, (bucket_store_invariant 49 (by decide) _ hok).1⟩

/-- The header of the first bucket is written whatever the bound is. -/
theorem bucket_exceeds_max : ¬ StoreInvariant 0 (exec (nextGlacier 0) emptyGlacier []) := by
  rintro ⟨log, -, hfits⟩
  have hle := hfits log.current log.current_mem_segments
  exact absurd (Nat.le_trans (Nat.le_add_right _ _) hle) (by decide)

end Everarch
