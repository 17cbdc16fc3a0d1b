import Everarch.Glacier.Reindex

/-!
# Buckets that can be walked

Buckets of complete records, with at most a part of a blob header behind them: what
`evr_glacier_reindex_bucket` can cope with.

* `checkBlobs_pointsAt`: rows that point at records pass the check.
* `quickCheck_represents`: a glacier that has been left alone passes.
* `reindex_walkable`: buckets that can be walked are reindexed without an error, and
  no record is lost.
-/

namespace Everarch

/-- Bucket `i + 1` holds the records of segment `i`, and perhaps a part of a blob
header behind them. -/
structure Walkable (dir : BucketDir) (segs : List (List Record)) : Prop where
  file_zero : dir.file 0 = none
  file_none : ∀ i, segs.length ≤ i → dir.file (i + 1) = none
  file : ∀ (i : Nat) rs, segs[i]? = some rs → ∃ endOffset after,
    after.length < bucketBlobHeaderSize ∧
    (bucketBytes endOffset (recordsBytes rs ++ after)).length < 2 ^ 31 ∧
    dir.file (i + 1) = some (bucketBytes endOffset (recordsBytes rs ++ after))

/-- The blob is in the index, at a position that holds its bytes. -/
def IndexedAt (disk : Disk) (key : BlobRef) (body : Bytes) : Prop :=
  ∃ db row file, disk.db = some db ∧ row ∈ db.blobPosition ∧ row.key = key ∧
    disk.dir.file row.bucketIndex.toNat = some file ∧ row.blobSize = body.length ∧
    readAt file row.bucketBlobOffset.toNat row.blobSize.toNat = body

/-- The bytes that a row names: its columns as `evr_glacier_read_blob` takes them, none if
there is no such bucket, no such offset or not so many bytes. -/
def rowBytes (dir : BucketDir) (row : BlobPosition) : Option Bytes :=
  match dir.file (row.bucketIndex % 2 ^ 64).toNat with
  | none => none
  | some file =>
    let offset := columnSize row.bucketBlobOffset
    let size := columnSize row.blobSize
    if 0 ≤ toInt32 row.bucketBlobOffset ∧ (size = 0 ∨ offset + size ≤ file.length) then
      some (readAt file offset size)
    else none

/-- The row of a record at its position in bucket `i`, as a reindex inserts it. -/
def rowAt (i : Nat) (p : Nat × Record) : BlobPosition where
  key := p.2.key
  flags := p.2.flags.toNat
  bucketIndex := toInt64 i
  bucketBlobOffset := toInt32 (p.1 + bucketBlobHeaderSize : Nat)
  blobSize := toInt32 p.2.body.length
  lastModified := toInt64 p.2.lastModified

/-- The row is that of a record. -/
def PlacedAt (segs : List (List Record)) (row : BlobPosition) : Prop :=
  ∃ (i : Nat) (rs : List Record) (p : Nat × Record), segs[i]? = some rs ∧
    p ∈ positions bucketHeaderSize rs ∧ row = rowAt (i + 1) p

namespace WalkableLemmas

open BucketLemmas AppendLemmas ReindexLemmas

theorem mem_positions {fPos start : Nat} {r : Record} {rs : List Record}
    (h : (fPos, r) ∈ positions start rs) :
    ∃ before after, rs = before ++ r :: after ∧ fPos = start + (recordsBytes before).length := by
  induction rs generalizing start with
  | nil => cases h
  | cons r' rs ih =>
    rcases List.mem_cons.mp h with heq | hmem
    · cases heq
      exact ⟨[], rs, rfl, rfl⟩
    · obtain ⟨before, after, rfl, rfl⟩ := ih hmem
      refine ⟨r' :: before, after, rfl, ?_⟩
      simp [recordsBytes, Nat.add_assoc]

theorem mem_of_mem_positions {fPos start : Nat} {r : Record} {rs : List Record}
    (h : (fPos, r) ∈ positions start rs) : r ∈ rs := by
  obtain ⟨before, after, rfl, -⟩ := mem_positions h
  simp

theorem exists_position {start : Nat} {r : Record} {rs : List Record} (h : r ∈ rs) :
    ∃ fPos, (fPos, r) ∈ positions start rs := by
  induction rs generalizing start with
  | nil => cases h
  | cons r' rs ih =>
    rcases List.mem_cons.mp h with rfl | hmem
    · exact ⟨start, List.mem_cons_self⟩
    · obtain ⟨fPos, hpos⟩ : ∃ fPos, (fPos, r) ∈ positions (start + r'.bytes.length) rs := ih hmem
      exact ⟨fPos, List.mem_cons_of_mem _ hpos⟩

/-- A record's body is read back from its position. -/
theorem readAt_position (endOffset : Nat) {fPos : Nat} {r : Record} {rs : List Record}
    (after : Bytes) (h : (fPos, r) ∈ positions bucketHeaderSize rs) :
    readAt (bucketBytes endOffset (recordsBytes rs ++ after)) (fPos + bucketBlobHeaderSize)
        r.body.length = r.body ∧
      fPos + bucketBlobHeaderSize + r.body.length ≤
        (bucketBytes endOffset (recordsBytes rs ++ after)).length := by
  obtain ⟨before, behind, rfl, rfl⟩ := mem_positions h
  have hsplit : bucketBytes endOffset (recordsBytes (before ++ r :: behind) ++ after) =
      (bucketBytes endOffset (recordsBytes before) ++
        blobHeader r.key r.flags r.lastModified r.body.length) ++ r.body ++
        (recordsBytes behind ++ after) := by
    simp [bucketBytes, recordsBytes, Record.bytes]
  have hlen : (bucketBytes endOffset (recordsBytes before) ++
      blobHeader r.key r.flags r.lastModified r.body.length).length =
      bucketHeaderSize + (recordsBytes before).length + bucketBlobHeaderSize := by
    rw [List.length_append, length_bucketBytes, length_blobHeader]
  constructor
  · exact readAt_middle hsplit hlen rfl
  · rw [hsplit, List.length_append, List.length_append, hlen]
    exact Nat.le_add_right _ _

/-! ## Checking rows -/

theorem readBlobLoop_blobCheckData {file : Bytes} {passes offset remaining : Nat}
    {ctx : BlobCheckCtx} (hle : offset + remaining ≤ file.length) (hpasses : remaining < passes) :
    readBlobLoop blobCheckData file passes offset remaining ctx =
      (.ok, { ctx with hashed := ctx.hashed ++ readAt file offset remaining }) := by
  induction passes generalizing offset remaining ctx with
  | zero => exact absurd hpasses (Nat.not_lt_zero _)
  | succ passes ih =>
    unfold readBlobLoop
    split
    · next hzero => simp [hzero, readAt]
    · next hpos =>
      have hbuf : (readAt file offset (min readBufferSize remaining)).length =
          min readBufferSize remaining := by
        simp only [readAt, List.length_take, List.length_drop]
        omega
      have hsize : 0 < readBufferSize := by decide
      have hsum : min readBufferSize remaining + (remaining - min readBufferSize remaining) =
        remaining := by omega
      simp only [blobCheckData, hbuf]
      rw [ih (by omega) (by omega), List.append_assoc, ← readAt_add, hsum]

theorem magic_of_walkable {dir : BucketDir} {segs : List (List Record)} (hw : Walkable dir segs)
    (i : Nat) (file : Bytes) (h : dir.file i = some file) :
    validateBucketMagicNumber file = true := by
  cases i with
  | zero =>
    rw [hw.file_zero] at h
    cases h
  | succ i =>
    rcases Nat.lt_or_ge i segs.length with hi | hi
    · obtain ⟨endOffset, after, -, -, hfile⟩ := hw.file i _ (List.getElem?_eq_getElem hi)
      cases h.symm.trans hfile
      exact validate_bucketBytes _ _
    · rw [hw.file_none i hi] at h
      cases h

/-- What a row points at in buckets that can be walked. -/
theorem pointsAt_file {dir : BucketDir} {segs : List (List Record)} (hw : Walkable dir segs)
    {row : BlobPosition} (h : PointsAt segs row) :
    ∃ r ∈ segs.flatten, ∃ (i offset : Nat) (file : Bytes), row.key = r.key ∧
      i < segs.length ∧ row.bucketIndex = (i + 1 : Nat) ∧ dir.file (i + 1) = some file ∧
      validateBucketMagicNumber file = true ∧ row.bucketBlobOffset = offset ∧
      row.blobSize = r.body.length ∧ offset + r.body.length < 2 ^ 31 ∧
      offset + r.body.length ≤ file.length ∧ readAt file offset r.body.length = r.body := by
  obtain ⟨i, rs, fPos, r, hrs, hr, hkey, hindex, hoffset, hsize⟩ := h
  obtain ⟨endOffset, after, -, hlt, hfile⟩ := hw.file i rs hrs
  obtain ⟨hread, hle⟩ := readAt_position endOffset after hr
  have hmem : r ∈ segs.flatten :=
    List.mem_flatten.mpr ⟨rs, List.mem_of_getElem? hrs, mem_of_mem_positions hr⟩
  exact ⟨r, hmem, i, fPos + bucketBlobHeaderSize, _, hkey, (List.getElem?_eq_some_iff.mp hrs).1,
    hindex, hfile, validate_bucketBytes _ _, hoffset, hsize, Nat.lt_of_le_of_lt hle hlt, hle, hread⟩

theorem indexedAt_of_pointsAt {dir : BucketDir} {segs : List (List Record)}
    (hw : Walkable dir segs) {db : IndexDb} {row : BlobPosition} (hrow : row ∈ db.blobPosition)
    (h : PointsAt segs row) :
    ∃ r ∈ segs.flatten, row.key = r.key ∧ IndexedAt ⟨dir, some db⟩ r.key r.body := by
  obtain ⟨r, hr, i, offset, file, hkey, -, hindex, hfile, -, hoffset, hsize, -, -, hread⟩ :=
    pointsAt_file hw h
  refine ⟨r, hr, hkey, db, row, file, rfl, hrow, hkey, ?_, hsize, ?_⟩
  · rw [hindex, Int.toNat_natCast]
    exact hfile
  · rw [hoffset, hsize, Int.toNat_natCast, Int.toNat_natCast]
    exact hread

theorem columnSize_of_lt {n : Nat} (h : n < 2 ^ 31) : columnSize n = n := by
  unfold columnSize
  rw [toInt32_of_lt h]
  omega

/-- A row that names bytes of a bucket is read without an error. -/
theorem readBlob_of_rowBytes {dir : BucketDir} {db : IndexDb} {row : BlobPosition} {bytes : Bytes}
    (hmagic : ∀ i file, dir.file i = some file → validateBucketMagicNumber file = true)
    (hfind : (db.blobPosition.find? fun r => r.key = row.key) = some row)
    (h : rowBytes dir row = some bytes) :
    readBlob blobCheckData blobCheckStatus dir db row.key
        ⟨toInt32 row.flags, columnSize row.blobSize, .error, []⟩ =
      (.ok, ⟨toInt32 row.flags, columnSize row.blobSize, .ok, bytes⟩) := by
  unfold rowBytes at h
  cases hfile : dir.file (row.bucketIndex % 2 ^ 64).toNat with
  | none =>
    rw [hfile] at h
    cases h
  | some file =>
    rw [hfile] at h
    simp only at h
    split at h
    · next hin =>
      cases h
      unfold readBlob
      simp only [hfind, hfile, hmagic _ file hfile, Bool.not_true, Bool.false_eq_true, if_false,
        Int.not_lt.mpr hin.1, blobCheckStatus, ne_eq, not_true_eq_false, decide_false,
        Bool.or_self]
      rcases hin.2 with hzero | hle
      · rw [hzero]
        rfl
      · rw [readBlobLoop_blobCheckData hle (Nat.lt_succ_self _)]
        rfl
    · cases h

/-- A row that points at a record is read without an error. -/
theorem readBlob_pointsAt {dir : BucketDir} {segs : List (List Record)} (hw : Walkable dir segs)
    (hlen : segs.length ≤ 2 ^ 32) {db : IndexDb} {row : BlobPosition}
    (hfind : (db.blobPosition.find? fun r => r.key = row.key) = some row)
    (h : PointsAt segs row) :
    ∃ r ∈ segs.flatten, row.key = r.key ∧
      readBlob blobCheckData blobCheckStatus dir db row.key
        ⟨toInt32 row.flags, columnSize row.blobSize, .error, []⟩ =
      (.ok, ⟨toInt32 row.flags, columnSize row.blobSize, .ok, r.body⟩) := by
  obtain ⟨r, hr, i, offset, file, hkey, hi, hindex, hfile, hmagic, hoffset, hsize, hlt, hle, hread⟩ :=
    pointsAt_file hw h
  have hbucket : (row.bucketIndex % 2 ^ 64).toNat = i + 1 := by
    rw [hindex]
    omega
  have hcolumn : columnSize row.blobSize = r.body.length := by
    rw [hsize]
    exact columnSize_of_lt (by omega)
  have hoff : columnSize row.bucketBlobOffset = offset := by
    rw [hoffset]
    exact columnSize_of_lt (by omega)
  have hpos : ¬ toInt32 row.bucketBlobOffset < 0 := by
    rw [hoffset, toInt32_of_lt (by omega)]
    omega
  have hbytes : rowBytes dir row = some r.body := by
    unfold rowBytes
    simp only [hbucket, hfile, hcolumn, hoff]
    rw [if_pos ⟨Int.not_lt.mp hpos, .inr hle⟩, hread]
  exact ⟨r, hr, hkey, readBlob_of_rowBytes (magic_of_walkable hw) hfind hbytes⟩

theorem find?_key {rows : List BlobPosition} (hkeys : (rows.map (·.key)).Nodup)
    {row : BlobPosition} (h : row ∈ rows) : (rows.find? fun r => r.key = row.key) = some row := by
  induction rows with
  | nil => cases h
  | cons row' rows ih =>
    rw [List.map_cons, List.nodup_cons] at hkeys
    rcases List.mem_cons.mp h with rfl | hmem
    · simp
    · have hne : row'.key ≠ row.key := fun heq =>
        hkeys.1 (heq ▸ List.mem_map_of_mem hmem)
      rw [List.find?_cons_of_neg (by simpa using hne)]
      exact ih hkeys.2 hmem

theorem columnRef_toList (ref : BlobRef) : columnRef ref.toList = some ref := by
  unfold columnRef
  rw [dif_pos (Vector.length_toList)]
  rfl

theorem checkBlobs_pointsAt {env : GlacierEnv} {dir : BucketDir} {segs : List (List Record)}
    (hw : Walkable dir segs) (hlen : segs.length ≤ 2 ^ 32)
    (hhash : ∀ r ∈ segs.flatten, env.hash r.body = r.key) {db : IndexDb}
    (hkeys : (db.blobPosition.map (·.key)).Nodup)
    (hpoints : ∀ row ∈ db.blobPosition, PointsAt segs row) {rows : List StoredPosition}
    (hrows : rows ⊆ db.blobPosition.map BlobPosition.stored) :
    checkBlobs env dir db rows = .ok := by
  induction rows with
  | nil => rfl
  | cons stored rows ih =>
    obtain ⟨row, hrow, rfl⟩ := List.mem_map.mp (hrows List.mem_cons_self)
    obtain ⟨r, hr, hkey, hread⟩ := readBlob_pointsAt hw hlen (find?_key hkeys hrow) (hpoints row hrow)
    have hmatch : env.hash r.body = row.key := (hhash r hr).trans hkey.symm
    unfold checkBlobs
    simp only [BlobPosition.stored, columnRef_toList, hread]
    simp only [hmatch, reduceCtorEq, ne_eq, not_true_eq_false, if_false]
    exact ih fun _ h => hrows (List.mem_cons_of_mem _ h)

/-! ## A glacier that has been left alone -/

theorem walkable_of_represents {g : Glacier} {log : SegLog Record} (h : Represents g log)
    {bound : Nat} (hfits : log.Fits bucketSize bound) (hbound : bound < 2 ^ 31) :
    Walkable g.dir log.segments where
  file_zero := h.file_zero
  file_none i hi := by
    rw [h.file, List.getElem?_eq_none hi]
    rfl
  file i rs hrs := by
    refine ⟨bucketSize rs, [], by decide, ?_, ?_⟩
    · rw [List.append_nil]
      exact Nat.lt_of_le_of_lt ((length_bucketFile rs).trans_le
        (hfits rs (List.mem_of_getElem? hrs))) hbound
    · rw [List.append_nil, h.file, hrs]
      rfl

theorem moveToLastBucket_eq {dir : BucketDir} {n : Nat} {file : Bytes}
    (hfile : dir.file n = some file) (hmax : ∀ i, n < i → dir.file i = none) :
    moveToLastBucket dir = n := by
  obtain ⟨hle, hlast⟩ := moveToLastBucket_spec dir
  have hn := hle n file hfile
  rcases hlast with hzero | ⟨file', hfile'⟩
  · omega
  · refine Nat.le_antisymm (Nat.le_of_not_lt fun hlt => ?_) hn
    rw [hmax _ hlt] at hfile'
    cases hfile'

theorem moveToLastBucket_walkable {dir : BucketDir} {segs : List (List Record)}
    (hw : Walkable dir segs) {n : Nat} (hn : segs.length = n + 1) :
    moveToLastBucket dir = n + 1 := by
  obtain ⟨rs, hrs⟩ : ∃ rs, segs[n]? = some rs := ⟨_, List.getElem?_eq_getElem (by omega)⟩
  obtain ⟨endOffset, after, -, -, hfile⟩ := hw.file n rs hrs
  refine moveToLastBucket_eq hfile fun i hi => ?_
  obtain ⟨j, rfl⟩ : ∃ j, i = j + 1 := ⟨i - 1, by omega⟩
  exact hw.file_none j (by omega)

/-- Opening a glacier that has been left alone, with any index. -/
theorem createGlacierWriteCtx_represents {g : Glacier} {log : SegLog Record} (h : Represents g log)
    {bound : Nat} (hfits : log.Fits bucketSize bound) (hbound : bound < 2 ^ 31)
    (db : Option IndexDb) :
    createGlacierWriteCtx ⟨g.dir, db⟩ =
      (.ok, ⟨g.dir, db.getD .empty,
        ⟨log.segments.length, some (.bucket log.segments.length), bucketSize log.current, true⟩⟩) := by
  have hlast : moveToLastBucket g.dir = log.segments.length :=
    (moveToLastBucket_walkable (walkable_of_represents h hfits hbound) log.length_segments).trans
      log.length_segments.symm
  have hcurrent := hfits log.current log.current_mem_segments
  have hfile : g.dir.file (moveToLastBucket g.dir) = some (bucketFile log.current) := by
    rw [hlast, log.length_segments, h.file, SegLog.getElem?_current]
    rfl
  have hend : readBucketEndOffset (bucketFile log.current) = some (bucketSize log.current) :=
    readBucketEndOffset_bucketBytes (by unfold bucketSize at hcurrent; omega) _
  have hopen := createGlacierWriteCtx_open ⟨g.dir, db⟩
    (by rw [hlast, log.length_segments]; exact Nat.succ_ne_zero _) hfile (validate_bucketBytes _ _)
    hend (Nat.ne_of_gt (Nat.lt_of_lt_of_le (by decide) (Nat.le_add_right _ _)))
  rw [hopen, hlast]

theorem quickCheck_represents {env : GlacierEnv} {g : Glacier} {log : SegLog Record}
    (h : Represents g log) {bound : Nat} (hfits : log.Fits bucketSize bound)
    (hbound : bound < 2 ^ 31) (hhash : ∀ r ∈ log.items, env.hash r.body = r.key) :
    quickCheckGlacier env ⟨g.dir, some g.db⟩ = (.ok, ⟨g.dir, some g.db⟩) := by
  have hcurrent := hfits log.current log.current_mem_segments
  have hok : checkIndexDb env ⟨g.dir, g.db,
      ⟨log.segments.length, some (.bucket log.segments.length), bucketSize log.current, true⟩⟩ =
        .ok := by
    have hend : findBucketEndOffset g.db log.segments.length = some (bucketSize log.current : Int) := by
      rw [log.length_segments]
      exact h.endOffset _ _ log.getElem?_current
    refine checkIndexDb_ok rfl h.file_current hend ?_ ?_
    · rw [length_bucketFile]
      exact toInt32_of_lt (by omega)
    · intro rows hrows
      exact checkBlobs_pointsAt (walkable_of_represents h hfits hbound) (length_segments_le h) hhash
        h.keys h.rows hrows
  unfold quickCheckGlacier quickCheckGlacierWith
  rw [createGlacierWriteCtx_represents h hfits hbound]
  simp only [checkIndexDbWith_nil, Option.getD_some, hok]

/-! ## Reindexing -/

theorem toInt32_inj {i j : Nat} (hi : i < 2 ^ 32) (hj : j < 2 ^ 32)
    (h : toInt32 (i + 1 : Nat) = toInt32 (j + 1 : Nat)) : i = j := by
  have hmod : ((i + 1 : Nat) : Int) % (2 ^ 32 : Nat) = ((j + 1 : Nat) : Int) % (2 ^ 32 : Nat) := by
    rw [← Int.bmod_emod, ← Int.bmod_emod (x := ((j + 1 : Nat) : Int))]
    exact congrArg (· % ((2 ^ 32 : Nat) : Int)) h
  omega

theorem insertBucket_of_new {db : IndexDb} {n : Nat}
    (h : ∀ row ∈ db.bucket, row.bucketIndex ≠ toInt32 n) :
    insertBucket db n =
      some { db with bucket := db.bucket ++ [⟨toInt32 n, bucketHeaderSize⟩] } := by
  unfold insertBucket
  rw [if_neg]
  intro hany
  obtain ⟨row, hrow, heq⟩ := List.any_eq_true.mp hany
  exact h row hrow (of_decide_eq_true heq)

theorem reindexVisitBlob_record {hash : Bytes → BlobRef} {file : Bytes} {r : Record} {fPos : Nat}
    (hread : readAt file (fPos + bucketBlobHeaderSize) r.body.length = r.body)
    (hhash : hash r.body = r.key) (i : Nat) (db : IndexDb) :
    reindexVisitBlob hash file i db (r.stat fPos) =
      (.ok, addBlobToIndex db i r.key r.flags.toNat (fPos + bucketBlobHeaderSize) r.body.length
        r.lastModified) := by
  unfold reindexVisitBlob Record.stat
  simp only [Bool.not_true, Bool.false_eq_true, if_false, hread, Nat.lt_irrefl, hhash, ne_eq,
    not_true_eq_false]

/-- The index after the records of bucket `i` have been visited. -/
theorem exec_reindexVisitBlob {hash : Bytes → BlobRef} {file : Bytes} {i : Nat}
    {ps : List (Nat × Record)}
    (hps : ∀ p ∈ ps, readAt file (p.1 + bucketBlobHeaderSize) p.2.body.length = p.2.body ∧
      hash p.2.body = p.2.key) (db : IndexDb) :
    ∃ db', exec (fun db p => (reindexVisitBlob hash file i db (p.2.stat p.1)).2) db ps = db' ∧
      db'.bucket = db.bucket ∧ db.blobPosition ⊆ db'.blobPosition ∧
      (∀ p ∈ ps, ∃ row ∈ db'.blobPosition, row.key = p.2.key) ∧
      ∀ row ∈ db'.blobPosition, row ∈ db.blobPosition ∨ ∃ p ∈ ps, row = rowAt i p := by
  refine ⟨_, rfl, ?_⟩
  induction ps generalizing db with
  | nil => exact ⟨rfl, fun _ h => h, fun p hp => absurd hp List.not_mem_nil, fun row h => .inl h⟩
  | cons p ps ih =>
    obtain ⟨hread, hhash⟩ := hps p List.mem_cons_self
    have hvisit := reindexVisitBlob_record hread hhash i db
    rw [exec_cons, hvisit]
    obtain ⟨hbucket, hsub, hkeys, hrows⟩ := ih (fun p hp => hps p (List.mem_cons_of_mem _ hp))
      (addBlobToIndex db i p.2.key p.2.flags.toNat (p.1 + bucketBlobHeaderSize) p.2.body.length
        p.2.lastModified)
    refine ⟨hbucket.trans (addBlobToIndex_bucket _ _ _ _ _ _ _),
      fun _ h => hsub (subset_addBlobToIndex h), fun q hq => ?_, fun row hrow => ?_⟩
    · rcases List.mem_cons.mp hq with rfl | hq
      · obtain ⟨row, hrow, hkey⟩ := exists_key_addBlobToIndex db i q.2.key q.2.flags.toNat
          (q.1 + bucketBlobHeaderSize) q.2.body.length q.2.lastModified
        exact ⟨row, hsub hrow, hkey⟩
      · exact hkeys q hq
    · rcases hrows row hrow with hold | ⟨q, hq, heq⟩
      · rcases mem_addBlobToIndex hold with hold | hnew
        · exact .inl hold
        · exact .inr ⟨p, List.mem_cons_self, hnew⟩
      · exact .inr ⟨q, List.mem_cons_of_mem _ hq, heq⟩

theorem reindexEndOffset_of_new {db : IndexDb} {n : Nat}
    (h : ∀ row ∈ db.bucket, row.bucketIndex ≠ toInt32 n) (endOffset : Int) (dir : BucketDir)
    (file : Bytes) :
    ∃ db', reindexEndOffset n file endOffset dir db =
        (.ok, dir.put n (writeBucketEndOffset file (endOffset % 2 ^ 64).toNat), db') ∧
      db'.blobPosition = db.blobPosition ∧
      ∀ row ∈ db'.bucket, row.bucketIndex = toInt32 n ∨
        ∃ row' ∈ db.bucket, row.bucketIndex = row'.bucketIndex := by
  unfold reindexEndOffset
  simp only [insertBucket_of_new h]
  refine ⟨_, rfl, rfl, fun row hrow => ?_⟩
  obtain ⟨row', hrow', rfl⟩ := List.mem_map.mp hrow
  have hindex : (if row'.bucketIndex = toInt32 n then
      { row' with endOffset := toInt32 endOffset } else row').bucketIndex = row'.bucketIndex := by
    split
    · simp only
    · rfl
  rw [hindex]
  rcases List.mem_append.mp hrow' with hold | hnew
  · exact .inr ⟨row', hold, rfl⟩
  · rw [List.mem_singleton.mp hnew]
    exact .inl (by simp only)

/-- The state of a reindex: the buckets can be walked, the rows are those of records, and
the table of buckets has no row of a bucket that is still to come. -/
structure Reindexing (segs : List (List Record)) (todo : List Nat) (st : BucketDir × IndexDb) :
    Prop where
  walkable : Walkable st.1 segs
  rows : ∀ row ∈ st.2.blobPosition, PlacedAt segs row
  bucketRows : ∀ row ∈ st.2.bucket, ∀ i ∈ todo, row.bucketIndex ≠ toInt32 i

/-- Another file of one bucket. -/
theorem walkable_put {dir : BucketDir} {segs segs' : List (List Record)} (hw : Walkable dir segs)
    {i : Nat} {rs : List Record} {after : Bytes} (hrs : segs'[i]? = some rs)
    (hother : ∀ j, j ≠ i → segs'[j]? = segs[j]?) (hafter : after.length < bucketBlobHeaderSize)
    (endOffset : Nat)
    (hlt : (bucketBytes endOffset (recordsBytes rs ++ after)).length < 2 ^ 31) :
    Walkable (dir.put (i + 1) (bucketBytes endOffset (recordsBytes rs ++ after))) segs' where
  file_zero := by
    rw [BucketDir.put_file_of_ne _ (Nat.succ_ne_zero i).symm]
    exact hw.file_zero
  file_none j hj := by
    have hi := (List.getElem?_eq_some_iff.mp hrs).1
    have hnone := hother j (by omega)
    rw [List.getElem?_eq_none hj, eq_comm, List.getElem?_eq_none_iff] at hnone
    rw [BucketDir.put_file_of_ne _ (by omega)]
    exact hw.file_none j hnone
  file j rs' hrs' := by
    by_cases hj : j = i
    · subst hj
      rw [hrs] at hrs'
      cases hrs'
      exact ⟨endOffset, after, hafter, hlt, BucketDir.put_file_self _ _ _⟩
    · rw [hother j hj] at hrs'
      obtain ⟨e, a, ha, hl, hfile⟩ := hw.file j rs' hrs'
      refine ⟨e, a, ha, hl, ?_⟩
      rw [BucketDir.put_file_of_ne _ (by omega)]
      exact hfile

theorem pointsAt_of_placedAt {dir : BucketDir} {segs : List (List Record)} (hw : Walkable dir segs)
    (hlen : segs.length ≤ 2 ^ 32) {row : BlobPosition} (h : PlacedAt segs row) :
    PointsAt segs row := by
  obtain ⟨i, rs, p, hrs, hp, heq⟩ := h
  have hi := (List.getElem?_eq_some_iff.mp hrs).1
  obtain ⟨endOffset, after, -, hlt, -⟩ := hw.file i rs hrs
  have hend := Nat.lt_of_le_of_lt (readAt_position endOffset after hp).2 hlt
  have hindex : toInt64 (i + 1 : Nat) = (i : Int) + 1 :=
    (toInt64_of_lt (by omega)).trans (Nat.cast_succ i)
  have hoffset : toInt32 (p.1 + bucketBlobHeaderSize : Nat) = (p.1 : Int) + bucketBlobHeaderSize :=
    (toInt32_of_lt (Nat.lt_of_le_of_lt (Nat.le_add_right _ _) hend)).trans (Nat.cast_add _ _)
  have hsize : toInt32 p.2.body.length = p.2.body.length :=
    toInt32_of_lt (Nat.lt_of_le_of_lt (Nat.le_add_left _ _) hend)
  rw [heq]
  refine ⟨i, rs, p.1, p.2, hrs, hp, ?_, ?_, ?_, ?_⟩
  · simp only [rowAt]
  · simp only [rowAt, hindex]
  · simp only [rowAt, hoffset]
  · simp only [rowAt, hsize]

/-- Reindexing one bucket. -/
theorem reindexBucket_walkable {env : GlacierEnv} {segs : List (List Record)}
    (hhash : ∀ r ∈ segs.flatten, env.hash r.body = r.key)
    {i : Nat} {rs : List Record} (hrs : segs[i]? = some rs) {todo : List Nat}
    (hdistinct : ∀ j ∈ todo, toInt32 (i + 1 : Nat) ≠ toInt32 j) {dir : BucketDir} {db : IndexDb}
    (hst : Reindexing segs ((i + 1) :: todo) (dir, db)) :
    ∃ dir' db', reindexBucket env (dir, db) (i + 1) = (.ok, dir', db') ∧
      Reindexing segs todo (dir', db') ∧ db.blobPosition ⊆ db'.blobPosition ∧
      ∀ r ∈ rs, ∃ row ∈ db'.blobPosition, row.key = r.key := by
  obtain ⟨endOffset, after, hafter, hlt, hfile⟩ := hst.walkable.file i rs hrs
  simp only at hfile
  have hi := (List.getElem?_eq_some_iff.mp hrs).1
  have hps : ∀ p ∈ positions bucketHeaderSize rs,
      readAt (bucketBytes endOffset (recordsBytes rs ++ after)) (p.1 + bucketBlobHeaderSize)
        p.2.body.length = p.2.body ∧ env.hash p.2.body = p.2.key := fun p hp =>
    ⟨(readAt_position endOffset after hp).1, hhash p.2 (List.mem_flatten.mpr
      ⟨rs, List.mem_of_getElem? hrs, mem_of_mem_positions hp⟩)⟩
  obtain ⟨db1, hexec, hbucket, hsub, hkeys, hrows⟩ := exec_reindexVisitBlob (i := i + 1) hps db
  have hwalk : walkBucket
      (reindexVisitBlob env.hash (bucketBytes endOffset (recordsBytes rs ++ after)) (i + 1))
      (bucketBytes endOffset (recordsBytes rs ++ after)) db = _ :=
    walkBucket_torn
      (fun st p hp => by rw [reindexVisitBlob_record (hps p hp).1 (hps p hp).2]) hafter
  rw [hexec] at hwalk
  have hnew : ∀ row ∈ db1.bucket, row.bucketIndex ≠ toInt32 (i + 1 : Nat) := by
    rw [hbucket]
    exact fun row hrow => hst.bucketRows row hrow (i + 1) List.mem_cons_self
  obtain ⟨e', hbranch⟩ : ∃ e', reindexBucket env (dir, db) (i + 1) =
      reindexEndOffset (i + 1) (bucketBytes endOffset (recordsBytes rs ++ after)) e' dir db1 := by
    have hint : toInt32 (bucketBytes endOffset (recordsBytes rs ++ after)).length ≠ -1 := by
      rw [toInt32_of_lt hlt]
      omega
    unfold reindexBucket
    simp only [hfile, validate_bucketBytes, Bool.not_true, Bool.false_eq_true, if_false, hwalk]
    cases after with
    | nil =>
      simp only [if_true, hint, if_false]
      exact ⟨_, rfl⟩
    | cons b bs =>
      simp only [reduceCtorEq, if_false]
      exact ⟨_, rfl⟩
  obtain ⟨db', hend, hrows', hbuckets⟩ := reindexEndOffset_of_new hnew e' dir
    (bucketBytes endOffset (recordsBytes rs ++ after))
  rw [writeBucketEndOffset_bucketBytes] at hend
  have hlt' := hlt
  rw [length_bucketBytes] at hlt'
  refine ⟨_, db', hbranch.trans hend, ⟨?_, ?_, ?_⟩, ?_, ?_⟩
  · exact walkable_put hst.walkable hrs (fun _ _ => rfl) hafter _ (by rw [length_bucketBytes]; exact hlt')
  · intro row hrow
    rw [hrows'] at hrow
    rcases hrows row hrow with hold | ⟨p, hp, heq⟩
    · exact hst.rows row hold
    · exact ⟨i, rs, p, hrs, hp, heq⟩
  · intro row hrow j hj
    rcases hbuckets row hrow with heq | ⟨row', hrow', heq⟩
    · rw [heq]
      exact hdistinct j hj
    · rw [heq]
      rw [hbucket] at hrow'
      exact hst.bucketRows row' hrow' j (List.mem_cons_of_mem _ hj)
  · rw [hrows']
    exact hsub
  · intro r hr
    obtain ⟨fPos, hpos⟩ := exists_position hr
    rw [hrows']
    exact hkeys (fPos, r) hpos

theorem reindex_names {env : GlacierEnv} {segs : List (List Record)}
    (hlen : segs.length ≤ 2 ^ 32) (hhash : ∀ r ∈ segs.flatten, env.hash r.body = r.key)
    {names : List Nat} (hnodup : names.Nodup) (hnames : ∀ n ∈ names, ∃ i < segs.length, n = i + 1)
    {dir : BucketDir} {db : IndexDb} (hst : Reindexing segs names (dir, db)) :
    ∃ dir' db', walkBuckets (reindexBucket env) names (dir, db) = (.ok, dir', db') ∧
      Reindexing segs [] (dir', db') ∧ db.blobPosition ⊆ db'.blobPosition ∧
      ∀ i rs, i + 1 ∈ names → segs[i]? = some rs → ∀ r ∈ rs,
        ∃ row ∈ db'.blobPosition, row.key = r.key := by
  induction names generalizing dir db with
  | nil =>
    exact ⟨dir, db, rfl, hst, fun _ h => h, fun i rs hi => absurd hi List.not_mem_nil⟩
  | cons n names ih =>
    obtain ⟨hn, htail⟩ := List.nodup_cons.mp hnodup
    obtain ⟨i, hi, rfl⟩ := hnames n List.mem_cons_self
    have hdistinct : ∀ j ∈ names, toInt32 (i + 1 : Nat) ≠ toInt32 j := by
      intro j hj heq
      obtain ⟨k, hk, rfl⟩ := hnames j (List.mem_cons_of_mem _ hj)
      have hik := toInt32_inj (Nat.lt_of_lt_of_le hi hlen) (Nat.lt_of_lt_of_le hk hlen) heq
      exact hn (hik ▸ hj)
    obtain ⟨dir1, db1, hbucket, hst1, hsub1, hkeys1⟩ :=
      reindexBucket_walkable hhash (List.getElem?_eq_getElem hi) hdistinct hst
    obtain ⟨dir', db', hwalk, hst', hsub', hkeys'⟩ :=
      ih htail (fun m hm => hnames m (List.mem_cons_of_mem _ hm)) hst1
    refine ⟨dir', db', ?_, hst', fun _ h => hsub' (hsub1 h), ?_⟩
    · rw [walkBuckets, hbucket]
      exact hwalk
    · intro j rs hj hrs r hr
      rcases List.mem_cons.mp hj with heq | hj
      · cases Nat.succ.inj heq
        rw [List.getElem?_eq_getElem hi] at hrs
        cases hrs
        obtain ⟨row, hrow, hkey⟩ := hkeys1 r hr
        exact ⟨row, hsub' hrow, hkey⟩
      · exact hkeys' j rs hj hrs r hr

/-- Buckets that can be walked are reindexed without an error, and the index then has
all their records. -/
theorem reindex_walkable {env : GlacierEnv} {dir : BucketDir} {segs : List (List Record)}
    (hw : Walkable dir segs) (hlen : segs.length ≤ 2 ^ 32)
    (hhash : ∀ r ∈ segs.flatten, env.hash r.body = r.key) :
    ∃ dir' db', walkBuckets (reindexBucket env) (env.readdir dir.names) (dir, .empty) =
        (.ok, dir', db') ∧ Walkable dir' segs ∧ (∀ row ∈ db'.blobPosition, PlacedAt segs row) ∧
      ∀ r ∈ segs.flatten, ∃ row ∈ db'.blobPosition, row.key = r.key := by
  have hperm := env.readdir_perm dir.names
  have hnames : ∀ n ∈ env.readdir dir.names, ∃ i < segs.length, n = i + 1 := by
    intro n hn
    have hsome := (dir.mem_names n).mp (hperm.mem_iff.mp hn)
    cases n with
    | zero =>
      rw [hw.file_zero] at hsome
      cases hsome
    | succ i =>
      refine ⟨i, Nat.lt_of_not_le fun hle => ?_, rfl⟩
      rw [hw.file_none i hle] at hsome
      cases hsome
  have hst : Reindexing segs (env.readdir dir.names) (dir, .empty) :=
    ⟨hw, fun row hrow => absurd hrow List.not_mem_nil, fun row hrow => absurd hrow List.not_mem_nil⟩
  obtain ⟨dir', db', hwalk, hst', -, hkeys⟩ :=
    reindex_names hlen hhash (hperm.nodup_iff.mpr dir.nodup) hnames hst
  refine ⟨dir', db', hwalk, hst'.walkable, hst'.rows, fun r hr => ?_⟩
  obtain ⟨rs, hrs, hr⟩ := List.mem_flatten.mp hr
  obtain ⟨i, hi⟩ := List.mem_iff_getElem?.mp hrs
  obtain ⟨endOffset, after, -, -, hfile⟩ := hw.file i rs hi
  exact hkeys i rs (hperm.mem_iff.mpr ((dir.mem_names _).mpr (by rw [hfile]; rfl))) hi r hr

end WalkableLemmas

end Everarch
