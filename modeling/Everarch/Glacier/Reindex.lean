import Everarch.Glacier.Append
import Everarch.Glacier.Check

/-!
# What a rebuilt index holds

The bucket files of this module are arbitrary: whatever a walk over them comes by is
what `evr_glacier_recreate_index_db` has to find.

* `walkBucket_complete`: a walk that the reindexing visitor lets pass has indexed all
  valid records.
* `reindex_complete`: so has a reindex that succeeds.
* `quickCheck_fresh`: a check that starts a new bucket without an index passes.

Result: `passed_check_complete_iff`; `passed_check_incomplete`: a check that passes with
an empty index.
-/

namespace Everarch

/-- A visitor that collects blobs up to the first with an invalid checksum. -/
def collectBlob (stats : List BlobStat) (stat : BlobStat) : Res × List BlobStat :=
  if stat.checksumValid then (.ok, stats ++ [stat]) else (.end_, stats)

/-- The blobs that a walk reaches. -/
def reached (file : Bytes) : List BlobStat :=
  (walkBucket collectBlob file []).2

/-- The body that a blob header announces is there and hashes to the ref. -/
def ValidBody (hash : Bytes → BlobRef) (file : Bytes) (stat : BlobStat) : Prop :=
  (readAt file stat.offset stat.size).length = stat.size ∧
    hash (readAt file stat.offset stat.size) = stat.ref

instance (hash : Bytes → BlobRef) (file : Bytes) (stat : BlobStat) :
    Decidable (ValidBody hash file stat) :=
  inferInstanceAs (Decidable (_ ∧ _))

/-- Every valid record that a walk over the buckets reaches is in the index. -/
def Complete (hash : Bytes → BlobRef) (dir : BucketDir) (db : IndexDb) : Prop :=
  ∀ i file, dir.file i = some file → ∀ stat ∈ reached file, ValidBody hash file stat →
    ∃ row ∈ db.blobPosition, row.key = stat.ref

/-- If the check of a glacier without an index.db passes, its index is complete. -/
def PassedMeansComplete (env : GlacierEnv) (dir : BucketDir) : Prop :=
  ∀ disk, quickCheckGlacier env ⟨dir, none⟩ = (.ok, disk) →
    ∃ db, disk.db = some db ∧ Complete env.hash dir db

/-- The header of the last bucket has the corrupt end offset. -/
def LastBucketCorrupt (dir : BucketDir) : Prop :=
  ∃ file, dir.file (moveToLastBucket dir) = some file ∧ validateBucketMagicNumber file = true ∧
    readBucketEndOffset file = some bucketEndOffsetCorrupt

namespace ReindexLemmas

open BucketLemmas AppendLemmas

/-! ## A walk over a bucket -/

/-- What the reindexing visitor makes of a blob. -/
theorem reindexVisitBlob_cases (hash : Bytes → BlobRef) (file : Bytes) (bucketIndex : Nat)
    (db : IndexDb) (stat : BlobStat) :
    (stat.checksumValid = false ∧ reindexVisitBlob hash file bucketIndex db stat = (.end_, db)) ∨
    reindexVisitBlob hash file bucketIndex db stat = (.error, db) ∨
    ∃ db', stat.checksumValid = true ∧
      reindexVisitBlob hash file bucketIndex db stat = (.ok, db') ∧
      db.blobPosition ⊆ db'.blobPosition ∧
      (ValidBody hash file stat → ∃ row ∈ db'.blobPosition, row.key = stat.ref) := by
  unfold reindexVisitBlob ValidBody
  cases stat.checksumValid with
  | false => exact .inl ⟨rfl, rfl⟩
  | true =>
    refine .inr ?_
    simp only [Bool.not_true, Bool.false_eq_true, if_false]
    split
    · exact .inl rfl
    · refine .inr ?_
      split
      · next hne => exact ⟨db, trivial, rfl, fun _ h => h, fun hvalid => absurd hvalid.2 hne⟩
      · exact ⟨_, trivial, rfl, subset_addBlobToIndex, fun _ => exists_key_addBlobToIndex _ _ _ _ _ _ _⟩

/-- Both visitors go through the same blobs, as long as the reindexing one goes on. -/
theorem walkBucketLoop_complete {hash : Bytes → BlobRef} {file : Bytes}
    {bucketIndex passes fPos : Nat} {db db' : IndexDb} {res : Res} (stats : List BlobStat)
    (h : walkBucketLoop (reindexVisitBlob hash file bucketIndex) file passes fPos db = (res, db'))
    (hres : res = .ok ∨ res = .end_) :
    db.blobPosition ⊆ db'.blobPosition ∧
    ∀ stat ∈ (walkBucketLoop collectBlob file passes fPos stats).2,
      stat ∈ stats ∨ (ValidBody hash file stat → ∃ row ∈ db'.blobPosition, row.key = stat.ref) := by
  induction passes generalizing fPos db stats with
  | zero =>
    cases h
    rcases hres with hres | hres <;> cases hres
  | succ passes ih =>
    unfold walkBucketLoop at h ⊢
    simp only at h ⊢
    split at h
    · next hbuf =>
      cases h
      rw [if_pos hbuf]
      exact ⟨fun _ hrow => hrow, fun _ hstat => .inl hstat⟩
    · next hbuf =>
      rw [if_neg hbuf]
      split at h
      · next hlen =>
        cases h
        rw [if_pos hlen]
        exact ⟨fun _ hrow => hrow, fun _ hstat => .inl hstat⟩
      · next hlen =>
        rw [if_neg hlen]
        obtain ⟨hinvalid, hvisit⟩ | hvisit | ⟨db1, hvalid, hvisit, hsub, hindexed⟩ :=
          reindexVisitBlob_cases hash file bucketIndex db
            (pullBlobHeader (readAt file fPos bucketBlobHeaderSize) (fPos + bucketBlobHeaderSize))
        · rw [hvisit] at h
          cases h
          simp only [collectBlob, hinvalid, Bool.false_eq_true, if_false]
          exact ⟨fun _ hrow => hrow, fun _ hstat => .inl hstat⟩
        · rw [hvisit] at h
          cases h
          rcases hres with hres | hres <;> cases hres
        · rw [hvisit] at h
          simp only [collectBlob, hvalid, if_true]
          obtain ⟨hsub', hstats⟩ := ih _ h
          refine ⟨fun _ hrow => hsub' (hsub hrow), fun stat hstat => ?_⟩
          rcases hstats stat hstat with hmem | hdone
          · rcases List.mem_append.mp hmem with hold | hnew
            · exact .inl hold
            · refine .inr fun hbody => ?_
              rw [List.mem_singleton.mp hnew] at hbody ⊢
              obtain ⟨row, hrow, hkey⟩ := hindexed hbody
              exact ⟨row, hsub' hrow, hkey⟩
          · exact .inr hdone

theorem walkBucket_complete {hash : Bytes → BlobRef} {file : Bytes} {bucketIndex : Nat}
    {db db' : IndexDb} {res : Res}
    (h : walkBucket (reindexVisitBlob hash file bucketIndex) file db = (res, db'))
    (hres : res = .ok ∨ res = .end_) :
    db.blobPosition ⊆ db'.blobPosition ∧
    ∀ stat ∈ reached file, ValidBody hash file stat →
      ∃ row ∈ db'.blobPosition, row.key = stat.ref := by
  unfold reached walkBucket at *
  cases hend : readBucketEndOffset file with
  | none =>
    rw [hend] at h
    cases h
    rcases hres with hres | hres <;> cases hres
  | some endOffset =>
    rw [hend] at h
    obtain ⟨hsub, hstats⟩ := walkBucketLoop_complete [] h hres
    refine ⟨hsub, fun stat hstat hbody => ?_⟩
    rcases hstats stat hstat with hmem | hdone
    · cases hmem
    · exact hdone hbody

/-! ## All buckets -/

/-- The primary keys of the table of buckets. -/
def bucketIndices (db : IndexDb) : List Int :=
  db.bucket.map (·.bucketIndex)

theorem bucketIndices_update (db : IndexDb) (bucketIndex : Nat) (endOffset : Int) :
    bucketIndices (updateBucketEndOffset db bucketIndex endOffset) = bucketIndices db := by
  unfold bucketIndices updateBucketEndOffset
  rw [List.map_map]
  refine List.map_congr_left fun row _ => ?_
  simp only [Function.comp]
  split
  · simp only
  · rfl

theorem bucketIndices_insert {db db' : IndexDb} {bucketIndex : Nat}
    (h : insertBucket db bucketIndex = some db') :
    toInt32 bucketIndex ∉ bucketIndices db ∧
      bucketIndices db' = bucketIndices db ++ [toInt32 bucketIndex] := by
  unfold insertBucket at h
  split at h
  · cases h
  · next hnew =>
    cases h
    refine ⟨fun hmem => hnew ?_, by simp [bucketIndices]⟩
    obtain ⟨row, hrow, hidx⟩ := List.mem_map.mp hmem
    exact List.any_eq_true.mpr ⟨row, hrow, decide_eq_true hidx⟩

theorem reindexEndOffset_ok {bucketIndex : Nat} {file : Bytes} {endOffset : Int}
    {dir dir' : BucketDir} {db db' : IndexDb}
    (h : reindexEndOffset bucketIndex file endOffset dir db = (.ok, dir', db')) :
    dir' = dir.put bucketIndex (writeBucketEndOffset file (endOffset % 2 ^ 64).toNat) ∧
      db'.blobPosition = db.blobPosition ∧ toInt32 bucketIndex ∉ bucketIndices db ∧
      bucketIndices db' = bucketIndices db ++ [toInt32 bucketIndex] := by
  unfold reindexEndOffset at h
  simp only at h
  cases hins : insertBucket db bucketIndex with
  | none =>
    rw [hins] at h
    cases h
  | some db1 =>
    rw [hins] at h
    cases h
    obtain ⟨hnew, hindices⟩ := bucketIndices_insert hins
    exact ⟨rfl, by rw [eq_of_insertBucket hins]; rfl, hnew,
      (bucketIndices_update _ _ _).trans hindices⟩

theorem reindexVisitBlob_bucketIndices (hash : Bytes → BlobRef) (file : Bytes) (bucketIndex : Nat)
    (db : IndexDb) (stat : BlobStat) :
    bucketIndices (reindexVisitBlob hash file bucketIndex db stat).2 = bucketIndices db := by
  unfold reindexVisitBlob
  split
  · rfl
  · simp only
    split
    · rfl
    · split
      · rfl
      · exact congrArg (List.map _) (addBlobToIndex_bucket _ _ _ _ _ _ _)

/-- A bucket that has been reindexed: the walk went to its end, or to a blob header
that is not valid. -/
theorem reindexBucket_ok {env : GlacierEnv} {dir dir' : BucketDir} {db db' : IndexDb}
    {bucketIndex : Nat} (h : reindexBucket env (dir, db) bucketIndex = (.ok, dir', db')) :
    ∃ file endOffset res db1, dir.file bucketIndex = some file ∧
      dir' = dir.put bucketIndex (writeBucketEndOffset file endOffset) ∧
      walkBucket (reindexVisitBlob env.hash file bucketIndex) file db = (res, db1) ∧
      (res = .ok ∨ res = .end_) ∧ db'.blobPosition = db1.blobPosition ∧
      toInt32 bucketIndex ∉ bucketIndices db ∧
      bucketIndices db' = bucketIndices db ++ [toInt32 bucketIndex] := by
  unfold reindexBucket at h
  simp only at h
  cases hfile : dir.file bucketIndex with
  | none =>
    rw [hfile] at h
    cases h
  | some file =>
    rw [hfile] at h
    simp only at h
    split at h
    · cases h
    · rcases hwalk : walkBucket (reindexVisitBlob env.hash file bucketIndex) file db with ⟨res, db1⟩
      have hkept : bucketIndices db1 = bucketIndices db := by
        have hkeeps := walkBucket_keeps (P := fun db' => bucketIndices db' = bucketIndices db)
          (fun db' stat h =>
            (reindexVisitBlob_bucketIndices env.hash file bucketIndex db' stat).trans h) file rfl
        rw [hwalk] at hkeeps
        exact hkeeps
      rw [hwalk] at h
      rw [← hkept]
      cases res with
      | end_ =>
        obtain ⟨hdir, hrows⟩ := reindexEndOffset_ok h
        exact ⟨file, _, _, db1, rfl, hdir, hwalk, .inr rfl, hrows⟩
      | ok =>
        simp only at h
        split at h
        · cases h
        · obtain ⟨hdir, hrows⟩ := reindexEndOffset_ok h
          exact ⟨file, _, _, db1, rfl, hdir, hwalk, .inl rfl, hrows⟩
      | _ => cases h

/-- A reindex that succeeds has walked all buckets. -/
theorem reindex_walked {env : GlacierEnv} {dir0 dir dir' : BucketDir} {db db' : IndexDb}
    {names : List Nat} (hnodup : names.Nodup) (hsame : ∀ i ∈ names, dir.file i = dir0.file i)
    (h : walkBuckets (reindexBucket env) names (dir, db) = (.ok, dir', db')) :
    db.blobPosition ⊆ db'.blobPosition ∧
    ∀ i ∈ names, ∃ file res db1 db2, dir0.file i = some file ∧
      walkBucket (reindexVisitBlob env.hash file i) file db1 = (res, db2) ∧
      (res = .ok ∨ res = .end_) ∧ db2.blobPosition ⊆ db'.blobPosition := by
  induction names generalizing dir db with
  | nil =>
    cases h
    exact ⟨fun _ hrow => hrow, fun i hi => absurd hi List.not_mem_nil⟩
  | cons i names ih =>
    obtain ⟨hi, hnodup⟩ := List.nodup_cons.mp hnodup
    rw [walkBuckets] at h
    rcases hbucket : reindexBucket env (dir, db) i with ⟨res, dir1, db1⟩
    rw [hbucket] at h
    cases res with
    | ok =>
      obtain ⟨file, endOffset, res, db2, hfile, hdir1, hwalk, hres, hrows, -⟩ :=
        reindexBucket_ok hbucket
      have hsame1 : ∀ j ∈ names, dir1.file j = dir0.file j := by
        intro j hj
        have hne : j ≠ i := fun heq => hi (heq ▸ hj)
        rw [hdir1, BucketDir.put_file_of_ne _ hne]
        exact hsame j (List.mem_cons_of_mem _ hj)
      obtain ⟨hsub, hwalked⟩ := ih hnodup hsame1 h
      rw [hrows] at hsub
      refine ⟨fun _ hrow => hsub ((walkBucket_complete hwalk hres).1 hrow), fun j hj => ?_⟩
      rcases List.mem_cons.mp hj with rfl | hj
      · rw [hsame j List.mem_cons_self] at hfile
        exact ⟨file, res, db, db2, hfile, hwalk, hres, hsub⟩
      · exact hwalked j hj
    | _ => cases h

/-- A reindex that succeeds has met no two buckets with the same row. -/
theorem reindex_distinct {env : GlacierEnv} {dir dir' : BucketDir} {db db' : IndexDb}
    {names : List Nat} (hnodup : (bucketIndices db).Nodup)
    (h : walkBuckets (reindexBucket env) names (dir, db) = (.ok, dir', db')) :
    (bucketIndices db ++ names.map fun i : Nat => toInt32 i).Nodup := by
  induction names generalizing dir db with
  | nil =>
    rw [List.map_nil, List.append_nil]
    exact hnodup
  | cons i names ih =>
    rw [walkBuckets] at h
    rcases hbucket : reindexBucket env (dir, db) i with ⟨res, dir1, db1⟩
    rw [hbucket] at h
    cases res with
    | ok =>
      obtain ⟨-, -, -, -, -, -, -, -, -, hnew, hindices⟩ := reindexBucket_ok hbucket
      have hnodup1 : (bucketIndices db1).Nodup := by
        rw [hindices]
        exact List.nodup_append.mpr ⟨hnodup, List.pairwise_singleton _ _,
          fun a ha b hb hab => hnew (List.mem_singleton.mp hb ▸ hab ▸ ha)⟩
      have hrest := ih hnodup1 h
      rw [hindices, List.append_assoc, List.singleton_append] at hrest
      exact hrest
    | _ => cases h

theorem reindexVisitBlob_keys (hash : Bytes → BlobRef) (file : Bytes) (bucketIndex : Nat)
    (db : IndexDb) (stat : BlobStat) (h : (db.blobPosition.map (·.key)).Nodup) :
    ((reindexVisitBlob hash file bucketIndex db stat).2.blobPosition.map (·.key)).Nodup := by
  unfold reindexVisitBlob
  split
  · exact h
  · simp only
    split
    · exact h
    · split
      · exact h
      · exact nodup_addBlobToIndex h

theorem reindex_keys {env : GlacierEnv} {dir dir' : BucketDir} {db db' : IndexDb}
    {names : List Nat} (hkeys : (db.blobPosition.map (·.key)).Nodup)
    (h : walkBuckets (reindexBucket env) names (dir, db) = (.ok, dir', db')) :
    (db'.blobPosition.map (·.key)).Nodup := by
  induction names generalizing dir db with
  | nil =>
    cases h
    exact hkeys
  | cons i names ih =>
    rw [walkBuckets] at h
    rcases hbucket : reindexBucket env (dir, db) i with ⟨res, dir1, db1⟩
    rw [hbucket] at h
    cases res with
    | ok =>
      obtain ⟨file, -, res, db2, -, -, hwalk, -, hrows, -⟩ := reindexBucket_ok hbucket
      have hkeys2 := walkBucket_keeps
        (P := fun db : IndexDb => (db.blobPosition.map (·.key)).Nodup)
        (reindexVisitBlob_keys env.hash file i) file hkeys
      rw [hwalk] at hkeys2
      exact ih (by rw [hrows]; exact hkeys2) h
    | _ => cases h

theorem reindex_complete {env : GlacierEnv} {dir dir' : BucketDir} {db' : IndexDb}
    (h : walkBuckets (reindexBucket env) (env.readdir dir.names) (dir, .empty) = (.ok, dir', db')) :
    Complete env.hash dir db' := by
  have hperm := env.readdir_perm dir.names
  obtain ⟨-, hwalked⟩ := reindex_walked (hperm.nodup_iff.mpr dir.nodup) (fun i _ => rfl) h
  intro i file hfile stat hstat hbody
  obtain ⟨file', res, db1, db2, hfile', hwalk, hres, hsub⟩ :=
    hwalked i (hperm.mem_iff.mpr ((dir.mem_names i).mpr (by rw [hfile]; rfl)))
  rw [hfile] at hfile'
  cases hfile'
  obtain ⟨row, hrow, hkey⟩ := (walkBucket_complete hwalk hres).2 stat hstat hbody
  exact ⟨row, hsub hrow, hkey⟩

/-! ## Opening -/

/-- The last bucket has the greatest index of all. -/
theorem moveToLastBucket_spec (dir : BucketDir) :
    (∀ i file, dir.file i = some file → i ≤ moveToLastBucket dir) ∧
      (moveToLastBucket dir = 0 ∨ ∃ file, dir.file (moveToLastBucket dir) = some file) := by
  have hwalk (names : List Nat) (start : Nat) :
      (start ≤ (walkBuckets (fun last i => (.ok, if last < i then i else last)) names start).2 ∧
        ∀ i ∈ names, i ≤
          (walkBuckets (fun last i => (.ok, if last < i then i else last)) names start).2) ∧
      ((walkBuckets (fun last i => (.ok, if last < i then i else last)) names start).2 = start ∨
        (walkBuckets (fun last i => (.ok, if last < i then i else last)) names start).2 ∈ names) := by
    induction names generalizing start with
    | nil => exact ⟨⟨Nat.le_refl _, fun i hi => absurd hi List.not_mem_nil⟩, .inl rfl⟩
    | cons i names ih =>
      obtain ⟨⟨hstart, hle⟩, hmem⟩ := ih (if start < i then i else start)
      have hmax : start ≤ (if start < i then i else start) ∧ i ≤ (if start < i then i else start) := by
        split <;> omega
      refine ⟨⟨Nat.le_trans hmax.1 hstart, fun j hj => ?_⟩, ?_⟩
      · rcases List.mem_cons.mp hj with rfl | hj
        · exact Nat.le_trans hmax.2 hstart
        · exact hle j hj
      · rcases hmem with heq | hmem
        · rw [walkBuckets]
          simp only
          rw [heq]
          split
          · exact .inr List.mem_cons_self
          · exact .inl rfl
        · exact .inr (List.mem_cons_of_mem _ hmem)
  obtain ⟨⟨-, hle⟩, hmem⟩ := hwalk dir.names 0
  constructor
  · intro i file hfile
    exact hle i ((dir.mem_names i).mpr (by rw [hfile]; rfl))
  · rcases hmem with heq | hmem
    · exact .inl heq
    · exact .inr (Option.isSome_iff_exists.mp ((dir.mem_names _).mp hmem))

theorem createGlacierWriteCtx_open (disk : Disk) {file : Bytes} {endOffset : Nat}
    (hlast : moveToLastBucket disk.dir ≠ 0)
    (hfile : disk.dir.file (moveToLastBucket disk.dir) = some file)
    (hmagic : validateBucketMagicNumber file = true)
    (hend : readBucketEndOffset file = some endOffset) (hne : endOffset ≠ bucketEndOffsetCorrupt) :
    createGlacierWriteCtx disk =
      (.ok, ⟨disk.dir, disk.db.getD .empty, ⟨moveToLastBucket disk.dir,
        some (.bucket (moveToLastBucket disk.dir)), endOffset, true⟩⟩) := by
  unfold createGlacierWriteCtx
  simp only [hlast, if_false, hfile, hmagic, Bool.not_true, Bool.false_eq_true, hend, hne]

theorem createGlacierWriteCtx_error {disk : Disk} {file : Bytes}
    (hlast : moveToLastBucket disk.dir ≠ 0)
    (hfile : disk.dir.file (moveToLastBucket disk.dir) = some file)
    (hbad : validateBucketMagicNumber file = false ∨ readBucketEndOffset file = none) :
    (createGlacierWriteCtx disk).1 = .error := by
  unfold createGlacierWriteCtx
  simp only [hlast, if_false, hfile]
  split
  · rfl
  · next hmagic =>
    rcases hbad with hbad | hbad
    · rw [hbad] at hmagic
      exact absurd rfl hmagic
    · simp only [hbad]

/-- Without buckets or behind a corrupt one, a new bucket is started. -/
theorem createGlacierWriteCtx_fresh {dir : BucketDir}
    (h : moveToLastBucket dir = 0 ∨ LastBucketCorrupt dir) :
    ∃ g, createGlacierWriteCtx ⟨dir, none⟩ = (.ok, g) ∧
      g.dir = dir.put (moveToLastBucket dir + 1) (bucketFile []) ∧
      insertBucket .empty (moveToLastBucket dir + 1) = some g.db ∧
      g.ctx.currentBucketIndex = moveToLastBucket dir + 1 ∧
      g.ctx.currentBucketF = some (.bucket (moveToLastBucket dir + 1)) := by
  have hnew : dir.file (moveToLastBucket dir + 1) = none := by
    cases hfile : dir.file (moveToLastBucket dir + 1) with
    | none => rfl
    | some file =>
      exact absurd ((moveToLastBucket_spec dir).1 _ file hfile) (Nat.not_succ_le_self _)
  have hrun (f : Option Fd) (pos : Nat) := runOps_createNextBucketOps
    (g := ⟨dir, .empty, ⟨moveToLastBucket dir, f, pos, true⟩⟩) rfl hnew
  have hins : insertBucket .empty (moveToLastBucket dir + 1) =
      some ⟨[], [⟨toInt32 (moveToLastBucket dir + 1 : Nat), bucketHeaderSize⟩]⟩ := rfl
  unfold createGlacierWriteCtx
  simp only [Option.getD_none]
  by_cases hzero : moveToLastBucket dir = 0
  · obtain ⟨sync, hops⟩ := hrun none 0
    rw [if_pos hzero, hops]
    simp only [hins]
    exact ⟨_, rfl, rfl, rfl, rfl, rfl⟩
  · obtain ⟨file, hfile, hmagic, hend⟩ := h.resolve_left hzero
    obtain ⟨sync, hops⟩ := hrun (some (.bucket (moveToLastBucket dir))) bucketEndOffsetCorrupt
    simp only [hzero, if_false, hfile, hmagic, Bool.not_true, Bool.false_eq_true, hend, if_true,
      hops, hins]
    exact ⟨_, rfl, rfl, rfl, rfl, rfl⟩

/-! ## Checking -/

theorem checkIndexDb_ok {env : GlacierEnv} {g : Glacier} {i : Nat} {file : Bytes} {endOffset : Int}
    (hf : g.ctx.currentBucketF = some (.bucket i)) (hfile : g.dir.file i = some file)
    (hend : findBucketEndOffset g.db g.ctx.currentBucketIndex = some endOffset)
    (hlen : toInt32 endOffset = file.length)
    (hrows : ∀ rows, rows ⊆ g.db.blobPosition.map BlobPosition.stored →
      checkBlobs env g.dir g.db rows = .ok) :
    checkIndexDb env g = .ok := by
  have hlatest : (env.latest (g.db.blobPosition.map BlobPosition.stored)).take 1024 ⊆
      g.db.blobPosition.map BlobPosition.stored :=
    fun _ h => (env.latest_perm _).subset (List.take_subset _ _ h)
  have hrandom : (env.random (g.db.blobPosition.map BlobPosition.stored)).take 1024 ⊆
      g.db.blobPosition.map BlobPosition.stored :=
    fun _ h => (env.random_perm _).subset (List.take_subset _ _ h)
  unfold checkIndexDb checkIndexDbWith
  simp only [hf, hfile, hend, hlen, ne_eq, not_true_eq_false, if_false, List.append_nil,
    hrows _ hlatest, hrows _ hrandom]

theorem checkIndexDb_corrupt {env : GlacierEnv} {g : Glacier} {i : Nat} {file : Bytes}
    (hf : g.ctx.currentBucketF = some (.bucket i)) (hfile : g.dir.file i = some file)
    (hend : ∀ endOffset, findBucketEndOffset g.db g.ctx.currentBucketIndex = some endOffset →
      toInt32 endOffset ≠ file.length) :
    checkIndexDb env g = .glacierIndexDbCorrupt := by
  unfold checkIndexDb checkIndexDbWith
  simp only [hf, hfile]
  cases hfind : findBucketEndOffset g.db g.ctx.currentBucketIndex with
  | none => rfl
  | some endOffset => simp only [ne_eq, hend endOffset hfind, not_false_eq_true, if_true]

/-- The check of a bucket that has just been started passes. -/
theorem quickCheck_fresh (env : GlacierEnv) {dir : BucketDir}
    (h : moveToLastBucket dir = 0 ∨ LastBucketCorrupt dir) :
    ∃ dir' bucket, quickCheckGlacier env ⟨dir, none⟩ = (.ok, ⟨dir', some ⟨[], bucket⟩⟩) := by
  obtain ⟨g, hctx, hdir, hins, hindex, hf⟩ := createGlacierWriteCtx_fresh h
  have hrows : g.db.blobPosition = [] := by
    rw [eq_of_insertBucket hins]
    rfl
  have hfile : g.dir.file (moveToLastBucket dir + 1) = some (bucketFile []) := by
    rw [hdir, BucketDir.put_file_self]
  have hend := findBucketEndOffset_insert_self hins
  rw [← hindex] at hend
  have hok : checkIndexDb env g = .ok := by
    refine checkIndexDb_ok hf hfile hend (by decide) fun rows hsub => ?_
    rw [hrows, List.map_nil] at hsub
    rw [List.subset_nil.mp hsub]
    rfl
  refine ⟨g.dir, g.db.bucket, ?_⟩
  unfold quickCheckGlacier quickCheckGlacierWith
  rw [hctx]
  simp only [checkIndexDbWith_nil, hok]
  rw [← hrows]

/-- A check that finds another end offset than the file has rebuilds the index. -/
theorem quickCheck_corrupt (env : GlacierEnv) {disk : Disk} {file : Bytes} {endOffset : Nat}
    (hlast : moveToLastBucket disk.dir ≠ 0)
    (hfile : disk.dir.file (moveToLastBucket disk.dir) = some file)
    (hmagic : validateBucketMagicNumber file = true)
    (hend : readBucketEndOffset file = some endOffset) (hne : endOffset ≠ bucketEndOffsetCorrupt)
    (hrow : ∀ e, findBucketEndOffset (disk.db.getD .empty) (moveToLastBucket disk.dir) = some e →
      toInt32 e ≠ file.length) :
    quickCheckGlacier env disk =
      match walkBuckets (reindexBucket env) (env.readdir disk.dir.names) (disk.dir, .empty) with
      | (.ok, dir, db) => (.ok, ⟨dir, some db⟩)
      | (_, dir, db) => (.noReturn, ⟨dir, some db⟩) := by
  have hctx := createGlacierWriteCtx_open disk hlast hfile hmagic hend hne
  have hctx' := createGlacierWriteCtx_open ⟨disk.dir, none⟩ hlast hfile hmagic hend hne
  have hcorrupt : checkIndexDb env ⟨disk.dir, disk.db.getD .empty, ⟨moveToLastBucket disk.dir,
      some (.bucket (moveToLastBucket disk.dir)), endOffset, true⟩⟩ = .glacierIndexDbCorrupt :=
    checkIndexDb_corrupt rfl hfile hrow
  unfold quickCheckGlacier quickCheckGlacierWith
  rw [hctx]
  simp only [checkIndexDbWith_nil, hcorrupt, recreateIndexDb]
  rw [hctx']
  rcases hwalk : walkBuckets (reindexBucket env) (env.readdir disk.dir.names) (disk.dir, .empty)
    with ⟨res, dir, db⟩
  simp only [Option.getD_none, hwalk]
  cases res with
  | _ => rfl

theorem quickCheck_error (env : GlacierEnv) {disk : Disk} {file : Bytes}
    (hlast : moveToLastBucket disk.dir ≠ 0)
    (hfile : disk.dir.file (moveToLastBucket disk.dir) = some file)
    (hbad : validateBucketMagicNumber file = false ∨ readBucketEndOffset file = none) :
    (quickCheckGlacier env disk).1 = .error := by
  have herr := createGlacierWriteCtx_error hlast hfile hbad
  unfold quickCheckGlacier quickCheckGlacierWith
  rcases hctx : createGlacierWriteCtx disk with ⟨res, g⟩
  rw [hctx] at herr
  cases herr
  rfl

/-- A check that does not start a new bucket finds no row for the last one, and
rebuilds the index. -/
theorem quickCheck_rebuilt {env : GlacierEnv} {dir : BucketDir} {disk : Disk}
    (hfresh : ¬ (moveToLastBucket dir = 0 ∨ LastBucketCorrupt dir))
    (h : quickCheckGlacier env ⟨dir, none⟩ = (.ok, disk)) :
    ∃ db, disk.db = some db ∧ Complete env.hash dir db := by
  rw [not_or] at hfresh
  obtain ⟨hlast, hcorrupt⟩ := hfresh
  obtain ⟨file, hfile⟩ := (moveToLastBucket_spec dir).2.resolve_left hlast
  by_cases hbad : validateBucketMagicNumber file = false ∨ readBucketEndOffset file = none
  · have herr : (quickCheckGlacier env ⟨dir, none⟩).1 = .error :=
      quickCheck_error env hlast hfile hbad
    rw [h] at herr
    cases herr
  · rw [not_or, Bool.not_eq_false] at hbad
    obtain ⟨hmagic, hend⟩ := hbad
    obtain ⟨endOffset, hend⟩ := Option.ne_none_iff_exists'.mp hend
    have hne : endOffset ≠ bucketEndOffsetCorrupt := by
      rintro rfl
      exact hcorrupt ⟨file, hfile, hmagic, hend⟩
    have hrebuild : quickCheckGlacier env ⟨dir, none⟩ = _ :=
      quickCheck_corrupt env hlast hfile hmagic hend hne (by intro e he; cases he)
    rw [hrebuild] at h
    rcases hwalk : walkBuckets (reindexBucket env) (env.readdir dir.names) (dir, .empty) with
      ⟨res, dir', db⟩
    rw [hwalk] at h
    cases res with
    | ok =>
      cases h
      exact ⟨db, rfl, reindex_complete hwalk⟩
    | _ => cases h

end ReindexLemmas

open ReindexLemmas

/-- The check of a glacier that has lost its index.db passes only with a complete
index, if and only if a check that starts a new bucket has no record to find. -/
theorem passed_check_complete_iff (env : GlacierEnv) (dir : BucketDir) :
    PassedMeansComplete env dir ↔
      (moveToLastBucket dir = 0 ∨ LastBucketCorrupt dir → Complete env.hash dir .empty) := by
  constructor
  · intro h hfresh
    obtain ⟨dir', bucket, hcheck⟩ := quickCheck_fresh env hfresh
    obtain ⟨db, hdb, hcomplete⟩ := h _ hcheck
    cases hdb
    exact hcomplete
  · intro h disk hcheck
    by_cases hfresh : moveToLastBucket dir = 0 ∨ LastBucketCorrupt dir
    · obtain ⟨dir', bucket, hcheck'⟩ := quickCheck_fresh env hfresh
      cases hcheck.symm.trans hcheck'
      exact ⟨_, rfl, h hfresh⟩
    · exact quickCheck_rebuilt hfresh hcheck

/-- A glacier with one blob in which the next append has been cut after one byte. -/
def tornDisk : Disk :=
  let g := nextGlacier (1024 * 1024 * 1024) emptyGlacier ⟨emptyBlob, 5⟩
  ⟨g.dir.put 1 (((g.dir.file 1).getD []) ++ [0x6b]), some g.db⟩

/-- Its directory after a first check, which has marked the bucket. -/
def markedDir : BucketDir :=
  (quickCheckGlacier (.inOrder fun _ => emptyBlob.key) tornDisk).2.dir

/-- The blob is in the bucket, and a check without an index passes with no row. -/
theorem passed_check_incomplete :
    ¬ PassedMeansComplete (.inOrder fun _ => emptyBlob.key) markedDir := by
  intro h
  obtain ⟨db, hdb, hcomplete⟩ := h
    (quickCheckGlacier (.inOrder fun _ => emptyBlob.key) ⟨markedDir, none⟩).2
    (Prod.ext (by decide +kernel) rfl)
  have hempty : (quickCheckGlacier (.inOrder fun _ => emptyBlob.key)
      ⟨markedDir, none⟩).2.db.map (·.blobPosition) = some [] := by decide +kernel
  rw [hdb, Option.map_some, Option.some.injEq] at hempty
  have hfile : markedDir.file 1 = some ((markedDir.file 1).getD []) := by decide +kernel
  have hblob : ∃ stat ∈ reached ((markedDir.file 1).getD []),
      ValidBody (fun _ => emptyBlob.key) ((markedDir.file 1).getD []) stat := by decide +kernel
  obtain ⟨stat, hstat, hbody⟩ := hblob
  obtain ⟨row, hrow, -⟩ := hcomplete 1 _ hfile stat hstat hbody
  rw [hempty] at hrow
  cases hrow

end Everarch
