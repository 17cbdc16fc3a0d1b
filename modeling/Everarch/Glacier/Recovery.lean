import Everarch.Glacier.Crash
import Everarch.Glacier.Walkable

/-!
# Recovery after a crash

`evr_quick_check_glacier` on what a crash leaves behind. The index does not fit the
last bucket then, and is rebuilt from the buckets.

* `finds_tornHeader`, `finds_unindexed`, `finds_newBucket`: cuts that the check copes
  with.
* `not_finds_tornBody`, `not_finds_newBucket`: cuts that it does not.

Result: `crash_recovery_iff`; `crash_unrecovered`: a blob header without its body.
-/

namespace Everarch

/-- Keys are the hashes of the contents, and different contents have different ones. -/
def ContentHashed (hash : Bytes → BlobRef) (steps : List AppendStep) : Prop :=
  (∀ s ∈ steps, hash s.blob.body = s.blob.key) ∧
    ∀ s ∈ steps, ∀ s' ∈ steps, s.blob.key = s'.blob.key → s.blob.body = s'.blob.body

/-- The check returns `evr_ok`, and the blobs are indexed after it. -/
def Recovered (env : GlacierEnv) (disk : Disk) (steps : List AppendStep) : Prop :=
  (quickCheckGlacier env disk).1 = .ok ∧
    ∀ s ∈ steps, IndexedAt (quickCheckGlacier env disk).2 s.blob.key s.blob.body

/-- The cut has not left a new bucket without a complete header, or a complete blob
header without all of its body. The last bucket is not one that shares its row in the
index with bucket 1. -/
def CleanCut (g : Glacier) (blob : WritingBlob) (dir : BucketDir) : Prop :=
  moveToLastBucket dir ≤ 2 ^ 32 ∧
  ∃ file, dir.file (moveToLastBucket dir) = some file ∧ bucketHeaderSize ≤ file.length ∧
    let pos := if moveToLastBucket dir = g.ctx.currentBucketIndex then g.ctx.currentBucketPos
      else bucketHeaderSize
    ¬ (pos + bucketBlobHeaderSize ≤ file.length ∧
      file.length < pos + (bucketBlobHeaderSize + blob.size))

namespace RecoveryLemmas

open BucketLemmas AppendLemmas ReindexLemmas WalkableLemmas CrashLemmas

/-- The keys are the hashes of the bodies, without a collision. -/
structure Hashed (hash : Bytes → BlobRef) (rs : List Record) : Prop where
  key : ∀ r ∈ rs, hash r.body = r.key
  inj : ∀ r ∈ rs, ∀ r' ∈ rs, r.key = r'.key → r.body = r'.body

/-- The check returns `evr_ok`, and the records are indexed after it. -/
def Finds (env : GlacierEnv) (disk : Disk) (rs : List Record) : Prop :=
  (quickCheckGlacier env disk).1 = .ok ∧
    ∀ r ∈ rs, IndexedAt (quickCheckGlacier env disk).2 r.key r.body

theorem Hashed.mono {hash : Bytes → BlobRef} {rs rs' : List Record} (h : Hashed hash rs)
    (hsub : rs' ⊆ rs) : Hashed hash rs' where
  key r hr := h.key r (hsub hr)
  inj r hr r' hr' := h.inj r (hsub hr) r' (hsub hr')

theorem indexedAt_all {hash : Bytes → BlobRef} {dir : BucketDir} {segs : List (List Record)}
    (hw : Walkable dir segs) (hhash : Hashed hash segs.flatten) {db : IndexDb}
    (hrows : ∀ row ∈ db.blobPosition, PointsAt segs row)
    (hkeys : ∀ r ∈ segs.flatten, ∃ row ∈ db.blobPosition, row.key = r.key) :
    ∀ r ∈ segs.flatten, IndexedAt ⟨dir, some db⟩ r.key r.body := by
  intro r hr
  obtain ⟨row, hrow, hkey⟩ := hkeys r hr
  -- the row may be that of an earlier record with the same key
  obtain ⟨r', hr', hkey', hindexed⟩ := indexedAt_of_pointsAt hw hrow (hrows row hrow)
  have hsame : r'.key = r.key := hkey'.symm.trans hkey
  rw [← hsame, ← hhash.inj r' hr' r hr hsame]
  exact hindexed

theorem finds_represents {env : GlacierEnv} {g : Glacier} {log : SegLog Record}
    (h : Represents g log) {bound : Nat} (hfits : log.Fits bucketSize bound)
    (hbound : bound < 2 ^ 31) (hhash : Hashed env.hash log.items) :
    Finds env ⟨g.dir, some g.db⟩ log.items := by
  unfold Finds
  rw [quickCheck_represents h hfits hbound hhash.key]
  exact ⟨rfl, indexedAt_all (walkable_of_represents h hfits hbound) hhash h.rows h.indexed⟩

section Corrupt

variable {env : GlacierEnv} {dir : BucketDir} {db : IndexDb} {n e : Nat} {content : Bytes}

/-- The check rebuilds an index that does not know the length of the last bucket. -/
theorem quickCheck_bucketBytes (hlast : moveToLastBucket dir = n + 1)
    (hfile : dir.file (n + 1) = some (bucketBytes e content))
    (he : 0 < e) (hlt : e < 2 ^ 32)
    (hrow : ∀ e', findBucketEndOffset db (n + 1) = some e' →
      toInt32 e' ≠ (bucketBytes e content).length) :
    quickCheckGlacier env ⟨dir, some db⟩ =
      match walkBuckets (reindexBucket env) (env.readdir dir.names) (dir, .empty) with
      | (.ok, dir, db) => (.ok, ⟨dir, some db⟩)
      | (_, dir, db) => (.noReturn, ⟨dir, some db⟩) := by
  rw [← hlast] at hfile hrow
  exact quickCheck_corrupt env (by rw [hlast]; exact Nat.succ_ne_zero n)
    hfile (validate_bucketBytes _ _) (readBucketEndOffset_bucketBytes hlt _)
    (Nat.pos_iff_ne_zero.mp he) hrow

theorem finds_walkable {segs : List (List Record)} (hw : Walkable dir segs)
    (hn : segs.length = n + 1) (hlen : segs.length ≤ 2 ^ 32)
    (hhash : Hashed env.hash segs.flatten)
    (hfile : dir.file (n + 1) = some (bucketBytes e content))
    (he : 0 < e) (hlt : e < 2 ^ 32)
    (hrow : ∀ e', findBucketEndOffset db (n + 1) = some e' →
      toInt32 e' ≠ (bucketBytes e content).length) :
    Finds env ⟨dir, some db⟩ segs.flatten := by
  obtain ⟨dir', db', hwalk, hw', hrows, hkeys⟩ := reindex_walkable hw hlen hhash.key
  unfold Finds
  rw [quickCheck_bucketBytes (moveToLastBucket_walkable hw hn) hfile he hlt hrow, hwalk]
  exact ⟨rfl, indexedAt_all hw' hhash (fun row hrow => pointsAt_of_placedAt hw' hlen (hrows row hrow))
    hkeys⟩

theorem not_finds_of_reindex (hlast : moveToLastBucket dir = n + 1)
    (hfile : dir.file (n + 1) = some (bucketBytes e content))
    (he : 0 < e) (hlt : e < 2 ^ 32)
    (hrow : ∀ e', findBucketEndOffset db (n + 1) = some e' →
      toInt32 e' ≠ (bucketBytes e content).length)
    (hfail : ∀ dir' db', walkBuckets (reindexBucket env) (env.readdir dir.names) (dir, .empty) ≠
      (.ok, dir', db')) (rs : List Record) :
    ¬ Finds env ⟨dir, some db⟩ rs := by
  rintro ⟨hok, -⟩
  rw [quickCheck_bucketBytes hlast hfile he hlt hrow] at hok
  rcases hwalk : walkBuckets (reindexBucket env) (env.readdir dir.names) (dir, .empty) with
    ⟨res, dir', db'⟩
  rw [hwalk] at hok
  cases res with
  | ok => exact hfail dir' db' hwalk
  | _ => cases hok

end Corrupt

section Cut

variable {env : GlacierEnv} {g g' : Glacier} {log : SegLog Record} {bound : Nat}

theorem moveToLastBucket_put (h : Represents g log) (content : Bytes) :
    moveToLastBucket (g.dir.put log.segments.length content) = log.segments.length := by
  refine moveToLastBucket_eq (BucketDir.put_file_self _ _ _) fun i hi => ?_
  obtain ⟨j, rfl⟩ : ∃ j, i = j + 1 := ⟨i - 1, by omega⟩
  rw [BucketDir.put_file_of_ne _ (by omega), h.file, List.getElem?_eq_none (by omega)]
  rfl

theorem Finds.mono {disk : Disk} {rs rs' : List Record} (h : Finds env disk rs) (hsub : rs' ⊆ rs) :
    Finds env disk rs' :=
  ⟨h.1, fun r hr => h.2 r (hsub hr)⟩

/-- A part of a blob header behind the records. -/
theorem finds_tornHeader (h : Represents g log) (hfits : log.Fits bucketSize bound)
    (hbound : bound < 2 ^ 31) (hhash : Hashed env.hash log.items) {tail : Bytes}
    (htail : tail ≠ []) (hlt : tail.length < bucketBlobHeaderSize)
    (hlen : bucketSize log.current + tail.length < 2 ^ 31) :
    Finds env ⟨g.dir.put log.segments.length (bucketFile log.current ++ tail), some g.db⟩
      log.items := by
  have hpos := List.length_pos_of_ne_nil htail
  have hsize : (bucketBytes (bucketSize log.current) (recordsBytes log.current ++ tail)).length =
      bucketSize log.current + tail.length := by
    rw [length_bucketBytes, List.length_append, ← Nat.add_assoc]
    rfl
  have hw := walkable_put (walkable_of_represents h hfits hbound) log.getElem?_current
    (fun _ _ => rfl) hlt (bucketSize log.current) (by rw [hsize]; exact hlen)
  rw [log.length_segments, bucketFile_append_bytes]
  refine finds_walkable hw log.length_segments (length_segments_le h) hhash
    (BucketDir.put_file_self _ _ _) (Nat.lt_of_lt_of_le (by decide) (Nat.le_add_right _ _))
    (by omega) fun e' he' => ?_
  rw [h.endOffset _ _ log.getElem?_current] at he'
  cases he'
  rw [hsize, toInt32_of_lt (by omega)]
  omega

/-- A complete record of which the index does not know. -/
theorem finds_unindexed (h : Represents g log) (hfits : log.Fits bucketSize bound)
    (hbound : bound < 2 ^ 31) {r : Record} (hhash : Hashed env.hash (log.items ++ [r]))
    (hlen : bucketSize (log.current ++ [r]) < 2 ^ 31) {e : Nat} (he : bucketSize log.current ≤ e)
    (hlt : e < 2 ^ 32) {db : IndexDb}
    (hdb : findBucketEndOffset db log.segments.length = some (bucketSize log.current : Int)) :
    Finds env ⟨g.dir.put log.segments.length (bucketBytes e (recordsBytes (log.current ++ [r]))),
      some db⟩ log.items := by
  have hcurrent : (log.add r).segments[log.closed.length]? = some (log.current ++ [r]) := by
    rw [SegLog.getElem?_add, if_pos rfl]
  have hsize : (bucketBytes e (recordsBytes (log.current ++ [r]))).length =
      bucketSize (log.current ++ [r]) := length_bucketBytes _ _
  have hgrown := bucketSize_append log.current r
  have hheader : 0 < bucketBlobHeaderSize := by decide
  have hw : Walkable (g.dir.put (log.closed.length + 1)
      (bucketBytes e (recordsBytes (log.current ++ [r]) ++ []))) (log.add r).segments :=
    walkable_put (walkable_of_represents h hfits hbound) hcurrent
      (fun j hj => by rw [SegLog.getElem?_add, if_neg hj]) (by decide) e
      (by rw [List.append_nil, hsize]; exact hlen)
  rw [List.append_nil] at hw
  have hadd : (log.add r).segments.length = log.segments.length := by
    rw [SegLog.length_segments, SegLog.length_segments]
    rfl
  rw [← log.add_items r] at hhash
  have hrow : ∀ e', findBucketEndOffset db (log.closed.length + 1) = some e' →
      toInt32 e' ≠ (bucketBytes e (recordsBytes (log.current ++ [r]))).length := by
    intro e' he'
    rw [← log.length_segments, hdb] at he'
    cases he'
    rw [hsize, toInt32_of_lt (by omega)]
    omega
  have hpos : 0 < e := Nat.lt_of_lt_of_le (by decide) (Nat.le_trans (Nat.le_add_right _ _) he)
  rw [log.length_segments]
  exact Finds.mono (finds_walkable hw (hadd.trans log.length_segments)
    (hadd.trans_le (length_segments_le h)) hhash (BucketDir.put_file_self _ _ _) hpos hlt hrow)
    (log.subset_add_items r)

/-- A walk comes to a record that lacks a part of its body, and fails. -/
theorem walkBucket_tornBody {hash : Bytes → BlobRef} {rs : List Record}
    (hhash : ∀ r ∈ rs, hash r.body = r.key) {r : Record} {k : Nat} (hk : k < r.body.length)
    (endOffset i : Nat) {file : Bytes} (hfile : file = bucketBytes endOffset (recordsBytes rs ++
      (blobHeader r.key r.flags r.lastModified r.body.length ++ r.body.take k))) (db : IndexDb) :
    (walkBucket (reindexVisitBlob hash file i) file db).1 = .error := by
  have hvisit : ∀ db, ∀ p ∈ positions bucketHeaderSize rs,
      (reindexVisitBlob hash file i db (p.2.stat p.1)).1 = .ok := by
    intro db p hp
    have hread := (readAt_position endOffset (blobHeader r.key r.flags r.lastModified r.body.length ++
      r.body.take k) hp).1
    rw [← hfile] at hread
    rw [reindexVisitBlob_record hread (hhash p.2 (mem_of_mem_positions hp))]
  have hlast : ∀ db, (reindexVisitBlob hash file i db
      (r.stat (bucketHeaderSize + (recordsBytes rs).length))).1 = .error := by
    intro db
    have hshort : (readAt file (bucketHeaderSize + (recordsBytes rs).length + bucketBlobHeaderSize)
        r.body.length).length < r.body.length := by
      simp only [readAt, hfile, List.length_take, List.length_drop, length_bucketBytes,
        List.length_append, length_blobHeader]
      omega
    unfold reindexVisitBlob Record.stat
    simp only [Bool.not_true, Bool.false_eq_true, if_false, hshort, if_true]
  rw [hfile] at hvisit hlast ⊢
  exact walkBucket_refused hvisit hlast

/-- A blob header without all of its body. -/
theorem not_finds_tornBody (h : Represents g log) (hfits : log.Fits bucketSize bound)
    (hbound : bound < 2 ^ 31) (hhash : Hashed env.hash log.items) {r : Record} {k : Nat}
    (hk : bucketBlobHeaderSize ≤ k) (hlt : k < bucketBlobHeaderSize + r.body.length) :
    ¬ Finds env ⟨g.dir.put log.segments.length (bucketFile log.current ++ r.bytes.take k),
      some g.db⟩ log.items := by
  have hcurrent := hfits log.current log.current_mem_segments
  have hsize : (bucketFile log.current ++ r.bytes.take k).length = bucketSize log.current + k := by
    rw [List.length_append, length_bucketFile, List.length_take, length_bytes,
      Nat.min_eq_left (Nat.le_of_lt hlt)]
  have hheader : 0 < bucketBlobHeaderSize := by decide
  have hsmall := r.size_lt
  have hlast := moveToLastBucket_put h (bucketFile log.current ++ r.bytes.take k)
  have htake : r.bytes.take k = blobHeader r.key r.flags r.lastModified r.body.length ++
      r.body.take (k - bucketBlobHeaderSize) := by
    rw [Record.bytes, List.take_append, length_blobHeader,
      List.take_of_length_le (by rw [length_blobHeader]; exact hk)]
  rw [log.length_segments] at hlast ⊢
  rw [bucketFile_append_bytes] at hsize hlast ⊢
  refine not_finds_of_reindex hlast (BucketDir.put_file_self _ _ _)
    (Nat.lt_of_lt_of_le (by decide) (Nat.le_add_right _ _)) (by omega) ?_ ?_ _
  · intro e' he'
    rw [h.endOffset _ _ log.getElem?_current] at he'
    cases he'
    rw [hsize, toInt32_of_lt (by omega)]
    omega
  · intro dir' db' hwalk
    have hperm := env.readdir_perm (g.dir.put (log.closed.length + 1) (bucketBytes
      (bucketSize log.current) (recordsBytes log.current ++ r.bytes.take k))).names
    obtain ⟨-, hwalked⟩ :=
      reindex_walked (hperm.nodup_iff.mpr (BucketDir.nodup _)) (fun _ _ => rfl) hwalk
    obtain ⟨file, res, db1, db2, hfile, hbucket, hres, -⟩ := hwalked (log.closed.length + 1)
      (hperm.mem_iff.mpr ((BucketDir.mem_names _ _).mpr (by rw [BucketDir.put_file_self]; rfl)))
    rw [BucketDir.put_file_self, htake] at hfile
    have herr := walkBucket_tornBody (fun r' hr' => hhash.key r' (List.mem_flatten.mpr
      ⟨log.current, log.current_mem_segments, hr'⟩)) (Nat.sub_lt_left_of_lt_add hk hlt)
      (bucketSize log.current) (log.closed.length + 1) (Option.some.inj hfile).symm db1
    rw [hbucket] at herr
    rcases hres with rfl | rfl
    · cases herr
    · cases herr

/-- A part of a record: the check comes to its end unless it finds a header without all of its
body. -/
theorem finds_cutRecord_iff (h : Represents g log) (hfits : log.Fits bucketSize bound)
    (hbound : bound < 2 ^ 31) {blob : WritingBlob} {lastModified : UInt64}
    (hsize : blob.size < 2 ^ 32)
    (hlen : bucketSize (log.current ++ [recordOf blob lastModified hsize]) < 2 ^ 31)
    (hhash : Hashed env.hash (log.items ++ [recordOf blob lastModified hsize])) {k : Nat}
    (hk : k ≤ bucketBlobHeaderSize + blob.size) :
    Finds env ⟨g.dir.put log.segments.length (bucketFile log.current ++
        (recordOf blob lastModified hsize).bytes.take k), some g.db⟩ log.items ↔
      ¬ (bucketBlobHeaderSize ≤ k ∧ k < bucketBlobHeaderSize + blob.size) := by
  have hold : Hashed env.hash log.items := hhash.mono (List.subset_append_left _ _)
  have hbytes : (recordOf blob lastModified hsize).bytes.length =
      bucketBlobHeaderSize + blob.size := by
    rw [length_bytes, recordOf, blob.length_body]
  have hend := @bucketSize_recordOf blob lastModified log.current hsize
  rcases Nat.lt_or_ge k bucketBlobHeaderSize with hshort | hlong
  · refine iff_of_true ?_ fun hcut => Nat.not_lt.mpr hcut.1 hshort
    cases k with
    | zero =>
      rw [List.take_zero, List.append_nil, log.length_segments, put_self]
      · exact finds_represents h hfits hbound hold
      · rw [h.file, log.getElem?_current]
        rfl
    | succ k =>
      have htake : ((recordOf blob lastModified hsize).bytes.take (k + 1)).length = k + 1 := by
        rw [List.length_take, hbytes, Nat.min_eq_left hk]
      refine finds_tornHeader h hfits hbound hold ?_ ?_ ?_
      · exact List.ne_nil_of_length_pos (by omega)
      · rw [htake]
        exact hshort
      · omega
  · rcases Nat.lt_or_ge k (bucketBlobHeaderSize + blob.size) with htorn | hfull
    · refine iff_of_false ?_ (not_not.mpr ⟨hlong, htorn⟩)
      exact not_finds_tornBody h hfits hbound hold hlong
        (by rw [recordOf, blob.length_body]; exact htorn)
    · refine iff_of_true ?_ fun hcut => Nat.not_lt.mpr hfull hcut.2
      rw [List.take_of_length_le (by omega), bucketFile_append_bytes, ← recordsBytes_concat]
      refine finds_unindexed h hfits hbound hhash hlen (Nat.le_refl _) (by omega) ?_
      rw [log.length_segments]
      exact h.endOffset _ _ log.getElem?_current

/-- The check after a cut in an append that does not start a new bucket. -/
theorem finds_appendRecordOps_iff (h : Represents g log) (hfits : log.Fits bucketSize bound)
    (hbound : bound < 2 ^ 31) {blob : WritingBlob} {lastModified : UInt64}
    (hsize : blob.size < 2 ^ 32)
    (hadd : bucketSize (log.current ++ [recordOf blob lastModified hsize]) ≤ bound)
    (hhash : Hashed env.hash (log.items ++ [recordOf blob lastModified hsize]))
    (hint : Interrupted (appendRecordOps g.ctx.currentBucketPos blob lastModified) g g') :
    ∃ file, moveToLastBucket g'.dir = log.segments.length ∧
      g'.dir.file log.segments.length = some file ∧ bucketHeaderSize ≤ file.length ∧
      (Finds env ⟨g'.dir, some g'.db⟩ log.items ↔
        ¬ (bucketSize log.current + bucketBlobHeaderSize ≤ file.length ∧
          file.length < bucketSize log.current + (bucketBlobHeaderSize + blob.size))) := by
  have hend := @bucketSize_recordOf blob lastModified log.current hsize
  have hheader : bucketHeaderSize ≤ bucketSize log.current := Nat.le_add_right _ _
  have hlen := Nat.lt_of_le_of_lt hadd hbound
  obtain ⟨k, hk, hdir, hdb⟩ | ⟨e, hle, hlt, hdir, hdb⟩ | h' :=
    interrupted_appendRecordOps h hsize hlen hint
  · have hfile : (bucketFile log.current ++ (recordOf blob lastModified hsize).bytes.take k).length =
        bucketSize log.current + k := by
      rw [List.length_append, length_bucketFile, List.length_take, Nat.min_eq_left hk]
    have hk' : k ≤ bucketBlobHeaderSize + blob.size := by
      rwa [length_bytes, recordOf, blob.length_body] at hk
    rw [hdir, hdb]
    refine ⟨_, moveToLastBucket_put h _, BucketDir.put_file_self _ _ _, by omega, ?_⟩
    rw [hfile, Nat.add_le_add_iff_left, Nat.add_lt_add_iff_left]
    exact finds_cutRecord_iff h hfits hbound hsize hlen hhash hk'
  · have hfile : (bucketBytes e (recordsBytes (log.current ++
        [recordOf blob lastModified hsize]))).length =
        bucketSize (log.current ++ [recordOf blob lastModified hsize]) := length_bucketBytes _ _
    rw [hdir]
    refine ⟨_, moveToLastBucket_put h _, BucketDir.put_file_self _ _ _, by omega, ?_⟩
    exact iff_of_true (finds_unindexed h hfits hbound hhash hlen hle hlt hdb) (by omega)
  · have hsegs : (log.add (recordOf blob lastModified hsize)).segments.length =
        log.segments.length := by
      rw [SegLog.length_segments, SegLog.length_segments]
      rfl
    have hfile : g'.dir.file log.segments.length =
        some (bucketFile (log.current ++ [recordOf blob lastModified hsize])) := by
      rw [log.length_segments, h'.file, SegLog.getElem?_add, if_pos rfl]
      rfl
    have hfits' := hfits.add hadd
    refine ⟨_, ?_, hfile, ?_, ?_⟩
    · rw [← hsegs, SegLog.length_segments]
      exact moveToLastBucket_walkable (walkable_of_represents h' hfits' hbound)
        (SegLog.length_segments _)
    · rw [length_bucketFile]
      omega
    · rw [← SegLog.add_items] at hhash
      rw [length_bucketFile]
      exact iff_of_true
        ((finds_represents h' hfits' hbound hhash).mono (log.subset_add_items _)) (by omega)

theorem moveToLastBucket_new (h : Represents g log) (content : Bytes) :
    moveToLastBucket (g.dir.put (log.segments.length + 1) content) = log.segments.length + 1 := by
  refine moveToLastBucket_eq (BucketDir.put_file_self _ _ _) fun i hi => ?_
  obtain ⟨j, rfl⟩ : ∃ j, i = j + 1 := ⟨i - 1, by omega⟩
  rw [BucketDir.put_file_of_ne _ (by omega), h.file, List.getElem?_eq_none (by omega)]
  rfl

/-- A new bucket without a row in the index. -/
theorem finds_newBucket (h : Represents g log) (hfits : log.Fits bucketSize bound)
    (hbound : bound < 2 ^ 31) (hhash : Hashed env.hash log.items)
    (hlen : log.segments.length < 2 ^ 32) :
    Finds env ⟨g.dir.put (log.segments.length + 1) (bucketFile []), some g.db⟩ log.items := by
  have hroll : log.roll.segments.length = log.segments.length + 1 := SegLog.length_segments _
  have hcurrent : log.roll.segments[log.segments.length]? = some [] := by
    rw [SegLog.getElem?_roll, log.length_segments, if_pos rfl]
  have hw : Walkable (g.dir.put (log.segments.length + 1)
      (bucketBytes bucketHeaderSize (recordsBytes [] ++ []))) log.roll.segments :=
    walkable_put (walkable_of_represents h hfits hbound) hcurrent
      (fun j hj => by rw [SegLog.getElem?_roll, if_neg (log.length_segments ▸ hj)]) (by decide) _
      (by decide)
  rw [← log.roll_items] at hhash ⊢
  refine finds_walkable hw hroll (by omega) hhash (BucketDir.put_file_self _ _ _) (by decide)
    (by decide) fun e he => ?_
  obtain ⟨row, hrow, -⟩ := Option.map_eq_some_iff.mp he
  obtain ⟨i, hi, hindex⟩ := h.bucketRows row (List.mem_of_find?_eq_some hrow)
  have hsame := List.find?_some hrow
  rw [decide_eq_true_eq] at hsame
  have heq := toInt32_inj (Nat.lt_trans hi hlen) hlen (hindex.symm.trans hsame)
  omega

/-- A new bucket with the row of bucket 1 in the index: the two of them cannot both be
reindexed. -/
theorem not_finds_newBucket (h : Represents g log) (hfits : log.Fits bucketSize bound)
    (hbound : bound < 2 ^ 31) (hfilled : log.roll.Filled) (hlen : log.segments.length = 2 ^ 32) :
    ¬ Finds env ⟨g.dir.put (log.segments.length + 1) (bucketFile []), some g.db⟩ log.items := by
  have hwrap : toInt32 (0 + 1 : Nat) = toInt32 (log.segments.length + 1 : Nat) := by
    rw [hlen]
    decide
  obtain ⟨rs, hrs⟩ : ∃ rs, log.segments[0]? = some rs :=
    ⟨_, List.getElem?_eq_getElem (by rw [hlen]; decide)⟩
  have hmem := List.mem_of_getElem? hrs
  refine not_finds_of_reindex (moveToLastBucket_new h _) (BucketDir.put_file_self _ _ _) (by decide)
    (by decide) ?_ ?_ _
  · intro e he
    have hend := h.endOffset 0 rs hrs
    unfold findBucketEndOffset at he hend
    rw [← hwrap, hend] at he
    cases he
    have hpos := List.length_pos_of_ne_nil (hfilled rs hmem)
    have hrecords := length_le_recordsBytes rs
    have hsize : bucketSize rs = bucketHeaderSize + (recordsBytes rs).length := rfl
    have hempty : (recordsBytes []).length = 0 := rfl
    rw [toInt32_of_lt (Nat.lt_of_le_of_lt (hfits rs hmem) hbound), length_bucketBytes]
    omega
  · intro dir' db' hwalk
    have hperm := env.readdir_perm (g.dir.put (log.segments.length + 1) (bucketFile [])).names
    have hmem (i : Nat) (file : Bytes)
        (hfile : (g.dir.put (log.segments.length + 1) (bucketFile [])).file i = some file) :
        i ∈ env.readdir (g.dir.put (log.segments.length + 1) (bucketFile [])).names :=
      hperm.mem_iff.mpr ((BucketDir.mem_names _ _).mpr (by rw [hfile]; rfl))
    have hone : (g.dir.put (log.segments.length + 1) (bucketFile [])).file (0 + 1) =
        some (bucketFile rs) := by
      rw [BucketDir.put_file_of_ne _ (by omega), h.file, hrs]
      rfl
    have hnil : (bucketIndices .empty).Nodup := List.nodup_nil
    have hdistinct : (List.map _ _).Nodup := reindex_distinct hnil hwalk
    have heq := List.inj_on_of_nodup_map hdistinct (hmem _ _ hone)
      (hmem _ _ (BucketDir.put_file_self _ _ _)) hwrap
    omega

theorem cleanCut_represents (h : Represents g log) (hfits : log.Fits bucketSize bound)
    (hbound : bound < 2 ^ 31) (blob : WritingBlob) : CleanCut g blob g.dir := by
  have hlast : moveToLastBucket g.dir = log.segments.length := by
    rw [log.length_segments]
    exact moveToLastBucket_walkable (walkable_of_represents h hfits hbound) log.length_segments
  have hfile : g.dir.file log.segments.length = some (bucketFile log.current) := by
    rw [log.length_segments, h.file, log.getElem?_current]
    rfl
  unfold CleanCut
  rw [hlast, h.currentBucketIndex, if_pos rfl, h.currentBucketPos]
  refine ⟨length_segments_le h, _, hfile, ?_, ?_⟩
  · rw [length_bucketFile]
    exact Nat.le_add_right _ _
  · rw [length_bucketFile]
    have hheader : 0 < bucketBlobHeaderSize := by decide
    omega

/-- The check after a cut in the record of an append. -/
theorem finds_iff_cleanCut {g1 : Glacier} (h : Represents g1 log) (hfits : log.Fits bucketSize bound)
    (hbound : bound < 2 ^ 31) {blob : WritingBlob} {lastModified : UInt64}
    (hsize : blob.size < 2 ^ 32)
    (hadd : bucketSize (log.current ++ [recordOf blob lastModified hsize]) ≤ bound)
    (hhash : Hashed env.hash (log.items ++ [recordOf blob lastModified hsize]))
    (hpos : (if log.segments.length = g.ctx.currentBucketIndex then g.ctx.currentBucketPos
      else bucketHeaderSize) = bucketSize log.current)
    (hint : Interrupted (appendRecordOps g1.ctx.currentBucketPos blob lastModified) g1 g') :
    Finds env ⟨g'.dir, some g'.db⟩ log.items ↔ CleanCut g blob g'.dir := by
  obtain ⟨file, hlast, hfile, hheader, hiff⟩ :=
    finds_appendRecordOps_iff h hfits hbound hsize hadd hhash hint
  rw [hiff]
  unfold CleanCut
  rw [hlast, hpos]
  constructor
  · intro hcut
    exact ⟨length_segments_le h, file, hfile, hheader, hcut⟩
  · rintro ⟨-, file', hfile', -, hcut⟩
    cases hfile.symm.trans hfile'
    exact hcut

/-- The check after a cut behind the start of a new bucket. -/
theorem finds_rolled_iff (h : Represents g log) (hfits : log.Fits bucketSize bound)
    (hbound : bound < 2 ^ 31) {blob : WritingBlob} {lastModified : UInt64}
    (hsize : blob.size < 2 ^ 32)
    (hone : bucketSize [recordOf blob lastModified hsize] ≤ bound)
    (hhash : Hashed env.hash (log.items ++ [recordOf blob lastModified hsize])) {g1 : Glacier}
    (hrun : runOps (createNextBucketOps g.ctx) g = (.ok, g1))
    (hint : Interrupted (appendRecordOps bucketHeaderSize blob lastModified) g1 g') :
    Finds env ⟨g'.dir, some g'.db⟩ log.items ↔ CleanCut g blob g'.dir := by
  have h1 := (represents_roll h hrun).1
  have hne : log.roll.segments.length ≠ g.ctx.currentBucketIndex := by
    rw [h.currentBucketIndex, SegLog.length_segments]
    exact Nat.succ_ne_self _
  have hpos : g1.ctx.currentBucketPos = bucketHeaderSize := h1.currentBucketPos
  rw [← hpos] at hint
  rw [← log.roll_items] at hhash ⊢
  have hnil : bucketSize [] ≤ bound := Nat.le_trans (Nat.le_add_right _ _) hone
  exact finds_iff_cleanCut h1 (hfits.roll hnil) hbound hsize hone hhash (if_neg hne) hint

/-- The check after a cut in the start of a new bucket. -/
theorem finds_newBucket_iff (h : Represents g log) (hfits : log.Fits bucketSize bound)
    (hbound : bound < 2 ^ 31) (hhash : Hashed env.hash log.items) (hfilled : log.roll.Filled)
    (blob : WritingBlob) {m : Nat} (hm : m ≤ bucketHeaderSize) :
    Finds env ⟨g.dir.put (log.segments.length + 1) ((bucketFile []).take m), some g.db⟩ log.items ↔
      CleanCut g blob (g.dir.put (log.segments.length + 1) ((bucketFile []).take m)) := by
  have hlast := moveToLastBucket_new h ((bucketFile []).take m)
  have hlen : ((bucketFile []).take m).length = m := by
    rw [List.length_take, length_bucketFile]
    exact Nat.min_eq_left hm
  have hcut : CleanCut g blob (g.dir.put (log.segments.length + 1) ((bucketFile []).take m)) ↔
      log.segments.length + 1 ≤ 2 ^ 32 ∧ m = bucketHeaderSize := by
    have hheader : 0 < bucketBlobHeaderSize := by decide
    unfold CleanCut
    rw [hlast, h.currentBucketIndex, if_neg (Nat.succ_ne_self _), BucketDir.put_file_self]
    constructor
    · rintro ⟨hle, file, hfile, hheader, -⟩
      cases hfile
      exact ⟨hle, by omega⟩
    · rintro ⟨hle, hfull⟩
      exact ⟨hle, _, rfl, by omega, by omega⟩
  rw [hcut]
  rcases Nat.lt_or_eq_of_le hm with hshort | rfl
  · refine iff_of_false (fun hfinds => ?_) (by omega)
    have hbad : ∀ m < bucketHeaderSize, validateBucketMagicNumber ((bucketFile []).take m) = false ∨
      readBucketEndOffset ((bucketFile []).take m) = none := by decide
    have hfile := BucketDir.put_file_self g.dir (log.segments.length + 1) ((bucketFile []).take m)
    have herr : (quickCheckGlacier env
        ⟨g.dir.put (log.segments.length + 1) ((bucketFile []).take m), some g.db⟩).1 = .error :=
      quickCheck_error env (by rw [hlast]; exact Nat.succ_ne_zero _) (by rw [hlast]; exact hfile)
        (hbad m hshort)
    cases hfinds.1.symm.trans herr
  · have hwhole : (bucketFile []).take bucketHeaderSize = bucketFile [] := by decide
    rw [hwhole]
    rcases Nat.lt_or_eq_of_le (length_segments_le h) with hlt | heq
    · exact iff_of_true (finds_newBucket h hfits hbound hhash hlt) ⟨hlt, rfl⟩
    · exact iff_of_false (not_finds_newBucket h hfits hbound hfilled heq) (by omega)

end Cut

theorem recovered_iff_finds {env : GlacierEnv} {disk : Disk} {log : SegLog Record}
    {steps : List AppendStep} (h : Holds log steps) :
    Recovered env disk steps ↔ Finds env disk log.items := by
  have hiff : (∀ s ∈ steps, IndexedAt (quickCheckGlacier env disk).2 s.blob.key s.blob.body) ↔
      ∀ r ∈ log.items, IndexedAt (quickCheckGlacier env disk).2 r.key r.body := by
    have hmap := congrArg
      (fun l => ∀ p ∈ l, IndexedAt (quickCheckGlacier env disk).2 p.1 p.2) h
    simp only [List.forall_mem_map] at hmap
    exact Iff.of_eq hmap.symm
  exact and_congr_right fun _ => hiff

theorem holds_add {log : SegLog Record} {steps : List AppendStep} (h : Holds log steps)
    {s : AppendStep} (hsize : s.blob.size < 2 ^ 32) :
    Holds (log.add (recordOf s.blob s.lastModified hsize)) (steps ++ [s]) := by
  rw [Holds, SegLog.add_items, List.map_append, List.map_append, h]
  rfl

theorem hashed_of_holds {hash : Bytes → BlobRef} {log : SegLog Record} {steps : List AppendStep}
    (h : Holds log steps) (hhash : ContentHashed hash steps) : Hashed hash log.items := by
  constructor
  · intro r hr
    obtain ⟨s, hs, hkey, hbody⟩ := exists_step_of_mem h hr
    rw [← hkey, ← hbody]
    exact hhash.1 s hs
  · intro r hr r' hr' heq
    obtain ⟨s, hs, hkey, hbody⟩ := exists_step_of_mem h hr
    obtain ⟨s', hs', hkey', hbody'⟩ := exists_step_of_mem h hr'
    rw [← hbody, ← hbody']
    exact hhash.2 s hs s' hs' (by rw [hkey, hkey', heq])

end RecoveryLemmas

open AppendLemmas CrashLemmas RecoveryLemmas

/-- After a crash in an append the check passes and has the blobs of the earlier
appends, if and only if the cut is a clean one. -/
theorem crash_recovery_iff (env : GlacierEnv) (maxBucketSize : Nat) (hmax : maxBucketSize < 2 ^ 31)
    (steps : List AppendStep)
    (hok : Along (nextGlacier maxBucketSize) (Appended maxBucketSize) emptyGlacier steps)
    (s : AppendStep) (hhash : ContentHashed env.hash (steps ++ [s])) (crashed : Glacier)
    (hcrash : Interrupted
      (callsOfAppend maxBucketSize (exec (nextGlacier maxBucketSize) emptyGlacier steps) s)
      (exec (nextGlacier maxBucketSize) emptyGlacier steps) crashed) :
    Recovered env ⟨crashed.dir, some crashed.db⟩ steps ↔
      CleanCut (exec (nextGlacier maxBucketSize) emptyGlacier steps) s.blob crashed.dir := by
  obtain ⟨log, h, hfits, hfilled, hholds⟩ := represents_run hmax hok
  generalize exec (nextGlacier maxBucketSize) emptyGlacier steps = g at h hcrash ⊢
  rw [recovered_iff_finds hholds]
  have hbound : max maxBucketSize bucketHeaderSize < 2 ^ 31 := Nat.max_lt.mpr ⟨hmax, by decide⟩
  have hold : Hashed env.hash log.items := hashed_of_holds hholds
    ⟨fun s hs => hhash.1 s (List.mem_append_left _ hs), fun s hs s' hs' =>
      hhash.2 s (List.mem_append_left _ hs) s' (List.mem_append_left _ hs')⟩
  have hunchanged : Finds env ⟨g.dir, some g.db⟩ log.items ↔ CleanCut g s.blob g.dir :=
    iff_of_true (finds_represents h hfits hbound hold) (cleanCut_represents h hfits hbound s.blob)
  unfold callsOfAppend at hcrash
  cases hops : appendOps maxBucketSize g.ctx s.blob s.lastModified with
  | none =>
    rw [hops] at hcrash
    cases hcrash
    exact hunchanged
  | some ops =>
    rw [hops, Option.getD_some] at hcrash
    obtain ⟨hmin, heq⟩ := appendOps_eq hops
    have hle : maxBucketSize ≤ max maxBucketSize bucketHeaderSize := Nat.le_max_left _ _
    have hsize : s.blob.size < 2 ^ 32 := by omega
    have hend (rs : List Record) : bucketSize (rs ++ [recordOf s.blob s.lastModified hsize]) =
        bucketSize rs + (bucketBlobHeaderSize + s.blob.size) := bucketSize_recordOf rs hsize
    have hnew : Hashed env.hash (log.items ++ [recordOf s.blob s.lastModified hsize]) := by
      rw [← SegLog.add_items]
      exact hashed_of_holds (holds_add hholds hsize) hhash
    rw [h.currentBucketPos] at heq
    split at heq
    · next hfull =>
      rw [heq] at hcrash
      have hfile : g.dir.file (log.segments.length + 1) = none := by
        rw [h.file, List.getElem?_eq_none (Nat.le_refl _)]
        rfl
      have hroll : log.roll.Filled := hfilled.roll fun hempty => by
        rw [hempty] at hfull
        exact absurd hmin (Nat.not_le.mpr hfull)
      have hone : bucketSize [recordOf s.blob s.lastModified hsize] ≤
          max maxBucketSize bucketHeaderSize := Nat.le_trans ((hend []).trans_le hmin) hle
      rcases interrupted_append hcrash with hcut | ⟨g1, hrun, hrest⟩
      · rcases interrupted_createNextBucketOps h.currentBucketIndex hfile hcut with
          ⟨hdir, hdb⟩ | ⟨m, hm, hdir, hdb⟩ | hrun
        · rw [hdir, hdb]
          exact hunchanged
        · rw [hdir, hdb]
          exact finds_newBucket_iff h hfits hbound hold hroll s.blob hm
        · exact finds_rolled_iff h hfits hbound hsize hone hnew hrun (.stop _ _)
      · exact finds_rolled_iff h hfits hbound hsize hone hnew hrun hrest
    · next hroom =>
      rw [heq, ← h.currentBucketPos] at hcrash
      exact finds_iff_cleanCut h hfits hbound hsize (by rw [hend]; omega) hnew
        (by rw [h.currentBucketIndex, if_pos rfl, h.currentBucketPos]) hcrash

/-- A glacier with the empty blob. -/
def sampleGlacier : Glacier :=
  exec (nextGlacier (1024 * 1024 * 1024)) emptyGlacier [⟨emptyBlob, 5⟩]

/-- The glacier after `n` bytes of the header of "x". -/
def cutGlacier (n : Nat) : Glacier :=
  (writeCurrentBucket sampleGlacier 49
    ((blobHeader letterBlob.key (UInt8.ofInt letterBlob.flags) 6 letterBlob.size).take n)).2

theorem interrupted_cutGlacier (n : Nat) :
    Interrupted (callsOfAppend (1024 * 1024 * 1024) sampleGlacier ⟨letterBlob, 6⟩) sampleGlacier
      (cutGlacier n) :=
  .torn _ _ n _ _

theorem contentHashed_sample : ContentHashed sampleHash [⟨emptyBlob, 5⟩, ⟨letterBlob, 6⟩] := by
  unfold ContentHashed
  decide +kernel

/-- A cut in the header of "x". -/
theorem crash_recovery_torn :
    Recovered (.inOrder sampleHash) ⟨(cutGlacier 10).dir, some (cutGlacier 10).db⟩
      [⟨emptyBlob, 5⟩] := by
  refine (crash_recovery_iff (.inOrder sampleHash) (1024 * 1024 * 1024) (by decide)
    [⟨emptyBlob, 5⟩] (by decide +kernel) ⟨letterBlob, 6⟩ contentHashed_sample (cutGlacier 10)
    (interrupted_cutGlacier 10)).mpr ?_
  have hlast : moveToLastBucket (cutGlacier 10).dir = 1 := by decide +kernel
  have hlen : ((cutGlacier 10).dir.file 1).map List.length = some 59 := by decide +kernel
  obtain ⟨file, hfile, hlen⟩ := Option.map_eq_some_iff.mp hlen
  unfold CleanCut
  rw [hlast]
  refine ⟨by decide, file, hfile, by rw [hlen]; decide, ?_⟩
  rw [hlen]
  decide +kernel

/-- A cut between the header and the body of "x". -/
theorem crash_unrecovered :
    Along (nextGlacier (1024 * 1024 * 1024)) (Appended (1024 * 1024 * 1024)) emptyGlacier
        [⟨emptyBlob, 5⟩] ∧
      ContentHashed sampleHash [⟨emptyBlob, 5⟩, ⟨letterBlob, 6⟩] ∧
      Interrupted (callsOfAppend (1024 * 1024 * 1024) (exec (nextGlacier (1024 * 1024 * 1024))
        emptyGlacier [⟨emptyBlob, 5⟩]) ⟨letterBlob, 6⟩)
        (exec (nextGlacier (1024 * 1024 * 1024)) emptyGlacier [⟨emptyBlob, 5⟩]) (cutGlacier 42) ∧
      ¬ Recovered (.inOrder sampleHash) ⟨(cutGlacier 42).dir, some (cutGlacier 42).db⟩
        [⟨emptyBlob, 5⟩] := by
  refine ⟨by decide +kernel, contentHashed_sample, interrupted_cutGlacier 42, ?_⟩
  rintro ⟨hok, -⟩
  have hpanic : (quickCheckGlacier (.inOrder sampleHash)
      ⟨(cutGlacier 42).dir, some (cutGlacier 42).db⟩).1 = .noReturn := by decide +kernel
  cases hok.symm.trans hpanic

end Everarch