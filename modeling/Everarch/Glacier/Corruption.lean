import Everarch.Glacier.Rebuild

/-!
# One changed byte

`evr_glacier_reindex_bucket` over a bucket in which one byte behind the bucket header has
been changed.

* `checksum_set`: the checksum of a blob header shows every change of one byte.
* `exec_reindexVisitBlob_rows`: the rows of records whose bodies have been read.
* `reindexed_header`, `reindexed_body`: the change stops the walk, or costs one record.

Result: `corruption_contained`.
-/

namespace Everarch

/-- Reindexing bucket `n` into an empty index gives these rows and this end offset, in
the index and in the bucket. -/
def Reindexed (env : GlacierEnv) (dir : BucketDir) (n : Nat) (rows : List BlobPosition)
    (endOffset : Nat) : Prop :=
  ∃ dir' db' file', reindexBucket env (dir, .empty) n = (.ok, dir', db') ∧
    db'.blobPosition = rows ∧ findBucketEndOffset db' n = some (endOffset : Int) ∧
    dir'.file n = some file' ∧ readBucketEndOffset file' = some endOffset

namespace CorruptionLemmas

open BucketLemmas AppendLemmas ReindexLemmas WalkableLemmas RebuildLemmas

/-! ## The checksum -/

theorem foldl_add (b : UInt8) (bs : Bytes) :
    bs.foldl (· + ·) b = b + bs.foldl (· + ·) 0 := by
  induction bs generalizing b with
  | nil => simp
  | cons b' bs ih => rw [List.foldl_cons, ih, List.foldl_cons, ih (0 + b'), UInt8.zero_add,
      UInt8.add_assoc]

/-- Another byte gives another sum. -/
theorem foldl_add_set {bs : Bytes} {i : Nat} {b : UInt8} (hi : i < bs.length)
    (h : (bs.set i b).foldl (· + ·) 0 = bs.foldl (· + ·) 0) : bs[i]? = some b := by
  induction bs generalizing i with
  | nil => exact absurd hi (Nat.not_lt_zero _)
  | cons b' bs ih =>
    cases i with
    | zero =>
      rw [List.set_cons_zero, List.foldl_cons, List.foldl_cons, foldl_add, foldl_add (0 + b'),
        UInt8.add_left_inj, UInt8.add_right_inj] at h
      rw [h]
      rfl
    | succ i =>
      rw [List.set_cons_succ, List.foldl_cons, List.foldl_cons, foldl_add, foldl_add (0 + b'),
        UInt8.add_right_inj] at h
      exact ih (Nat.lt_of_succ_lt_succ hi) h

/-- A blob header with one byte changed has a checksum that is not valid. -/
theorem checksum_set {fields : Bytes} (hlen : fields.length = 41) {i : Nat} {b : UInt8}
    (hi : i < bucketBlobHeaderSize)
    (hne : (fields ++ [bufPos8bitChecksum fields])[i]? ≠ some b) (offset : Nat) :
    (pullBlobHeader ((fields ++ [bufPos8bitChecksum fields]).set i b) offset).checksumValid =
      false := by
  show (bufPos8bitChecksum (List.take 41 _) == _) = false
  rw [beq_eq_false_iff_ne]
  rcases Nat.lt_or_ge i 41 with hlt | hge
  · rw [List.getElem?_append_left (by omega)] at hne
    rw [List.set_append_left _ _ (by omega), List.take_left' (by rw [List.length_set]; exact hlen),
      getD_middle (List.append_nil _).symm (by rw [List.length_set]; exact hlen)]
    intro heq
    exact hne (foldl_add_set (by omega) (UInt8.not_inj.mp heq))
  · have hlast : i = fields.length := by
      have hsize : bucketBlobHeaderSize = 42 := rfl
      omega
    rw [hlast, List.getElem?_append_right (Nat.le_refl _), Nat.sub_self] at hne
    rw [hlast, List.set_append_right _ _ (Nat.le_refl _), Nat.sub_self, List.set_cons_zero,
      List.take_left' hlen, getD_middle (List.append_nil _).symm hlen]
    exact fun heq => hne (congrArg some heq)

/-! ## The rows of a walk -/

theorem addBlobToIndex_new {db : IndexDb} {p : Nat × Record}
    (h : p.2.key ∉ db.blobPosition.map (·.key)) (i : Nat) :
    addBlobToIndex db i p.2.key p.2.flags.toNat (p.1 + bucketBlobHeaderSize) p.2.body.length
        p.2.lastModified =
      { db with blobPosition := db.blobPosition ++ [rowAt i p] } := by
  have hnone : (db.blobPosition.any fun r => r.key = p.2.key) = false := by
    rw [List.any_eq_false]
    intro row hrow hkey
    exact h (List.mem_map.mpr ⟨row, hrow, of_decide_eq_true hkey⟩)
  unfold addBlobToIndex
  simp only [hnone, Bool.false_eq_true, if_false, rowAt]

theorem reindexVisitBlob_ok (hash : Bytes → BlobRef) {file : Bytes} {r : Record} {fPos : Nat}
    (hread : readAt file (fPos + bucketBlobHeaderSize) r.body.length = r.body) (i : Nat)
    (db : IndexDb) : (reindexVisitBlob hash file i db (r.stat fPos)).1 = .ok := by
  unfold reindexVisitBlob Record.stat
  simp only [Bool.not_true, Bool.false_eq_true, if_false, hread, Nat.lt_irrefl]
  split
  · rfl
  · rfl

/-- The index after a walk over records with new keys, of which those with a body that
hashes to the key get a row. -/
theorem exec_reindexVisitBlob_rows {hash : Bytes → BlobRef} {file : Bytes} {i : Nat}
    {ps : List (Nat × Record)}
    (hread : ∀ p ∈ ps, readAt file (p.1 + bucketBlobHeaderSize) p.2.body.length = p.2.body)
    (db : IndexDb) (hkeys : (db.blobPosition.map (·.key) ++ ps.map (·.2.key)).Nodup) :
    exec (fun db p => (reindexVisitBlob hash file i db (p.2.stat p.1)).2) db ps =
      { db with blobPosition := db.blobPosition ++
        (ps.filter fun p => hash p.2.body = p.2.key).map (rowAt i) } := by
  induction ps generalizing db with
  | nil => simp
  | cons p ps ih =>
    have hp := hread p List.mem_cons_self
    have hrest := fun p hp => hread p (List.mem_cons_of_mem _ hp)
    rw [List.map_cons] at hkeys
    rw [exec_cons]
    by_cases hhash : hash p.2.body = p.2.key
    · have hnew : p.2.key ∉ db.blobPosition.map (·.key) := fun hmem =>
        (List.nodup_append.mp hkeys).2.2 _ hmem _ List.mem_cons_self rfl
      have hkeys' : ((db.blobPosition ++ [rowAt i p]).map (·.key) ++ ps.map (·.2.key)).Nodup := by
        rw [List.map_append, List.append_assoc]
        exact hkeys
      rw [reindexVisitBlob_record hp hhash, List.filter_cons_of_pos (by simpa using hhash),
        addBlobToIndex_new hnew, ih hrest _ hkeys', List.append_assoc, List.singleton_append,
        List.map_cons]
    · have hskip : reindexVisitBlob hash file i db (p.2.stat p.1) = (.ok, db) := by
        unfold reindexVisitBlob Record.stat
        simp only [Bool.not_true, Bool.false_eq_true, if_false, hp, Nat.lt_irrefl, hhash, ne_eq,
          not_false_eq_true, if_true]
      rw [hskip, List.filter_cons_of_neg (by simpa using hhash)]
      exact ih hrest _ (hkeys.sublist ((List.sublist_cons_self _ _).append_left _))

theorem exec_positions_rows (hash : Bytes → BlobRef) {file : Bytes} {rs : List Record}
    (hread : ∀ p ∈ positions bucketHeaderSize rs,
      readAt file (p.1 + bucketBlobHeaderSize) p.2.body.length = p.2.body)
    (hkeys : (rs.map (·.key)).Nodup) (i : Nat) :
    exec (fun db p => (reindexVisitBlob hash file i db (p.2.stat p.1)).2) .empty
        (positions bucketHeaderSize rs) =
      ⟨((positions bucketHeaderSize rs).filter fun p => hash p.2.body = p.2.key).map (rowAt i), []⟩ :=
  exec_reindexVisitBlob_rows hread .empty
    (by rw [map_key_positions]; exact hkeys)

theorem walkBucketLoop_stopped {σ : Type} {visitBlob : σ → BlobStat → Res × σ}
    {file buf after : Bytes} {fPos passes : Nat} {st st' : σ} (hfile : file.drop fPos = buf ++ after)
    (hlen : buf.length = bucketBlobHeaderSize)
    (hvisit : visitBlob st (pullBlobHeader buf (fPos + bucketBlobHeaderSize)) = (.end_, st')) :
    walkBucketLoop visitBlob file (passes + 1) fPos st = (.end_, st') := by
  have hbuf : readAt file fPos bucketBlobHeaderSize = buf := by
    rw [readAt, hfile, List.take_left' hlen]
  have hne : buf ≠ [] := by
    rintro rfl
    cases hlen
  rw [walkBucketLoop]
  simp only [hbuf, hne, if_false, hlen, Nat.lt_irrefl, hvisit]

theorem reindexEndOffset_empty (n : Nat) (file : Bytes) (endOffset : Nat) (hlt : endOffset < 2 ^ 31)
    (dir : BucketDir) (rows : List BlobPosition) :
    ∃ db', reindexEndOffset n file endOffset dir ⟨rows, []⟩ =
        (.ok, dir.put n (writeBucketEndOffset file endOffset), db') ∧
      db'.blobPosition = rows ∧ findBucketEndOffset db' n = some (endOffset : Int) := by
  have hnat : ((endOffset : Int) % 2 ^ 64).toNat = endOffset := by omega
  have hins : insertBucket ⟨rows, []⟩ n = some ⟨rows, [⟨toInt32 n, bucketHeaderSize⟩]⟩ := rfl
  unfold reindexEndOffset
  simp only [hnat, hins]
  refine ⟨_, rfl, rfl, ?_⟩
  rw [findBucketEndOffset_update, findBucketEndOffset_insert_self hins, Option.map_some, if_pos rfl,
    toInt32_of_lt hlt]

section Reindex

variable {env : GlacierEnv} {dir : BucketDir} {n endOffset : Nat}

/-- The end of a reindex, whether the walk came to the end of the bucket or not. -/
theorem reindexed_of_walk {content : Bytes} {rows : List BlobPosition} {res : Res}
    (hlt : (bucketBytes endOffset content).length < 2 ^ 31)
    (hfile : dir.file n = some (bucketBytes endOffset content))
    (hwalk : walkBucket (reindexVisitBlob env.hash (bucketBytes endOffset content) n)
      (bucketBytes endOffset content) .empty = (res, ⟨rows, []⟩))
    (hres : res = .ok ∨ res = .end_) :
    Reindexed env dir n rows
      (if res = .ok then (bucketBytes endOffset content).length else bucketEndOffsetCorrupt) := by
  have hpos : toInt32 (bucketBytes endOffset content).length ≠ -1 := by
    rw [toInt32_of_lt hlt]
    omega
  have hbranch : reindexBucket env (dir, .empty) n = reindexEndOffset n
      (bucketBytes endOffset content) (if res = .ok then (bucketBytes endOffset content).length
        else bucketEndOffsetCorrupt : Nat) dir ⟨rows, []⟩ := by
    unfold reindexBucket
    simp only [hfile, validate_bucketBytes, Bool.not_true, Bool.false_eq_true, if_false, hwalk]
    rcases hres with rfl | rfl
    · simp only [if_true, hpos, if_false]
      rw [toInt32_of_lt hlt]
    · simp only [reduceCtorEq, if_false]
  have hend : (if res = .ok then (bucketBytes endOffset content).length
      else bucketEndOffsetCorrupt) < 2 ^ 31 := by
    split
    · exact hlt
    · decide
  generalize (if res = .ok then (bucketBytes endOffset content).length
    else bucketEndOffsetCorrupt) = newEnd at hbranch hend ⊢
  obtain ⟨db', heq, hrows, hfind⟩ := reindexEndOffset_empty n (bucketBytes endOffset content) newEnd
    hend dir rows
  refine ⟨_, db', _, hbranch.trans heq, hrows, hfind, BucketDir.put_file_self _ _ _, ?_⟩
  rw [writeBucketEndOffset_bucketBytes]
  exact readBucketEndOffset_bucketBytes (by omega) content

/-- A blob header with a checksum that is not valid: the records before it are kept. -/
theorem reindexed_header {before : List Record} {buf after : Bytes}
    (hlt : (bucketBytes endOffset (recordsBytes before ++ (buf ++ after))).length < 2 ^ 31)
    (hfile : dir.file n = some (bucketBytes endOffset (recordsBytes before ++ (buf ++ after))))
    (hhash : ∀ r ∈ before, env.hash r.body = r.key) (hkeys : (before.map (·.key)).Nodup)
    (hlen : buf.length = bucketBlobHeaderSize)
    (hinvalid : ∀ offset, (pullBlobHeader buf offset).checksumValid = false) :
    Reindexed env dir n ((positions bucketHeaderSize before).map (rowAt n))
      bucketEndOffsetCorrupt := by
  have hread : ∀ p ∈ positions bucketHeaderSize before,
      readAt (bucketBytes endOffset (recordsBytes before ++ (buf ++ after)))
        (p.1 + bucketBlobHeaderSize) p.2.body.length = p.2.body :=
    fun p hp => (readAt_position endOffset (buf ++ after) hp).1
  have hmatch : ∀ p ∈ positions bucketHeaderSize before, env.hash p.2.body = p.2.key :=
    fun p hp => hhash p.2 (mem_of_mem_positions hp)
  have hexec := exec_positions_rows env.hash hread hkeys n
  rw [List.filter_eq_self.mpr fun p hp => decide_eq_true (hmatch p hp)] at hexec
  obtain ⟨passes, hwalk⟩ := walkBucket_records endOffset (buf ++ after) .empty
    fun st p hp => reindexVisitBlob_ok env.hash (hread p hp) n st
  rw [hexec, walkBucketLoop_stopped (by rw [drop_bucketBytes, List.drop_left]) hlen] at hwalk
  · exact reindexed_of_walk hlt hfile hwalk (.inr rfl)
  · unfold reindexVisitBlob
    simp only [hinvalid, Bool.not_false, if_true]

/-- A body that does not hash to its key: the other records are kept. -/
theorem reindexed_body {before after : List Record} {r : Record}
    (hlt : (bucketBytes endOffset (recordsBytes (before ++ r :: after))).length < 2 ^ 31)
    (hfile : dir.file n = some (bucketBytes endOffset (recordsBytes (before ++ r :: after))))
    (hhash : ∀ r ∈ before ++ after, env.hash r.body = r.key)
    (hkeys : ((before ++ r :: after).map (·.key)).Nodup) (hne : env.hash r.body ≠ r.key) :
    Reindexed env dir n ((positions bucketHeaderSize before ++
        positions (bucketSize (before ++ [r])) after).map (rowAt n))
      (bucketBytes endOffset (recordsBytes (before ++ r :: after))).length := by
  have hpositions : positions bucketHeaderSize (before ++ r :: after) =
      positions bucketHeaderSize before ++ (bucketSize before, r) ::
        positions (bucketSize (before ++ [r])) after := by
    rw [positions_append, positions, bucketSize_append, ← length_bytes]
    rfl
  have hread : ∀ p ∈ positions bucketHeaderSize (before ++ r :: after),
      readAt (bucketBytes endOffset (recordsBytes (before ++ r :: after)))
        (p.1 + bucketBlobHeaderSize) p.2.body.length = p.2.body := by
    intro p hp
    have hpos := (readAt_position endOffset [] hp).1
    rw [List.append_nil] at hpos
    exact hpos
  have hexec := exec_positions_rows env.hash hread hkeys n
  have hfilter : (positions bucketHeaderSize (before ++ r :: after)).filter
      (fun p => env.hash p.2.body = p.2.key) =
      positions bucketHeaderSize before ++ positions (bucketSize (before ++ [r])) after := by
    rw [hpositions, List.filter_append, List.filter_cons_of_neg (by simpa using hne),
      List.filter_eq_self.mpr, List.filter_eq_self.mpr]
    · intro p hp
      exact decide_eq_true (hhash p.2 (List.mem_append_right _ (mem_of_mem_positions hp)))
    · intro p hp
      exact decide_eq_true (hhash p.2 (List.mem_append_left _ (mem_of_mem_positions hp)))
  have hwalk : walkBucket (reindexVisitBlob env.hash
      (bucketBytes endOffset (recordsBytes (before ++ r :: after))) n)
      (bucketBytes endOffset (recordsBytes (before ++ r :: after) ++ [])) .empty = _ :=
    walkBucket_torn (fun st p hp => reindexVisitBlob_ok env.hash (hread p hp) n st) (by decide)
  rw [List.append_nil, hexec, hfilter] at hwalk
  exact reindexed_of_walk hlt hfile hwalk (.inl rfl)

end Reindex

/-! ## The changed byte -/

/-- Every byte behind the bucket header is one of a record. -/
theorem exists_record_at {rs : List Record} {offset : Nat} (hge : bucketHeaderSize ≤ offset)
    (hlt : offset < bucketSize rs) :
    ∃ before r after, rs = before ++ r :: after ∧ bucketSize before ≤ offset ∧
      offset < bucketSize (before ++ [r]) := by
  induction rs using List.reverseRecOn with
  | nil => exact absurd hlt (Nat.not_lt.mpr hge)
  | append_singleton rs r ih =>
    rcases Nat.lt_or_ge offset (bucketSize rs) with hin | hout
    · obtain ⟨before, r', after, rfl, hbefore, hr'⟩ := ih hin
      exact ⟨before, r', after ++ [r], by simp, hbefore, hr'⟩
    · exact ⟨rs, r, [], rfl, hout, hlt⟩

theorem nodup_keys {log : SegLog Record} {steps : List AppendStep} (h : Holds log steps)
    (hdistinct : (steps.map (·.blob.key)).Nodup) {rs : List Record} (hrs : rs ∈ log.segments) :
    (rs.map (·.key)).Nodup := by
  have hkeys : log.items.map (·.key) = steps.map (·.blob.key) := map_key_of_holds h
  rw [← hkeys] at hdistinct
  exact hdistinct.sublist ((List.sublist_flatten_of_mem hrs).map _)

theorem bucketFile_split (before : List Record) (r : Record) (after : List Record) :
    bucketFile (before ++ r :: after) =
      bucketBytes (bucketSize (before ++ r :: after)) (recordsBytes before) ++
        (blobHeader r.key r.flags r.lastModified r.body.length ++ (r.body ++ recordsBytes after)) := by
  unfold bucketFile bucketBytes bucketSize
  simp [recordsBytes, Record.bytes]

theorem set_header (before : List Record) (r : Record) (after : List Record) {j : Nat}
    (hj : j < bucketBlobHeaderSize) (b : UInt8) :
    (bucketFile (before ++ r :: after)).set (bucketSize before + j) b =
      bucketBytes (bucketSize (before ++ r :: after)) (recordsBytes before ++
        ((blobHeader r.key r.flags r.lastModified r.body.length).set j b ++
          (r.body ++ recordsBytes after))) := by
  have hlen : (bucketBytes (bucketSize (before ++ r :: after)) (recordsBytes before)).length =
    bucketSize before := length_bucketBytes _ _
  rw [bucketFile_split, List.set_append_right _ _ (by omega), hlen, Nat.add_sub_cancel_left,
    List.set_append_left _ _ (by rw [length_blobHeader]; exact hj), bucketBytes, bucketBytes,
    List.append_assoc _ (recordsBytes before)]

theorem getElem?_header (before : List Record) (r : Record) (after : List Record) {j : Nat}
    (hj : j < bucketBlobHeaderSize) :
    (bucketFile (before ++ r :: after))[bucketSize before + j]? =
      (blobHeader r.key r.flags r.lastModified r.body.length)[j]? := by
  have hlen : (bucketBytes (bucketSize (before ++ r :: after)) (recordsBytes before)).length =
    bucketSize before := length_bucketBytes _ _
  rw [bucketFile_split, List.getElem?_append_right (by omega), hlen, Nat.add_sub_cancel_left,
    List.getElem?_append_left (by rw [length_blobHeader]; exact hj)]

/-- The record with another byte in its body. -/
def setBody (r : Record) (j : Nat) (b : UInt8) : Record where
  key := r.key
  flags := r.flags
  lastModified := r.lastModified
  body := r.body.set j b
  lastModified_lt := r.lastModified_lt
  size_lt := by
    rw [List.length_set]
    exact r.size_lt

theorem set_body (before : List Record) (r : Record) (after : List Record) {j : Nat}
    (hj : j < r.body.length) (b : UInt8) :
    (bucketFile (before ++ r :: after)).set (bucketSize before + bucketBlobHeaderSize + j) b =
      bucketBytes (bucketSize (before ++ r :: after))
        (recordsBytes (before ++ setBody r j b :: after)) := by
  have hlen : (bucketBytes (bucketSize (before ++ r :: after)) (recordsBytes before)).length =
    bucketSize before := length_bucketBytes _ _
  have hbytes : recordsBytes (before ++ setBody r j b :: after) = recordsBytes before ++
      (blobHeader r.key r.flags r.lastModified r.body.length ++
        (r.body.set j b ++ recordsBytes after)) := by
    simp [recordsBytes, Record.bytes, setBody]
  rw [bucketFile_split, List.set_append_right _ _ (by omega), hlen, Nat.add_assoc,
    Nat.add_sub_cancel_left, List.set_append_right _ _ (by rw [length_blobHeader]; omega),
    length_blobHeader, Nat.add_sub_cancel_left, List.set_append_left _ _ hj, hbytes, bucketBytes,
    bucketBytes, List.append_assoc _ (recordsBytes before)]

end CorruptionLemmas

open AppendLemmas WalkableLemmas RebuildLemmas CorruptionLemmas BucketLemmas

/-- One changed byte in a bucket of blobs with different keys: in a blob header it hides this
blob and those behind it, and marks the bucket; in a body it hides this blob only. -/
theorem corruption_contained (env : GlacierEnv) (maxBucketSize : Nat)
    (hmax : maxBucketSize < 2 ^ 31) (steps : List AppendStep)
    (hok : Along (nextGlacier maxBucketSize) (Appended maxBucketSize) emptyGlacier steps)
    (hhash : ∀ s ∈ steps, env.hash s.blob.body = s.blob.key)
    (hdistinct : (steps.map (·.blob.key)).Nodup) :
    ∃ log, Represents (exec (nextGlacier maxBucketSize) emptyGlacier steps) log ∧
      Holds log steps ∧ ∀ i rs, log.segments[i]? = some rs →
        ∀ offset b, bucketHeaderSize ≤ offset → offset < (bucketFile rs).length →
        (bucketFile rs)[offset]? ≠ some b →
        ∃ before r after, rs = before ++ r :: after ∧ bucketSize before ≤ offset ∧
          offset < bucketSize (before ++ [r]) ∧
          (offset < bucketSize before + bucketBlobHeaderSize →
            Reindexed env ((exec (nextGlacier maxBucketSize) emptyGlacier steps).dir.put (i + 1)
                ((bucketFile rs).set offset b)) (i + 1)
              ((positions bucketHeaderSize before).map (rowAt (i + 1))) bucketEndOffsetCorrupt) ∧
          (bucketSize before + bucketBlobHeaderSize ≤ offset →
            env.hash (r.body.set (offset - (bucketSize before + bucketBlobHeaderSize)) b) ≠ r.key →
            Reindexed env ((exec (nextGlacier maxBucketSize) emptyGlacier steps).dir.put (i + 1)
                ((bucketFile rs).set offset b)) (i + 1)
              ((positions bucketHeaderSize before ++
                positions (bucketSize (before ++ [r])) after).map (rowAt (i + 1)))
              (bucketFile rs).length) := by
  obtain ⟨log, h, hfits, -, hholds⟩ := represents_run hmax hok
  have hbound : max maxBucketSize bucketHeaderSize < 2 ^ 31 := Nat.max_lt.mpr ⟨hmax, by decide⟩
  refine ⟨log, h, hholds, fun i rs hrs offset b hge hlt hne => ?_⟩
  have hmem := List.mem_of_getElem? hrs
  have hsize := Nat.lt_of_le_of_lt (hfits rs hmem) hbound
  have hkeys := nodup_keys hholds hdistinct hmem
  have hhashes : ∀ r ∈ rs, env.hash r.body = r.key := fun r hr =>
    hash_of_holds hholds hhash r (List.mem_flatten.mpr ⟨rs, hmem, hr⟩)
  rw [length_bucketFile] at hlt
  obtain ⟨before, r, after, rfl, hbefore, hr⟩ := exists_record_at hge hlt
  have hlen : ((bucketFile (before ++ r :: after)).set offset b).length =
      bucketSize (before ++ r :: after) := by rw [List.length_set, length_bucketFile]
  refine ⟨before, r, after, rfl, hbefore, hr, fun hheader => ?_, fun hbody hchanged => ?_⟩
  · obtain ⟨j, rfl⟩ := Nat.exists_eq_add_of_le hbefore
    have hj : j < bucketBlobHeaderSize := Nat.lt_of_add_lt_add_left hheader
    rw [set_header before r after hj] at hlen ⊢
    refine reindexed_header (hlen.trans_lt hsize) (BucketDir.put_file_self _ _ _)
      (fun r' hr' => hhashes r' (List.mem_append_left _ hr')) ?_ ?_ ?_
    · rw [List.map_append] at hkeys
      exact (List.nodup_append.mp hkeys).1
    · rw [List.length_set, length_blobHeader]
    · refine checksum_set (length_blobHeaderFields _ _ _ _) hj fun hsame => hne ?_
      rw [getElem?_header before r after hj]
      exact hsame
  · obtain ⟨j, rfl⟩ := Nat.exists_eq_add_of_le hbody
    rw [Nat.add_sub_cancel_left] at hchanged
    have hj : j < r.body.length := by
      rw [bucketSize_append] at hr
      omega
    have hsame : bucketSize (before ++ [setBody r j b]) = bucketSize (before ++ [r]) := by
      rw [bucketSize_append, bucketSize_append, setBody, List.length_set]
    rw [length_bucketFile, ← hlen, ← hsame]
    rw [set_body before r after hj] at hlen ⊢
    refine reindexed_body (hlen.trans_lt hsize) (BucketDir.put_file_self _ _ _) ?_ ?_ hchanged
    · intro r' hr'
      rcases List.mem_append.mp hr' with hleft | hright
      · exact hhashes r' (List.mem_append_left _ hleft)
      · exact hhashes r' (List.mem_append_right _ (List.mem_cons_of_mem _ hright))
    · rw [List.map_append, List.map_cons] at hkeys ⊢
      exact hkeys

/-- The first byte of a bucket with two blobs, which is one of the key of the first. -/
theorem corruption_contained_two :
    ∃ rs before r after, (exec (nextGlacier (1024 * 1024 * 1024)) emptyGlacier
        [⟨emptyBlob, 5⟩, ⟨letterBlob, 6⟩]).dir.file 1 = some (bucketFile rs) ∧
      rs = before ++ r :: after ∧ bucketSize before ≤ bucketHeaderSize ∧
      Reindexed (.inOrder sampleHash) ((exec (nextGlacier (1024 * 1024 * 1024)) emptyGlacier
          [⟨emptyBlob, 5⟩, ⟨letterBlob, 6⟩]).dir.put 1 ((bucketFile rs).set bucketHeaderSize 0)) 1
        ((positions bucketHeaderSize before).map (rowAt 1)) bucketEndOffsetCorrupt := by
  obtain ⟨log, h, -, hcontained⟩ := corruption_contained (.inOrder sampleHash) (1024 * 1024 * 1024)
    (by decide) [⟨emptyBlob, 5⟩, ⟨letterBlob, 6⟩] (by decide +kernel) (by decide +kernel)
    (by decide +kernel)
  obtain ⟨rs, hrs⟩ : ∃ rs, log.segments[0]? = some rs :=
    ⟨_, List.getElem?_eq_getElem (by rw [log.length_segments]; exact Nat.succ_pos _)⟩
  have hfile := h.file 0
  rw [hrs, Option.map_some] at hfile
  have hlen : ((exec (nextGlacier (1024 * 1024 * 1024)) emptyGlacier
      [⟨emptyBlob, 5⟩, ⟨letterBlob, 6⟩]).dir.file (0 + 1)).map (fun file =>
        (file.length, file[bucketHeaderSize]?)) = some (92, some 0x6b) := by decide +kernel
  rw [hfile, Option.map_some, Option.some.injEq, Prod.mk.injEq] at hlen
  obtain ⟨before, r, after, hsplit, hbefore, -, hheader, -⟩ := hcontained 0 rs hrs bucketHeaderSize 0
    (Nat.le_refl _) (by rw [hlen.1]; decide) (by rw [hlen.2]; decide)
  refine ⟨rs, before, r, after, hfile, hsplit, hbefore, hheader ?_⟩
  exact Nat.lt_of_lt_of_le (by decide : bucketHeaderSize < bucketHeaderSize + bucketBlobHeaderSize)
    (Nat.add_le_add_right (Nat.le_add_right _ _) _)

end Everarch
