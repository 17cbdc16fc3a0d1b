import Everarch.Glacier.Rebuild

/-!
# An index with wrong rows

`evr_quick_check_glacier` on the buckets of appended blobs with any rows in
`blob_position`. The first row that is wrong decides: if its key is no ref, or if its bytes can
be read, so that their hash shows it, the index is rebuilt. If they cannot be read the check
does not return.

* `checkBlobs_find?`: the verdict of `evr_glacier_check_blobs`.

Result: `wrong_index_rebuilt_iff`; `wrong_index_endless`: a row that ends behind its
bucket.
-/

namespace Everarch

/-- The row as one of a blob, none if its key is no ref. -/
def StoredPosition.position (row : StoredPosition) : Option BlobPosition :=
  (columnRef row.key).map fun ref => ⟨ref, row.flags, row.bucketIndex, row.bucketBlobOffset,
    row.blobSize, row.lastModified⟩

/-- The row does not name bytes that hash to its key. -/
def Wrong (hash : Bytes → BlobRef) (dir : BucketDir) (row : StoredPosition) : Prop :=
  ∀ p ∈ row.position, (rowBytes dir p).map hash ≠ some p.key

instance (hash : Bytes → BlobRef) (dir : BucketDir) (row : StoredPosition) :
    Decidable (Wrong hash dir row) :=
  inferInstanceAs (Decidable (∀ p ∈ row.position, _))

/-- The rows with the latest `last_modified`. -/
def latestRows (env : GlacierEnv) (db : IndexDb) (others : List StoredPosition) :
    List StoredPosition :=
  (env.latest (db.blobPosition.map BlobPosition.stored ++ others)).take 1024

/-- If one of the latest rows is wrong, the check returns `evr_ok` with the index of the
appended blobs. -/
def RebuiltIfWrong (env : GlacierEnv) (dir : BucketDir) (db : IndexDb)
    (others : List StoredPosition) (steps : List AppendStep) : Prop :=
  (∃ row ∈ latestRows env db others, Wrong env.hash dir row) →
    ∃ dir' db', quickCheckGlacierWith others env ⟨dir, some db⟩ = (.ok, ⟨dir', some db'⟩) ∧
      IndexesExactly dir' db' steps

/-- The first of the latest rows that is wrong names bytes of a bucket, or its key is no ref. -/
def FirstWrongReadable (env : GlacierEnv) (dir : BucketDir) (db : IndexDb)
    (others : List StoredPosition) : Prop :=
  ∀ row, (latestRows env db others).find? (fun row => Wrong env.hash dir row) = some row →
    ∀ p ∈ row.position, (rowBytes dir p).isSome

namespace WrongIndexLemmas

open BucketLemmas AppendLemmas ReindexLemmas WalkableLemmas RebuildLemmas

/-- Behind the end of the file the loop goes on without reading anything. -/
theorem readBlobLoop_endless {file : Bytes} {passes offset remaining : Nat} {ctx : BlobCheckCtx}
    (hpos : 0 < remaining) (hlt : file.length < offset + remaining) :
    (readBlobLoop blobCheckData file passes offset remaining ctx).1 = .noReturn := by
  induction passes generalizing offset remaining ctx with
  | zero => rfl
  | succ passes ih =>
    have hbuf : (readAt file offset (min readBufferSize remaining)).length ≤ remaining ∧
        (readAt file offset (min readBufferSize remaining)).length ≤ file.length - offset := by
      simp only [readAt, List.length_take, List.length_drop]
      omega
    unfold readBlobLoop
    simp only [Nat.ne_of_gt hpos, if_false, blobCheckData]
    exact ih (by omega) (by omega)

theorem position_stored (row : BlobPosition) : row.stored.position = some row := by
  rw [StoredPosition.position, BlobPosition.stored, columnRef_toList]
  rfl

section Check

variable {env : GlacierEnv} {dir : BucketDir} {db : IndexDb}

/-- A row that names no bytes makes the reader fail or run forever. -/
theorem readBlob_of_rowBytes_none {row : BlobPosition}
    (hmagic : ∀ i file, dir.file i = some file → validateBucketMagicNumber file = true)
    (hfind : (db.blobPosition.find? fun r => r.key = row.key) = some row)
    (h : rowBytes dir row = none) :
    ∃ res ctx, (res = .error ∨ res = .noReturn) ∧
      readBlob blobCheckData blobCheckStatus dir db row.key
        ⟨toInt32 row.flags, columnSize row.blobSize, .error, []⟩ = (res, ctx) := by
  unfold rowBytes at h
  unfold readBlob
  simp only [hfind]
  cases hfile : dir.file (row.bucketIndex % 2 ^ 64).toNat with
  | none => exact ⟨_, _, .inl rfl, rfl⟩
  | some file =>
    rw [hfile] at h
    simp only [hmagic _ file hfile, Bool.not_true, Bool.false_eq_true, if_false] at h ⊢
    by_cases hneg : toInt32 row.bucketBlobOffset < 0
    · exact ⟨_, _, .inl rfl, by rw [if_pos hneg]⟩
    · have hout : ¬ (columnSize row.blobSize = 0 ∨
          columnSize row.bucketBlobOffset + columnSize row.blobSize ≤ file.length) := by
        intro hin
        rw [if_pos ⟨Int.not_lt.mp hneg, hin⟩] at h
        cases h
      rw [not_or] at hout
      rw [if_neg hneg]
      simp only [blobCheckStatus, Bool.not_true, ne_eq, not_true_eq_false, decide_false,
        Bool.or_self, Bool.false_eq_true, if_false]
      exact ⟨.noReturn, _, .inr rfl, Prod.ext
        (readBlobLoop_endless (Nat.pos_of_ne_zero hout.1) (Nat.not_le.mp hout.2)) rfl⟩

/-- The verdict over some rows of the index. -/
theorem checkBlobs_find?
    (hmagic : ∀ i file, dir.file i = some file → validateBucketMagicNumber file = true)
    (hkeys : (db.blobPosition.map (·.key)).Nodup) {rows : List StoredPosition}
    (hrows : ∀ row ∈ rows, row ∈ db.blobPosition.map BlobPosition.stored ∨
      columnRef row.key = none) {row : StoredPosition}
    (h : rows.find? (fun row => Wrong env.hash dir row) = some row) :
    ((∀ p ∈ row.position, (rowBytes dir p).isSome) →
      checkBlobs env dir db rows = .glacierIndexDbCorrupt) ∧
    ((∃ p ∈ row.position, rowBytes dir p = none) →
      checkBlobs env dir db rows = .error ∨ checkBlobs env dir db rows = .noReturn) := by
  induction rows with
  | nil => cases h
  | cons row' rows ih =>
    have hrest : ∀ row ∈ rows, row ∈ db.blobPosition.map BlobPosition.stored ∨
        columnRef row.key = none := fun _ hmem => hrows _ (List.mem_cons_of_mem _ hmem)
    rcases hrows row' List.mem_cons_self with hstored | hother
    · obtain ⟨p, hp, rfl⟩ := List.mem_map.mp hstored
      have hfind := find?_key hkeys hp
      have hwrong : Wrong env.hash dir p.stored ↔ (rowBytes dir p).map env.hash ≠ some p.key := by
        rw [Wrong, position_stored]
        exact ⟨fun h => h p rfl, fun h p' hp' => Option.some.inj hp' ▸ h⟩
      simp only [checkBlobs, BlobPosition.stored, columnRef_toList]
      cases hbytes : rowBytes dir p with
      | none =>
        rw [List.find?_cons_of_pos (by simp [hwrong, hbytes])] at h
        cases h
        obtain ⟨res, ctx, hres, hread⟩ := readBlob_of_rowBytes_none hmagic hfind hbytes
        rw [hread]
        refine ⟨fun hsome => ?_, fun _ => ?_⟩
        · have hp := hsome p (position_stored p)
          rw [hbytes] at hp
          cases hp
        · rcases hres with rfl | rfl
          · exact .inl rfl
          · exact .inr rfl
      | some bytes =>
        simp only [readBlob_of_rowBytes hmagic hfind hbytes, reduceCtorEq, ne_eq,
          not_true_eq_false, if_false]
        by_cases hhash : env.hash bytes = p.key
        · rw [List.find?_cons_of_neg (by simp [hwrong, hbytes, hhash])] at h
          rw [if_neg (fun hne => hne hhash)]
          exact ih hrest h
        · rw [List.find?_cons_of_pos (by simp [hwrong, hbytes, hhash])] at h
          cases h
          rw [if_pos hhash]
          refine ⟨fun _ => rfl, ?_⟩
          rintro ⟨p', hp', hnone⟩
          obtain rfl := Option.some.inj ((position_stored p).symm.trans hp')
          rw [hbytes] at hnone
          cases hnone
    · have hnone : row'.position = none := by
        rw [StoredPosition.position, hother]
        rfl
      have hwrong : Wrong env.hash dir row' := by
        rw [Wrong, hnone]
        exact fun p hp => by cases hp
      rw [List.find?_cons_of_pos (by simpa using hwrong)] at h
      cases h
      rw [checkBlobs, hother, hnone]
      refine ⟨fun _ => rfl, ?_⟩
      rintro ⟨p, hp, -⟩
      cases hp

theorem columnRef_eq_none {key : Bytes} (h : key.length ≠ blobRefSize) : columnRef key = none :=
  dif_neg h

/-- The verdict of the check, if the row of the last bucket is right. -/
theorem checkIndexDb_find? {g : Glacier} {log : SegLog Record} (h : Represents g log)
    (hw : Walkable g.dir log.segments) (hkeys : (db.blobPosition.map (·.key)).Nodup)
    {others : List StoredPosition} (hothers : ∀ row ∈ others, row.key.length ≠ blobRefSize)
    (hlt : bucketSize log.current < 2 ^ 31)
    (hend : findBucketEndOffset db g.ctx.currentBucketIndex = some (g.ctx.currentBucketPos : Int))
    {row : StoredPosition}
    (hfind : (latestRows env db others).find? (fun row => Wrong env.hash g.dir row) = some row)
    (ctx : WriteCtx) (hindex : ctx.currentBucketIndex = log.segments.length)
    (hf : ctx.currentBucketF = some (.bucket log.segments.length)) :
    ((∀ p ∈ row.position, (rowBytes g.dir p).isSome) →
      checkIndexDbWith others env ⟨g.dir, db, ctx⟩ = .glacierIndexDbCorrupt) ∧
    ((∃ p ∈ row.position, rowBytes g.dir p = none) →
      checkIndexDbWith others env ⟨g.dir, db, ctx⟩ = .error ∨
        checkIndexDbWith others env ⟨g.dir, db, ctx⟩ = .noReturn) := by
  have hrows : ∀ row ∈ latestRows env db others,
      row ∈ db.blobPosition.map BlobPosition.stored ∨ columnRef row.key = none := by
    intro row hmem
    have hall := (env.latest_perm _).subset (List.take_subset _ _ hmem)
    exact (List.mem_append.mp hall).imp_right fun hother => columnRef_eq_none (hothers row hother)
  obtain ⟨hcorrupt, hstuck⟩ := checkBlobs_find? (magic_of_walkable hw) hkeys hrows hfind
  have hlen : toInt32 (bucketSize log.current : Int) = (bucketFile log.current).length := by
    rw [length_bucketFile]
    exact toInt32_of_lt hlt
  rw [h.currentBucketIndex, h.currentBucketPos] at hend
  unfold checkIndexDbWith
  simp only [hf, hindex, h.file_current, hend, hlen, ne_eq, not_true_eq_false, if_false]
  unfold latestRows at hcorrupt hstuck
  constructor
  · intro hsome
    rw [hcorrupt hsome]
  · intro hnone
    rcases hstuck hnone with heq | heq
    · rw [heq]
      exact .inl rfl
    · rw [heq]
      exact .inr rfl

end Check

end WrongIndexLemmas

open AppendLemmas WalkableLemmas RebuildLemmas WrongIndexLemmas

/-- An index with a wrong row among the latest ones is rebuilt, if and only if the first such
row has a key that is no ref, or names bytes that can be read. -/
theorem wrong_index_rebuilt_iff (env : GlacierEnv) (maxBucketSize : Nat)
    (hmax : maxBucketSize < 2 ^ 31) (steps : List AppendStep)
    (hok : Along (nextGlacier maxBucketSize) (Appended maxBucketSize) emptyGlacier steps)
    (hhash : ∀ s ∈ steps, env.hash s.blob.body = s.blob.key) (db : IndexDb)
    (hkeys : (db.blobPosition.map (·.key)).Nodup) (others : List StoredPosition)
    (hothers : ∀ row ∈ others, row.key.length ≠ blobRefSize)
    (hend : findBucketEndOffset db
        (exec (nextGlacier maxBucketSize) emptyGlacier steps).ctx.currentBucketIndex =
      some ((exec (nextGlacier maxBucketSize) emptyGlacier steps).ctx.currentBucketPos : Int)) :
    RebuiltIfWrong env (exec (nextGlacier maxBucketSize) emptyGlacier steps).dir db others steps ↔
      FirstWrongReadable env (exec (nextGlacier maxBucketSize) emptyGlacier steps).dir db others := by
  obtain ⟨log, h, hfits, -, hholds⟩ := represents_run hmax hok
  generalize exec (nextGlacier maxBucketSize) emptyGlacier steps = g at h hend ⊢
  have hbound : max maxBucketSize bucketHeaderSize < 2 ^ 31 := Nat.max_lt.mpr ⟨hmax, by decide⟩
  have hw := walkable_of_represents h hfits hbound
  have hlt := Nat.lt_of_le_of_lt (hfits log.current log.current_mem_segments) hbound
  have hctx := createGlacierWriteCtx_represents h hfits hbound (some db)
  constructor
  · intro hrebuilt row hfind p hp
    obtain ⟨hmem, hwrong⟩ := And.intro (List.mem_of_find?_eq_some hfind) (List.find?_some hfind)
    obtain ⟨dir', db', hcheck, -⟩ := hrebuilt ⟨row, hmem, of_decide_eq_true hwrong⟩
    rw [Option.isSome_iff_ne_none]
    intro hnone
    have hstuck := (checkIndexDb_find? h hw hkeys hothers hlt hend hfind ⟨log.segments.length,
      some (.bucket log.segments.length), bucketSize log.current, true⟩ rfl rfl).2 ⟨p, hp, hnone⟩
    unfold quickCheckGlacierWith at hcheck
    rw [hctx] at hcheck
    simp only [Option.getD_some] at hcheck
    rcases hstuck with heq | heq
    · rw [heq] at hcheck
      cases hcheck
    · rw [heq] at hcheck
      cases hcheck
  · rintro hreadable ⟨row, hmem, hwrong⟩
    have hsome : ((latestRows env db others).find? (fun row => Wrong env.hash g.dir row)).isSome :=
      List.find?_isSome.mpr ⟨row, hmem, decide_eq_true hwrong⟩
    obtain ⟨first, hfind⟩ := Option.isSome_iff_exists.mp hsome
    obtain ⟨dir', db', hrecreate, -, hw', hkeys', hrows, hindexed⟩ :=
      exists_rebuilt h hfits hbound (hash_of_holds hholds hhash)
    have hcorrupt := (checkIndexDb_find? h hw hkeys hothers hlt hend hfind ⟨log.segments.length,
      some (.bucket log.segments.length), bucketSize log.current, true⟩ rfl rfl).1
      (hreadable first hfind)
    refine ⟨dir', db', ?_,
      indexesExactly_of_placedAt hholds hw' (length_segments_le h) hkeys' hrows hindexed⟩
    unfold quickCheckGlacierWith
    simp only [hctx, Option.getD_some, hcorrupt, hrecreate]

/-- An index of the bucket with the empty blob that has the key of "x" for it, and the
given size. -/
def mistakenDb (size : Int) : IndexDb :=
  ⟨[⟨letterBlob.key, 0, 1, 49, size, 5⟩], [⟨1, 49⟩]⟩

/-- A row with a key of three bytes, for a bucket that is missing. -/
def shortKeyRow : StoredPosition :=
  ⟨[1, 2, 3], 0, 7, 49, 1, 9⟩

/-- The directory of a glacier with the empty blob. -/
def emptyBlobDir : BucketDir :=
  (exec (nextGlacier (1024 * 1024 * 1024)) emptyGlacier [⟨emptyBlob, 5⟩]).dir

/-- The key of the latest row is no ref. -/
theorem wrong_index_rebuilt :
    (∃ row ∈ latestRows (.inOrder sampleHash) (mistakenDb 0) [shortKeyRow],
        Wrong sampleHash emptyBlobDir row) ∧
      RebuiltIfWrong (.inOrder sampleHash) emptyBlobDir (mistakenDb 0) [shortKeyRow]
        [⟨emptyBlob, 5⟩] := by
  refine ⟨by decide +kernel, (wrong_index_rebuilt_iff (.inOrder sampleHash) (1024 * 1024 * 1024)
    (by decide) [⟨emptyBlob, 5⟩] (by decide +kernel) (by decide +kernel) (mistakenDb 0)
    (by decide +kernel) [shortKeyRow] (by decide) (by decide +kernel)).mpr ?_⟩
  intro row hfind p hp
  have hfirst : ((latestRows (.inOrder sampleHash) (mistakenDb 0) [shortKeyRow]).find? (fun row =>
      Wrong sampleHash emptyBlobDir row)).all (fun row => row.position.isNone) =
        true := by decide +kernel
  have hsame : ((latestRows (.inOrder sampleHash) (mistakenDb 0) [shortKeyRow]).find? (fun row =>
      Wrong sampleHash emptyBlobDir row)) = some row := hfind
  rw [hsame] at hfirst
  rw [Option.isNone_iff_eq_none.mp hfirst] at hp
  cases hp

/-- The wrong row has one byte more than the bucket, and the check reads on and on. -/
theorem wrong_index_endless :
    Along (nextGlacier (1024 * 1024 * 1024)) (Appended (1024 * 1024 * 1024)) emptyGlacier
        [⟨emptyBlob, 5⟩] ∧
      (∀ s ∈ [(⟨emptyBlob, 5⟩ : AppendStep)], sampleHash s.blob.body = s.blob.key) ∧
      findBucketEndOffset (mistakenDb 1) 1 = some 49 ∧
      ¬ RebuiltIfWrong (.inOrder sampleHash) emptyBlobDir (mistakenDb 1) [] [⟨emptyBlob, 5⟩] := by
  refine ⟨by decide +kernel, by decide +kernel, by decide, fun hrebuilt => ?_⟩
  obtain ⟨dir, db, hcheck, -⟩ := hrebuilt (by decide +kernel)
  have hendless : (quickCheckGlacierWith [] (.inOrder sampleHash)
      ⟨emptyBlobDir, some (mistakenDb 1)⟩).1 = .noReturn := by decide +kernel
  rw [hcheck] at hendless
  cases hendless

end Everarch
