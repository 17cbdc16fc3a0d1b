import Everarch.Glacier.Append

/-!
# Crashes

A crash cuts the calls of an append anywhere, and a write at any byte
(`Interrupted`).

* `interrupted_appendRecordOps`, `interrupted_createNextBucketOps`: what a crash
  leaves behind.
-/

namespace Everarch

/-- A run of calls that is cut: calls that are still to come have not been made, and
of a write at the cut any number of bytes has been written. -/
inductive Interrupted : List Op → Glacier → Glacier → Prop where
  | stop (ops : List Op) (g : Glacier) : Interrupted ops g g
  | torn (offset : Nat) (data : Bytes) (n : Nat) (ops : List Op) (g : Glacier) :
    Interrupted (.write offset data :: ops) g (writeCurrentBucket g offset (data.take n)).2
  | step {op : Op} {ops : List Op} {g g' g'' : Glacier} (hop : runOp g op = (.ok, g'))
    (hrest : Interrupted ops g' g'') : Interrupted (op :: ops) g g''

/-- The calls of an append, none at all if it is refused. -/
def callsOfAppend (maxBucketSize : Nat) (g : Glacier) (s : AppendStep) : List Op :=
  (appendOps maxBucketSize g.ctx s.blob s.lastModified).getD []

namespace CrashLemmas

open BucketLemmas AppendLemmas

theorem interrupted_append {ops ops' : List Op} {g g' : Glacier}
    (h : Interrupted (ops ++ ops') g g') :
    Interrupted ops g g' ∨ ∃ g1, runOps ops g = (.ok, g1) ∧ Interrupted ops' g1 g' := by
  induction ops generalizing g with
  | nil => exact .inr ⟨g, rfl, h⟩
  | cons op ops ih =>
    cases h with
    | stop => exact .inl (.stop _ _)
    | torn offset data n => exact .inl (.torn offset data n ops g)
    | step hop hrest =>
      rcases ih hrest with hleft | ⟨g1, hrun, hright⟩
      · exact .inl (.step hop hleft)
      · exact .inr ⟨g1, by rw [runOps_cons_ok hop]; exact hrun, hright⟩

theorem interrupted_syncOps {blob : WritingBlob} {g g' : Glacier}
    (h : Interrupted blob.syncOps g g') : g' = g := by
  unfold WritingBlob.syncOps at h
  split at h
  · cases h with
    | stop => rfl
    | step hop hrest =>
      cases hop
      cases hrest
      rfl
  · cases h
    rfl

theorem interrupted_syncBodyOps {blob : WritingBlob} {g g' : Glacier}
    (h : Interrupted blob.syncBodyOps g g') : g'.dir = g.dir ∧ g'.db = g.db := by
  unfold WritingBlob.syncBodyOps at h
  split at h
  · cases h with
    | stop => exact ⟨rfl, rfl⟩
    | step hop hrest =>
      cases hop
      cases hrest with
      | stop => exact ⟨rfl, rfl⟩
      | step hop hrest =>
        cases hop
        cases hrest
        exact ⟨rfl, rfl⟩
  · cases h
    exact ⟨rfl, rfl⟩

theorem interrupted_writePieces {g g' : Glacier} {n : Nat} {file : Bytes} {offset : Nat}
    (hf : g.ctx.currentBucketF = some (.bucket n)) (hfile : g.dir.file n = some file)
    {pieces : List Bytes}
    (h : Interrupted (writePieces offset pieces) g g') :
    ∃ k ≤ pieces.flatten.length,
      g' = { g with dir := g.dir.put n (writeAt file offset (pieces.flatten.take k)) } := by
  induction pieces generalizing g file offset with
  | nil =>
    cases h
    exact ⟨0, Nat.le_refl _, by simp [put_self hfile]⟩
  | cons piece pieces ih =>
    cases h with
    | stop => exact ⟨0, Nat.zero_le _, by simp [put_self hfile]⟩
    | torn _ _ k =>
      refine ⟨min k piece.length, by simp, ?_⟩
      have htake : (piece :: pieces).flatten.take (min k piece.length) = piece.take k := by
        rw [List.flatten_cons, List.take_append_of_le_length (Nat.min_le_right _ _), ← List.take_take,
          List.take_length]
      rw [htake]
      exact congrArg Prod.snd (runOp_write hf hfile offset (piece.take k))
    | step hop hrest =>
      rw [runOp_write hf hfile] at hop
      cases hop
      obtain ⟨k, hk, heq⟩ := ih (g := { g with dir := g.dir.put n (writeAt file offset piece) }) hf
        (BucketDir.put_file_self _ _ _) hrest
      refine ⟨piece.length + k, ?_, ?_⟩
      · rw [List.flatten_cons, List.length_append]
        exact Nat.add_le_add_left hk _
      · rw [heq, put_put, writeAt_writeAt, List.flatten_cons, List.take_length_add_append]

/-- A cut behind the body. -/
theorem interrupted_finishOps {g g' : Glacier} {n : Nat} {file : Bytes}
    (hindex : g.ctx.currentBucketIndex = n) (hf : g.ctx.currentBucketF = some (.bucket n))
    (hfile : g.dir.file n = some file) {pos : Nat} {blob : WritingBlob} {lastModified : UInt64}
    (h : Interrupted (finishOps pos blob lastModified) g g') :
    (∃ m, g'.dir = g.dir.put n (writeAt file bucketMagicNumber.length
        ((beBytes bucketEndOffsetSize (pos + (bucketBlobHeaderSize + blob.size))).take m)) ∧
      (g'.db = g.db ∨ g'.db = addBlobToIndex g.db n blob.key blob.flags
        (pos + bucketBlobHeaderSize) blob.size lastModified.toNat)) ∨
    (.ok, g') = runOps (finishOps pos blob lastModified) g := by
  have hnone : g.dir = g.dir.put n (writeAt file bucketMagicNumber.length
      ((beBytes bucketEndOffsetSize (pos + (bucketBlobHeaderSize + blob.size))).take 0)) := by
    rw [List.take_zero, writeAt_nil, put_self hfile]
  have hall : (beBytes bucketEndOffsetSize (pos + (bucketBlobHeaderSize + blob.size))).take 4 =
      beBytes bucketEndOffsetSize (pos + (bucketBlobHeaderSize + blob.size)) :=
    List.take_of_length_le (Nat.le_of_eq (length_beBytes _ _))
  rw [runOps_finishOps hindex hf hfile]
  rw [finishOps] at h
  obtain ⟨sync, hsyncBody⟩ := runOps_syncBodyOps blob g
  rcases interrupted_append h with hsync | ⟨g1, hrun, h1⟩
  · obtain ⟨hdir, hdb⟩ := interrupted_syncBodyOps hsync
    exact .inl ⟨0, hdir.trans hnone, .inl hdb⟩
  · rw [hsyncBody] at hrun
    cases hrun
    cases h1 with
    | stop => exact .inl ⟨0, hnone, .inl rfl⟩
    | step hassign h2 =>
      cases hassign
      cases h2 with
      | stop => exact .inl ⟨0, hnone, .inl rfl⟩
      | torn _ _ m =>
        refine .inl ⟨m, ?_, .inl ?_⟩
        · simp only [writeCurrentBucket, hf, hfile]
        · simp only [writeCurrentBucket, hf, hfile]
      | step hwrite h3 =>
        simp only [runOp, writeCurrentBucket, hf, hfile] at hwrite
        cases hwrite
        rcases interrupted_append h3 with hsync | ⟨g4, hrun, h4⟩
        · rw [interrupted_syncOps hsync]
          exact .inl ⟨4, by rw [hall], .inl rfl⟩
        · rw [runOps_syncOps] at hrun
          cases hrun
          cases h4 with
          | stop => exact .inl ⟨4, by rw [hall], .inl rfl⟩
          | step hassign h5 =>
            cases hassign
            cases h5 with
            | stop => exact .inl ⟨4, by rw [hall], .inl rfl⟩
            | step hinsert h6 =>
              cases hinsert
              cases h6 with
              | stop => exact .inl ⟨4, by rw [hall], .inr (by rw [hindex])⟩
              | step hupdate h7 =>
                cases hupdate
                cases h7
                exact .inr (by simp only [indexAppended, hindex, hf]; rfl)

/-- An end offset that is overwritten in part. -/
theorem writeAt_endOffset {old new : Nat} (hle : old ≤ new) (hnew : new < 2 ^ 32)
    (content : Bytes) (m : Nat) :
    ∃ e, old ≤ e ∧ e < 2 ^ 32 ∧
      writeAt (bucketBytes old content) bucketMagicNumber.length
        ((beBytes bucketEndOffsetSize new).take m) = bucketBytes e content :=
  writeAt_torn (w := bucketEndOffsetSize) hle hnew bucketMagicNumber content m

/-- What a cut in an append leaves behind that does not start a new bucket. -/
theorem interrupted_appendRecordOps {g g' : Glacier} {log : SegLog Record} (h : Represents g log)
    {blob : WritingBlob} {lastModified : UInt64} (hsize : blob.size < 2 ^ 32)
    (hfits : bucketSize (log.current ++ [recordOf blob lastModified hsize]) < 2 ^ 31)
    (hint : Interrupted (appendRecordOps g.ctx.currentBucketPos blob lastModified) g g') :
    (∃ k ≤ (recordOf blob lastModified hsize).bytes.length,
      g'.dir = g.dir.put log.segments.length (bucketFile log.current ++
        (recordOf blob lastModified hsize).bytes.take k) ∧ g'.db = g.db) ∨
    (∃ e, bucketSize log.current ≤ e ∧ e < 2 ^ 32 ∧
      g'.dir = g.dir.put log.segments.length
        (bucketBytes e (recordsBytes (log.current ++ [recordOf blob lastModified hsize]))) ∧
      findBucketEndOffset g'.db log.segments.length = some (bucketSize log.current : Int)) ∨
    Represents g' (log.add (recordOf blob lastModified hsize)) := by
  have hlen := log.length_segments
  have hfile : g.dir.file log.segments.length = some (bucketFile log.current) := by
    rw [hlen, h.file, SegLog.getElem?_current]
    rfl
  have hend := @bucketSize_recordOf blob lastModified log.current hsize
  obtain ⟨g2, hrun, h2, -⟩ := represents_add h hsize hfits
  rw [h.currentBucketPos, ← length_bucketFile] at hint hrun
  rw [appendRecordOps_eq] at hint hrun
  rcases interrupted_append hint with hpieces | ⟨g1, hrun1, hfinish⟩
  · obtain ⟨k, hk, heq⟩ := interrupted_writePieces h.currentBucketF hfile hpieces
    rw [flatten_blobPieces, ← bytes_recordOf blob lastModified hsize] at hk heq
    rw [writeAt_length] at heq
    exact .inl ⟨k, hk, by rw [heq], by rw [heq]⟩
  · rw [runOps_append_ok hrun1] at hrun
    rw [runOps_writePieces h.currentBucketF hfile _, flatten_blobPieces,
      ← bytes_recordOf blob lastModified hsize, writeAt_length] at hrun1
    cases hrun1
    have hcut := interrupted_finishOps
      (g := { g with
        dir := g.dir.put log.segments.length
          (bucketFile log.current ++ (recordOf blob lastModified hsize).bytes) })
      h.currentBucketIndex h.currentBucketF (BucketDir.put_file_self _ _ _) hfinish
    rcases hcut with ⟨m, hdir, hdb⟩ | hdone
    · rw [put_put, bucketFile_append_bytes, ← recordsBytes_concat, length_bucketFile, ← hend] at hdir
      obtain ⟨e, hle, hlt, htorn⟩ := writeAt_endOffset (hend ▸ Nat.le_add_right _ _)
        (Nat.lt_trans hfits (by decide))
        (recordsBytes (log.current ++ [recordOf blob lastModified hsize])) m
      rw [htorn] at hdir
      have hrow : findBucketEndOffset g.db log.segments.length =
          some (bucketSize log.current : Int) := by
        rw [hlen]
        exact h.endOffset _ _ log.getElem?_current
      have hbucket : g'.db.bucket = g.db.bucket := by
        rcases hdb with heq | heq
        · rw [heq]
        · rw [heq, addBlobToIndex_bucket]
      refine .inr (.inl ⟨e, hle, hlt, hdir, ?_⟩)
      unfold findBucketEndOffset at hrow ⊢
      rw [hbucket]
      exact hrow
    · rw [hrun] at hdone
      cases hdone
      exact .inr (.inr h2)

theorem interrupted_closeCurrentBucketOps {g g' : Glacier} {ctx : WriteCtx}
    (h : Interrupted (closeCurrentBucketOps ctx) g g') : g'.dir = g.dir ∧ g'.db = g.db := by
  have hops : ∀ op ∈ closeCurrentBucketOps ctx, (∃ fatal, op = .sync fatal) ∨ ∃ f, op = .assign f := by
    unfold closeCurrentBucketOps
    split
    · simp
    · split
      · simp
      · simp
  generalize closeCurrentBucketOps ctx = ops at h hops
  induction h with
  | stop => exact ⟨rfl, rfl⟩
  | torn offset data =>
    rcases hops _ List.mem_cons_self with ⟨fatal, hop⟩ | ⟨f, hop⟩
    · cases hop
    · cases hop
  | step hop hrest ih =>
    obtain ⟨hdir, hdb⟩ := ih fun op hmem => hops op (List.mem_cons_of_mem _ hmem)
    rcases hops _ List.mem_cons_self with ⟨fatal, rfl⟩ | ⟨f, rfl⟩
    · cases hop
      exact ⟨hdir, hdb⟩
    · cases hop
      exact ⟨hdir, hdb⟩

theorem interrupted_writeHeader {g g' : Glacier} {dir : BucketDir} {n : Nat}
    (hf : g.ctx.currentBucketF = some (.bucket n)) (hdir : g.dir = dir.put n [])
    (h : Interrupted [.write 0 bucketMagicNumber,
      .write bucketMagicNumber.length (beBytes bucketEndOffsetSize bucketHeaderSize),
      .sync false, .insertBucket] g g') :
    (∃ m ≤ bucketHeaderSize, g'.dir = dir.put n ((bucketFile []).take m) ∧ g'.db = g.db) ∨
    runOps [.write 0 bucketMagicNumber,
      .write bucketMagicNumber.length (beBytes bucketEndOffsetSize bucketHeaderSize),
      .sync false, .insertBucket] g = (.ok, g') := by
  have hfile : g.dir.file n = some [] := by rw [hdir, BucketDir.put_file_self]
  have hwrite (m : Nat) : g.dir.put n (writeAt [] 0 ((bucketFile []).take m)) =
      dir.put n ((bucketFile []).take m) := by
    rw [hdir, put_put]
    exact congrArg (dir.put n) (writeAt_length [] _)
  have h' : Interrupted (writePieces 0 [bucketMagicNumber,
    beBytes bucketEndOffsetSize bucketHeaderSize] ++ [.sync false, .insertBucket]) g g' := h
  show _ ∨ runOps (writePieces 0 [bucketMagicNumber,
    beBytes bucketEndOffsetSize bucketHeaderSize] ++ [.sync false, .insertBucket]) g = _
  rcases interrupted_append h' with hpieces | ⟨g1, hrun, h1⟩
  · obtain ⟨m, hm, rfl⟩ := interrupted_writePieces hf hfile hpieces
    exact .inl ⟨m, hm, hwrite m, rfl⟩
  · rw [runOps_append_ok hrun]
    have hfull := runOps_writePieces hf hfile 0 [bucketMagicNumber,
      beBytes bucketEndOffsetSize bucketHeaderSize]
    rw [hfull] at hrun
    cases hrun
    cases h1 with
    | stop => exact .inl ⟨bucketHeaderSize, Nat.le_refl _, hwrite bucketHeaderSize, rfl⟩
    | step hsync h2 =>
      rw [runOps_cons_ok hsync]
      cases hsync
      cases h2 with
      | stop => exact .inl ⟨bucketHeaderSize, Nat.le_refl _, hwrite bucketHeaderSize, rfl⟩
      | step hinsert h3 =>
        rw [runOps_cons_ok hinsert]
        cases h3
        exact .inr rfl

/-- What a cut in the start of a new bucket leaves behind. -/
theorem interrupted_createNextBucketOps {g g' : Glacier} {n : Nat}
    (hindex : g.ctx.currentBucketIndex = n) (hnew : g.dir.file (n + 1) = none)
    (h : Interrupted (createNextBucketOps g.ctx) g g') :
    (g'.dir = g.dir ∧ g'.db = g.db) ∨
    (∃ m ≤ bucketHeaderSize, g'.dir = g.dir.put (n + 1) ((bucketFile []).take m) ∧
      g'.db = g.db) ∨
    runOps (createNextBucketOps g.ctx) g = (.ok, g') := by
  obtain ⟨sync, hclose⟩ := runOps_closeCurrentBucketOps g
  rw [createNextBucketOps] at h ⊢
  rw [runOps_append_ok hclose]
  rcases interrupted_append h with hleft | ⟨g1, hrun1, h1⟩
  · exact .inl (interrupted_closeCurrentBucketOps hleft)
  rw [hclose] at hrun1
  cases hrun1
  cases h1 with
  | stop => exact .inl ⟨rfl, rfl⟩
  | step hassign h2 =>
    rw [runOps_cons_ok hassign]
    cases hassign
    cases h2 with
    | stop => exact .inl ⟨rfl, rfl⟩
    | step hcreate h3 =>
      rw [runOps_cons_ok hcreate]
      simp only [runOp, hindex, hnew] at hcreate
      cases hcreate
      cases h3 with
      | stop => exact .inr (.inl ⟨0, Nat.zero_le _, rfl, rfl⟩)
      | step hassign h4 =>
        rw [runOps_cons_ok hassign]
        cases hassign
        exact .inr (interrupted_writeHeader rfl rfl h4)

end CrashLemmas

end Everarch
