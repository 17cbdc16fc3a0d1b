import Everarch.Glacier.Append

/-!
# Every single call of an append

What holds between any two calls of `evr_glacier_append_blob`, whether the append comes to
its end or not: the body of every row is in its bucket, and no write to come reaches it.

* `intact_stepOp`, `intact_torn`: a call that is allowed keeps the rows intact, and so
  does a write that stops somewhere.
* `along_appendOps`: the calls of an append are allowed, one after the other.
-/

namespace Everarch

/-- The body of a row stands in its bucket. In the current bucket it stands before the
position of the next record. -/
def SafeAt (g : Glacier) (row : BlobPosition) (body : Bytes) : Prop :=
  ∃ (i offset : Nat) (file : Bytes), row.bucketIndex = i ∧ row.bucketBlobOffset = offset ∧
    row.blobSize = body.length ∧ i < 2 ^ 63 ∧ offset + body.length < 2 ^ 31 ∧
    g.dir.file i = some file ∧ bucketHeaderSize ≤ offset ∧ offset + body.length ≤ file.length ∧
    readAt file offset body.length = body ∧ i ≤ g.ctx.currentBucketIndex ∧
    (i = g.ctx.currentBucketIndex → offset + body.length ≤ g.ctx.currentBucketPos)

/-- Every row stands for a known body, which is in its bucket. -/
structure Intact (known : BlobRef → Bytes → Prop) (g : Glacier) : Prop where
  fresh : ∀ i, g.ctx.currentBucketIndex < i → g.dir.file i = none
  keys : (g.db.blobPosition.map (·.key)).Nodup
  rows : ∀ row ∈ g.db.blobPosition, ∃ body, known row.key body ∧ SafeAt g row body

/-- The current bucket is open. -/
def Opened (g : Glacier) : Prop :=
  g.ctx.currentBucketF = some (.bucket g.ctx.currentBucketIndex) ∧
    ∃ file, g.dir.file g.ctx.currentBucketIndex = some file

/-- The glacier after a call. -/
def stepOp (g : Glacier) (op : Op) : Glacier :=
  (runOp g op).2

/-- What an append relies on when it makes a call. -/
def Allowed (known : BlobRef → Bytes → Prop) (g : Glacier) : Op → Prop
  | .assign f => Intact known { g with ctx := f g.ctx }
  | .create => g.dir.file g.ctx.currentBucketIndex = none
  | .write offset data =>
    Opened g ∧ (offset + data.length ≤ bucketHeaderSize ∨ g.ctx.currentBucketPos ≤ offset)
  | .insertBlob ref flags blobOffset blobSize lastModified =>
    Opened g ∧ ∃ body, known ref body ∧ SafeAt g ⟨ref, flags, toInt64 g.ctx.currentBucketIndex,
      toInt32 blobOffset, toInt32 blobSize, toInt64 lastModified⟩ body
  | .sync _ | .insertBucket | .updateEndOffset _ => Opened g

namespace IntactLemmas

open BucketLemmas AppendLemmas

theorem SafeAt.holdsBytes {g : Glacier} {row : BlobPosition} {body : Bytes}
    (h : SafeAt g row body) : HoldsBytes g.dir row body := by
  obtain ⟨i, offset, file, hindex, hoffset, hsize, -, -, hfile, -, -, hread, -⟩ := h
  exact ⟨i, offset, file, hindex, hoffset, hsize, hfile, hread⟩

/-! ## Single calls -/

section Step

variable {known : BlobRef → Bytes → Prop} {g : Glacier} {row : BlobPosition} {body : Bytes}

/-- The context moves on. -/
theorem safeAt_assign (h : SafeAt g row body) {ctx : WriteCtx}
    (hindex : g.ctx.currentBucketIndex ≤ ctx.currentBucketIndex)
    (hpos : ctx.currentBucketIndex = g.ctx.currentBucketIndex →
      g.ctx.currentBucketPos ≤ ctx.currentBucketPos) :
    SafeAt { g with ctx := ctx } row body := by
  obtain ⟨i, offset, file, hi, hoff, hsize, hlt, hend, hfile, hheader, hin, hread, hle, hcur⟩ := h
  refine ⟨i, offset, file, hi, hoff, hsize, hlt, hend, hfile, hheader, hin, hread,
    Nat.le_trans hle hindex, fun heq => ?_⟩
  simp only at heq ⊢
  have hsame : i = g.ctx.currentBucketIndex := Nat.le_antisymm hle (heq ▸ hindex)
  exact Nat.le_trans (hcur hsame) (hpos (heq.symm.trans hsame))

/-- A new file. -/
theorem safeAt_put_new (h : SafeAt g row body) {n : Nat} (hnew : g.dir.file n = none)
    (content : Bytes) (ctx : WriteCtx)
    (hindex : ctx.currentBucketIndex = g.ctx.currentBucketIndex)
    (hpos : ctx.currentBucketPos = g.ctx.currentBucketPos) :
    SafeAt { g with dir := g.dir.put n content, ctx := ctx } row body := by
  obtain ⟨i, offset, file, hi, hoff, hsize, hlt, hend, hfile, hheader, hin, hread, hle, hcur⟩ := h
  have hne : i ≠ n := by
    rintro rfl
    rw [hnew] at hfile
    cases hfile
  refine ⟨i, offset, file, hi, hoff, hsize, hlt, hend, ?_, hheader, hin, hread,
    hindex.symm ▸ hle, hindex.symm ▸ hpos.symm ▸ hcur⟩
  rw [BucketDir.put_file_of_ne _ hne]
  exact hfile

/-- A write to the current bucket, in its header or behind its last record. -/
theorem safeAt_write (h : SafeAt g row body) {file data : Bytes} {offset : Nat}
    (hfile : g.dir.file g.ctx.currentBucketIndex = some file)
    (hout : offset + data.length ≤ bucketHeaderSize ∨ g.ctx.currentBucketPos ≤ offset) :
    SafeAt { g with dir := g.dir.put g.ctx.currentBucketIndex (writeAt file offset data) } row
      body := by
  obtain ⟨i, off, file', hi, hoff, hsize, hlt, hend, hfile', hheader, hin, hread, hle, hcur⟩ := h
  by_cases heq : i = g.ctx.currentBucketIndex
  · rw [heq, hfile] at hfile'
    cases hfile'
    refine ⟨i, off, writeAt file offset data, hi, hoff, hsize, hlt, hend, ?_, hheader,
      Nat.le_trans hin (le_length_writeAt _ _ _), ?_, hle, hcur⟩
    · rw [heq, BucketDir.put_file_self]
    · rcases hout with hbefore | hbehind
      · rw [readAt_writeAt_behind (Nat.le_trans hbefore hheader), hread]
      · rw [readAt_writeAt_before (Nat.le_trans (hcur heq) hbehind) hin, hread]
  · refine ⟨i, off, file', hi, hoff, hsize, hlt, hend, ?_, hheader, hin, hread, hle, hcur⟩
    rw [BucketDir.put_file_of_ne _ heq]
    exact hfile'

theorem writeCurrentBucket_opened {file : Bytes}
    (hf : g.ctx.currentBucketF = some (.bucket g.ctx.currentBucketIndex))
    (hfile : g.dir.file g.ctx.currentBucketIndex = some file) (offset : Nat) (data : Bytes) :
    writeCurrentBucket g offset data =
      (.ok, { g with dir := g.dir.put g.ctx.currentBucketIndex (writeAt file offset data) }) :=
  runOp_write hf hfile offset data

theorem intact_write (h : Intact known g) {offset : Nat} {data : Bytes}
    (hopened : Opened g)
    (hout : offset + data.length ≤ bucketHeaderSize ∨ g.ctx.currentBucketPos ≤ offset) :
    Intact known (writeCurrentBucket g offset data).2 ∧
      Opened (writeCurrentBucket g offset data).2 := by
  obtain ⟨hf, file, hfile⟩ := hopened
  rw [writeCurrentBucket_opened hf hfile]
  refine ⟨⟨fun i hi => ?_, h.keys, fun row hrow => ?_⟩, hf, _, BucketDir.put_file_self _ _ _⟩
  · rw [BucketDir.put_file_of_ne _ (Nat.ne_of_gt hi)]
    exact h.fresh i hi
  · obtain ⟨body, hknown, hsafe⟩ := h.rows row hrow
    exact ⟨body, hknown, safeAt_write hsafe hfile hout⟩

/-- A write that stops after some bytes. -/
theorem intact_torn (h : Intact known g) {offset : Nat} {data : Bytes}
    (hallowed : Allowed known g (.write offset data)) (n : Nat) :
    Intact known (writeCurrentBucket g offset (data.take n)).2 ∧
      Opened (writeCurrentBucket g offset (data.take n)).2 := by
  obtain ⟨hopened, hout⟩ := hallowed
  refine intact_write h hopened (hout.imp_left fun hle => ?_)
  exact Nat.le_trans (Nat.add_le_add_left (by rw [List.length_take]; exact Nat.min_le_right _ _) _) hle

/-- A call that is allowed keeps the rows intact. -/
theorem intact_stepOp (h : Intact known g) {op : Op} (hallowed : Allowed known g op) :
    Intact known (stepOp g op) := by
  cases op with
  | assign f => exact hallowed
  | create =>
    simp only [stepOp, runOp]
    have hnew : g.dir.file g.ctx.currentBucketIndex = none := hallowed
    rw [hnew]
    refine ⟨fun i hi => ?_, h.keys, fun row hrow => ?_⟩
    · rw [BucketDir.put_file_of_ne _ (Nat.ne_of_gt hi)]
      exact h.fresh i hi
    · obtain ⟨body, hknown, hsafe⟩ := h.rows row hrow
      exact ⟨body, hknown, safeAt_put_new hsafe hnew [] _ rfl rfl⟩
  | write offset data => exact (intact_write h hallowed.1 hallowed.2).1
  | sync => exact h
  | insertBucket =>
    simp only [stepOp, runOp]
    cases hins : insertBucket g.db g.ctx.currentBucketIndex with
    | none => exact h
    | some db =>
      rw [eq_of_insertBucket hins]
      exact ⟨h.fresh, h.keys, h.rows⟩
  | insertBlob ref flags blobOffset blobSize lastModified =>
    obtain ⟨-, body, hknown, hsafe⟩ := hallowed
    refine ⟨h.fresh, nodup_addBlobToIndex h.keys, fun row hrow => ?_⟩
    rcases mem_addBlobToIndex hrow with hold | rfl
    · exact h.rows row hold
    · exact ⟨body, hknown, hsafe⟩
  | updateEndOffset endOffset => exact ⟨h.fresh, h.keys, h.rows⟩

theorem subset_stepOp (g : Glacier) (op : Op) :
    g.db.blobPosition ⊆ (stepOp g op).db.blobPosition := by
  cases op with
  | assign f => exact fun _ h => h
  | create =>
    simp only [stepOp, runOp]
    split
    · exact fun _ h => h
    · exact fun _ h => h
  | write offset data =>
    simp only [stepOp, runOp, writeCurrentBucket]
    split
    · split
      · exact fun _ h => h
      · exact fun _ h => h
    · exact fun _ h => h
  | sync => exact fun _ h => h
  | insertBucket =>
    simp only [stepOp, runOp]
    cases hins : insertBucket g.db g.ctx.currentBucketIndex with
    | none => exact fun _ h => h
    | some db =>
      rw [eq_of_insertBucket hins]
      exact fun _ h => h
  | insertBlob => exact subset_addBlobToIndex
  | updateEndOffset endOffset => exact fun _ h => h

/-- An allowed call succeeds unless a bucket has a row already. -/
theorem runOp_of_allowed {op : Op} (hallowed : Allowed known g op) :
    runOp g op = (.ok, stepOp g op) ∨ runOp g op = (.noReturn, g) ∧ Opened g := by
  cases op with
  | create =>
    refine .inl (Prod.ext ?_ rfl)
    have hnew : g.dir.file g.ctx.currentBucketIndex = none := hallowed
    simp only [runOp, hnew]
  | write offset data =>
    obtain ⟨⟨hf, file, hfile⟩, -⟩ := hallowed
    refine .inl (Prod.ext ?_ rfl)
    rw [runOp, writeCurrentBucket_opened hf hfile]
  | insertBucket =>
    unfold stepOp
    simp only [runOp]
    cases insertBucket g.db g.ctx.currentBucketIndex with
    | none => exact .inr ⟨rfl, hallowed⟩
    | some db => exact .inl rfl
  | _ => exact .inl rfl

/-- A row stands for one body only. -/
theorem safeAt_unique {g' : Glacier} {body' : Bytes} (h : SafeAt g row body)
    (h' : SafeAt g' row body') (hdir : g.dir = g'.dir) : body = body' := by
  obtain ⟨i, offset, file, hi, hoff, hsize, -, -, hfile, -, -, hread, -⟩ := h
  obtain ⟨i', offset', file', hi', hoff', hsize', -, -, hfile', -, -, hread', -⟩ := h'
  have hindex : i = i' := Int.ofNat.inj (hi.symm.trans hi')
  have hoffset : offset = offset' := Int.ofNat.inj (hoff.symm.trans hoff')
  have hlen : body.length = body'.length := Int.ofNat.inj (hsize.symm.trans hsize')
  rw [hdir, hindex, hfile'] at hfile
  cases hfile
  rw [← hread, ← hread', hoffset, hlen]

/-- An allowed call keeps the body of a row. -/
theorem safeAt_stepOp {op : Op} (hallowed : Allowed known g op) (hrow : row ∈ g.db.blobPosition)
    (h : SafeAt g row body) : SafeAt (stepOp g op) row body := by
  cases op with
  | assign f =>
    -- the body that the context after it allows for is the same, for no file changes
    obtain ⟨body', -, hsafe⟩ := (show Intact known _ from hallowed).rows row hrow
    rw [safeAt_unique h hsafe rfl]
    exact hsafe
  | create =>
    have hnew : g.dir.file g.ctx.currentBucketIndex = none := hallowed
    simp only [stepOp, runOp, hnew]
    exact safeAt_put_new h hnew [] _ rfl rfl
  | write offset data =>
    obtain ⟨⟨hf, file, hfile⟩, hout⟩ := hallowed
    have hstep : stepOp g (.write offset data) = _ :=
      congrArg Prod.snd (writeCurrentBucket_opened hf hfile offset data)
    rw [hstep]
    exact safeAt_write h hfile hout
  | insertBucket =>
    simp only [stepOp, runOp]
    cases insertBucket g.db g.ctx.currentBucketIndex with
    | none => exact h
    | some db => exact h
  | _ => exact h

end Step

theorem opened_emptyGlacier : Opened emptyGlacier :=
  ⟨rfl, _, rfl⟩

theorem intact_emptyGlacier (known : BlobRef → Bytes → Prop) : Intact known emptyGlacier := by
  refine ⟨fun i hi => ?_, List.nodup_nil, fun row hrow => absurd hrow List.not_mem_nil⟩
  have hempty := represents_emptyGlacier
  rw [hempty.currentBucketIndex] at hi
  cases i with
  | zero => exact hempty.file_zero
  | succ i =>
    rw [hempty.file, List.getElem?_eq_none (Nat.le_of_lt_succ hi)]
    rfl

/-! ## The calls of an append -/

theorem exec_stepOp {ops : List Op} {g g' : Glacier} (h : runOps ops g = (.ok, g')) :
    exec stepOp g ops = g' := by
  induction ops generalizing g with
  | nil =>
    cases h
    rfl
  | cons op ops ih =>
    rw [runOps] at h
    rcases hop : runOp g op with ⟨res, g1⟩
    rw [hop] at h
    cases res with
    | ok =>
      have hstep : stepOp g op = g1 := congrArg Prod.snd hop
      rw [exec_cons, hstep]
      exact ih h
    | _ => cases h

theorem length_blobBytes (blob : WritingBlob) (lastModified : UInt64) :
    (blobBytes blob lastModified).length = bucketBlobHeaderSize + blob.size := by
  rw [blobBytes, List.length_append, length_blobHeader, blob.length_body]

theorem blobBytes_ne_nil (blob : WritingBlob) (lastModified : UInt64) :
    blobBytes blob lastModified ≠ [] := by
  refine List.ne_nil_of_length_pos ?_
  rw [length_blobBytes]
  exact Nat.lt_of_lt_of_le (by decide : 0 < bucketBlobHeaderSize) (Nat.le_add_right _ _)

section Append

variable {known : BlobRef → Bytes → Prop} {g : Glacier}

theorem intact_along (h : Intact known g) {ops : List Op}
    (halong : Along stepOp (Allowed known) g ops) : Intact known (exec stepOp g ops) :=
  halong.invariant (Intact known) h fun _ _ h hallowed => intact_stepOp h hallowed

theorem intact_assign (h : Intact known g) {ctx : WriteCtx}
    (hindex : ctx.currentBucketIndex = g.ctx.currentBucketIndex)
    (hpos : g.ctx.currentBucketPos ≤ ctx.currentBucketPos) : Intact known { g with ctx := ctx } where
  fresh := by
    simp only [hindex]
    exact h.fresh
  keys := h.keys
  rows row hrow := by
    obtain ⟨body, hknown, hsafe⟩ := h.rows row hrow
    exact ⟨body, hknown, safeAt_assign hsafe (Nat.le_of_eq hindex.symm) fun _ => hpos⟩

theorem along_writePieces (hopened : Opened g) {offset : Nat} (hpos : g.ctx.currentBucketPos ≤ offset)
    (pieces : List Bytes) : Along stepOp (Allowed known) g (writePieces offset pieces) := by
  induction pieces generalizing g offset with
  | nil => trivial
  | cons piece pieces ih =>
    refine ⟨⟨hopened, .inr hpos⟩, ?_⟩
    obtain ⟨hf, file, hfile⟩ := hopened
    have hstep : stepOp g (.write offset piece) = _ :=
      congrArg Prod.snd (writeCurrentBucket_opened hf hfile offset piece)
    have hopened' : Opened { g with
        dir := g.dir.put g.ctx.currentBucketIndex (writeAt file offset piece) } :=
      ⟨hf, _, BucketDir.put_file_self _ _ _⟩
    rw [hstep]
    exact ih hopened' (Nat.le_trans hpos (Nat.le_add_right _ _))

theorem along_syncOps (blob : WritingBlob) (hopened : Opened g) :
    Along stepOp (Allowed known) g blob.syncOps := by
  unfold WritingBlob.syncOps
  split
  · exact ⟨hopened, trivial⟩
  · trivial

theorem along_syncBodyOps (blob : WritingBlob) (h : Intact known g) (hopened : Opened g) :
    Along stepOp (Allowed known) g blob.syncBodyOps := by
  unfold WritingBlob.syncBodyOps
  split
  · exact ⟨hopened, intact_assign h rfl (Nat.le_refl _), trivial⟩
  · trivial

/-- The row of a body that has been written to the current bucket. -/
theorem safeAt_new {n : Nat} (hindex : n < 2 ^ 63) {pos : Nat} {blob : WritingBlob}
    (hend : pos + (bucketBlobHeaderSize + blob.size) < 2 ^ 31) {file : Bytes}
    (hfile : g.dir.file n = some file)
    (hlen : pos + (bucketBlobHeaderSize + blob.size) ≤ file.length)
    (hread : readAt file (pos + bucketBlobHeaderSize) blob.size = blob.body)
    (hcur : g.ctx.currentBucketIndex = n)
    (hpos : pos + (bucketBlobHeaderSize + blob.size) ≤ g.ctx.currentBucketPos)
    (lastModified : UInt64) :
    SafeAt g ⟨blob.key, blob.flags, toInt64 n, toInt32 (pos + bucketBlobHeaderSize : Nat),
      toInt32 blob.size, toInt64 lastModified.toNat⟩ blob.body := by
  have hsize := blob.length_body
  have hheader : bucketHeaderSize ≤ bucketBlobHeaderSize := by decide
  have hoffset : toInt32 (pos + bucketBlobHeaderSize : Nat) = (pos + bucketBlobHeaderSize : Nat) :=
    toInt32_of_lt (by omega)
  have hcolumn : toInt32 blob.size = blob.body.length := by
    rw [hsize]
    exact toInt32_of_lt (by omega)
  rw [toInt64_of_lt hindex, hoffset, hcolumn]
  rw [← Nat.add_assoc, ← hsize] at hend hlen hpos
  refine ⟨n, pos + bucketBlobHeaderSize, file, rfl, rfl, rfl, hindex, hend, hfile,
    Nat.le_trans hheader (Nat.le_add_left _ _), hlen, ?_, Nat.le_of_eq hcur.symm, fun _ => hpos⟩
  rw [hsize]
  exact hread

/-- The calls behind the body, which has been written. -/
theorem along_finishOps (h : Intact known g) {file : Bytes}
    (hf : g.ctx.currentBucketF = some (.bucket g.ctx.currentBucketIndex))
    (hfile : g.dir.file g.ctx.currentBucketIndex = some file)
    (hindex : g.ctx.currentBucketIndex < 2 ^ 63) {pos : Nat} (hpos : g.ctx.currentBucketPos ≤ pos)
    {blob : WritingBlob} (hend : pos + (bucketBlobHeaderSize + blob.size) < 2 ^ 31)
    (hlen : pos + (bucketBlobHeaderSize + blob.size) ≤ file.length)
    (hread : readAt file (pos + bucketBlobHeaderSize) blob.size = blob.body)
    (hknown : known blob.key blob.body) (lastModified : UInt64) :
    Along stepOp (Allowed known) g (finishOps pos blob lastModified) := by
  obtain ⟨sync, hsync⟩ := runOps_syncBodyOps blob g
  have h1 : Intact known { g with ctx := { g.ctx with
      currentBucketPos := pos + (bucketBlobHeaderSize + blob.size), currentBucketSync := sync } } :=
    intact_assign h rfl (Nat.le_trans hpos (Nat.le_add_right _ _))
  have hout : bucketMagicNumber.length + (beBytes bucketEndOffsetSize
      (pos + (bucketBlobHeaderSize + blob.size))).length ≤ bucketHeaderSize := by
    rw [length_beBytes]
    decide
  obtain ⟨h2, hopened2⟩ := intact_write h1 ⟨hf, file, hfile⟩ (.inl hout)
  have hwrite := writeCurrentBucket_opened (g := { g with ctx := { g.ctx with
      currentBucketPos := pos + (bucketBlobHeaderSize + blob.size), currentBucketSync := sync } })
    hf hfile bucketMagicNumber.length
    (beBytes bucketEndOffsetSize (pos + (bucketBlobHeaderSize + blob.size)))
  rw [hwrite] at h2 hopened2
  refine along_append.mpr ⟨along_syncBodyOps blob h ⟨hf, file, hfile⟩, ?_⟩
  rw [exec_stepOp hsync]
  refine ⟨h1, ⟨⟨hf, file, hfile⟩, .inl hout⟩, ?_⟩
  have hstep : stepOp (stepOp { g with ctx := { g.ctx with currentBucketSync := sync } }
      (.assign fun ctx => { ctx with
        currentBucketPos := pos + (bucketBlobHeaderSize + blob.size) }))
      (.write bucketMagicNumber.length
        (beBytes bucketEndOffsetSize (pos + (bucketBlobHeaderSize + blob.size)))) = _ :=
    congrArg Prod.snd hwrite
  rw [hstep]
  refine along_append.mpr ⟨along_syncOps blob hopened2, ?_⟩
  rw [exec_stepOp (runOps_syncOps blob _)]
  refine ⟨intact_assign h2 rfl (Nat.le_refl _), ⟨hopened2, blob.body, hknown, ?_⟩, hopened2, trivial⟩
  refine safeAt_new hindex hend (BucketDir.put_file_self _ _ _)
    (Nat.le_trans hlen (le_length_writeAt _ _ _)) ?_ ?_ ?_ lastModified
  · rw [readAt_writeAt_behind, hread]
    exact Nat.le_trans hout (Nat.le_trans (by decide : bucketHeaderSize ≤ bucketBlobHeaderSize)
      (Nat.le_add_left _ _))
  · rfl
  · exact Nat.le_refl _

/-- The calls from the seek on. -/
theorem along_appendRecordOps (h : Intact known g) (hopened : Opened g)
    (hindex : g.ctx.currentBucketIndex < 2 ^ 63) {pos : Nat} (hpos : g.ctx.currentBucketPos = pos)
    {blob : WritingBlob} (hend : pos + (bucketBlobHeaderSize + blob.size) < 2 ^ 31)
    (hknown : known blob.key blob.body) (lastModified : UInt64) :
    Along stepOp (Allowed known) g (appendRecordOps pos blob lastModified) := by
  have hwrites : Along stepOp (Allowed known) g (writePieces pos (blobPieces blob lastModified)) :=
    along_writePieces hopened (Nat.le_of_eq hpos) _
  have h1 := intact_along h hwrites
  obtain ⟨hf, file, hfile⟩ := hopened
  have hrun := exec_stepOp (runOps_writePieces hf hfile pos (blobPieces blob lastModified))
  rw [flatten_blobPieces] at hrun
  rw [appendRecordOps_eq]
  refine along_append.mpr ⟨hwrites, ?_⟩
  rw [hrun] at h1 ⊢
  refine along_finishOps h1 hf (BucketDir.put_file_self _ _ _) hindex (Nat.le_of_eq hpos) hend ?_ ?_
    hknown lastModified
  · rw [length_writeAt (blobBytes_ne_nil blob lastModified), length_blobBytes]
    exact Nat.le_max_right _ _
  · rw [blobBytes, ← writeAt_writeAt, length_blobHeader, ← blob.length_body]
    exact readAt_writeAt_self _ _ _

theorem opened_appendRecordOps (hopened : Opened g) {pos : Nat} {blob : WritingBlob}
    {lastModified : UInt64} :
    Opened (exec stepOp g (appendRecordOps pos blob lastModified)) := by
  obtain ⟨hf, file, hfile⟩ := hopened
  rw [exec_stepOp (runOps_appendRecordOps rfl hf hfile pos blob lastModified)]
  exact ⟨hf, _, BucketDir.put_file_self _ _ _⟩

/-- A bucket without a byte has no row. -/
theorem intact_restart (h : Intact known g) (hempty : g.dir.file g.ctx.currentBucketIndex = some [])
    (pos : Nat) : Intact known { g with ctx := { g.ctx with currentBucketPos := pos } } where
  fresh := h.fresh
  keys := h.keys
  rows row hrow := by
    obtain ⟨body, hknown, i, offset, file, hi, hoff, hsize, hlt, hend, hfile, hheader, hin, hread,
      hle, -⟩ := h.rows row hrow
    refine ⟨body, hknown, i, offset, file, hi, hoff, hsize, hlt, hend, hfile, hheader, hin, hread,
      hle, fun heq => ?_⟩
    simp only at heq
    rw [heq, hempty] at hfile
    cases hfile
    exact absurd (Nat.le_trans hheader (Nat.le_trans (Nat.le_add_right _ _) hin)) (by decide)

theorem intact_next (h : Intact known g) {f : Option Fd} {sync : Bool} :
    Intact known { g with ctx := { g.ctx with
      currentBucketIndex := g.ctx.currentBucketIndex + 1, currentBucketF := f,
      currentBucketSync := sync } } where
  fresh i hi := h.fresh i (Nat.lt_of_succ_lt hi)
  keys := h.keys
  rows row hrow := by
    obtain ⟨body, hknown, hsafe⟩ := h.rows row hrow
    exact ⟨body, hknown, safeAt_assign hsafe (Nat.le_succ _) fun heq => absurd heq (Nat.succ_ne_self _)⟩

theorem along_closeCurrentBucketOps (h : Intact known g) (hopened : Opened g) :
    Along stepOp (Allowed known) g (closeCurrentBucketOps g.ctx) := by
  have hle := Nat.le_refl g.ctx.currentBucketPos
  unfold closeCurrentBucketOps
  rw [hopened.1]
  simp only
  split
  · exact ⟨intact_assign h rfl hle, trivial⟩
  · exact ⟨hopened, intact_assign h rfl hle, intact_assign h rfl hle, trivial⟩

theorem opened_write (hopened : Opened g) (offset : Nat) (data : Bytes) :
    Opened (stepOp g (.write offset data)) ∧ (stepOp g (.write offset data)).ctx = g.ctx := by
  obtain ⟨hf, file, hfile⟩ := hopened
  have hstep : stepOp g (.write offset data) = _ :=
    congrArg Prod.snd (writeCurrentBucket_opened hf hfile offset data)
  rw [hstep]
  exact ⟨⟨hf, _, BucketDir.put_file_self _ _ _⟩, rfl⟩

theorem opened_insertBucket (hopened : Opened g) :
    Opened (stepOp g .insertBucket) ∧ (stepOp g .insertBucket).ctx = g.ctx := by
  simp only [stepOp, runOp]
  split
  · exact ⟨hopened, rfl⟩
  · exact ⟨hopened, rfl⟩

/-- The calls that write the header of a new bucket. -/
def newHeaderOps : List Op :=
  [.write 0 bucketMagicNumber,
    .write bucketMagicNumber.length (beBytes bucketEndOffsetSize bucketHeaderSize), .sync false,
    .insertBucket]

theorem along_newHeaderOps (known : BlobRef → Bytes → Prop) (hopened : Opened g) :
    Along stepOp (Allowed known) g newHeaderOps ∧ Opened (exec stepOp g newHeaderOps) ∧
      (exec stepOp g newHeaderOps).ctx = g.ctx := by
  obtain ⟨hmagic, hctx⟩ := opened_write hopened 0 bucketMagicNumber
  obtain ⟨hend, hctx'⟩ := opened_write hmagic bucketMagicNumber.length
    (beBytes bucketEndOffsetSize bucketHeaderSize)
  obtain ⟨hinsert, hctx''⟩ := opened_insertBucket hend
  exact ⟨⟨⟨hopened, .inl (by decide)⟩, ⟨hmagic, .inl (by decide)⟩, hend, hend, trivial⟩, hinsert,
    hctx''.trans (hctx'.trans hctx)⟩

/-- The calls of `create_next_bucket`, and what an append finds after them. -/
theorem along_createNextBucketOps (h : Intact known g) (hopened : Opened g) :
    Along stepOp (Allowed known) g (createNextBucketOps g.ctx) ∧
      Opened (exec stepOp g (createNextBucketOps g.ctx)) ∧
      (exec stepOp g (createNextBucketOps g.ctx)).ctx.currentBucketIndex =
        g.ctx.currentBucketIndex + 1 ∧
      (exec stepOp g (createNextBucketOps g.ctx)).ctx.currentBucketPos = bucketHeaderSize := by
  have hclose : Along stepOp (Allowed known) g (closeCurrentBucketOps g.ctx) :=
    along_closeCurrentBucketOps h hopened
  obtain ⟨sync, hrun⟩ := runOps_closeCurrentBucketOps g
  have hnew : g.dir.file (g.ctx.currentBucketIndex + 1) = none := h.fresh _ (Nat.lt_succ_self _)
  have hnext : Intact known (stepOp { g with ctx := { g.ctx with
      currentBucketF := none, currentBucketSync := sync } } (.assign fun ctx =>
        { ctx with currentBucketIndex := ctx.currentBucketIndex + 1 })) := intact_next h
  have hcreated := intact_stepOp hnext (show Allowed known _ .create from hnew)
  have hcreate : stepOp (stepOp { g with ctx := { g.ctx with
      currentBucketF := none, currentBucketSync := sync } } (.assign fun ctx =>
        { ctx with currentBucketIndex := ctx.currentBucketIndex + 1 })) .create =
      ⟨g.dir.put (g.ctx.currentBucketIndex + 1) [], g.db, ⟨g.ctx.currentBucketIndex + 1,
        some (.bucket (g.ctx.currentBucketIndex + 1)), g.ctx.currentBucketPos, sync⟩⟩ := by
    simp only [stepOp, runOp, hnew]
  have hpos : stepOp ⟨g.dir.put (g.ctx.currentBucketIndex + 1) [], g.db,
      ⟨g.ctx.currentBucketIndex + 1, some (.bucket (g.ctx.currentBucketIndex + 1)),
        g.ctx.currentBucketPos, sync⟩⟩
      (.assign fun ctx => { ctx with currentBucketPos := bucketHeaderSize }) =
      ⟨g.dir.put (g.ctx.currentBucketIndex + 1) [], g.db, ⟨g.ctx.currentBucketIndex + 1,
        some (.bucket (g.ctx.currentBucketIndex + 1)), bucketHeaderSize, sync⟩⟩ := rfl
  rw [hcreate] at hcreated
  obtain ⟨halong, hopened', hctx⟩ := along_newHeaderOps known
    (g := ⟨g.dir.put (g.ctx.currentBucketIndex + 1) [], g.db, ⟨g.ctx.currentBucketIndex + 1,
      some (.bucket (g.ctx.currentBucketIndex + 1)), bucketHeaderSize, sync⟩⟩)
    ⟨rfl, [], BucketDir.put_file_self _ _ _⟩
  have hsplit : createNextBucketOps g.ctx = closeCurrentBucketOps g.ctx ++ (.assign fun ctx =>
      { ctx with currentBucketIndex := ctx.currentBucketIndex + 1 }) :: .create ::
      (.assign fun ctx => { ctx with currentBucketPos := bucketHeaderSize }) :: newHeaderOps := rfl
  rw [hsplit, exec_append, exec_stepOp hrun, exec_cons, exec_cons, hcreate, exec_cons, hpos, hctx]
  refine ⟨along_append.mpr ⟨hclose, ?_⟩, hopened', rfl, rfl⟩
  rw [exec_stepOp hrun]
  refine ⟨hnext, hnew, ?_⟩
  rw [hcreate]
  refine ⟨intact_restart hcreated (BucketDir.put_file_self _ _ _) bucketHeaderSize, ?_⟩
  rw [hpos]
  exact halong

/-- The calls of an append are allowed, and it leaves the current bucket open. -/
theorem along_appendOps (h : Intact known g) (hopened : Opened g)
    (hindex : g.ctx.currentBucketIndex + 1 < 2 ^ 63) {maxBucketSize : Nat}
    (hmax : maxBucketSize < 2 ^ 31) {blob : WritingBlob} {lastModified : UInt64}
    (hknown : known blob.key blob.body) {ops : List Op}
    (hops : appendOps maxBucketSize g.ctx blob lastModified = some ops) :
    Along stepOp (Allowed known) g ops ∧ Opened (exec stepOp g ops) := by
  obtain ⟨hmin, heq⟩ := appendOps_eq hops
  split at heq
  · obtain ⟨hroll, hopened', hindex', hpos⟩ := along_createNextBucketOps h hopened
    have hrecord := along_appendRecordOps (intact_along h hroll) hopened' (by rw [hindex']; exact hindex)
      hpos (Nat.lt_of_le_of_lt hmin hmax) hknown lastModified
    rw [heq, exec_append]
    exact ⟨along_append.mpr ⟨hroll, hrecord⟩, opened_appendRecordOps hopened'⟩
  · next hroom =>
    rw [heq]
    exact ⟨along_appendRecordOps h hopened (Nat.lt_of_succ_lt hindex) rfl
      (Nat.lt_of_le_of_lt (Nat.not_lt.mp hroom) hmax) hknown lastModified,
      opened_appendRecordOps hopened⟩

end Append

end IntactLemmas

end Everarch
