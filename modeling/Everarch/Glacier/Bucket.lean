import Everarch.Basic
import Everarch.Lib.Bytes
import Everarch.Lib.Run

/-!
# Bucket files

The format of the bucket files of glacier.c: a header with the end offset, and blobs
with a header each. `walkBucket` is `evr_glacier_walk_bucket`, which reads a bucket
from its first blob on and trusts nothing but the blob headers.

* `pullBlobHeader_blobHeader`: a blob header is read as it was written.
* `walkBucket_records`: a walk over records visits them one after the other.
-/

namespace Everarch

/-! ## Layout -/

/-- `evr_bucket_magic_number`, "EVB". -/
def bucketMagicNumber : Bytes := [0x45, 0x56, 0x42]

/-- `evr_bucket_end_offset_size`. -/
def bucketEndOffsetSize : Nat := 4

/-- `evr_bucket_header_size`. -/
def bucketHeaderSize : Nat := 7

/-- `evr_bucket_blob_header_size`: ref, flags, time, size and checksum. -/
def bucketBlobHeaderSize : Nat := blobRefSize + 1 + 8 + 4 + 1

/-- `evr_bucket_end_offset_corrupt`. -/
def bucketEndOffsetCorrupt : Nat := 0

/-- `evr_buf_pos_8bit_checksum`. -/
def bufPos8bitChecksum (buf : Bytes) : UInt8 :=
  ~~~ buf.foldl (· + ·) 0

/-- A blob header without its checksum. -/
def blobHeaderFields (key : BlobRef) (flags : UInt8) (t64 size : Nat) : Bytes :=
  key.toList ++ [flags] ++ beBytes 8 t64 ++ beBytes 4 size

/-- The header that `evr_glacier_append_blob` builds in `header_buf`. -/
def blobHeader (key : BlobRef) (flags : UInt8) (t64 size : Nat) : Bytes :=
  blobHeaderFields key flags t64 size ++ [bufPos8bitChecksum (blobHeaderFields key flags t64 size)]

/-- `evr_validate_bucket_magic_number`. -/
def validateBucketMagicNumber (file : Bytes) : Bool :=
  readAt file 0 3 == bucketMagicNumber

/-- `evr_read_bucket_end_offset`, none if the file is too short. -/
def readBucketEndOffset (file : Bytes) : Option Nat :=
  let buf := readAt file bucketMagicNumber.length bucketEndOffsetSize
  if buf.length < bucketEndOffsetSize then none else some (ofBeBytes buf)

/-- `evr_write_bucket_end_offset`. -/
def writeBucketEndOffset (file : Bytes) (endOffset : Nat) : Bytes :=
  writeAt file bucketMagicNumber.length (beBytes bucketEndOffsetSize endOffset)

/-! ## Walking a bucket -/

/-- `struct evr_glacier_bucket_blob_stat`. -/
@[ext]
structure BlobStat where
  ref : BlobRef
  flags : Int
  lastModified : Nat
  offset : Nat
  size : Nat
  checksum : UInt8
  checksumValid : Bool
deriving DecidableEq

/-- The fields that `evr_glacier_walk_bucket` pulls from a blob header. -/
def pullBlobHeader (buf : Bytes) (offset : Nat) : BlobStat where
  ref := Vector.ofFn fun i : Fin blobRefSize => buf.getD i 0
  flags := (buf.getD 28 0).toNat
  lastModified := ofBeBytes (readAt buf 29 8)
  offset := offset
  size := ofBeBytes (readAt buf 37 4)
  checksum := buf.getD 41 0
  checksumValid := bufPos8bitChecksum (buf.take 41) == buf.getD 41 0

section Walk

variable {σ : Type} (visitBlob : σ → BlobStat → Res × σ)

/-- The loop of `evr_glacier_walk_bucket` at `fPos`. Every pass moves on by a blob
header at least, so the length of the file bounds the passes. -/
def walkBucketLoop (file : Bytes) : Nat → Nat → σ → Res × σ
  | 0, _, st => (.noReturn, st)
  | passes + 1, fPos, st =>
    let buf := readAt file fPos bucketBlobHeaderSize
    if buf = [] then (.ok, st)
    else if buf.length < bucketBlobHeaderSize then (.end_, st)
    else
      let stat := pullBlobHeader buf (fPos + bucketBlobHeaderSize)
      match visitBlob st stat with
      | (.ok, st) => walkBucketLoop file passes (fPos + (bucketBlobHeaderSize + stat.size)) st
      | (.end_, st) => (.end_, st)
      | (.noReturn, st) => (.noReturn, st)
      | (_, st) => (.error, st)

/-- `evr_glacier_walk_bucket` without a `visit_bucket`. -/
def walkBucket (file : Bytes) (st : σ) : Res × σ :=
  match readBucketEndOffset file with
  | none => (.error, st)
  | some _ => walkBucketLoop visitBlob file (file.length + 1) bucketHeaderSize st

end Walk

/-! ## Records -/

/-- A blob as it stands in a bucket. -/
structure Record where
  key : BlobRef
  flags : UInt8
  lastModified : Nat
  body : Bytes
  lastModified_lt : lastModified < 2 ^ 64
  size_lt : body.length < 2 ^ 32

/-- The bytes of a record: its header and its body. -/
def Record.bytes (r : Record) : Bytes :=
  blobHeader r.key r.flags r.lastModified r.body.length ++ r.body

/-- What a walk reports about a record at `fPos`. -/
def Record.stat (r : Record) (fPos : Nat) : BlobStat where
  ref := r.key
  flags := r.flags.toNat
  lastModified := r.lastModified
  offset := fPos + bucketBlobHeaderSize
  size := r.body.length
  checksum := bufPos8bitChecksum (blobHeaderFields r.key r.flags r.lastModified r.body.length)
  checksumValid := true

/-- Records back to back. -/
def recordsBytes (rs : List Record) : Bytes :=
  rs.flatMap Record.bytes

/-- A bucket file with the given end offset in its header. -/
def bucketBytes (endOffset : Nat) (content : Bytes) : Bytes :=
  bucketMagicNumber ++ beBytes bucketEndOffsetSize endOffset ++ content

/-- The records with their positions in the bucket. -/
def positions : Nat → List Record → List (Nat × Record)
  | _, [] => []
  | fPos, r :: rs => (fPos, r) :: positions (fPos + r.bytes.length) rs

namespace BucketLemmas

theorem length_key (key : BlobRef) : key.toList.length = 28 :=
  Vector.length_toList

theorem length_blobHeaderFields (key : BlobRef) (flags : UInt8) (t64 size : Nat) :
    (blobHeaderFields key flags t64 size).length = 41 := by
  simp only [blobHeaderFields, List.length_append, length_key, length_beBytes, List.length_singleton]

@[simp] theorem length_blobHeader (key : BlobRef) (flags : UInt8) (t64 size : Nat) :
    (blobHeader key flags t64 size).length = bucketBlobHeaderSize := by
  rw [blobHeader, List.length_append, length_blobHeaderFields]
  rfl

theorem length_bytes (r : Record) : r.bytes.length = bucketBlobHeaderSize + r.body.length := by
  rw [Record.bytes, List.length_append, length_blobHeader]

theorem getD_key (key : BlobRef) (after : Bytes) {i : Nat} (hi : i < 28) :
    (key.toList ++ after).getD i 0 = key[i] := by
  have hlt : i < key.toList.length := by rw [length_key]; exact hi
  rw [List.getD_eq_getElem?_getD, List.getElem?_append_left hlt, List.getElem?_eq_getElem hlt]
  exact Vector.getElem_toList hlt

theorem pullBlobHeader_blobHeader (r : Record) (fPos : Nat) :
    pullBlobHeader (blobHeader r.key r.flags r.lastModified r.body.length)
      (fPos + bucketBlobHeaderSize) = r.stat fPos := by
  have hkey := length_key r.key
  have hfields := length_blobHeaderFields r.key r.flags r.lastModified r.body.length
  have hlast : (blobHeader r.key r.flags r.lastModified r.body.length).getD 41 0 = _ :=
    getD_middle (List.append_nil _).symm hfields
  apply BlobStat.ext
  · apply Vector.ext
    intro i hi
    show (Vector.ofFn _)[i] = r.key[i]
    rw [Vector.getElem_ofFn]
    simp only [blobHeader, blobHeaderFields, List.append_assoc]
    exact getD_key r.key _ hi
  · have hflags : (blobHeader r.key r.flags r.lastModified r.body.length).getD 28 0 = _ :=
      getD_middle (by simp only [blobHeader, blobHeaderFields, List.append_assoc]; rfl) hkey
    exact congrArg (fun b : UInt8 => (b.toNat : Int)) hflags
  · have htime : readAt (blobHeader r.key r.flags r.lastModified r.body.length) 29 8 =
        beBytes 8 r.lastModified :=
      readAt_middle (List.append_assoc _ (beBytes 4 _) _) (by simp [hkey]) (length_beBytes 8 _)
    exact (congrArg ofBeBytes htime).trans (ofBeBytes_beBytes r.lastModified_lt)
  · rfl
  · have hsize : readAt (blobHeader r.key r.flags r.lastModified r.body.length) 37 4 =
        beBytes 4 r.body.length :=
      readAt_middle rfl (by simp [hkey]) (length_beBytes 4 _)
    exact (congrArg ofBeBytes hsize).trans (ofBeBytes_beBytes r.size_lt)
  · exact hlast
  · show (bufPos8bitChecksum (List.take 41 _) == _) = true
    rw [hlast, blobHeader, List.take_left' hfields, beq_self_eq_true]

@[simp] theorem length_bucketBytes (endOffset : Nat) (content : Bytes) :
    (bucketBytes endOffset content).length = bucketHeaderSize + content.length := by
  simp only [bucketBytes, List.length_append, length_beBytes]
  rfl

theorem validate_bucketBytes (endOffset : Nat) (content : Bytes) :
    validateBucketMagicNumber (bucketBytes endOffset content) = true := by
  rfl

theorem readBucketEndOffset_eq (endOffset content : Bytes) (h : endOffset.length = 4) :
    readBucketEndOffset (bucketMagicNumber ++ endOffset ++ content) =
      some (ofBeBytes endOffset) := by
  have hread : readAt (bucketMagicNumber ++ endOffset ++ content) bucketMagicNumber.length
      bucketEndOffsetSize = endOffset := readAt_middle rfl rfl h
  unfold readBucketEndOffset
  simp only [hread, h]
  rfl

theorem readBucketEndOffset_bucketBytes {endOffset : Nat} (h : endOffset < 2 ^ 32)
    (content : Bytes) : readBucketEndOffset (bucketBytes endOffset content) = some endOffset := by
  exact (readBucketEndOffset_eq _ _ (length_beBytes _ _)).trans
    (congrArg some (ofBeBytes_beBytes h))

theorem drop_bucketBytes (endOffset : Nat) (content : Bytes) (n : Nat) :
    (bucketBytes endOffset content).drop (bucketHeaderSize + n) = content.drop n := by
  have hlen : (bucketMagicNumber ++ beBytes bucketEndOffsetSize endOffset).length =
    bucketHeaderSize := rfl
  rw [bucketBytes, ← hlen, List.drop_append, List.drop_eq_nil_of_le (by simp),
    Nat.add_sub_cancel_left, List.nil_append]

theorem writeBucketEndOffset_bucketBytes (endOffset endOffset' : Nat) (content : Bytes) :
    writeBucketEndOffset (bucketBytes endOffset content) endOffset' =
      bucketBytes endOffset' content := by
  rw [writeBucketEndOffset, bucketBytes, writeAt_middle _ _ _ _ (by simp), length_beBytes,
    List.drop_eq_nil_of_le (by simp)]
  simp [bucketBytes]

theorem length_le_recordsBytes (rs : List Record) : rs.length ≤ (recordsBytes rs).length := by
  induction rs with
  | nil => exact Nat.zero_le _
  | cons r rs ih =>
    have hr := length_bytes r
    have hpos : 1 ≤ bucketBlobHeaderSize := by decide
    rw [recordsBytes, List.flatMap_cons, List.length_append, List.length_cons]
    unfold recordsBytes at ih
    omega

section Walk

variable {σ : Type} {visitBlob : σ → BlobStat → Res × σ}

/-- A walk keeps what the visitor keeps. -/
theorem walkBucketLoop_keeps {P : σ → Prop} (hvisit : ∀ st stat, P st → P (visitBlob st stat).2)
    (file : Bytes) (passes fPos : Nat) {st : σ} (h : P st) :
    P (walkBucketLoop visitBlob file passes fPos st).2 := by
  induction passes generalizing fPos st with
  | zero => exact h
  | succ passes ih =>
    unfold walkBucketLoop
    simp only
    split
    · exact h
    · split
      · exact h
      · have hnext := hvisit st (pullBlobHeader (readAt file fPos bucketBlobHeaderSize)
          (fPos + bucketBlobHeaderSize)) h
        split
        · next heq =>
          rw [heq] at hnext
          exact ih _ hnext
        · next heq => rw [heq] at hnext; exact hnext
        · next heq => rw [heq] at hnext; exact hnext
        · next heq => rw [heq] at hnext; exact hnext

theorem walkBucket_keeps {P : σ → Prop} (hvisit : ∀ st stat, P st → P (visitBlob st stat).2)
    (file : Bytes) {st : σ} (h : P st) : P (walkBucket visitBlob file st).2 := by
  unfold walkBucket
  split
  · exact h
  · exact walkBucketLoop_keeps hvisit file _ _ h

/-- One pass at a blob header. -/
theorem walkBucketLoop_header {file after : Bytes} (r : Record) {fPos passes : Nat} {st : σ}
    (hfile : file.drop fPos =
      blobHeader r.key r.flags r.lastModified r.body.length ++ after) :
    walkBucketLoop visitBlob file (passes + 1) fPos st =
      match visitBlob st (r.stat fPos) with
      | (.ok, st) => walkBucketLoop visitBlob file passes (fPos + r.bytes.length) st
      | (.end_, st) => (.end_, st)
      | (.noReturn, st) => (.noReturn, st)
      | (_, st) => (.error, st) := by
  have hbuf : readAt file fPos bucketBlobHeaderSize =
      blobHeader r.key r.flags r.lastModified r.body.length := by
    rw [readAt, hfile, List.take_left' (length_blobHeader _ _ _ _)]
  have hne : blobHeader r.key r.flags r.lastModified r.body.length ≠ [] := by
    simp [blobHeader]
  rw [walkBucketLoop]
  simp only [hbuf, hne, if_false, length_blobHeader, Nat.lt_irrefl, pullBlobHeader_blobHeader,
    length_bytes]
  rfl

/-- A walk over records that the visitor accepts. -/
theorem walkBucketLoop_records {file after : Bytes} {rs : List Record} {fPos passes : Nat} {st : σ}
    (hfile : file.drop fPos = recordsBytes rs ++ after)
    (hvisit : ∀ st, ∀ p ∈ positions fPos rs, (visitBlob st (p.2.stat p.1)).1 = .ok) :
    walkBucketLoop visitBlob file (rs.length + passes) fPos st =
      walkBucketLoop visitBlob file passes (fPos + (recordsBytes rs).length)
        (exec (fun st p => (visitBlob st (p.2.stat p.1)).2) st (positions fPos rs)) := by
  induction rs generalizing fPos st with
  | nil => simp [recordsBytes, positions]
  | cons r rs ih =>
    have hfile' : file.drop fPos = r.bytes ++ (recordsBytes rs ++ after) := by
      rw [hfile, recordsBytes, List.flatMap_cons, List.append_assoc]
      rfl
    have hnext : file.drop (fPos + r.bytes.length) = recordsBytes rs ++ after := by
      rw [← List.drop_drop, hfile', List.drop_left]
    have hheader : file.drop fPos =
        blobHeader r.key r.flags r.lastModified r.body.length ++
          (r.body ++ (recordsBytes rs ++ after)) := by
      rw [hfile', Record.bytes, List.append_assoc]
    have hok : visitBlob st (r.stat fPos) = (.ok, (visitBlob st (r.stat fPos)).2) :=
      Prod.ext (hvisit st (fPos, r) List.mem_cons_self) rfl
    have hlen : (recordsBytes (r :: rs)).length = r.bytes.length + (recordsBytes rs).length := by
      simp [recordsBytes]
    rw [List.length_cons, Nat.add_right_comm, walkBucketLoop_header r hheader, hok]
    simp only
    rw [ih hnext fun st p hp => hvisit st p (List.mem_cons_of_mem _ hp), hlen, Nat.add_assoc]
    rfl

theorem walkBucketLoop_end {file : Bytes} {fPos passes : Nat} {st : σ}
    (h : file.drop fPos = []) :
    walkBucketLoop visitBlob file (passes + 1) fPos st = (.ok, st) := by
  have hbuf : readAt file fPos bucketBlobHeaderSize = [] := by rw [readAt, h, List.take_nil]
  simp [walkBucketLoop, hbuf]

theorem walkBucketLoop_torn {file : Bytes} {fPos passes : Nat} {st : σ}
    (hne : file.drop fPos ≠ []) (hlt : (file.drop fPos).length < bucketBlobHeaderSize) :
    walkBucketLoop visitBlob file (passes + 1) fPos st = (.end_, st) := by
  have hbuf : readAt file fPos bucketBlobHeaderSize = file.drop fPos :=
    List.take_of_length_le (Nat.le_of_lt hlt)
  simp only [walkBucketLoop, hbuf, hne, if_false, hlt, if_true]

theorem walkBucket_eq (endOffset : Nat) (content : Bytes) (st : σ) :
    walkBucket visitBlob (bucketBytes endOffset content) st =
      walkBucketLoop visitBlob (bucketBytes endOffset content)
        ((bucketBytes endOffset content).length + 1) bucketHeaderSize st := by
  have hread : readBucketEndOffset (bucketBytes endOffset content) = _ :=
    readBucketEndOffset_eq _ _ (length_beBytes _ _)
  rw [walkBucket, hread]

/-- The records of a bucket have been visited when the walk comes to what follows them. -/
theorem walkBucket_records (endOffset : Nat) {rs : List Record} (after : Bytes) (st : σ)
    (hvisit : ∀ st, ∀ p ∈ positions bucketHeaderSize rs, (visitBlob st (p.2.stat p.1)).1 = .ok) :
    ∃ passes, walkBucket visitBlob (bucketBytes endOffset (recordsBytes rs ++ after)) st =
      walkBucketLoop visitBlob (bucketBytes endOffset (recordsBytes rs ++ after)) (passes + 1)
        (bucketHeaderSize + (recordsBytes rs).length)
        (exec (fun st p => (visitBlob st (p.2.stat p.1)).2) st (positions bucketHeaderSize rs)) := by
  have hle := length_le_recordsBytes rs
  have hlen := length_bucketBytes endOffset (recordsBytes rs ++ after)
  rw [List.length_append] at hlen
  obtain ⟨passes, hpasses⟩ : ∃ passes,
      (bucketBytes endOffset (recordsBytes rs ++ after)).length + 1 = rs.length + (passes + 1) :=
    ⟨bucketHeaderSize + (recordsBytes rs).length + after.length - rs.length, by omega⟩
  refine ⟨passes, ?_⟩
  rw [walkBucket_eq, hpasses]
  exact walkBucketLoop_records (drop_bucketBytes endOffset _ 0) hvisit

/-- A walk over a bucket that ends with records or with a part of a blob header. -/
theorem walkBucket_torn {endOffset : Nat} {rs : List Record} {after : Bytes} {st : σ}
    (hvisit : ∀ st, ∀ p ∈ positions bucketHeaderSize rs, (visitBlob st (p.2.stat p.1)).1 = .ok)
    (hafter : after.length < bucketBlobHeaderSize) :
    walkBucket visitBlob (bucketBytes endOffset (recordsBytes rs ++ after)) st =
      (if after = [] then .ok else .end_,
        exec (fun st p => (visitBlob st (p.2.stat p.1)).2) st (positions bucketHeaderSize rs)) := by
  obtain ⟨passes, hwalk⟩ := walkBucket_records endOffset after st hvisit
  have hdrop : (bucketBytes endOffset (recordsBytes rs ++ after)).drop
      (bucketHeaderSize + (recordsBytes rs).length) = after := by
    rw [drop_bucketBytes, List.drop_left]
  rw [hwalk]
  cases after with
  | nil => exact walkBucketLoop_end hdrop
  | cons b bs =>
    exact walkBucketLoop_torn (by rw [hdrop]; exact List.cons_ne_nil _ _) (by rw [hdrop]; exact hafter)

/-- A walk over a bucket whose last record the visitor does not accept. -/
theorem walkBucket_refused {endOffset : Nat} {rs : List Record} {r : Record} {after : Bytes}
    {st : σ}
    (hvisit : ∀ st, ∀ p ∈ positions bucketHeaderSize rs, (visitBlob st (p.2.stat p.1)).1 = .ok)
    (hlast : ∀ st, (visitBlob st (r.stat (bucketHeaderSize + (recordsBytes rs).length))).1 = .error) :
    (walkBucket visitBlob (bucketBytes endOffset (recordsBytes rs ++
      (blobHeader r.key r.flags r.lastModified r.body.length ++ after))) st).1 = .error := by
  obtain ⟨passes, hwalk⟩ := walkBucket_records endOffset
    (blobHeader r.key r.flags r.lastModified r.body.length ++ after) st hvisit
  rw [hwalk, walkBucketLoop_header r (by rw [drop_bucketBytes, List.drop_left])]
  have hres := hlast
    (exec (fun st p => (visitBlob st (p.2.stat p.1)).2) st (positions bucketHeaderSize rs))
  split
  · next heq => rw [heq] at hres; cases hres
  · next heq => rw [heq] at hres; cases hres
  · next heq => rw [heq] at hres; cases hres
  · rfl

end Walk

end BucketLemmas

end Everarch
