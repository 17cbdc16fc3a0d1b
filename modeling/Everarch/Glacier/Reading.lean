import Everarch.Glacier.Check

/-!
# Reading a blob of any bucket

`evr_glacier_read_blob` with reads that may be short or fail and callbacks that do as they
like, over any row and any bucket. The check of the index has its own reader
(`readBlob`), whose reads are never short.

* `readLoop_full`: the two readers agree where the reader of the check returns.
* `read_blob_ends_iff`: when the call always returns, and with `evr_ok` only after it has handed
  over the bytes that the row names.

A `read` at the end of the file returns 0. The loop takes this for progress, hands no bytes
to `on_data` and reads again. A bucket that cannot be opened is descriptor 1, which is read as
the bucket and closed.
-/

namespace Everarch

/-- What the system answers in one call of `evr_glacier_read_blob`. The `n`-th `read`
fails or returns at most `m + 1` bytes, where it is `some m`. -/
structure ReadCalls where
  bindKey : Bool
  stepRow : Bool
  openFile : Bool
  read : Nat → Option Nat
  closeFile : Bool
  reset : Bool

/-- Every call succeeds, and no read is short. -/
def ReadCalls.full : ReadCalls where
  bindKey := true
  stepRow := true
  openFile := true
  read := fun _ => some readBufferSize
  closeFile := true
  reset := true

/-- The state of the loop, with the buffers that have been handed to `on_data`. -/
structure ReadLoop (σ : Type) where
  bytesRead : Nat
  handed : List Bytes
  arg : σ

/-- A loop that has not read anything. -/
def ReadLoop.start {σ : Type} (arg : σ) : ReadLoop σ :=
  ⟨0, [], arg⟩

section Read

variable {σ : Type} (sys : ReadCalls) (onData : σ → Bytes → Int × σ)

/-- The passes of the loop of `evr_glacier_read_blob` from the `n`-th `read` on, `none` if
the loop has not ended after `passes` of them. -/
def readLoop (file : Bytes) (offset blobSize : Nat) :
    Nat → Nat → ReadLoop σ → Option (Res × ReadLoop σ)
  | 0, _, _ => none
  | passes + 1, n, l =>
    if blobSize ≤ l.bytesRead then some (.ok, l)
    else
      match sys.read n with
      | none => some (.error, l)
      | some more =>
        let count := min readBufferSize (blobSize - l.bytesRead)
        let buf := readAt file (offset + l.bytesRead) (min (more + 1) count)
        let (res, arg) := onData l.arg buf
        if res ≠ 0 then some (.error, ⟨l.bytesRead, l.handed ++ [buf], arg⟩)
        else
          readLoop file offset blobSize passes (n + 1)
            ⟨l.bytesRead + buf.length, l.handed ++ [buf], arg⟩

/-- `end_with_find_reset`. -/
def endWithFindReset (ret : Res × ReadLoop σ) : Res × ReadLoop σ :=
  (if sys.reset then ret.1 else .error, ret.2)

/-- `end_with_open_bucket`. -/
def endWithOpenBucket (ret : Res × ReadLoop σ) : Res × ReadLoop σ :=
  endWithFindReset sys (if sys.closeFile then ret.1 else .error, ret.2)

/-- The file behind `bucket_f`. `evr_open_bucket` returns 1 where `open` fails, and `one` is the
content of what descriptor 1 stands for, none if `lseek` or `read` fails on it. -/
def openedBucket (dir : BucketDir) (one : Option Bytes) (row : BlobPosition) : Option Bytes :=
  match dir.file (row.bucketIndex % 2 ^ 64).toNat with
  | none => one
  | some file => if sys.openFile then some file else one

/-- `evr_glacier_read_blob` within `passes` passes of its loop. -/
def glacierReadBlob (status : σ → Bool → Int → Nat → Res × σ) (dir : BucketDir)
    (one : Option Bytes) (db : IndexDb) (key : BlobRef) (passes : Nat) (arg : σ) :
    Option (Res × ReadLoop σ) :=
  if !sys.bindKey || !sys.stepRow then some (endWithFindReset sys (.error, .start arg))
  else
    match db.blobPosition.find? fun r => r.key = key with
    | none =>
      match status arg false 0 0 with
      | (.ok, arg) => some (endWithFindReset sys (.notFound, .start arg))
      | (.end_, arg) => some (endWithFindReset sys (.end_, .start arg))
      | (_, arg) => some (endWithFindReset sys (.error, .start arg))
    | some row =>
      let blobSize := columnSize row.blobSize
      match openedBucket sys dir one row with
      | none => some (endWithOpenBucket sys (.error, .start arg))
      | some file =>
        if !validateBucketMagicNumber file then
          some (endWithOpenBucket sys (.error, .start arg))
        -- lseek refuses negative offsets
        else if toInt32 row.bucketBlobOffset < 0 then
          some (endWithOpenBucket sys (.error, .start arg))
        else
          match status arg true (toInt32 row.flags) blobSize with
          | (.ok, arg) =>
            (readLoop sys onData file (columnSize row.bucketBlobOffset) blobSize passes 0
              (.start arg)).map (endWithOpenBucket sys)
          | (.end_, arg) => some (endWithOpenBucket sys (.end_, .start arg))
          | (_, arg) => some (endWithOpenBucket sys (.error, .start arg))

end Read

/-- The bucket of the key's row has all bytes that the row names, where it can be read at that
offset. Descriptor 1 stands for no bucket, or for one with the same bytes there. -/
def LongEnough (dir : BucketDir) (one : Option Bytes) (db : IndexDb) (key : BlobRef) : Prop :=
  ∀ row, (db.blobPosition.find? fun r => r.key = key) = some row →
    0 ≤ toInt32 row.bucketBlobOffset → columnSize row.blobSize ≠ 0 →
    (∀ file, dir.file (row.bucketIndex % 2 ^ 64).toNat = some file →
      validateBucketMagicNumber file = true →
      columnSize row.bucketBlobOffset + columnSize row.blobSize ≤ file.length) ∧
    ∀ file, one = some file → validateBucketMagicNumber file = true →
      columnSize row.bucketBlobOffset + columnSize row.blobSize ≤ file.length ∧
      ∃ bucket, dir.file (row.bucketIndex % 2 ^ 64).toNat = some bucket ∧
        readAt file (columnSize row.bucketBlobOffset) (columnSize row.blobSize) =
          readAt bucket (columnSize row.bucketBlobOffset) (columnSize row.blobSize)

/-- The buffers are the bytes of the bucket that the row of the key names, all of them. -/
def HandedRow (dir : BucketDir) (db : IndexDb) (key : BlobRef) (handed : List Bytes) : Prop :=
  ∃ row, (db.blobPosition.find? fun r => r.key = key) = some row ∧
    handed.flatten.length = columnSize row.blobSize ∧
    (columnSize row.blobSize ≠ 0 → ∃ file, dir.file (row.bucketIndex % 2 ^ 64).toNat = some file ∧
      handed.flatten = readAt file (columnSize row.bucketBlobOffset) (columnSize row.blobSize))

/-- The call returns, and with `evr_ok` only after it has handed over the row's bytes. -/
def ReadsToEnd {σ : Type} (sys : ReadCalls) (onData : σ → Bytes → Int × σ)
    (status : σ → Bool → Int → Nat → Res × σ) (dir : BucketDir) (one : Option Bytes)
    (db : IndexDb) (key : BlobRef) (arg : σ) : Prop :=
  (∃ passes, (glacierReadBlob sys onData status dir one db key passes arg).isSome) ∧
    ∀ passes l, glacierReadBlob sys onData status dir one db key passes arg = some (.ok, l) →
      HandedRow dir db key l.handed

namespace ReadingLemmas

section Loop

variable {σ : Type} {sys : ReadCalls} {onData : σ → Bytes → Int × σ} {file : Bytes}
  {offset blobSize : Nat}

theorem length_readAt_le (file : Bytes) (offset n : Nat) :
    (readAt file offset n).length ≤ n := by
  rw [readAt, List.length_take]
  exact Nat.min_le_left _ _

theorem length_readAt_le_rest (file : Bytes) (offset n : Nat) :
    (readAt file offset n).length ≤ file.length - offset := by
  rw [readAt, List.length_take, List.length_drop]
  exact Nat.min_le_right _ _

theorem readAt_pos {n : Nat} (hn : 0 < n) (hlt : offset < file.length) :
    0 < (readAt file offset n).length := by
  rw [readAt, List.length_take, List.length_drop]
  omega

/-- A read is the same as one of only the bytes that it returns. -/
theorem readAt_length (file : Bytes) (offset n : Nat) :
    readAt file offset (readAt file offset n).length = readAt file offset n := by
  rw [readAt, readAt, List.length_take, List.take_eq_take_iff, List.length_drop]
  omega

/-- The buffers handed over so far are the bytes read so far. -/
def HandedSoFar (file : Bytes) (offset : Nat) (l : ReadLoop σ) : Prop :=
  l.handed.flatten = readAt file offset l.bytesRead ∧ l.handed.flatten.length = l.bytesRead

theorem handedSoFar_start (arg : σ) : HandedSoFar file offset (.start arg) :=
  ⟨by simp [ReadLoop.start, readAt], rfl⟩

theorem handedSoFar_pass {l : ReadLoop σ} (h : HandedSoFar file offset l) (n : Nat) (arg : σ) :
    HandedSoFar file offset
      ⟨l.bytesRead + (readAt file (offset + l.bytesRead) n).length,
        l.handed ++ [readAt file (offset + l.bytesRead) n], arg⟩ := by
  constructor
  · rw [readAt_add, readAt_length, List.flatten_append, h.1]
    simp
  · simp [h.2]

/-- The loop ends with `evr_ok` only after it has handed over all bytes. -/
theorem handed_of_readLoop {passes n : Nat} {l l' : ReadLoop σ} (h : HandedSoFar file offset l)
    (hle : l.bytesRead ≤ blobSize)
    (hloop : readLoop sys onData file offset blobSize passes n l = some (.ok, l')) :
    l'.handed.flatten.length = blobSize ∧ l'.handed.flatten = readAt file offset blobSize := by
  induction passes generalizing n l with
  | zero => cases hloop
  | succ passes ih =>
    rw [readLoop] at hloop
    split at hloop
    case isTrue hdone =>
      cases hloop
      have heq : l'.bytesRead = blobSize := Nat.le_antisymm hle hdone
      exact ⟨h.2.trans heq, heq ▸ h.1⟩
    case isFalse =>
      split at hloop
      · cases hloop
      · dsimp only at hloop
        split at hloop
        · cases hloop
        · refine ih (handedSoFar_pass h _ _) ?_ hloop
          have hrest : l.bytesRead + (blobSize - l.bytesRead) = blobSize := Nat.add_sub_cancel' hle
          refine (Nat.add_le_add_left ((length_readAt_le file _ _).trans ?_) _).trans_eq hrest
          exact (Nat.min_le_right _ _).trans (Nat.min_le_right _ _)

/-- While the file has the bytes, every pass but a last one reads some of them. -/
theorem readLoop_ends (hlong : blobSize = 0 ∨ offset + blobSize ≤ file.length)
    {passes n : Nat} {l : ReadLoop σ} (hpasses : blobSize - l.bytesRead < passes) :
    (readLoop sys onData file offset blobSize passes n l).isSome := by
  induction passes generalizing n l with
  | zero => exact absurd hpasses (Nat.not_lt_zero _)
  | succ passes ih =>
    rw [readLoop]
    split
    · rfl
    · next hlt =>
      cases sys.read n with
      | none => rfl
      | some more =>
        dsimp only
        split
        · rfl
        · have hcount : 0 < min (more + 1) (min readBufferSize (blobSize - l.bytesRead)) := by
            rw [readBufferSize]
            omega
          have hbuf := readAt_pos hcount (show offset + l.bytesRead < file.length by omega)
          exact ih (Nat.lt_of_lt_of_le (Nat.sub_lt_sub_left (Nat.not_le.mp hlt)
            (Nat.lt_add_of_pos_right hbuf)) (Nat.le_of_lt_succ hpasses))

/-- A callback that takes everything. -/
def takeAll : Unit → Bytes → Int × Unit :=
  fun _ _ => (0, ())

/-- Behind the end of the file the loop goes on without reading anything. -/
theorem readLoop_endless (hread : sys.read = ReadCalls.full.read)
    (hshort : file.length < offset + blobSize) {passes n : Nat} {l : ReadLoop Unit}
    (hlt : l.bytesRead < blobSize) :
    readLoop sys takeAll file offset blobSize passes n l = none := by
  induction passes generalizing n l with
  | zero => rfl
  | succ passes ih =>
    rw [readLoop, if_neg (Nat.not_le.mpr hlt), hread]
    simp only [ReadCalls.full, takeAll, ne_eq, not_true_eq_false, if_false]
    apply ih
    have hle := length_readAt_le file (offset + l.bytesRead)
      (min (readBufferSize + 1) (min readBufferSize (blobSize - l.bytesRead)))
    have hrest := length_readAt_le_rest file (offset + l.bytesRead)
      (min (readBufferSize + 1) (min readBufferSize (blobSize - l.bytesRead)))
    dsimp only
    omega

/-- Nothing but the end of the file keeps it from `evr_ok`. -/
theorem readLoop_ok (hread : sys.read = ReadCalls.full.read) {passes n : Nat}
    {l l' : ReadLoop Unit} {res : Res}
    (h : readLoop sys takeAll file offset blobSize passes n l = some (res, l')) : res = .ok := by
  induction passes generalizing n l with
  | zero => cases h
  | succ passes ih =>
    rw [readLoop] at h
    split at h
    · cases h
      rfl
    · rw [hread] at h
      simp only [ReadCalls.full, takeAll, ne_eq, not_true_eq_false, if_false] at h
      exact ih h

/-- The reader of the check is the reader whose reads are all full. -/
theorem readLoop_full {onCheck : σ → Bytes → Res × σ}
    (hcheck : ∀ arg buf, onCheck arg buf = (if (onData arg buf).1 = 0 then .ok else .error,
      (onData arg buf).2)) {passes n remaining : Nat} {l : ReadLoop σ}
    (hle : l.bytesRead ≤ blobSize) (hremaining : remaining = blobSize - l.bytesRead)
    (hret : (readBlobLoop onCheck file passes (offset + l.bytesRead) remaining l.arg).1 ≠
      .noReturn) :
    (readLoop .full onData file offset blobSize passes n l).map (fun r => (r.1, r.2.arg)) =
      some (readBlobLoop onCheck file passes (offset + l.bytesRead) remaining l.arg) := by
  induction passes generalizing n remaining l with
  | zero => exact absurd rfl hret
  | succ passes ih =>
    subst hremaining
    rw [readBlobLoop] at hret ⊢
    rw [readLoop]
    by_cases hdone : blobSize ≤ l.bytesRead
    · simp [hdone, Nat.sub_eq_zero_of_le hdone]
    · have hrest : blobSize - l.bytesRead ≠ 0 := Nat.sub_ne_zero_of_lt (Nat.not_le.mp hdone)
      have hcount : min (readBufferSize + 1) (min readBufferSize (blobSize - l.bytesRead)) =
          min readBufferSize (blobSize - l.bytesRead) :=
        Nat.min_eq_right ((Nat.min_le_left _ _).trans (Nat.le_succ _))
      rw [if_neg hrest] at hret ⊢
      rw [if_neg hdone]
      simp only [ReadCalls.full, hcount, hcheck] at hret ⊢
      by_cases hres : (onData l.arg (readAt file (offset + l.bytesRead)
          (min readBufferSize (blobSize - l.bytesRead)))).1 = 0
      · simp only [hres, ne_eq, not_true_eq_false, if_true, if_false] at hret ⊢
        have hbuf := (length_readAt_le file (offset + l.bytesRead)
          (min readBufferSize (blobSize - l.bytesRead))).trans (Nat.min_le_right _ _)
        rw [Nat.add_assoc] at hret ⊢
        exact ih (l := ⟨_, _, _⟩) (by dsimp only; omega) (by dsimp only; omega) hret
      · simp [hres]

end Loop

section Call

variable {σ : Type} {sys : ReadCalls} {onData : σ → Bytes → Int × σ}
  {status : σ → Bool → Int → Nat → Res × σ} {dir : BucketDir} {one : Option Bytes}
  {db : IndexDb} {key : BlobRef} {arg : σ}

theorem endWithFindReset_ok {ret : Res × ReadLoop σ} {l : ReadLoop σ}
    (h : endWithFindReset sys ret = (.ok, l)) : ret = (.ok, l) := by
  unfold endWithFindReset at h
  split at h
  · exact h
  · cases h

theorem endWithOpenBucket_ok {ret : Res × ReadLoop σ} {l : ReadLoop σ}
    (h : endWithOpenBucket sys ret = (.ok, l)) : ret = (.ok, l) := by
  have h := endWithFindReset_ok h
  split at h
  · exact h
  · cases h

/-- What comes out of a call: an end without `evr_ok`, or what comes out of its loop. -/
theorem glacierReadBlob_cases (sys : ReadCalls) (onData : σ → Bytes → Int × σ)
    (status : σ → Bool → Int → Nat → Res × σ) (dir : BucketDir) (one : Option Bytes)
    (db : IndexDb) (key : BlobRef) (arg : σ) :
    (∃ res l, (∀ passes, glacierReadBlob sys onData status dir one db key passes arg =
        some (res, l)) ∧ res ≠ .ok) ∨
    ∃ row file arg', (db.blobPosition.find? fun r => r.key = key) = some row ∧
      openedBucket sys dir one row = some file ∧
      validateBucketMagicNumber file = true ∧ 0 ≤ toInt32 row.bucketBlobOffset ∧
      ∀ passes, glacierReadBlob sys onData status dir one db key passes arg =
        (readLoop sys onData file (columnSize row.bucketBlobOffset) (columnSize row.blobSize)
          passes 0 (.start arg')).map (endWithOpenBucket sys) := by
  have hfind (res : Res) (arg : σ) (h : res ≠ .ok) :
      (endWithFindReset sys (res, ReadLoop.start arg)).1 ≠ .ok :=
    fun heq => h (congrArg Prod.fst (endWithFindReset_ok (Prod.ext heq rfl)))
  have hopen (res : Res) (arg : σ) (h : res ≠ .ok) :
      (endWithOpenBucket sys (res, ReadLoop.start arg)).1 ≠ .ok :=
    fun heq => h (congrArg Prod.fst (endWithOpenBucket_ok (Prod.ext heq rfl)))
  unfold glacierReadBlob
  split
  · exact .inl ⟨_, _, fun _ => rfl, hfind _ _ (by decide)⟩
  · split
    · split
      · exact .inl ⟨_, _, fun _ => rfl, hfind _ _ (by decide)⟩
      · exact .inl ⟨_, _, fun _ => rfl, hfind _ _ (by decide)⟩
      · exact .inl ⟨_, _, fun _ => rfl, hfind _ _ (by decide)⟩
    · next row hrow =>
      dsimp only
      split
      · exact .inl ⟨_, _, fun _ => rfl, hopen _ _ (by decide)⟩
      · next file hfile =>
        split
        · exact .inl ⟨_, _, fun _ => rfl, hopen _ _ (by decide)⟩
        · next hmagic =>
          split
          · exact .inl ⟨_, _, fun _ => rfl, hopen _ _ (by decide)⟩
          · next hseek =>
            split
            · next arg' _ =>
              exact .inr ⟨row, file, arg', hrow, hfile, by simpa using hmagic,
                Int.not_lt.mp hseek, fun _ => rfl⟩
            · exact .inl ⟨_, _, fun _ => rfl, hopen _ _ (by decide)⟩
            · exact .inl ⟨_, _, fun _ => rfl, hopen _ _ (by decide)⟩

/-- What has been opened is the bucket or descriptor 1. -/
theorem openedBucket_cases {row : BlobPosition} {file : Bytes}
    (h : openedBucket sys dir one row = some file) :
    dir.file (row.bucketIndex % 2 ^ 64).toNat = some file ∨ one = some file := by
  unfold openedBucket at h
  split at h
  · exact .inr h
  · next bucket hbucket =>
    split at h
    · exact .inl (hbucket.trans h)
    · exact .inr h

theorem readsToEnd_of_longEnough (h : LongEnough dir one db key) :
    ReadsToEnd sys onData status dir one db key arg := by
  rcases glacierReadBlob_cases sys onData status dir one db key arg with
    ⟨res, l, hcall, hres⟩ | ⟨row, file, arg', hrow, hfile, hmagic, hseek, hcall⟩
  · refine ⟨⟨0, by rw [hcall 0]; rfl⟩, fun passes l' hok => ?_⟩
    rw [hcall] at hok
    exact absurd (congrArg Prod.fst (Option.some.inj hok)) hres
  · have hlong : columnSize row.blobSize ≠ 0 →
        columnSize row.bucketBlobOffset + columnSize row.blobSize ≤ file.length ∧
        ∃ bucket, dir.file (row.bucketIndex % 2 ^ 64).toNat = some bucket ∧
          readAt file (columnSize row.bucketBlobOffset) (columnSize row.blobSize) =
            readAt bucket (columnSize row.bucketBlobOffset) (columnSize row.blobSize) := by
      intro hsize
      obtain ⟨hbucket, hone⟩ := h row hrow hseek hsize
      rcases openedBucket_cases hfile with hopened | hopened
      · exact ⟨hbucket file hopened hmagic, file, hopened, rfl⟩
      · exact hone file hopened hmagic
    constructor
    · refine ⟨columnSize row.blobSize + 1, ?_⟩
      rw [hcall, Option.isSome_map]
      refine readLoop_ends ?_ (Nat.lt_succ_of_le (Nat.sub_le _ _))
      exact (Nat.eq_zero_or_pos _).imp_right fun hpos => (hlong (Nat.ne_of_gt hpos)).1
    · intro passes l hok
      rw [hcall, Option.map_eq_some_iff] at hok
      obtain ⟨ret, hloop, hret⟩ := hok
      rw [endWithOpenBucket_ok hret] at hloop
      obtain ⟨hlen, hbytes⟩ := handed_of_readLoop (handedSoFar_start arg') (Nat.zero_le _) hloop
      refine ⟨row, hrow, hlen, fun hsize => ?_⟩
      obtain ⟨-, bucket, hbucket, hsame⟩ := hlong hsize
      exact ⟨bucket, hbucket, hbytes.trans hsame⟩

end Call

/-- A `status` that wants the blob. -/
def wantsBlob : Unit → Bool → Int → Nat → Res × Unit :=
  fun _ _ _ _ => (.ok, ())

section Full

variable {sys : ReadCalls} {dir : BucketDir} {one : Option Bytes} {db : IndexDb} {key : BlobRef}
  {row : BlobPosition} {file : Bytes}

/-- A call in which nothing fails, except perhaps to open the bucket. -/
theorem glacierReadBlob_full (hsys : sys = { ReadCalls.full with openFile := sys.openFile })
    (hrow : (db.blobPosition.find? fun r => r.key = key) = some row)
    (hfile : openedBucket sys dir one row = some file)
    (hmagic : validateBucketMagicNumber file = true) (hseek : 0 ≤ toInt32 row.bucketBlobOffset)
    (passes : Nat) : glacierReadBlob sys takeAll wantsBlob dir one db key passes () =
      readLoop sys takeAll file (columnSize row.bucketBlobOffset) (columnSize row.blobSize) passes 0
        (.start ()) := by
  have hend : ∀ ret : Res × ReadLoop Unit, endWithOpenBucket sys ret = ret := by
    intro ret
    rw [hsys]
    rfl
  have hbind : (!sys.bindKey || !sys.stepRow) = false := by
    rw [hsys]
    rfl
  unfold glacierReadBlob
  simp only [hbind, Bool.false_eq_true, if_false, hrow, hfile, hmagic, Bool.not_true,
    Int.not_lt.mpr hseek, wantsBlob]
  rw [funext hend]
  exact Option.map_id'

/-- The call does not return if the file ends within the blob. -/
theorem not_longEnough (hsys : sys = { ReadCalls.full with openFile := sys.openFile })
    (hrow : (db.blobPosition.find? fun r => r.key = key) = some row)
    (hfile : openedBucket sys dir one row = some file)
    (hmagic : validateBucketMagicNumber file = true) (hseek : 0 ≤ toInt32 row.bucketBlobOffset)
    (hsize : columnSize row.blobSize ≠ 0)
    (hshort : file.length < columnSize row.bucketBlobOffset + columnSize row.blobSize)
    (passes : Nat) : glacierReadBlob sys takeAll wantsBlob dir one db key passes () = none := by
  rw [glacierReadBlob_full hsys hrow hfile hmagic hseek]
  exact readLoop_endless (by rw [hsys]) hshort (Nat.pos_of_ne_zero hsize)

theorem longEnough_of_readsToEnd (hsys : sys = { ReadCalls.full with openFile := sys.openFile })
    (h : ReadsToEnd sys takeAll wantsBlob dir one db key ())
    (hrow : (db.blobPosition.find? fun r => r.key = key) = some row)
    (hfile : openedBucket sys dir one row = some file)
    (hmagic : validateBucketMagicNumber file = true) (hseek : 0 ≤ toInt32 row.bucketBlobOffset)
    (hsize : columnSize row.blobSize ≠ 0) :
    columnSize row.bucketBlobOffset + columnSize row.blobSize ≤ file.length ∧
      ∃ bucket, dir.file (row.bucketIndex % 2 ^ 64).toNat = some bucket ∧
        readAt file (columnSize row.bucketBlobOffset) (columnSize row.blobSize) =
          readAt bucket (columnSize row.bucketBlobOffset) (columnSize row.blobSize) := by
  obtain ⟨⟨passes, hret⟩, hhanded⟩ := h
  refine ⟨Nat.le_of_not_lt fun hshort => ?_, ?_⟩
  · rw [not_longEnough hsys hrow hfile hmagic hseek hsize hshort passes] at hret
    cases hret
  · obtain ⟨⟨res, l⟩, hcall⟩ := Option.isSome_iff_exists.mp hret
    have hloop := (glacierReadBlob_full hsys hrow hfile hmagic hseek passes).symm.trans hcall
    have hok : res = .ok := readLoop_ok (by rw [hsys]) hloop
    subst hok
    obtain ⟨-, hbytes⟩ := handed_of_readLoop (handedSoFar_start ()) (Nat.zero_le _) hloop
    obtain ⟨row', hrow', -, hbucket⟩ := hhanded passes l hcall
    cases hrow.symm.trans hrow'
    obtain ⟨bucket, hfile', hsame⟩ := hbucket hsize
    exact ⟨bucket, hfile', hbytes.symm.trans hsame⟩

end Full

end ReadingLemmas

open ReadingLemmas

/-- Whatever the callbacks do and however the calls go, the call returns, and with `evr_ok` only
after it has handed over all bytes of the row, if and only if the bucket has them and descriptor 1
is not taken for another bucket. -/
theorem read_blob_ends_iff (dir : BucketDir) (one : Option Bytes) (db : IndexDb) (key : BlobRef) :
    (∀ (σ : Type) sys onData status (arg : σ), ReadsToEnd sys onData status dir one db key arg) ↔
      LongEnough dir one db key := by
  constructor
  · intro h row hrow hseek hsize
    refine ⟨fun file hfile hmagic => ?_, fun file hfile hmagic => ?_⟩
    · have hopened : openedBucket .full dir one row = some file := by
        rw [openedBucket, hfile]
        rfl
      exact (longEnough_of_readsToEnd rfl (h Unit .full takeAll wantsBlob ()) hrow hopened hmagic
        hseek hsize).1
    · have hopened : openedBucket { ReadCalls.full with openFile := false } dir one row =
          some file := by
        unfold openedBucket
        split
        · exact hfile
        · exact hfile
      exact longEnough_of_readsToEnd rfl (h Unit _ takeAll wantsBlob ()) hrow hopened hmagic hseek
        hsize
  · exact fun h σ sys onData status arg => readsToEnd_of_longEnough h

/-- A bucket that was cut off within the letters of its only blob. -/
def cutBucket : BucketDir where
  file i := if i = 1 then
      some (bucketBytes 0 (List.replicate bucketBlobHeaderSize 0 ++ [97, 98]))
    else none
  names := [1]
  nodup := by decide
  mem_names i := by
    by_cases hi : i = 1
    · simp [hi]
    · simp [hi]

/-- The row of that blob, which had five letters. -/
def cutRow : BlobPosition where
  key := Vector.replicate _ 0
  flags := 0
  bucketIndex := 1
  bucketBlobOffset := bucketHeaderSize + bucketBlobHeaderSize
  blobSize := 5
  lastModified := 0

/-- The storage never stops reading the rest of the letters. -/
theorem cut_blob_read_forever :
    ¬ReadsToEnd .full takeAll wantsBlob cutBucket none ⟨[cutRow], []⟩ cutRow.key () := by
  intro h
  obtain ⟨passes, hret⟩ := h.1
  rw [not_longEnough rfl rfl rfl (by decide) (by decide) (by decide) (by decide) passes] at hret
  cases hret

end Everarch
