import Everarch.Glacier.Append

/-!
# A next bucket that cannot be opened

`evr_glacier_append_blob` where the current bucket has no room for the blob and `open` fails for
the next one. `evr_open_bucket` returns 1 then, and `open_current_bucket` looks for -1, so that
`create_next_bucket` goes on with file descriptor 1. The old bucket is closed by that time.

* `RolloverLemmas.runRolloverOps_keeps`: what follows the failure leaves the context where it is.
* `RolloverLemmas.failedRollover_spec`: the context after the failure.

Result: `failed_rollover_never_clean`.
-/

namespace Everarch

/-- The standard output of the process: a file, or something that `lseek` fails on. -/
structure Stdout where
  seekable : Bool
  content : Bytes

/-- A glacier and the standard output. -/
structure RolloverState where
  glacier : Glacier
  stdout : Stdout

/-- One call where `open` fails. -/
def runRolloverOp (st : RolloverState) : Op → Res × RolloverState
  | .create =>
    let g := st.glacier
    (.ok, { st with glacier := { g with ctx := { g.ctx with currentBucketF := some .stdout } } })
  | .write offset data =>
    if st.glacier.ctx.currentBucketF = some .stdout then
      if st.stdout.seekable then
        (.ok, { st with stdout := ⟨true, writeAt st.stdout.content offset data⟩ })
      else (.error, st)
    else
      let (res, g) := runOp st.glacier (.write offset data)
      (res, { st with glacier := g })
  | .sync fatal =>
    -- fdatasync fails where lseek does
    if st.glacier.ctx.currentBucketF = some .stdout ∧ st.stdout.seekable = false then
      (if fatal then .noReturn else .error, st)
    else (.ok, st)
  | op =>
    let (res, g) := runOp st.glacier op
    (res, { st with glacier := g })

/-- The calls one after the other, up to the first that does not succeed. -/
def runRolloverOps : List Op → RolloverState → Res × RolloverState
  | [], st => (.ok, st)
  | op :: ops, st =>
    match runRolloverOp st op with
    | (.ok, st) => runRolloverOps ops st
    | r => r

/-- `evr_glacier_append_blob` where no bucket can be opened. -/
def failedRollover (maxBucketSize : Nat) (st : RolloverState) (blob : WritingBlob)
    (lastModified : UInt64) : Res × RolloverState :=
  match appendOps maxBucketSize st.glacier.ctx blob lastModified with
  | none => (.error, st)
  | some ops => runRolloverOps ops st

/-- A bucket has room for the blob, but not the current one. -/
structure NeedsRollover (maxBucketSize : Nat) (ctx : WriteCtx) (blob : WritingBlob) : Prop where
  opened : ctx.currentBucketF = some (.bucket ctx.currentBucketIndex)
  fits : bucketHeaderSize + (bucketBlobHeaderSize + blob.size) ≤ maxBucketSize
  full : maxBucketSize < ctx.currentBucketPos + (bucketBlobHeaderSize + blob.size)

/-- The append fails, nothing is written but to bucket files, and the previous bucket is still
open at its position. -/
structure RollsOverCleanly (st : RolloverState) (r : Res × RolloverState) : Prop where
  fails : r.1 ≠ .ok
  stdout : r.2.stdout = st.stdout
  currentBucketF : r.2.glacier.ctx.currentBucketF = st.glacier.ctx.currentBucketF
  currentBucketIndex : r.2.glacier.ctx.currentBucketIndex = st.glacier.ctx.currentBucketIndex
  currentBucketPos : r.2.glacier.ctx.currentBucketPos = st.glacier.ctx.currentBucketPos

namespace RolloverLemmas

/-- The call does not change which file the context has open. -/
def KeepsFile : Op → Prop
  | .assign f => ∀ ctx, (f ctx).currentBucketF = ctx.currentBucketF ∧
      (f ctx).currentBucketIndex = ctx.currentBucketIndex
  | .create => False
  | _ => True

/-- The context has standard output open for bucket `i`, and the buckets are these. -/
structure Astray (dir : BucketDir) (i : Nat) (st : RolloverState) : Prop where
  currentBucketF : st.glacier.ctx.currentBucketF = some .stdout
  currentBucketIndex : st.glacier.ctx.currentBucketIndex = i
  dir : st.glacier.dir = dir

theorem runRolloverOp_keeps {dir : BucketDir} {i : Nat} {st : RolloverState} {op : Op}
    (h : Astray dir i st) (hop : KeepsFile op) : Astray dir i (runRolloverOp st op).2 := by
  cases op with
  | assign f =>
    obtain ⟨hf, hi⟩ := hop st.glacier.ctx
    exact ⟨hf.trans h.currentBucketF, hi.trans h.currentBucketIndex, h.dir⟩
  | create => exact hop.elim
  | write offset data =>
    simp only [runRolloverOp, if_pos h.currentBucketF]
    split
    · exact ⟨h.currentBucketF, h.currentBucketIndex, h.dir⟩
    · exact h
  | sync =>
    simp only [runRolloverOp]
    split
    · exact h
    · exact h
  | insertBucket =>
    simp only [runRolloverOp, runOp]
    split
    · exact ⟨h.currentBucketF, h.currentBucketIndex, h.dir⟩
    · exact h
  | insertBlob => exact ⟨h.currentBucketF, h.currentBucketIndex, h.dir⟩
  | updateEndOffset => exact ⟨h.currentBucketF, h.currentBucketIndex, h.dir⟩

/-- Wherever they stop, such calls leave the context where it is. -/
theorem runRolloverOps_keeps {dir : BucketDir} {i : Nat} {ops : List Op} {st : RolloverState}
    (h : Astray dir i st) (hops : ∀ op ∈ ops, KeepsFile op) :
    Astray dir i (runRolloverOps ops st).2 := by
  induction ops generalizing st with
  | nil => exact h
  | cons op ops ih =>
    have hop := runRolloverOp_keeps h (hops op List.mem_cons_self)
    unfold runRolloverOps
    split
    · next st' heq =>
      rw [heq] at hop
      exact ih hop fun op' hop' => hops op' (List.mem_cons_of_mem _ hop')
    · exact hop

theorem keepsFile_writePieces (offset : Nat) (pieces : List Bytes) :
    ∀ op ∈ writePieces offset pieces, KeepsFile op := by
  induction pieces generalizing offset with
  | nil => exact fun _ h => absurd h List.not_mem_nil
  | cons piece pieces ih => exact List.forall_mem_cons.mpr ⟨trivial, ih _⟩

theorem keepsFile_appendRecordOps (pos : Nat) (blob : WritingBlob) (lastModified : UInt64) :
    ∀ op ∈ appendRecordOps pos blob lastModified, KeepsFile op := by
  have hsyncBody : ∀ op ∈ blob.syncBodyOps, KeepsFile op := by
    unfold WritingBlob.syncBodyOps
    split
    · exact List.forall_mem_cons.mpr ⟨trivial, List.forall_mem_singleton.mpr fun _ => ⟨rfl, rfl⟩⟩
    · exact fun _ h => absurd h List.not_mem_nil
  have hsync : ∀ op ∈ blob.syncOps, KeepsFile op := by
    unfold WritingBlob.syncOps
    split
    · exact List.forall_mem_singleton.mpr trivial
    · exact fun _ h => absurd h List.not_mem_nil
  simp only [appendRecordOps, List.cons_append, List.forall_mem_cons, List.forall_mem_append]
  refine ⟨trivial, ⟨⟨⟨keepsFile_writePieces _ _, hsyncBody⟩, ?_⟩, hsync⟩, ?_⟩
  · exact ⟨fun _ => ⟨rfl, rfl⟩, trivial, fun _ h => absurd h List.not_mem_nil⟩
  · exact ⟨fun _ => ⟨rfl, rfl⟩, trivial, trivial, fun _ h => absurd h List.not_mem_nil⟩

theorem runRolloverOps_append {ops ops' : List Op} {st st' : RolloverState}
    (h : runRolloverOps ops st = (.ok, st')) :
    runRolloverOps (ops ++ ops') st = runRolloverOps ops' st' := by
  induction ops generalizing st with
  | nil =>
    cases h
    rfl
  | cons op ops ih =>
    rw [List.cons_append]
    rw [runRolloverOps] at h ⊢
    split at h
    · exact ih h
    · next hne => exact absurd h (hne st')

/-- The old bucket is closed before the next one is opened. -/
theorem closed_of_opened {st : RolloverState} {j : Nat}
    (hopened : st.glacier.ctx.currentBucketF = some (.bucket j)) :
    ∃ st', runRolloverOps (closeCurrentBucketOps st.glacier.ctx) st = (.ok, st') ∧
      st'.glacier.ctx.currentBucketIndex = st.glacier.ctx.currentBucketIndex ∧
      st'.glacier.dir = st.glacier.dir := by
  unfold closeCurrentBucketOps
  rw [hopened]
  dsimp only
  split
  · exact ⟨_, rfl, rfl, rfl⟩
  · have hsync : runRolloverOp st (.sync true) = (.ok, st) := by
      unfold runRolloverOp
      rw [hopened]
      exact if_neg fun h => by cases h.1
    refine ⟨{ st with glacier := { st.glacier with ctx := { st.glacier.ctx with
      currentBucketSync := true, currentBucketF := none } } }, ?_, rfl, rfl⟩
    rw [List.cons_append, runRolloverOps, hsync]
    rfl

/-- After the failure the context has standard output open for a bucket that does not exist, and
no bucket file has changed. -/
theorem failedRollover_spec {maxBucketSize : Nat} {st : RolloverState} {blob : WritingBlob}
    (h : NeedsRollover maxBucketSize st.glacier.ctx blob) (lastModified : UInt64) :
    Astray st.glacier.dir (st.glacier.ctx.currentBucketIndex + 1)
      (failedRollover maxBucketSize st blob lastModified).2 := by
  unfold failedRollover appendOps
  simp only [if_neg (Nat.not_lt.mpr h.fits), if_pos h.full]
  obtain ⟨st1, hclose, hindex, hdir⟩ := closed_of_opened h.opened
  rw [createNextBucketOps, List.append_assoc, runRolloverOps_append hclose]
  have hopen : runRolloverOps [.assign fun ctx => { ctx with
        currentBucketIndex := ctx.currentBucketIndex + 1 }, .create] st1 = (.ok, _) := rfl
  refine (congrArg (fun r => Astray _ _ r.2) (runRolloverOps_append hopen)).mpr ?_
  refine runRolloverOps_keeps ⟨rfl, congrArg (· + 1) hindex, hdir⟩ ?_
  exact List.forall_mem_append.mpr
    ⟨List.forall_mem_cons.mpr ⟨fun _ => ⟨rfl, rfl⟩, List.forall_mem_cons.mpr ⟨trivial,
      List.forall_mem_cons.mpr ⟨trivial, List.forall_mem_cons.mpr ⟨trivial,
      List.forall_mem_singleton.mpr trivial⟩⟩⟩⟩, keepsFile_appendRecordOps _ _ _⟩

end RolloverLemmas

open RolloverLemmas

/-- Whatever the standard output is, an append that cannot open the next bucket never leaves the
previous bucket open. -/
theorem failed_rollover_never_clean (maxBucketSize : Nat) (st : RolloverState)
    (blob : WritingBlob) (lastModified : UInt64)
    (h : NeedsRollover maxBucketSize st.glacier.ctx blob) :
    ¬RollsOverCleanly st (failedRollover maxBucketSize st blob lastModified) := by
  intro hclean
  have hastray := (failedRollover_spec h lastModified).currentBucketF
  rw [hclean.currentBucketF, h.opened] at hastray
  cases hastray

/-- A glacier with one blob in a bucket that takes no more, and standard output in a file. -/
def fullGlacier : RolloverState where
  glacier := nextGlacier 49 emptyGlacier ⟨emptyBlob, 5⟩
  stdout := ⟨true, []⟩

theorem needsRollover_full : NeedsRollover 49 fullGlacier.glacier.ctx emptyBlob :=
  ⟨by decide +kernel, by decide +kernel, by decide +kernel⟩

theorem failed_rollover_never_clean_full :
    ¬RollsOverCleanly fullGlacier (failedRollover 49 fullGlacier emptyBlob 6) :=
  failed_rollover_never_clean 49 fullGlacier emptyBlob 6 needsRollover_full

/-- The append returns ok, and the bucket header is in the file behind standard output. -/
theorem rollover_written_to_stdout :
    ¬RollsOverCleanly fullGlacier (failedRollover 49 fullGlacier emptyBlob 6) ∧
      (failedRollover 49 fullGlacier emptyBlob 6).1 = .ok ∧
      (failedRollover 49 fullGlacier emptyBlob 6).2.stdout.content.take 3 = bucketMagicNumber := by
  have hok : (failedRollover 49 fullGlacier emptyBlob 6).1 = .ok := by decide +kernel
  exact ⟨fun h => h.fails hok, hok, by decide +kernel⟩

end Everarch
