import Everarch.Glacier.Intact

/-!
# Appends that fail

Runs of `evr_glacier_append_blob` in which a write may stop after any number of bytes, and
a sync or an index statement may fail. Some failures end the process. Where it goes on nothing
is rolled back: the next append writes at the position that the context has then.

* `runFaulty_intact`: the rows stay intact wherever the append stops.
* `endOffsetFits_iff`: when the bucket file ends where its header says.

Result: `failed_appends_harmless_iff`; `failed_append_leaves_tail`: a short blob behind
the torn write of a longer one.
-/

namespace Everarch

/-- A call of `evr_glacier_append_blob`, and perhaps the number of the call in it that
fails and the number of bytes that a write gets done before. An index statement fails when it
is bound, or when it is stepped if that number is not 0. -/
structure FaultyStep where
  append : AppendStep
  fault : Option (Nat × Nat)

/-- What a call returns that fails, and the state that it leaves. A statement whose step fails
makes `sqlite3_reset` fail, and that is a panic. Assignments do not fail. -/
def failOp (g : Glacier) (n : Nat) : Op → Option (Res × Glacier)
  | .write offset data => some (.error, (writeCurrentBucket g offset (data.take n)).2)
  | .sync fatal => some (if fatal then .noReturn else .error, g)
  | .insertBucket | .insertBlob .. | .updateEndOffset _ =>
    some (if n = 0 then .error else .noReturn, g)
  | .assign _ | .create => none

/-- The state after a fault that hits the call. -/
def faultAt (g : Glacier) (op : Op) : Option (Nat × Nat) → Option (Res × Glacier)
  | some (0, n) => failOp g n op
  | _ => none

/-- The fault as the next call sees it. -/
def laterFault : Option (Nat × Nat) → Option (Nat × Nat)
  | some (k + 1, n) => some (k, n)
  | _ => none

/-- The calls up to the one that fails. -/
def runFaulty : List Op → Option (Nat × Nat) → Glacier → Res × Glacier
  | [], _, g => (.ok, g)
  | op :: ops, fault, g =>
    match faultAt g op fault with
    | some r => r
    | none =>
      match runOp g op with
      | (.ok, g) => runFaulty ops (laterFault fault) g
      | r => r

/-- `evr_glacier_append_blob` with a fault. -/
def faultyAppend (maxBucketSize : Nat) (g : Glacier) (s : FaultyStep) : Res × Glacier :=
  match appendOps maxBucketSize g.ctx s.append.blob s.append.lastModified with
  | none => (.error, g)
  | some ops => runFaulty ops s.fault g

/-- A glacier, and whether the process that writes it goes on. -/
structure FaultyGlacier extends Glacier where
  running : Bool

/-- A new glacier. -/
def startFaulty : FaultyGlacier :=
  ⟨emptyGlacier, true⟩

/-- The glacier after the call, which the process does not make when it has ended. -/
def nextFaulty (maxBucketSize : Nat) (st : FaultyGlacier) (s : FaultyStep) : FaultyGlacier :=
  if st.running then
    ⟨(faultyAppend maxBucketSize st.toGlacier s).2,
      (faultyAppend maxBucketSize st.toGlacier s).1 ≠ .noReturn⟩
  else st

/-- The call is made and returns `evr_ok`. -/
def FaultyOk (maxBucketSize : Nat) (st : FaultyGlacier) (s : FaultyStep) : Prop :=
  st.running = true ∧ (faultyAppend maxBucketSize st.toGlacier s).1 = .ok

instance (maxBucketSize : Nat) (st : FaultyGlacier) (s : FaultyStep) :
    Decidable (FaultyOk maxBucketSize st s) :=
  inferInstanceAs (Decidable (_ ∧ _))

/-- The blob is indexed at a position that holds its bytes. -/
def Kept (g : Glacier) (blob : WritingBlob) : Prop :=
  ∃ row ∈ g.db.blobPosition, row.key = blob.key ∧ HoldsBytes g.dir row blob.body

/-- The current bucket file ends where its header says. -/
def EndOffsetFits (g : Glacier) : Prop :=
  ∃ file, g.dir.file g.ctx.currentBucketIndex = some file ∧
    readBucketEndOffset file = some file.length

/-- After every call, the blobs of the calls that returned `evr_ok` are kept, and if the
call itself did, the current bucket file ends where its header says. -/
def FailuresHarmless (maxBucketSize : Nat) (steps : List FaultyStep) : Prop :=
  ∀ before s, before ++ [s] <+: steps →
    (∀ earlier s', earlier ++ [s'] <+: before ++ [s] →
      FaultyOk maxBucketSize (exec (nextFaulty maxBucketSize) startFaulty earlier) s' →
      Kept (exec (nextFaulty maxBucketSize) startFaulty (before ++ [s])).toGlacier
        s'.append.blob) ∧
    (FaultyOk maxBucketSize (exec (nextFaulty maxBucketSize) startFaulty before) s →
      EndOffsetFits (exec (nextFaulty maxBucketSize) startFaulty (before ++ [s])).toGlacier)

/-- The append starts a new bucket, or the current one does not go on behind the end of the
record to come. -/
def NothingBehind (maxBucketSize : Nat) (g : Glacier) (s : FaultyStep) : Prop :=
  maxBucketSize < g.ctx.currentBucketPos + (bucketBlobHeaderSize + s.append.blob.size) ∨
    ((g.dir.file g.ctx.currentBucketIndex).getD []).length ≤
      g.ctx.currentBucketPos + (bucketBlobHeaderSize + s.append.blob.size)

instance (maxBucketSize : Nat) (g : Glacier) (s : FaultyStep) :
    Decidable (NothingBehind maxBucketSize g s) :=
  inferInstanceAs (Decidable (_ ∨ _))

/-- The number of the next bucket fits the columns of the index. -/
def CountsBuckets (st : FaultyGlacier) (_ : FaultyStep) : Prop :=
  st.ctx.currentBucketIndex + 1 < 2 ^ 63

instance (st : FaultyGlacier) (s : FaultyStep) : Decidable (CountsBuckets st s) :=
  inferInstanceAs (Decidable (_ < _))

namespace FaultLemmas

open BucketLemmas AppendLemmas IntactLemmas

section Run

variable {known : BlobRef → Bytes → Prop}

/-- A call that fails leaves the rows intact. -/
theorem intact_failOp {g g' : Glacier} {n : Nat} {op : Op} {res : Res} (h : Intact known g)
    (hallowed : Allowed known g op) (hfail : failOp g n op = some (res, g')) :
    Intact known g' ∧ Opened g' ∧ g.db.blobPosition ⊆ g'.db.blobPosition := by
  cases op with
  | write offset data =>
    cases hfail
    obtain ⟨hintact, hopened⟩ := intact_torn h hallowed n
    exact ⟨hintact, hopened, subset_stepOp g (.write offset (data.take n))⟩
  | assign f => cases hfail
  | create => cases hfail
  | insertBlob =>
    cases hfail
    exact ⟨h, hallowed.1, fun _ h => h⟩
  | _ =>
    cases hfail
    exact ⟨h, hallowed, fun _ h => h⟩

/-- A call of the kind that can stop an append is made with the bucket open. -/
theorem opened_of_not_ok {g g' : Glacier} {op : Op} {res : Res} (hallowed : Allowed known g op)
    (hop : runOp g op = (res, g')) (hres : res ≠ .ok) : Opened g ∧ g' = g := by
  rcases runOp_of_allowed hallowed with hok | ⟨hpanic, hopened⟩
  · cases hok.symm.trans hop
    exact absurd rfl hres
  · cases hpanic.symm.trans hop
    exact ⟨hopened, rfl⟩

theorem runFaulty_intact {ops : List Op} {fault : Option (Nat × Nat)} {g g' : Glacier} {res : Res}
    (h : Intact known g) (halong : Along stepOp (Allowed known) g ops)
    (hopened : Opened (exec stepOp g ops)) (hrun : runFaulty ops fault g = (res, g')) :
    Intact known g' ∧ Opened g' ∧ g.db.blobPosition ⊆ g'.db.blobPosition := by
  induction ops generalizing fault g with
  | nil =>
    cases hrun
    exact ⟨h, hopened, fun _ h => h⟩
  | cons op ops ih =>
    obtain ⟨hallowed, halong⟩ := halong
    unfold runFaulty at hrun
    cases hfault : faultAt g op fault with
    | some r =>
      rw [hfault] at hrun
      cases hrun
      unfold faultAt at hfault
      split at hfault
      · exact intact_failOp h hallowed hfault
      · cases hfault
    | none =>
      rw [hfault] at hrun
      rcases hop : runOp g op with ⟨res1, g1⟩
      have hstep : stepOp g op = g1 := congrArg Prod.snd hop
      rw [hop] at hrun
      by_cases hres : res1 = .ok
      · subst hres
        rw [exec_cons, hstep] at hopened
        rw [hstep] at halong
        obtain ⟨hintact, hopened', hsub⟩ := ih (hstep ▸ intact_stepOp h hallowed) halong hopened hrun
        exact ⟨hintact, hopened', fun _ hrow => hsub (hstep ▸ subset_stepOp g op hrow)⟩
      · obtain ⟨hopened', heq⟩ := opened_of_not_ok hallowed hop hres
        have hstop : (res1, g1) = (res, g') := by
          cases res1 with
          | ok => exact absurd rfl hres
          | _ => exact hrun
        cases hstop
        rw [heq]
        exact ⟨h, hopened', fun _ h => h⟩

end Run

/-- A call that fails does not return `evr_ok`. -/
theorem failOp_not_ok {g g' : Glacier} {n : Nat} {op : Op} {res : Res}
    (h : failOp g n op = some (res, g')) : res ≠ .ok := by
  cases op with
  | write offset data =>
    cases h
    exact Res.noConfusion
  | assign f => cases h
  | create => cases h
  | _ =>
    cases h
    split <;> exact Res.noConfusion

theorem runFaulty_ok {ops : List Op} {fault : Option (Nat × Nat)} {g g' : Glacier}
    (h : runFaulty ops fault g = (.ok, g')) : runOps ops g = (.ok, g') := by
  induction ops generalizing fault g with
  | nil => exact h
  | cons op ops ih =>
    unfold runFaulty at h
    cases hfault : faultAt g op fault with
    | some r =>
      rw [hfault] at h
      subst h
      unfold faultAt at hfault
      split at hfault
      · exact absurd rfl (failOp_not_ok hfault)
      · cases hfault
    | none =>
      rw [hfault] at h
      rw [runOps]
      rcases hop : runOp g op with ⟨res1, g1⟩
      rw [hop] at h
      cases res1 with
      | ok => exact ih h
      | _ => exact h

/-! ## Calls that return `evr_ok` -/

theorem readBucketEndOffset_write {endOffset : Nat} (h : endOffset < 2 ^ 32) (file : Bytes) :
    readBucketEndOffset (writeBucketEndOffset file endOffset) = some endOffset := by
  have hread := readAt_writeAt_self file bucketMagicNumber.length
    (beBytes bucketEndOffsetSize endOffset)
  rw [length_beBytes] at hread
  unfold readBucketEndOffset writeBucketEndOffset
  simp only [hread, length_beBytes, Nat.lt_irrefl, if_false]
  exact congrArg some (ofBeBytes_beBytes h)

theorem length_appended (file : Bytes) (pos : Nat) (blob : WritingBlob) (lastModified : UInt64)
    (endOffset : Nat) :
    (writeBucketEndOffset (writeAt file pos (blobBytes blob lastModified)) endOffset).length =
      max file.length (pos + (bucketBlobHeaderSize + blob.size)) := by
  have hne : beBytes bucketEndOffsetSize endOffset ≠ [] := by
    refine List.ne_nil_of_length_pos ?_
    rw [length_beBytes]
    decide
  have hheader : bucketMagicNumber.length + bucketEndOffsetSize ≤ bucketBlobHeaderSize := by decide
  rw [writeBucketEndOffset, length_writeAt hne, length_writeAt (blobBytes_ne_nil blob lastModified),
    length_blobBytes, length_beBytes]
  omega

/-- The state after a call that returns `evr_ok`. -/
theorem faultyAppend_ok {known : BlobRef → Bytes → Prop} {maxBucketSize : Nat} {g : Glacier}
    {s : FaultyStep} (h : Intact known g) (hopened : Opened g)
    (hok : (faultyAppend maxBucketSize g s).1 = .ok) :
    ∃ pos file db, pos + (bucketBlobHeaderSize + s.append.blob.size) ≤ maxBucketSize ∧
      (if maxBucketSize < g.ctx.currentBucketPos + (bucketBlobHeaderSize + s.append.blob.size) then
        pos = bucketHeaderSize ∧ file = bucketFile []
      else pos = g.ctx.currentBucketPos ∧ g.dir.file g.ctx.currentBucketIndex = some file) ∧
      (faultyAppend maxBucketSize g s).2.dir.file
          (faultyAppend maxBucketSize g s).2.ctx.currentBucketIndex =
        some (writeBucketEndOffset
          (writeAt file pos (blobBytes s.append.blob s.append.lastModified))
          (pos + (bucketBlobHeaderSize + s.append.blob.size))) ∧
      (faultyAppend maxBucketSize g s).2.db = indexAppended db
        (faultyAppend maxBucketSize g s).2.ctx.currentBucketIndex pos s.append.blob
        s.append.lastModified := by
  unfold faultyAppend at hok ⊢
  cases hops : appendOps maxBucketSize g.ctx s.append.blob s.append.lastModified with
  | none =>
    rw [hops] at hok
    cases hok
  | some ops =>
    rw [hops] at hok
    simp only at hok ⊢
    obtain ⟨hmin, heq⟩ := appendOps_eq hops
    rcases hfaulty : runFaulty ops s.fault g with ⟨res, g'⟩
    rw [hfaulty] at hok
    cases hok
    have hrun := runFaulty_ok hfaulty
    rw [heq] at hrun
    split at hrun
    · next hfull =>
      obtain ⟨sync, hroll⟩ := runOps_createNextBucketOps rfl (h.fresh _ (Nat.lt_succ_self _))
      rw [runOps_append, hroll] at hrun
      cases hins : insertBucket g.db (g.ctx.currentBucketIndex + 1) with
      | none =>
        rw [hins] at hrun
        cases hrun
      | some db =>
        rw [hins] at hrun
        simp only at hrun
        rw [runOps_appendRecordOps rfl rfl (BucketDir.put_file_self _ _ _)] at hrun
        cases hrun
        refine ⟨bucketHeaderSize, bucketFile [], db, hmin, ?_, BucketDir.put_file_self _ _ _, rfl⟩
        rw [if_pos hfull]
        exact ⟨rfl, rfl⟩
    · next hroom =>
      obtain ⟨hf, file, hfile⟩ := hopened
      rw [runOps_appendRecordOps rfl hf hfile] at hrun
      cases hrun
      refine ⟨g.ctx.currentBucketPos, file, g.db, Nat.not_lt.mp hroom, ?_,
        BucketDir.put_file_self _ _ _, rfl⟩
      rw [if_neg hroom]
      exact ⟨rfl, hfile⟩

theorem endOffsetFits_iff {known : BlobRef → Bytes → Prop} {maxBucketSize : Nat}
    (hmax : maxBucketSize < 2 ^ 31) {g : Glacier} {s : FaultyStep} (h : Intact known g)
    (hopened : Opened g) (hok : (faultyAppend maxBucketSize g s).1 = .ok) :
    EndOffsetFits (faultyAppend maxBucketSize g s).2 ↔ NothingBehind maxBucketSize g s := by
  obtain ⟨pos, file, db, hle, hcase, hfile, -⟩ := faultyAppend_ok h hopened hok
  have hlt : pos + (bucketBlobHeaderSize + s.append.blob.size) < 2 ^ 32 := by omega
  have hend := readBucketEndOffset_write hlt
    (writeAt file pos (blobBytes s.append.blob s.append.lastModified))
  have hlen := length_appended file pos s.append.blob s.append.lastModified
    (pos + (bucketBlobHeaderSize + s.append.blob.size))
  have hiff : EndOffsetFits (faultyAppend maxBucketSize g s).2 ↔
      file.length ≤ pos + (bucketBlobHeaderSize + s.append.blob.size) := by
    unfold EndOffsetFits
    constructor
    · rintro ⟨file', hfile', hread⟩
      cases hfile.symm.trans hfile'
      rw [hend, hlen, Option.some.injEq] at hread
      omega
    · intro hfits
      refine ⟨_, hfile, ?_⟩
      rw [hend, hlen, Nat.max_eq_right hfits]
  rw [hiff]
  unfold NothingBehind
  split at hcase
  · next hfull =>
    obtain ⟨rfl, rfl⟩ := hcase
    exact iff_of_true (Nat.le_add_right _ _) (.inl hfull)
  · next hroom =>
    obtain ⟨rfl, hcurrent⟩ := hcase
    rw [hcurrent, Option.getD_some]
    exact ⟨.inr, fun h => h.resolve_left hroom⟩

/-! ## Runs -/

section Steps

variable {known : BlobRef → Bytes → Prop} {maxBucketSize : Nat}

theorem intact_faultyAppend (hmax : maxBucketSize < 2 ^ 31) {g : Glacier} {s : FaultyStep}
    (h : Intact known g) (hopened : Opened g) (hindex : g.ctx.currentBucketIndex + 1 < 2 ^ 63)
    (hknown : known s.append.blob.key s.append.blob.body) :
    Intact known (faultyAppend maxBucketSize g s).2 ∧ Opened (faultyAppend maxBucketSize g s).2 ∧
      g.db.blobPosition ⊆ (faultyAppend maxBucketSize g s).2.db.blobPosition := by
  unfold faultyAppend
  cases hops : appendOps maxBucketSize g.ctx s.append.blob s.append.lastModified with
  | none => exact ⟨h, hopened, fun _ hrow => hrow⟩
  | some ops =>
    obtain ⟨halong, hopened'⟩ := along_appendOps h hopened hindex hmax hknown hops
    exact runFaulty_intact h halong hopened' rfl

theorem nextFaulty_of_running {st : FaultyGlacier} (hrunning : st.running = true)
    (s : FaultyStep) : (nextFaulty maxBucketSize st s).toGlacier =
      (faultyAppend maxBucketSize st.toGlacier s).2 := by
  rw [nextFaulty, if_pos hrunning]

theorem intact_nextFaulty (hmax : maxBucketSize < 2 ^ 31) {st : FaultyGlacier} {s : FaultyStep}
    (h : Intact known st.toGlacier) (hopened : Opened st.toGlacier)
    (hindex : CountsBuckets st s) (hknown : known s.append.blob.key s.append.blob.body) :
    Intact known (nextFaulty maxBucketSize st s).toGlacier ∧
      Opened (nextFaulty maxBucketSize st s).toGlacier ∧
      st.db.blobPosition ⊆ (nextFaulty maxBucketSize st s).db.blobPosition := by
  by_cases hrunning : st.running = true
  · rw [nextFaulty_of_running hrunning]
    exact intact_faultyAppend hmax h hopened hindex hknown
  · rw [nextFaulty, if_neg hrunning]
    exact ⟨h, hopened, fun _ hrow => hrow⟩

theorem intact_run (hmax : maxBucketSize < 2 ^ 31) {st : FaultyGlacier} {steps : List FaultyStep}
    (h : Intact known st.toGlacier) (hopened : Opened st.toGlacier)
    (hcount : Along (nextFaulty maxBucketSize) CountsBuckets st steps)
    (hknown : ∀ s ∈ steps, known s.append.blob.key s.append.blob.body) :
    Intact known (exec (nextFaulty maxBucketSize) st steps).toGlacier ∧
      Opened (exec (nextFaulty maxBucketSize) st steps).toGlacier ∧
      st.db.blobPosition ⊆ (exec (nextFaulty maxBucketSize) st steps).db.blobPosition := by
  refine hcount.invariant_inputs (fun _ st' => Intact known st'.toGlacier ∧
    Opened st'.toGlacier ∧ st.db.blobPosition ⊆ st'.db.blobPosition)
    ⟨h, hopened, fun _ hrow => hrow⟩ ?_
  rintro before s st' hpre ⟨h', hopened', hsub⟩ hindex
  have hmem : s ∈ steps := hpre.subset (List.mem_append_right _ List.mem_cons_self)
  obtain ⟨hnext, hopened'', hsub'⟩ := intact_nextFaulty hmax h' hopened' hindex (hknown s hmem)
  exact ⟨hnext, hopened'', fun _ hrow => hsub' (hsub hrow)⟩

/-- A blob is kept from the call on that returns `evr_ok`. -/
theorem kept_after (hmax : maxBucketSize < 2 ^ 31)
    (hsame : ∀ key body body', known key body → known key body' → body = body')
    {st : FaultyGlacier} (h : Intact known st.toGlacier) (hopened : Opened st.toGlacier)
    {s : FaultyStep} {steps : List FaultyStep}
    (hcount : Along (nextFaulty maxBucketSize) CountsBuckets st (s :: steps))
    (hknown : ∀ s' ∈ s :: steps, known s'.append.blob.key s'.append.blob.body)
    (hok : FaultyOk maxBucketSize st s) :
    Kept (exec (nextFaulty maxBucketSize) st (s :: steps)).toGlacier s.append.blob := by
  have hs := hknown s List.mem_cons_self
  obtain ⟨pos, file, db, -, -, -, hdb⟩ := faultyAppend_ok h hopened hok.2
  obtain ⟨hnext, hopened', -⟩ := intact_nextFaulty hmax h hopened hcount.1 hs
  obtain ⟨hrun, -, hsub⟩ := intact_run hmax hnext hopened' hcount.2 fun s' hs' =>
    hknown s' (List.mem_cons_of_mem _ hs')
  obtain ⟨row, hrow, hkey⟩ : ∃ row ∈ (nextFaulty maxBucketSize st s).db.blobPosition,
      row.key = s.append.blob.key := by
    rw [nextFaulty_of_running hok.1, hdb]
    exact exists_key_addBlobToIndex _ _ _ _ _ _ _
  obtain ⟨body, hbody, hsafe⟩ := hrun.rows row (hsub hrow)
  rw [hkey] at hbody
  refine ⟨row, hsub hrow, hkey, ?_⟩
  rw [hsame _ _ _ hs hbody]
  exact SafeAt.holdsBytes hsafe

end Steps

/-- The blob of one of the calls. -/
def Written (steps : List FaultyStep) (key : BlobRef) (body : Bytes) : Prop :=
  ∃ s ∈ steps, s.append.blob.key = key ∧ s.append.blob.body = body

end FaultLemmas

open AppendLemmas IntactLemmas FaultLemmas

/-- Appends that fail do no harm to the blobs of those that did not, and the end offset in the
header of the bucket is right, if and only if no append that returns `evr_ok` found bytes of
a failed one behind its record. -/
theorem failed_appends_harmless_iff (maxBucketSize : Nat) (hmax : maxBucketSize < 2 ^ 31)
    (steps : List FaultyStep)
    (hsame : ∀ s ∈ steps, ∀ s' ∈ steps, s.append.blob.key = s'.append.blob.key →
      s.append.blob.body = s'.append.blob.body)
    (hcount : Along (nextFaulty maxBucketSize) CountsBuckets startFaulty steps) :
    FailuresHarmless maxBucketSize steps ↔
      Along (nextFaulty maxBucketSize)
        (fun st s => FaultyOk maxBucketSize st s → NothingBehind maxBucketSize st.toGlacier s)
        startFaulty steps := by
  have hrun : ∀ before, before <+: steps →
      Intact (Written steps) (exec (nextFaulty maxBucketSize) startFaulty before).toGlacier ∧
        Opened (exec (nextFaulty maxBucketSize) startFaulty before).toGlacier := by
    rintro before ⟨after, rfl⟩
    have hwritten : ∀ s ∈ before, Written (before ++ after) s.append.blob.key s.append.blob.body :=
      fun s hs => ⟨s, List.mem_append_left after hs, rfl, rfl⟩
    obtain ⟨h, hopened, -⟩ := intact_run hmax (intact_emptyGlacier _) opened_emptyGlacier
      (along_append.mp hcount).1 hwritten
    exact ⟨h, hopened⟩
  have hends : ∀ before s, before ++ [s] <+: steps →
      FaultyOk maxBucketSize (exec (nextFaulty maxBucketSize) startFaulty before) s →
      (EndOffsetFits (exec (nextFaulty maxBucketSize) startFaulty (before ++ [s])).toGlacier ↔
        NothingBehind maxBucketSize (exec (nextFaulty maxBucketSize) startFaulty before).toGlacier
          s) := by
    intro before s hpre hok
    obtain ⟨h, hopened⟩ := hrun before ((List.prefix_append _ _).trans hpre)
    rw [exec_append_singleton, nextFaulty_of_running hok.1]
    exact endOffsetFits_iff hmax h hopened hok.2
  constructor
  · intro hharmless
    refine Along.of_prefix fun before s hpre hok => ?_
    exact (hends before s hpre hok).mp ((hharmless before s hpre).2 hok)
  · intro hbehind before s hpre
    refine ⟨fun earlier s' hpre' hok => ?_, fun hok => (hends before s hpre hok).mpr
      (hbehind.at_prefix hpre hok)⟩
    obtain ⟨after', hafter'⟩ := hpre'
    obtain ⟨after, hafter⟩ := hpre
    obtain ⟨h, hopened⟩ := hrun earlier ⟨s' :: (after' ++ after), by
      rw [← hafter, ← hafter', List.append_assoc, List.append_assoc, List.singleton_append]⟩
    rw [← hafter, ← hafter', List.append_assoc, List.append_assoc, List.singleton_append] at hcount
    rw [← hafter', List.append_assoc, exec_append]
    refine kept_after hmax ?_ h hopened ?_ ?_ hok
    · rintro key body body' ⟨s1, hs1, hkey1, rfl⟩ ⟨s2, hs2, hkey2, rfl⟩
      exact hsame s1 hs1 s2 hs2 (hkey1.trans hkey2.symm)
    · rw [← List.cons_append] at hcount
      exact (along_append.mp (along_append.mp hcount).2).1
    · intro s1 hs1
      refine ⟨s1, ?_, rfl, rfl⟩
      rw [← hafter, ← hafter', List.append_assoc earlier]
      exact List.mem_append_left _ (List.mem_append_right _ hs1)

/-- A blob of two letters. -/
def twoLetterBlob : WritingBlob :=
  { letterBlob with key := Vector.replicate _ 2, size := 2, chunks_enough := by decide }

/-- The second letter of a blob is not written any more; then the empty blob comes. -/
def tornThenShort : List FaultyStep :=
  [⟨⟨twoLetterBlob, 5⟩, some (1, 1)⟩, ⟨⟨emptyBlob, 6⟩, none⟩]

/-- The other way round the record of the letters covers what has been left behind. -/
theorem failed_appends_harmless_covered :
    FailuresHarmless (1024 * 1024 * 1024)
      [⟨⟨letterBlob, 5⟩, some (1, 0)⟩, ⟨⟨twoLetterBlob, 6⟩, none⟩] :=
  (failed_appends_harmless_iff (1024 * 1024 * 1024) (by decide) _ (by decide +kernel)
    (by decide +kernel)).mpr (by decide +kernel)

/-- The bucket goes on behind the empty blob, with the first of the letters. -/
theorem failed_append_leaves_tail : ¬ FailuresHarmless (1024 * 1024 * 1024) tornThenShort := by
  intro h
  have hok : FaultyOk (1024 * 1024 * 1024) (exec (nextFaulty (1024 * 1024 * 1024)) startFaulty
      (tornThenShort.take 1)) ⟨⟨emptyBlob, 6⟩, none⟩ := by decide +kernel
  obtain ⟨file, hfile, hend⟩ := (h (tornThenShort.take 1) ⟨⟨emptyBlob, 6⟩, none⟩
    (List.prefix_refl _)).2 hok
  have htail : ((exec (nextFaulty (1024 * 1024 * 1024)) startFaulty tornThenShort).dir.file 1).map
      (fun file => (readBucketEndOffset file, file.length)) = some (some 49, 50) := by decide +kernel
  have hindex : (exec (nextFaulty (1024 * 1024 * 1024)) startFaulty
      tornThenShort).ctx.currentBucketIndex = 1 := by decide +kernel
  have hfile' : (exec (nextFaulty (1024 * 1024 * 1024)) startFaulty tornThenShort).dir.file
      (exec (nextFaulty (1024 * 1024 * 1024)) startFaulty
        tornThenShort).ctx.currentBucketIndex = some file := hfile
  rw [hindex] at hfile'
  rw [hfile', Option.map_some, Option.some.injEq, Prod.mk.injEq, hend] at htail
  exact absurd (Option.some.inj htail.1) (by rw [htail.2]; decide)

end Everarch
