import Everarch.Cli.Sync

/-!
# The bytes of a blob list

`evr_glacier_list_blobs` with `evr_handle_blob_list` and `evr_flush_list_blobs_ctx`, down to the
bytes that `evr_work_watch_blobs` writes for the list. The socket takes all of them.

* `BlobListLemmas.listBlobs_eq`: the visits of the lister that holds a row back.
* `BlobListLemmas.content_handle`, `BlobListLemmas.written_flush`: the buffer.
* `BlobListLemmas.parse_format`: a record is read back.

Result: `blob_list_stream`.
-/

namespace Everarch

/-! ## Writing -/

/-- `evr_list_blobs_blobs_len`. -/
def listBlobsBlobsLen : Nat := 1000 / (blobRefSize + 8)

/-- `struct evr_list_blobs_ctx` with its used entries, and what was written so far. -/
structure ListBlobsCtx where
  blobs : List ModifiedBlob
  used : blobs.length ≤ listBlobsBlobsLen
  written : Bytes

namespace ListBlobsCtx

/-- The context that `evr_work_watch_blobs` starts with. -/
def start : ListBlobsCtx :=
  ⟨[], Nat.zero_le _, []⟩

/-- `evr_flush_list_blobs_ctx`. -/
def flush (ctx : ListBlobsCtx) : ListBlobsCtx :=
  if 0 < ctx.blobs.length then
    ⟨[], Nat.zero_le _, ctx.written ++ ctx.blobs.flatMap formatWatchBlobsBody⟩
  else ctx

/-- The next entry is set where there is room for it. -/
def push (ctx : ListBlobsCtx) (blob : ModifiedBlob) (h : ctx.blobs.length < listBlobsBlobsLen) :
    ListBlobsCtx where
  blobs := ctx.blobs ++ [blob]
  used := by
    rw [List.length_append]
    exact h
  written := ctx.written

theorem flush_room {ctx : ListBlobsCtx} (h : ctx.blobs.length = listBlobsBlobsLen) :
    ctx.flush.blobs.length < listBlobsBlobsLen := by
  have hpos : 0 < listBlobsBlobsLen := by decide
  rw [flush, if_pos (h ▸ hpos)]
  exact hpos

/-- `evr_handle_blob_list`. -/
def handle (ctx : ListBlobsCtx) (row : BlobPosition) (lastBlob : Bool) : ListBlobsCtx :=
  if h : ctx.blobs.length = listBlobsBlobsLen then
    ctx.flush.push (handleBlobList row lastBlob) (flush_room h)
  else ctx.push (handleBlobList row lastBlob) (Nat.lt_of_le_of_ne ctx.used h)

end ListBlobsCtx

section Visit

variable {σ : Type} (visit : σ → BlobPosition → Bool → σ) (f : BlobFilter)

/-- The loop of `evr_glacier_list_blobs`: `found` is the row that it holds back. -/
def listBlobsVisit : Option BlobPosition → List BlobPosition → σ → σ
  | found, [], st => found.elim st (visit st · true)
  | found, row :: rows, st =>
    if f.passes (toInt32 row.flags) then
      listBlobsVisit (some row) rows (found.elim st (visit st · false))
    else listBlobsVisit found rows st

/-- `evr_glacier_list_blobs`, none if it refuses the filter. -/
def listBlobs (env : StorageEnv) (db : IndexDb) (st : σ) : Option σ :=
  let rows := db.blobPosition.filter fun r => (f.lastModifiedAfter : Int) ≤ r.lastModified
  if llongMax < f.lastModifiedAfter then none
  else if f.sortOrder = sortOrderLastModified then
    some (listBlobsVisit visit f none (env.byLastModified rows) st)
  else if f.sortOrder = sortOrderRef then
    some (listBlobsVisit visit f none (env.byKey rows) st)
  else none

end Visit

/-- What `evr_work_watch_blobs` writes for the list. -/
def blobListBytes (env : StorageEnv) (db : IndexDb) (f : BlobFilter) : Option Bytes :=
  (listBlobs ListBlobsCtx.handle f env db .start).map fun ctx => ctx.flush.written

/-! ## Reading -/

/-- The records up to the end of the stream, at most `n` of them. -/
def readWatchBlobs : Nat → WatchStream → List ModifiedBlob
  | 0, _ => []
  | n + 1, s =>
    match readWatchBlobsBody s with
    | .error _ => []
    | .ok (blob, s) => blob :: readWatchBlobs n s

/-! ## What is listed -/

/-- The row is one that the filter asks for. -/
def BlobFilter.selects (f : BlobFilter) (r : BlobPosition) : Bool :=
  f.passes (toInt32 r.flags) && decide ((f.lastModifiedAfter : Int) ≤ r.lastModified)

/-- The order that the filter asks for. -/
def BlobFilter.InOrder (f : BlobFilter) (r r' : BlobPosition) : Prop :=
  if f.sortOrder = sortOrderLastModified then r.lastModified ≤ r'.lastModified
  else r.key.toList ≤ r'.key.toList

/-- A record for each row, with its time as `evr_time`, and the end of the batch at the last. -/
def recordsOf (rows : List BlobPosition) : List ModifiedBlob :=
  rows.mapIdx fun i r =>
    ⟨r.key, (r.lastModified % 2 ^ 64).toNat, if i + 1 = rows.length then 1 else 0⟩

namespace BlobListLemmas

open ListBlobsCtx

/-! ## Visits -/

section Visit

variable {σ : Type} (visit : σ → BlobPosition → Bool → σ) (f : BlobFilter)

/-- The rows one after the other. -/
def visitRows : List BlobPosition → σ → σ
  | [], st => st
  | [r], st => visit st r true
  | r :: r' :: rows, st => visitRows (r' :: rows) (visit st r false)

/-- The rows that pass are visited, and the last of them as the last. -/
theorem listBlobsVisit_eq (found : Option BlobPosition) (rows : List BlobPosition) (st : σ) :
    listBlobsVisit visit f found rows st =
      visitRows visit (found.toList ++ rows.filter fun r => f.passes (toInt32 r.flags)) st := by
  induction rows generalizing found st with
  | nil =>
    cases found with
    | none => rfl
    | some r => rfl
  | cons row rows ih =>
    unfold listBlobsVisit
    split
    · next hpass =>
      have hfilter : ((row :: rows).filter fun r => f.passes (toInt32 r.flags)) =
          row :: rows.filter fun r => f.passes (toInt32 r.flags) := List.filter_cons_of_pos hpass
      rw [ih, hfilter]
      cases found with
      | none => rfl
      | some r => rfl
    · next hpass =>
      have hfilter : ((row :: rows).filter fun r => f.passes (toInt32 r.flags)) =
          rows.filter fun r => f.passes (toInt32 r.flags) := List.filter_cons_of_neg hpass
      rw [ih, hfilter]

variable {visit f}

/-- The lister visits the rows that the filter asks for in the order that it asks for. -/
theorem listBlobs_eq {env : StorageEnv} {db : IndexDb} {st st' : σ}
    (h : listBlobs visit f env db st = some st') :
    ∃ rows : List BlobPosition, rows.Perm (db.blobPosition.filter f.selects) ∧
      rows.Pairwise f.InOrder ∧ st' = visitRows visit rows st := by
  have hperm {sorted rows : List BlobPosition} (hsorted : sorted.Perm rows) :
      (sorted.filter fun r => f.passes (toInt32 r.flags)).Perm
        (rows.filter fun r => f.passes (toInt32 r.flags)) := hsorted.filter _
  unfold listBlobs at h
  split at h
  · cases h
  · dsimp only at h
    split at h
    · next horder =>
      cases h
      refine ⟨_, (hperm (env.byLastModified_perm _)).trans ?_, ?_, listBlobsVisit_eq visit f none _ st⟩
      · rw [List.filter_filter]
        rfl
      · refine ((env.byLastModified_sorted _).filter _).imp fun hle => ?_
        rw [BlobFilter.InOrder, if_pos horder]
        exact hle
    · next horder =>
      split at h
      · cases h
        refine ⟨_, (hperm (env.byKey_perm _)).trans ?_, ?_, listBlobsVisit_eq visit f none _ st⟩
        · rw [List.filter_filter]
          rfl
        · refine ((env.byKey_sorted _).filter _).imp fun hle => ?_
          rw [BlobFilter.InOrder, if_neg horder]
          exact hle
      · cases h

theorem listBlobs_eq_none {env : StorageEnv} {db : IndexDb} {st : σ} :
    listBlobs visit f env db st = none ↔
      llongMax < f.lastModifiedAfter ∨
        f.sortOrder ≠ sortOrderLastModified ∧ f.sortOrder ≠ sortOrderRef := by
  unfold listBlobs
  dsimp only
  split
  · simp_all
  · split
    · simp_all
    · split
      · simp_all
      · simp_all

end Visit

/-! ## The buffer -/

/-- What was written and what is still in the buffer. -/
def content (ctx : ListBlobsCtx) : Bytes :=
  ctx.written ++ ctx.blobs.flatMap formatWatchBlobsBody

theorem written_flush (ctx : ListBlobsCtx) : ctx.flush.written = content ctx := by
  unfold flush content
  split
  · rfl
  · next hempty =>
    rw [List.length_eq_zero_iff.mp (Nat.eq_zero_of_not_pos hempty)]
    exact (List.append_nil _).symm

theorem content_flush (ctx : ListBlobsCtx) : content ctx.flush = content ctx := by
  unfold flush
  split
  · exact List.append_nil _
  · rfl

theorem content_push (ctx : ListBlobsCtx) (blob : ModifiedBlob)
    (h : ctx.blobs.length < listBlobsBlobsLen) :
    content (ctx.push blob h) = content ctx ++ formatWatchBlobsBody blob := by
  simp only [content, push, List.flatMap_append, List.flatMap_singleton, List.append_assoc]

theorem content_handle (ctx : ListBlobsCtx) (row : BlobPosition) (lastBlob : Bool) :
    content (ctx.handle row lastBlob) =
      content ctx ++ formatWatchBlobsBody (handleBlobList row lastBlob) := by
  unfold handle
  split
  · rw [content_push, content_flush]
  · rw [content_push]

theorem recordsOf_cons (r r' : BlobPosition) (rows : List BlobPosition) :
    recordsOf (r :: r' :: rows) = handleBlobList r false :: recordsOf (r' :: rows) := by
  simp [recordsOf, handleBlobList]

theorem content_visitRows (rows : List BlobPosition) (ctx : ListBlobsCtx) :
    content (visitRows handle rows ctx) =
      content ctx ++ (recordsOf rows).flatMap formatWatchBlobsBody := by
  induction rows generalizing ctx with
  | nil => exact (List.append_nil _).symm
  | cons r rows ih =>
    cases rows with
    | nil => simp [visitRows, content_handle, recordsOf, handleBlobList, watchFlagEob]
    | cons r' rows =>
      rw [visitRows, ih, content_handle, recordsOf_cons, List.flatMap_cons, List.append_assoc]

/-! ## Records -/

/-- The fields of the blob fit into a record. -/
structure FitsRecord (blob : ModifiedBlob) : Prop where
  lastModified : blob.lastModified < 2 ^ 64
  flags : blob.flags = 0 ∨ blob.flags = 1

theorem parse_format {blob : ModifiedBlob} (h : FitsRecord blob) :
    parseWatchBlobsBody (formatWatchBlobsBody blob) = blob := by
  have hkey := SyncLemmas.key_parse_format blob
  have htime : (parseWatchBlobsBody (formatWatchBlobsBody blob)).lastModified =
      blob.lastModified := by
    have hread : readAt (formatWatchBlobsBody blob) blobRefSize 8 = beBytes 8 blob.lastModified :=
      readAt_middle rfl blob.key.length_toList (length_beBytes 8 _)
    show ofBeBytes (readAt _ _ _) = _
    rw [hread]
    exact ofBeBytes_beBytes h.lastModified
  have hflags : (parseWatchBlobsBody (formatWatchBlobsBody blob)).flags = blob.flags := by
    have hget : (formatWatchBlobsBody blob).getD (blobRefSize + 8) 0 = UInt8.ofInt blob.flags := by
      refine getD_middle (List.append_nil _).symm ?_
      rw [List.length_append, blob.key.length_toList, length_beBytes]
    show ((List.getD _ _ _ : UInt8).toNat : Int) = _
    rw [hget]
    rcases h.flags with hflags | hflags
    · rw [hflags]
      rfl
    · rw [hflags]
      rfl
  cases blob
  exact congr (congr (congrArg ModifiedBlob.mk hkey) htime) hflags

theorem fitsRecord_of_mem {rows : List BlobPosition} {blob : ModifiedBlob}
    (h : blob ∈ recordsOf rows) : FitsRecord blob := by
  obtain ⟨i, r, -, rfl⟩ := List.mem_mapIdx.mp h
  constructor
  · dsimp only
    omega
  · dsimp only
    split
    · exact .inr rfl
    · exact .inl rfl

theorem readWatchBlobs_format {blobs : List ModifiedBlob} (h : ∀ blob ∈ blobs, FitsRecord blob) :
    readWatchBlobs blobs.length ⟨blobs.flatMap formatWatchBlobsBody, false⟩ = blobs := by
  induction blobs with
  | nil => rfl
  | cons blob blobs ih =>
    have hlen := SyncLemmas.length_formatWatchBlobsBody blob
    have hread : readWatchBlobsBody ⟨(blob :: blobs).flatMap formatWatchBlobsBody, false⟩ =
        .ok (blob, ⟨blobs.flatMap formatWatchBlobsBody, false⟩) := by
      rw [readWatchBlobsBody, List.flatMap_cons, if_pos (by rw [List.length_append, hlen]; omega),
        ← hlen, List.take_left, List.drop_left, parse_format (h blob List.mem_cons_self)]
    rw [List.length_cons, readWatchBlobs, hread]
    exact congrArg (blob :: ·) (ih fun b hb => h b (List.mem_cons_of_mem _ hb))

theorem length_records (rows : List BlobPosition) :
    ((recordsOf rows).flatMap formatWatchBlobsBody).length = rows.length * watchBlobsBodySize := by
  rw [List.length_flatMap, List.map_congr_left fun blob _ =>
    SyncLemmas.length_formatWatchBlobsBody blob, List.map_const', List.sum_replicate_nat]
  simp [recordsOf]

end BlobListLemmas

open BlobListLemmas

/-- The bytes of a list are a record for each row that the filter asks for, in the order that it
asks for, with the end of the batch at the last one and no other. A filter is refused if its bound
or its order is none that SQLite can be asked for. -/
theorem blob_list_stream (env : StorageEnv) (db : IndexDb) (f : BlobFilter) :
    (blobListBytes env db f = none ↔ llongMax < f.lastModifiedAfter ∨
      f.sortOrder ≠ sortOrderLastModified ∧ f.sortOrder ≠ sortOrderRef) ∧
    ∀ bytes, blobListBytes env db f = some bytes →
      ∃ rows : List BlobPosition, rows.Perm (db.blobPosition.filter f.selects) ∧
        rows.Pairwise f.InOrder ∧ bytes.length = rows.length * watchBlobsBodySize ∧
        readWatchBlobs rows.length ⟨bytes, false⟩ = recordsOf rows := by
  refine ⟨Option.map_eq_none_iff.trans listBlobs_eq_none, fun bytes hbytes => ?_⟩
  obtain ⟨ctx, hlist, rfl⟩ := Option.map_eq_some_iff.mp hbytes
  obtain ⟨rows, hperm, horder, rfl⟩ := listBlobs_eq hlist
  refine ⟨rows, hperm, horder, ?_⟩
  have hwritten : (visitRows ListBlobsCtx.handle rows .start).flush.written =
      (recordsOf rows).flatMap formatWatchBlobsBody :=
    (written_flush _).trans (content_visitRows rows .start)
  have hlen : rows.length = (recordsOf rows).length := by
    rw [recordsOf, List.length_mapIdx]
  rw [hwritten]
  refine ⟨length_records rows, ?_⟩
  rw [hlen]
  exact readWatchBlobs_format fun blob hblob => fitsRecord_of_mem hblob

end Everarch
