import Everarch.Glacier.Walkable

/-!
# The rebuilt index

`evr_glacier_recreate_index_db` over buckets that appends have written. The bucket files
come in any order; a row does not depend on it, except among blobs with one key.

* `exists_rebuilt`: the rebuild succeeds, with rows that are those of records.
* `eq_of_placedAt`: a key that occurs once leaves no choice of the row.

Result: `rebuilt_index_exact`.
-/

namespace Everarch

/-- The index has the keys of the appended blobs, and each row points at the bytes of a
blob with its key. -/
structure IndexesExactly (dir : BucketDir) (db : IndexDb) (steps : List AppendStep) : Prop where
  keys : (db.blobPosition.map (·.key)).Nodup
  rows : ∀ row ∈ db.blobPosition, ∃ s ∈ steps, row.key = s.blob.key ∧ HoldsBytes dir row s.blob.body
  indexed : ∀ s ∈ steps, ∃ row ∈ db.blobPosition, row.key = s.blob.key

namespace RebuildLemmas

open BucketLemmas AppendLemmas ReindexLemmas WalkableLemmas

/-! ## The rows of records -/

/-- The rows of all records, bucket by bucket. -/
def placements : Nat → List (List Record) → List BlobPosition
  | _, [] => []
  | i, rs :: segs => (positions bucketHeaderSize rs).map (rowAt (i + 1)) ++ placements (i + 1) segs

theorem mem_placements {segs : List (List Record)} {start i : Nat} {rs : List Record}
    {p : Nat × Record} (hrs : segs[i]? = some rs) (hp : p ∈ positions bucketHeaderSize rs) :
    rowAt (start + i + 1) p ∈ placements start segs := by
  induction segs generalizing start i with
  | nil => cases hrs
  | cons rs' segs ih =>
    cases i with
    | zero =>
      cases hrs
      exact List.mem_append_left _ (List.mem_map_of_mem hp)
    | succ i =>
      have hmem : rowAt (start + 1 + i + 1) p ∈ placements (start + 1) segs := ih hrs
      rw [Nat.add_assoc start 1 i, Nat.add_comm 1 i] at hmem
      exact List.mem_append_right _ hmem

theorem mem_placements_of_placedAt {segs : List (List Record)} {row : BlobPosition}
    (h : PlacedAt segs row) : row ∈ placements 0 segs := by
  obtain ⟨i, rs, p, hrs, hp, rfl⟩ := h
  have hmem : rowAt (0 + i + 1) p ∈ placements 0 segs := mem_placements hrs hp
  rw [Nat.zero_add] at hmem
  exact hmem

theorem map_key_positions (start : Nat) (rs : List Record) :
    (positions start rs).map (·.2.key) = rs.map (·.key) := by
  induction rs generalizing start with
  | nil => rfl
  | cons r rs ih => rw [positions, List.map_cons, ih, List.map_cons]

theorem map_key_placements (start : Nat) (segs : List (List Record)) :
    (placements start segs).map (·.key) = segs.flatten.map (·.key) := by
  induction segs generalizing start with
  | nil => rfl
  | cons rs segs ih =>
    have hkeys : ((positions bucketHeaderSize rs).map (rowAt (start + 1))).map (·.key) =
        rs.map (·.key) := by
      rw [List.map_map, ← map_key_positions bucketHeaderSize]
      exact List.map_congr_left fun p _ => by simp only [Function.comp, rowAt]
    rw [placements, List.map_append, hkeys, ih, List.flatten_cons, List.map_append]

theorem eq_of_count_map_eq_one {α β : Type} [BEq β] [LawfulBEq β] {f : α → β} {l : List α} {b : β}
    (h : (l.map f).count b = 1) {x y : α} (hx : x ∈ l) (hy : y ∈ l) (hfx : f x = b)
    (hfy : f y = b) : x = y := by
  rw [List.count, List.countP_map, List.countP_eq_length_filter, List.length_eq_one_iff] at h
  obtain ⟨z, hz⟩ := h
  have hmem : ∀ w ∈ l, f w = b → w = z := by
    intro w hw hfw
    have hfilter : w ∈ l.filter ((· == b) ∘ f) :=
      List.mem_filter.mpr ⟨hw, by simp [hfw]⟩
    rw [hz] at hfilter
    exact List.mem_singleton.mp hfilter
  rw [hmem x hx hfx, hmem y hy hfy]

/-- A record whose key occurs once has one row only. -/
theorem eq_of_placedAt {segs : List (List Record)} {row row' : BlobPosition}
    (h : PlacedAt segs row) (h' : PlacedAt segs row') (hkey : row.key = row'.key)
    (hone : (segs.flatten.map (·.key)).count row'.key = 1) : row = row' := by
  rw [← map_key_placements 0] at hone
  exact eq_of_count_map_eq_one hone (mem_placements_of_placedAt h) (mem_placements_of_placedAt h')
    hkey rfl

theorem placedAt_mono {log log' : SegLog Record} {row : BlobPosition}
    (h : PlacedAt log.segments row) (hgrows : log.Grows log') : PlacedAt log'.segments row := by
  obtain ⟨i, rs, p, hrs, hp, hrow⟩ := h
  obtain ⟨rs', hrs', hpre⟩ := hgrows i rs hrs
  exact ⟨i, rs', p, hrs', (positions_mono hpre).subset hp, hrow⟩

/-- The row that an append writes is the row that a reindex finds. The flags go through
a byte of the bucket in between. -/
theorem placedAt_newRow (log : SegLog Record) {blob : WritingBlob} (lastModified : UInt64)
    (hsize : blob.size < 2 ^ 32) (hflags : 0 ≤ blob.flags ∧ blob.flags < 256) :
    PlacedAt (log.add (recordOf blob lastModified hsize)).segments
      (newRow log blob lastModified) := by
  have hbyte : ((UInt8.ofInt blob.flags).toNat : Int) = blob.flags := by
    rw [UInt8.ofInt, UInt8.toNat_ofNat']
    omega
  refine ⟨log.closed.length, log.current ++ [recordOf blob lastModified hsize],
    (bucketSize log.current, recordOf blob lastModified hsize), ?_, ?_, ?_⟩
  · rw [SegLog.getElem?_add, if_pos rfl]
  · rw [positions_append]
    exact List.mem_append_right _ List.mem_cons_self
  · unfold newRow rowAt recordOf
    simp only [log.length_segments, hbyte, blob.length_body]

/-! ## The rebuild -/

theorem holdsBytes_of_pointsAt {dir : BucketDir} {segs : List (List Record)}
    (hw : Walkable dir segs) {row : BlobPosition} (h : PointsAt segs row) :
    ∃ r ∈ segs.flatten, row.key = r.key ∧ HoldsBytes dir row r.body := by
  obtain ⟨r, hr, i, offset, file, hkey, -, hindex, hfile, -, hoffset, hsize, -, -, hread⟩ :=
    pointsAt_file hw h
  exact ⟨r, hr, hkey, i + 1, offset, file, hindex, hoffset, hsize, hfile, hread⟩

section Rebuild

variable {env : GlacierEnv} {g : Glacier} {log : SegLog Record} {bound : Nat}

/-- The rebuild succeeds whatever the index was before. -/
theorem exists_rebuilt (h : Represents g log) (hfits : log.Fits bucketSize bound)
    (hbound : bound < 2 ^ 31) (hhash : ∀ r ∈ log.items, env.hash r.body = r.key) :
    ∃ dir' db', (∀ db, recreateIndexDb env ⟨g.dir, some db⟩ = (.ok, ⟨dir', some db'⟩)) ∧
      quickCheckGlacier env ⟨g.dir, none⟩ = (.ok, ⟨dir', some db'⟩) ∧
      Walkable dir' log.segments ∧ (db'.blobPosition.map (·.key)).Nodup ∧
      (∀ row ∈ db'.blobPosition, PlacedAt log.segments row) ∧
      ∀ r ∈ log.items, ∃ row ∈ db'.blobPosition, row.key = r.key := by
  have hw := walkable_of_represents h hfits hbound
  have hctx := createGlacierWriteCtx_represents h hfits hbound none
  have hcorrupt : checkIndexDb env ⟨g.dir, .empty,
      ⟨log.segments.length, some (.bucket log.segments.length), bucketSize log.current, true⟩⟩ =
        .glacierIndexDbCorrupt :=
    checkIndexDb_corrupt rfl h.file_current (by intro e he; cases he)
  obtain ⟨dir', db', hwalk, hw', hrows, hindexed⟩ :=
    reindex_walkable hw (length_segments_le h) hhash
  have hkeys := reindex_keys (by exact List.nodup_nil) hwalk
  have hrecreate : ∀ db, recreateIndexDb env ⟨g.dir, some db⟩ = (.ok, ⟨dir', some db'⟩) := by
    intro db
    unfold recreateIndexDb
    simp only [hctx, Option.getD_none, hwalk]
  refine ⟨dir', db', hrecreate, ?_, hw', hkeys, hrows, hindexed⟩
  unfold quickCheckGlacier quickCheckGlacierWith
  simp only [hctx, checkIndexDbWith_nil, Option.getD_none, hcorrupt, hrecreate]

end Rebuild

theorem hash_of_holds {hash : Bytes → BlobRef} {log : SegLog Record} {steps : List AppendStep}
    (h : Holds log steps) (hhash : ∀ s ∈ steps, hash s.blob.body = s.blob.key) :
    ∀ r ∈ log.items, hash r.body = r.key := by
  intro r hr
  obtain ⟨s, hs, hkey, hbody⟩ := exists_step_of_mem h hr
  rw [← hkey, ← hbody]
  exact hhash s hs

theorem indexesExactly_of_placedAt {dir : BucketDir} {db : IndexDb} {log : SegLog Record}
    {steps : List AppendStep} (hholds : Holds log steps) (hw : Walkable dir log.segments)
    (hlen : log.segments.length ≤ 2 ^ 32) (hkeys : (db.blobPosition.map (·.key)).Nodup)
    (hrows : ∀ row ∈ db.blobPosition, PlacedAt log.segments row)
    (hindexed : ∀ r ∈ log.items, ∃ row ∈ db.blobPosition, row.key = r.key) :
    IndexesExactly dir db steps where
  keys := hkeys
  rows row hrow := by
    obtain ⟨r, hr, hkey, hbytes⟩ :=
      holdsBytes_of_pointsAt hw (pointsAt_of_placedAt hw hlen (hrows row hrow))
    obtain ⟨s, hs, hskey, hsbody⟩ := exists_step_of_mem hholds hr
    refine ⟨s, hs, hkey.trans hskey.symm, ?_⟩
    rw [hsbody]
    exact hbytes
  indexed s hs := by
    obtain ⟨r, hr, hkey, -⟩ := exists_mem_of_step hholds hs
    obtain ⟨row, hrow, hrkey⟩ := hindexed r hr
    exact ⟨row, hrow, hrkey.trans hkey⟩

theorem represents_next {maxBucketSize : Nat} (hmax : maxBucketSize < 2 ^ 31)
    {before : List AppendStep} {s : AppendStep}
    (hok : Along (nextGlacier maxBucketSize) (Appended maxBucketSize) emptyGlacier (before ++ [s]))
    (hflags : 0 ≤ s.blob.flags ∧ s.blob.flags < 256)
    (hnew : s.blob.key ∉ before.map (·.blob.key)) :
    ∃ log, Represents (exec (nextGlacier maxBucketSize) emptyGlacier (before ++ [s])) log ∧
      log.Fits bucketSize (max maxBucketSize bucketHeaderSize) ∧ Holds log (before ++ [s]) ∧
      ∀ row ∈ (exec (nextGlacier maxBucketSize) emptyGlacier (before ++ [s])).db.blobPosition,
        row.key = s.blob.key → PlacedAt log.segments row := by
  obtain ⟨hbefore, hs⟩ := along_append_singleton.mp hok
  obtain ⟨log0, h0, hfits0, -, hholds0⟩ := represents_run hmax hbefore
  obtain ⟨hsize, hone, h, log1, hpush, hrows⟩ := represents_appendBlob hmax h0 hs
  rw [exec_append_singleton]
  refine ⟨_, h, ?_, ?_, fun row hrow hkey => ?_⟩
  · have hroom : bucketHeaderSize ≤ maxBucketSize := Nat.le_trans (Nat.le_add_right _ _) hone
    rw [Nat.max_eq_left hroom] at hfits0 ⊢
    exact hfits0.push hroom hone
  · rw [Holds, SegLog.push_items, List.map_append, hholds0, List.map_append]
    rfl
  · rcases hrows row hrow with hold | heq
    · -- the key would be that of an earlier blob
      obtain ⟨i, rs, fPos, r, hrs, hr, hrkey, -⟩ := h0.rows row hold
      obtain ⟨s', hs', hskey, -⟩ := exists_step_of_mem hholds0
        (List.mem_flatten.mpr ⟨rs, List.mem_of_getElem? hrs, mem_of_mem_positions hr⟩)
      refine absurd (List.mem_map.mpr ⟨s', hs', ?_⟩) hnew
      rw [hskey, ← hrkey, hkey]
    · rw [heq, hpush]
      exact placedAt_newRow log1 s.lastModified hsize hflags

/-- The row that is written with a blob, seen from the end of the run. -/
theorem exists_row_at_append {maxBucketSize : Nat} (hmax : maxBucketSize < 2 ^ 31)
    {before after : List AppendStep} {s : AppendStep}
    (hok : Along (nextGlacier maxBucketSize) (Appended maxBucketSize) emptyGlacier
      (before ++ s :: after))
    (hflags : 0 ≤ s.blob.flags ∧ s.blob.flags < 256)
    (hnew : s.blob.key ∉ before.map (·.blob.key)) :
    ∃ log, Represents (exec (nextGlacier maxBucketSize) emptyGlacier (before ++ s :: after)) log ∧
      log.Fits bucketSize (max maxBucketSize bucketHeaderSize) ∧
      Holds log (before ++ s :: after) ∧
      ∃ row ∈ (exec (nextGlacier maxBucketSize) emptyGlacier (before ++ [s])).db.blobPosition,
        row.key = s.blob.key ∧ PlacedAt log.segments row := by
  rw [← List.singleton_append, ← List.append_assoc] at hok ⊢
  obtain ⟨hs, hafter⟩ := along_append.mp hok
  obtain ⟨log, h, hfits, hholds, hplaced⟩ := represents_next hmax hs hflags hnew
  obtain ⟨log', h', hfits', hgrows, -, hitems⟩ := represents_run_from hmax h hfits hafter
  rw [exec_append]
  refine ⟨log', h', hfits', ?_, ?_⟩
  · rw [Holds, hitems, hholds, ← List.map_append]
  · obtain ⟨r, hr, hkey, -⟩ := exists_mem_of_step hholds (List.mem_append_right _ List.mem_cons_self)
    obtain ⟨row, hrow, hrkey⟩ := h.indexed r hr
    have hskey := hrkey.trans hkey
    exact ⟨row, hrow, hskey, placedAt_mono (hplaced row hrow hskey) hgrows⟩

theorem count_key_eq_one {log : SegLog Record} {before after : List AppendStep} {s : AppendStep}
    (h : Holds log (before ++ s :: after))
    (honce : s.blob.key ∉ (before ++ after).map (·.blob.key)) :
    (log.items.map (·.key)).count s.blob.key = 1 := by
  have hkeys := map_key_of_holds h
  rw [List.map_append, List.mem_append, not_or] at honce
  rw [hkeys, List.map_append, List.map_cons, List.count_append, List.count_cons_self,
    List.count_eq_zero.mpr honce.1, List.count_eq_zero.mpr honce.2]

end RebuildLemmas

open AppendLemmas RebuildLemmas

/-- The rebuild of the index of appended blobs succeeds, also after index.db has been lost.
It has the keys of the blobs, and the row that was written with a blob, unless its key
has been appended again. -/
theorem rebuilt_index_exact (env : GlacierEnv) (maxBucketSize : Nat)
    (hmax : maxBucketSize < 2 ^ 31) (steps : List AppendStep)
    (hok : Along (nextGlacier maxBucketSize) (Appended maxBucketSize) emptyGlacier steps)
    (hhash : ∀ s ∈ steps, env.hash s.blob.body = s.blob.key)
    (hflags : ∀ s ∈ steps, 0 ≤ s.blob.flags ∧ s.blob.flags < 256) :
    ∃ dir db, (∀ old, recreateIndexDb env
        ⟨(exec (nextGlacier maxBucketSize) emptyGlacier steps).dir, some old⟩ =
          (.ok, ⟨dir, some db⟩)) ∧
      quickCheckGlacier env ⟨(exec (nextGlacier maxBucketSize) emptyGlacier steps).dir, none⟩ =
        (.ok, ⟨dir, some db⟩) ∧
      IndexesExactly dir db steps ∧
      ∀ before s after, steps = before ++ s :: after →
        s.blob.key ∉ (before ++ after).map (·.blob.key) →
        ∃ row ∈ (exec (nextGlacier maxBucketSize) emptyGlacier (before ++ [s])).db.blobPosition,
          row.key = s.blob.key ∧ row ∈ db.blobPosition := by
  obtain ⟨log, h, hfits, -, hholds⟩ := represents_run hmax hok
  have hbound : max maxBucketSize bucketHeaderSize < 2 ^ 31 := Nat.max_lt.mpr ⟨hmax, by decide⟩
  obtain ⟨dir, db, hrecreate, hcheck, hw, hkeys, hrows, hindexed⟩ :=
    exists_rebuilt h hfits hbound (hash_of_holds hholds hhash)
  have hexact := indexesExactly_of_placedAt hholds hw (length_segments_le h) hkeys hrows hindexed
  refine ⟨dir, db, hrecreate, hcheck, hexact, ?_⟩
  rintro before s after rfl honce
  have hnew : s.blob.key ∉ before.map (·.blob.key) := by
    rw [List.map_append, List.mem_append, not_or] at honce
    exact honce.1
  obtain ⟨log', h', hfits', hholds', row, hrow, hkey, hplaced⟩ := exists_row_at_append hmax hok
    (hflags s (List.mem_append_right _ List.mem_cons_self)) hnew
  -- the same rebuild, over the records in which the row has been placed
  obtain ⟨dir', db', hrecreate', -, -, -, hrows', hindexed'⟩ :=
    exists_rebuilt h' hfits' hbound (hash_of_holds hholds' hhash)
  cases (hrecreate .empty).symm.trans (hrecreate' .empty)
  obtain ⟨r, hr, hrkey, -⟩ := exists_mem_of_step hholds'
    (List.mem_append_right before List.mem_cons_self)
  obtain ⟨row', hrow', hkey'⟩ := hindexed' r hr
  have hone := count_key_eq_one hholds' honce
  rw [← hkey] at hone
  have heq := eq_of_placedAt (hrows' row' hrow') hplaced ((hkey'.trans hrkey).trans hkey.symm) hone
  exact ⟨row, hrow, hkey, heq ▸ hrow'⟩

/-- Two blobs in two buckets. -/
theorem rebuilt_index_exact_two :
    ∃ dir db, quickCheckGlacier (.inOrder sampleHash) ⟨(exec (nextGlacier 50) emptyGlacier
        [⟨emptyBlob, 5⟩, ⟨letterBlob, 6⟩]).dir, none⟩ = (.ok, ⟨dir, some db⟩) ∧
      IndexesExactly dir db [⟨emptyBlob, 5⟩, ⟨letterBlob, 6⟩] := by
  obtain ⟨dir, db, -, hcheck, hexact, -⟩ := rebuilt_index_exact (.inOrder sampleHash) 50 (by decide)
    [⟨emptyBlob, 5⟩, ⟨letterBlob, 6⟩] (by decide +kernel) (by decide +kernel) (by decide +kernel)
  exact ⟨dir, db, hcheck, hexact⟩

end Everarch
