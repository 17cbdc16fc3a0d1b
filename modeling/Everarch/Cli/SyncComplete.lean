import Everarch.Cli.Sync

/-!
# What a successful sync has copied

`evr_cli_sync` returns `evr_ok` after both watches have come to an end and all workers have
copied what was handed over to them. An end of a watch that is not the end of the list looks
the same to `read_n`, inside of a body and between two of them, and the flag
`evr_watch_flag_eob` of the last body is not read. Blobs whose bodies have not arrived are
missed then.

* `SyncLemmas.covered_iff`: whether a storage has all of the other one after the run.

Result: `sync_complete_iff`.
-/

namespace Everarch

/-- Every matching blob of the source is stored in the destination, and the other way round
with `two_way`. -/
def SyncRun.Complete (cfg : SyncCfg) (s : SyncRun) : Prop :=
  (∀ row ∈ s.srcRows, cfg.Matches row → row.key ∈ s.dstRows.map (·.key)) ∧
    (cfg.twoWay = true → ∀ row ∈ s.dstRows, cfg.Matches row → row.key ∈ s.srcRows.map (·.key))

instance (cfg : SyncCfg) (s : SyncRun) : Decidable (s.Complete cfg) :=
  inferInstanceAs (Decidable (_ ∧ _))

/-- The matching blobs whose bodies do not arrive completely are already stored. -/
def SyncCfg.NoneMissed (cfg : SyncCfg) (c c' : Content) (cut : Cut) : Prop :=
  ∀ row ∈ c.rows, cfg.Matches row → row.key ∉ cfg.received c cut → row.key ∈ c'.rows.map (·.key)

instance (cfg : SyncCfg) (c c' : Content) (cut : Cut) : Decidable (cfg.NoneMissed c c' cut) :=
  inferInstanceAs (Decidable (∀ row ∈ c.rows, _))

namespace SyncLemmas

open PipeLemmas CompareLemmas

variable {cfg : SyncCfg} {src dst : Content} {srcCut dstCut : Cut} {s : SyncRun}

theorem mem_rows_of_received {c : Content} {cut : Cut} {ref : BlobRef}
    (h : ref ∈ cfg.received c cut) : ref ∈ c.rows.map (·.key) := by
  have hlisted := List.mem_of_mem_take h
  rw [keys_listed] at hlisted
  exact (List.filter_sublist.map _).subset hlisted

theorem mem_difference {ref : BlobRef} {refs refs' : List BlobRef} :
    ref ∈ difference refs refs' ↔ ref ∈ refs ∧ ref ∉ refs' := by
  unfold difference
  rw [List.mem_filter, decide_eq_true_eq]

theorem mem_handedTo {dir : SyncDir} {handed : List SyncItem} {ref : BlobRef} :
    ref ∈ handedTo dir handed ↔ ⟨dir, ref⟩ ∈ handed := by
  unfold handedTo
  rw [List.mem_map]
  constructor
  · rintro ⟨item, hitem, rfl⟩
    obtain ⟨hmem, hdir⟩ := List.mem_filter.mp hitem
    obtain rfl := of_decide_eq_true hdir
    exact hmem
  · intro hmem
    exact ⟨_, List.mem_filter.mpr ⟨hmem, decide_eq_true rfl⟩, rfl⟩

/-! ## After a successful run -/

section Returned

variable (h : SyncOk cfg src dst srcCut dstCut s) (hret : s.loop = .returned .ok)
include h hret

theorem read_eq_handed : s.pipe.read = s.handed := by
  have hended := endedWith_eq_some.mp (h.returned hret 1 (by decide))
  have hplaced := h.placed 1 (by decide)
  rw [hended] at hplaced
  rw [handed_of_unwritten h (by rw [hret]; rfl)]
  exact read_of_ended h.pipe (by decide) hplaced

/-- Every item that was handed over is copied. -/
theorem stored_of_handed {item : SyncItem} (hitem : item ∈ s.handed) : s.Stored item := by
  rw [← read_eq_handed h hret] at hitem
  rcases h.items item hitem with hstored | ⟨i, hi, hheld⟩ | ⟨i, hi, hended⟩
  · exact hstored
  · rw [endedWith_eq_some.mp (h.returned hret i hi)] at hheld
    cases hheld
  · rw [h.returned hret i hi] at hended
    cases hended

theorem handed_eq_difference :
    handedTo .srcToDst s.handed =
        difference (cfg.received src srcCut) (cfg.received dst dstCut) ∧
      handedTo .dstToSrc s.handed =
        if cfg.twoWay then difference (cfg.received dst dstCut) (cfg.received src srcCut) else [] := by
  obtain ⟨srcRest, dstRest, -, -, hkept⟩ := h.streams
  exact handed_of_ends hkept (h.ends (.inr hret))

/-- A storage has what it had and what was handed over for it. -/
theorem mem_toRows_iff {dir : SyncDir} {rows : List BlobPosition}
    (hgrown : Grown s dir rows (s.toRows dir)) (ref : BlobRef) :
    ref ∈ (s.toRows dir).map (·.key) ↔
      ref ∈ rows.map (·.key) ∨ ref ∈ handedTo dir s.handed := by
  obtain ⟨new, hnew, hread⟩ := hgrown
  constructor
  · intro hmem
    rw [hnew, List.map_append, List.mem_append] at hmem
    refine hmem.imp_right fun hmem => ?_
    obtain ⟨row, hrow, rfl⟩ := List.mem_map.mp hmem
    rw [mem_handedTo, ← read_eq_handed h hret]
    exact hread row hrow
  · rintro (hold | hhanded)
    · rw [hnew, List.map_append]
      exact List.mem_append_left _ hold
    · exact stored_of_handed h hret (mem_handedTo.mp hhanded)

/-- A blob that a storage had at first, or one that the other storage has listed. -/
theorem mem_toRows_cases {dir : SyncDir} {rows : List BlobPosition} {refs : List BlobRef}
    (hgrown : Grown s dir rows (s.toRows dir)) (hrefs : ∀ ref ∈ handedTo dir s.handed, ref ∈ refs) :
    ∀ row ∈ s.toRows dir, row ∈ rows ∨ row.key ∈ refs := by
  obtain ⟨new, hnew, hread⟩ := hgrown
  intro row hrow
  rw [hnew, List.mem_append] at hrow
  refine hrow.imp_right fun hrow => hrefs _ ?_
  rw [mem_handedTo, ← read_eq_handed h hret]
  exact hread row hrow

end Returned

/-- Whether a storage has all of the other one depends on what was missed. -/
theorem covered_iff {c c' : Content} (cut cut' : Cut) {rows rows' : List BlobPosition}
    (hsub : c.rows ⊆ rows) (hrows : ∀ row ∈ rows, row ∈ c.rows ∨ row.key ∈ cfg.received c' cut')
    (hrows' : ∀ ref, ref ∈ rows'.map (·.key) ↔ ref ∈ c'.rows.map (·.key) ∨
      ref ∈ difference (cfg.received c cut) (cfg.received c' cut')) :
    (∀ row ∈ rows, cfg.Matches row → row.key ∈ rows'.map (·.key)) ↔ cfg.NoneMissed c c' cut := by
  constructor
  · intro hall row hrow hmatches hmissed
    rcases (hrows' row.key).mp (hall row (hsub hrow) hmatches) with hold | hnew
    · exact hold
    · exact absurd (mem_difference.mp hnew).1 hmissed
  · intro hnone row hrow hmatches
    rw [hrows']
    rcases hrows row hrow with hold | hlisted
    · by_cases hreceived : row.key ∈ cfg.received c cut
      · by_cases hboth : row.key ∈ cfg.received c' cut'
        · exact .inl (mem_rows_of_received hboth)
        · exact .inr (mem_difference.mpr ⟨hreceived, hboth⟩)
      · exact .inl (hnone row hold hmatches hreceived)
    · exact .inl (mem_rows_of_received hlisted)

end SyncLemmas

open SyncLemmas

/-- For all storages, all cuts of the two watches and every interleaving of the loop, the
workers and the storages: a run that returns `evr_ok` has copied everything if and only if the
matching blobs that were not received, because a watch was cut before the end of their bodies,
are stored on the other side anyway. -/
theorem sync_complete_iff (cfg : SyncCfg) (src dst : Content) (srcCut dstCut : Cut)
    (events : List SyncEvent)
    (hret : (exec (SyncRun.step cfg) (.start cfg src dst srcCut dstCut) events).loop =
      .returned .ok) :
    (exec (SyncRun.step cfg) (.start cfg src dst srcCut dstCut) events).Complete cfg ↔
      cfg.NoneMissed src dst srcCut ∧ (cfg.twoWay = true → cfg.NoneMissed dst src dstCut) := by
  have h := syncOk_run cfg src dst srcCut dstCut events
  generalize exec (SyncRun.step cfg) (.start cfg src dst srcCut dstCut) events = s at h hret
  obtain ⟨htoDst, htoSrc⟩ := handed_eq_difference h hret
  have hsrcSub : src.rows ⊆ s.srcRows := by
    obtain ⟨new, hnew, -⟩ := h.srcRows
    rw [hnew]
    exact List.subset_append_left ..
  have hdstSub : dst.rows ⊆ s.dstRows := by
    obtain ⟨new, hnew, -⟩ := h.dstRows
    rw [hnew]
    exact List.subset_append_left ..
  have hsrcRows : ∀ row ∈ s.srcRows, row ∈ src.rows ∨ row.key ∈ cfg.received dst dstCut := by
    refine @mem_toRows_cases _ _ _ _ _ _ h hret .dstToSrc _ _ h.srcRows fun ref href => ?_
    rw [htoSrc] at href
    split at href
    · exact (mem_difference.mp href).1
    · cases href
  have hdstRows : ∀ row ∈ s.dstRows, row ∈ dst.rows ∨ row.key ∈ cfg.received src srcCut := by
    refine @mem_toRows_cases _ _ _ _ _ _ h hret .srcToDst _ _ h.dstRows fun ref href => ?_
    rw [htoDst] at href
    exact (mem_difference.mp href).1
  refine and_congr (covered_iff srcCut dstCut hsrcSub hsrcRows fun ref => ?_)
    (forall_congr' fun htwoWay => covered_iff dstCut srcCut hdstSub hdstRows fun ref => ?_)
  · rw [← htoDst]
    exact mem_toRows_iff h hret h.dstRows ref
  · have hiff := mem_toRows_iff h hret h.srcRows ref
    rw [htoSrc, if_pos htwoWay] at hiff
    exact hiff

/-- The blob with one byte repeated as its ref. -/
def flatRow (b : UInt8) : BlobPosition :=
  ⟨flatRef b, 0, 0, 0, 0, 0⟩

def flatContent (bs : List UInt8) (h : Ascending (bs.map flatRef)) : Content where
  rows := bs.map flatRow
  ascending := by
    rw [List.map_map]
    exact h
  dated := by
    intro row hrow
    obtain ⟨b, -, rfl⟩ := List.mem_map.mp hrow
    exact Int.le_refl 0

instance (priority := 2000) neZeroThreads : NeZero 5 :=
  ⟨by decide⟩

/-- A worker is told the end. -/
def endWorker (i : Fin 5) : List SyncEvent :=
  [.ho (.call i .occupied), .ho (.lock i), .ho (.test i), .quit i true]

/-- The loop has come to the end of both watches and is joined with workers that have nothing
to do. -/
def endSync : List SyncEvent :=
  [.pass (true, true), .ho (.end_ .finish)] ++ endWorker 1 ++ endWorker 2 ++ endWorker 3 ++
    endWorker 4 ++ List.replicate 8 (.ho (.endSignal none)) ++ [.join true]

/-- The loop hands an item over. -/
def handOver : List SyncEvent :=
  [.pass (true, true), .ho (.call 0 .available), .ho (.lock 0), .ho (.test 0), .write,
    .ho (.occupy 0), .ho (.signal 0 none), .ho (.unlock 0), .resume]

/-- A worker takes an item. -/
def takeItem (i : Fin 5) : List SyncEvent :=
  [.ho (.call i .occupied), .ho (.lock i), .ho (.test i), .read i, .ho (.empty i),
    .ho (.signal i none), .ho (.unlock i), .begin i]

/-- A worker copies its item without a failure. -/
def copyItem (i : Fin 5) (row : BlobPosition) : List SyncEvent :=
  List.replicate 7 (.work i .ok) ++ [.store ⟨.srcToDst, row.key⟩ row, .work i .ok]

/-- The source has a blob more, and its watch is cut inside of the body of the next one, which
the destination has. -/
def copyOne : List SyncEvent :=
  handOver ++ takeItem 1 ++ copyItem 1 (flatRow 1) ++ endSync

set_option maxRecDepth 10000 in
theorem sync_complete_iff_copy :
    (exec (SyncRun.step ⟨true, 0⟩) (.start ⟨true, 0⟩ (flatContent [1, 2] (by decide))
        (flatContent [2] (by decide)) ⟨40, false⟩ ⟨0, false⟩) copyOne).Complete ⟨true, 0⟩ :=
  (sync_complete_iff _ _ _ _ _ copyOne (by decide)).mpr (by decide)

set_option maxRecDepth 10000 in
/-- The source has a blob that the destination does not have, and its watch is cut inside of
the body. -/
theorem sync_misses_blob :
    (exec (SyncRun.step ⟨false, 0⟩) (.start ⟨false, 0⟩ (flatContent [1] (by decide))
        (flatContent [] (by decide)) ⟨36, false⟩ ⟨0, false⟩) endSync).loop = .returned .ok ∧
      ¬(exec (SyncRun.step ⟨false, 0⟩) (.start ⟨false, 0⟩ (flatContent [1] (by decide))
        (flatContent [] (by decide)) ⟨36, false⟩ ⟨0, false⟩) endSync).Complete ⟨false, 0⟩ := by
  decide

end Everarch
