import Everarch.Keys
import Everarch.Lib.Run
import Mathlib.Logic.Function.Basic
import Mathlib.Tactic.SplitIfs

/-!
# The files that evr-fs shows

evr-fs keeps a file inode for each file of each seed's file-set, with the seeds that the
description of its seed was made from. A seed that changes in the index is rebuilt, together with
the seeds of the inodes that name it.

* `populateVisitSeed`: `evr_populate_inode_set_visit_seed`. It returns before it removes the inodes
  of the seed if there is no file-set.
* `collectAffectedSeeds`: what `evr_collect_affected_seeds` leaves in its list.
* `IndexChange`, `applyChange`: a change of the index and the notification about it.

The directories between the root and a file and the numbers of the inodes are left out. A file node
that `evr_parse_fs_file` refuses is no file of its file-set.

Result: `view_current_iff`. A seed that loses its file-set keeps its files. A seed without files
has no inode that could name the seeds it depends on.
-/

namespace Everarch

/-! ## Files and their seeds -/

/-- `struct evr_fs_file`. -/
structure FsFile where
  path : String
  size : Nat
  fileRef : ClaimRef
  created : Nat
  lastModified : Nat
deriving DecidableEq

/-- A file inode, with `struct evr_inode_file`. -/
structure FileInode where
  file : FsFile
  seed : ClaimRef
  dependentSeeds : List ClaimRef

/-- What evr-fs is configured with. A description reads its own seed and the ones it depends on,
and nothing else of the index. -/
structure Mapping where
  Attrs : Type
  Desc : Type
  /-- `evr_seed_desc_build` -/
  desc : (ClaimRef → Attrs) → ClaimRef → Desc
  /-- `evr_collect_dependent_seeds` -/
  dependentSeeds : Desc → ClaimRef → List ClaimRef
  /-- `evr_seed_desc_to_file_set`, none if its root is not a file-set -/
  fileSet : Desc → Option (List FsFile)
  reads : ∀ index index' seed, index' seed = index seed →
    (∀ d ∈ dependentSeeds (desc index seed) seed, index' d = index d) →
    desc index' seed = desc index seed

variable {m : Mapping}

namespace Mapping

/-- The file-set of a seed. -/
def current (m : Mapping) (index : ClaimRef → m.Attrs) (seed : ClaimRef) : Option (List FsFile) :=
  m.fileSet (m.desc index seed)

/-- The files of a seed. -/
def files (m : Mapping) (index : ClaimRef → m.Attrs) (seed : ClaimRef) : List FsFile :=
  (m.current index seed).getD []

/-- The inodes that are made for the files of a seed. -/
def built (m : Mapping) (index : ClaimRef → m.Attrs) (seed : ClaimRef) : List FileInode :=
  (m.files index seed).map fun f => ⟨f, seed, m.dependentSeeds (m.desc index seed) seed⟩

end Mapping

/-- `evr_inode_remove_by_seed`. -/
def inodeRemoveBySeed (inodes : List FileInode) (seed : ClaimRef) : List FileInode :=
  inodes.filter fun nd => nd.seed ≠ seed

/-- `evr_populate_inode_set_visit_seed`. -/
def populateVisitSeed (m : Mapping) (index : ClaimRef → m.Attrs) (inodes : List FileInode)
    (seed : ClaimRef) : List FileInode :=
  let desc := m.desc index seed
  match m.fileSet desc with
  | none => inodes
  | some files =>
    let dependentSeeds := m.dependentSeeds desc seed
    inodeRemoveBySeed inodes seed ++ files.map fun f => ⟨f, seed, dependentSeeds⟩

/-- `evr_populate_inode_set`, with the seeds that the search finds. -/
def populateInodeSet (m : Mapping) (index : ClaimRef → m.Attrs) (seeds : List ClaimRef) :
    List FileInode :=
  seeds.foldl (populateVisitSeed m index) []

/-- `evr_collect_affected_inodes`. -/
def collectAffectedInodes (inodes : List FileInode) (seed : ClaimRef) : List FileInode :=
  inodes.filter fun nd => seed = nd.seed ∨ seed ∈ nd.dependentSeeds

/-- The loop over the affected inodes. A seed that finds no room in the set is listed again for
each of its inodes. -/
def addAffected (seedSet : ClaimRefTinySet) (affectedSeeds : List ClaimRef) :
    List FileInode → List ClaimRef
  | [] => affectedSeeds
  | nd :: nds =>
    let (addRes, seedSet) := claimRefTinySetAdd seedSet nd.seed
    if addRes = .exists_ then addAffected seedSet affectedSeeds nds
    else addAffected seedSet (affectedSeeds ++ [nd.seed]) nds

/-- `evr_collect_affected_seeds`. -/
def collectAffectedSeeds (inodes : List FileInode) (seed : ClaimRef) : List ClaimRef :=
  let (_, seedSet) := claimRefTinySetAdd (createClaimRefTinySet 128) seed
  addAffected seedSet [seed] (collectAffectedInodes inodes seed)

/-- `evr_index_watch_worker_visit_changed_seed`. -/
def visitChangedSeed (m : Mapping) (index : ClaimRef → m.Attrs) (inodes : List FileInode)
    (seed : ClaimRef) : List FileInode :=
  (collectAffectedSeeds inodes seed).foldl (populateVisitSeed m index) inodes

/-! ## The index and the inodes over time -/

/-- The index and the inodes of a running evr-fs. -/
structure FsView (m : Mapping) where
  index : ClaimRef → m.Attrs
  inodes : List FileInode

/-- The new attributes of a seed. -/
structure IndexChange (m : Mapping) where
  seed : ClaimRef
  attrs : m.Attrs

/-- The index changes, and evr-fs processes the notification. -/
def applyChange (view : FsView m) (change : IndexChange m) : FsView m :=
  let index := Function.update view.index change.seed change.attrs
  ⟨index, visitChangedSeed m index view.inodes change.seed⟩

/-- evr-fs after its start. -/
def FsView.start (index : ClaimRef → m.Attrs) (seeds : List ClaimRef) : FsView m :=
  ⟨index, populateInodeSet m index seeds⟩

/-- The file inodes of a seed. -/
def inodesOf (inodes : List FileInode) (seed : ClaimRef) : List FileInode :=
  inodes.filter fun nd => nd.seed = seed

/-- The file inodes of each seed are the files of its file-set. -/
def FsView.Current (view : FsView m) : Prop :=
  ∀ seed, (inodesOf view.inodes seed).map FileInode.file = m.files view.index seed

/-- A seed with files has a file-set after the change. No other seed than the changed one gets its
first file. -/
def FsView.Follows (view : FsView m) (change : IndexChange m) : Prop :=
  let index := Function.update view.index change.seed change.attrs
  (∀ seed, m.files view.index seed ≠ [] → m.current index seed ≠ none) ∧
    ∀ seed, seed ≠ change.seed → m.files view.index seed = [] → m.files index seed = []

/-- What the inodes hold beside the files: each has been made from the current description. -/
def FsView.Built (view : FsView m) : Prop :=
  ∀ seed, inodesOf view.inodes seed = m.built view.index seed

namespace ViewLemmas

open TinySetLemmas

variable {index : ClaimRef → m.Attrs} {inodes : List FileInode} {seed r : ClaimRef}

/-! ## The affected seeds -/

/-- The set holds listed seeds only, so a seed it knows is listed. -/
theorem mem_addAffected (nds : List FileInode) (set : ClaimRefTinySet)
    (affectedSeeds : List ClaimRef) (hset : ∀ r' ∈ set.refs, r' ∈ affectedSeeds) :
    r ∈ addAffected set affectedSeeds nds ↔ r ∈ affectedSeeds ∨ r ∈ nds.map FileInode.seed := by
  induction nds generalizing set affectedSeeds with
  | nil => simp [addAffected]
  | cons nd nds ih =>
    simp only [addAffected, List.map_cons, List.mem_cons]
    by_cases hadd : (claimRefTinySetAdd set nd.seed).1 = .exists_
    · have hlisted := hset _ (mem_of_exists hadd)
      have hkept : ∀ r' ∈ (claimRefTinySetAdd set nd.seed).2.refs, r' ∈ affectedSeeds := by
        intro r' hr'
        rcases mem_refs_add hr' with hold | hnew
        · exact hset r' hold
        · exact hnew ▸ hlisted
      rw [if_pos hadd, ih _ _ hkept]
      constructor
      · exact Or.imp_right .inr
      · rintro (h | rfl | h)
        · exact .inl h
        · exact .inl hlisted
        · exact .inr h
    · have hkept : ∀ r' ∈ (claimRefTinySetAdd set nd.seed).2.refs,
          r' ∈ affectedSeeds ++ [nd.seed] := by
        intro r' hr'
        exact List.mem_append.mpr ((mem_refs_add hr').imp (hset r') List.mem_singleton.mpr)
      rw [if_neg hadd, ih _ _ hkept, List.mem_append, List.mem_singleton, or_assoc]

theorem mem_collectAffectedSeeds :
    r ∈ collectAffectedSeeds inodes seed ↔
      r = seed ∨ ∃ nd ∈ inodesOf inodes r, seed ∈ nd.dependentSeeds := by
  have hroot : ∀ r' ∈ (claimRefTinySetAdd (createClaimRefTinySet 128) seed).2.refs,
      r' ∈ [seed] := by
    intro r' hr'
    rcases mem_refs_add hr' with hempty | hseed
    · cases hempty
    · exact List.mem_singleton.mpr hseed
  rw [collectAffectedSeeds, mem_addAffected _ _ _ hroot, List.mem_singleton]
  constructor
  · rintro (h | h)
    · exact .inl h
    · obtain ⟨nd, hnd, rfl⟩ := List.mem_map.mp h
      obtain ⟨hmem, haff⟩ := List.mem_filter.mp hnd
      rcases of_decide_eq_true haff with hself | hdep
      · exact .inl hself.symm
      · exact .inr ⟨nd, List.mem_filter.mpr ⟨hmem, decide_eq_true rfl⟩, hdep⟩
  · rintro (h | ⟨nd, hnd, hdep⟩)
    · exact .inl h
    · obtain ⟨hmem, hseed⟩ := List.mem_filter.mp hnd
      exact .inr (List.mem_map.mpr ⟨nd, List.mem_filter.mpr ⟨hmem, decide_eq_true (.inr hdep)⟩,
        of_decide_eq_true hseed⟩)

/-! ## A visit -/

theorem inodesOf_populateVisitSeed_of_ne (h : r ≠ seed) :
    inodesOf (populateVisitSeed m index inodes seed) r = inodesOf inodes r := by
  cases hset : m.fileSet (m.desc index seed) with
  | none => simp only [populateVisitSeed, hset]
  | some files =>
    simp only [populateVisitSeed, hset, inodesOf, inodeRemoveBySeed, List.filter_append,
      List.filter_filter]
    have hnew : (files.map fun f =>
        (⟨f, seed, m.dependentSeeds (m.desc index seed) seed⟩ : FileInode)).filter
          (fun nd => nd.seed = r) = [] := by
      rw [List.filter_eq_nil_iff]
      intro nd hnd
      obtain ⟨f, -, rfl⟩ := List.mem_map.mp hnd
      simpa using h.symm
    rw [hnew, List.append_nil]
    refine List.filter_congr fun nd _ => ?_
    by_cases hnd : nd.seed = r
    · simp [hnd, h]
    · simp [hnd]

/-- Without a file-set the old inodes stay. -/
theorem inodesOf_populateVisitSeed_none (h : m.current index r = none) :
    inodesOf (populateVisitSeed m index inodes r) r = inodesOf inodes r := by
  rw [Mapping.current] at h
  simp only [populateVisitSeed, h]

theorem inodesOf_populateVisitSeed_some (h : m.current index r ≠ none) :
    inodesOf (populateVisitSeed m index inodes r) r = m.built index r := by
  obtain ⟨files, hfiles⟩ := Option.ne_none_iff_exists'.mp h
  have hset : m.fileSet (m.desc index r) = some files := hfiles
  simp only [populateVisitSeed, hset, inodesOf, inodeRemoveBySeed, List.filter_append,
    List.filter_filter, Mapping.built, Mapping.files, hfiles, Option.getD_some]
  have hold : inodes.filter (fun nd => decide (nd.seed = r) && decide (nd.seed ≠ r)) = [] := by
    rw [List.filter_eq_nil_iff]
    intro nd _
    by_cases hnd : nd.seed = r <;> simp [hnd]
  have hnew : (files.map fun f =>
      (⟨f, r, m.dependentSeeds (m.desc index r) r⟩ : FileInode)).filter
        (fun nd => nd.seed = r) = files.map fun f =>
          ⟨f, r, m.dependentSeeds (m.desc index r) r⟩ := by
    rw [List.filter_eq_self]
    intro nd hnd
    obtain ⟨f, -, rfl⟩ := List.mem_map.mp hnd
    exact decide_eq_true rfl
  rw [hold, hnew, List.nil_append]

/-- Several visits with one index, in any order and any number, are one visit of each seed. -/
theorem inodesOf_visits (seeds : List ClaimRef) (inodes : List FileInode) (r : ClaimRef) :
    inodesOf (seeds.foldl (populateVisitSeed m index) inodes) r =
      if r ∈ seeds ∧ m.current index r ≠ none then m.built index r else inodesOf inodes r := by
  induction seeds generalizing inodes with
  | nil => simp
  | cons seed seeds ih =>
    rw [List.foldl_cons, ih]
    by_cases hset : m.current index r = none
    · have hkept : inodesOf (populateVisitSeed m index inodes seed) r = inodesOf inodes r := by
        by_cases hr : r = seed
        · rw [← hr, inodesOf_populateVisitSeed_none hset]
        · exact inodesOf_populateVisitSeed_of_ne hr
      rw [if_neg fun h => h.2 hset, if_neg fun h => h.2 hset, hkept]
    · by_cases hr : r = seed
      · rw [← hr, inodesOf_populateVisitSeed_some hset]
        simp [hset]
      · simp [inodesOf_populateVisitSeed_of_ne hr, hr]

theorem built_eq_nil_iff : m.built index r = [] ↔ m.files index r = [] :=
  List.map_eq_nil_iff

theorem files_eq_nil_of_none (h : m.current index r = none) : m.files index r = [] := by
  rw [Mapping.files, h, Option.getD_none]

theorem file_built : (m.built index r).map FileInode.file = m.files index r := by
  simp only [Mapping.built, List.map_map]
  exact List.map_id _

/-! ## A change -/

variable {view : FsView m} {change : IndexChange m}

theorem current_of_built (h : view.Built) : view.Current := by
  intro r
  rw [h r, file_built]

/-- The inodes of a seed after a change: new ones if the change affects it and it has a file-set,
else the ones from before. -/
theorem inodesOf_applyChange (h : view.Built) (r : ClaimRef) :
    inodesOf (applyChange view change).inodes r =
      if r ∈ collectAffectedSeeds view.inodes change.seed ∧
          m.current (applyChange view change).index r ≠ none
      then m.built (applyChange view change).index r else m.built view.index r := by
  rw [← h r]
  exact inodesOf_visits _ _ _

/-- A seed with files is affected if the change can be seen in its description. -/
theorem mem_affected_iff (h : view.Built) :
    r ∈ collectAffectedSeeds view.inodes change.seed ↔
      r = change.seed ∨ m.files view.index r ≠ [] ∧
        change.seed ∈ m.dependentSeeds (m.desc view.index r) r := by
  rw [mem_collectAffectedSeeds, h r]
  refine or_congr_right ?_
  constructor
  · rintro ⟨nd, hnd, hdep⟩
    obtain ⟨f, hf, rfl⟩ := List.mem_map.mp hnd
    exact ⟨List.ne_nil_of_mem hf, hdep⟩
  · rintro ⟨hfiles, hdep⟩
    obtain ⟨f, hf⟩ := List.exists_mem_of_ne_nil _ hfiles
    exact ⟨_, List.mem_map_of_mem hf, hdep⟩

/-- The description of another seed that does not depend on the changed one stays. -/
theorem desc_applyChange (hne : r ≠ change.seed)
    (hdep : change.seed ∉ m.dependentSeeds (m.desc view.index r) r) :
    m.desc (applyChange view change).index r = m.desc view.index r := by
  refine m.reads _ _ _ (Function.update_of_ne hne ..) fun d hd => ?_
  refine Function.update_of_ne ?_ ..
  rintro rfl
  exact hdep hd

theorem built_applyChange (h : view.Built) (hfollows : view.Follows change) :
    (applyChange view change).Built := by
  intro r
  rw [inodesOf_applyChange h]
  split_ifs with hrebuilt
  · rfl
  · by_cases hfiles : m.files view.index r = []
    · -- no inode names the seeds this one depends on
      have hnew : m.files (applyChange view change).index r = [] := by
        by_cases hr : r = change.seed
        · refine files_eq_nil_of_none (Classical.byContradiction fun hset => ?_)
          exact hrebuilt ⟨(mem_affected_iff h).mpr (.inl hr), hset⟩
        · exact hfollows.2 r hr hfiles
      rw [built_eq_nil_iff.mpr hfiles, built_eq_nil_iff.mpr hnew]
    · have hset := hfollows.1 r hfiles
      have hout : r ∉ collectAffectedSeeds view.inodes change.seed :=
        fun hmem => hrebuilt ⟨hmem, hset⟩
      rw [mem_affected_iff h, not_or, not_and] at hout
      have hdesc := desc_applyChange hout.1 (hout.2 hfiles)
      simp only [Mapping.built, Mapping.files, Mapping.current, hdesc]

theorem current_applyChange_iff (h : view.Built) :
    (applyChange view change).Current ↔ view.Follows change := by
  constructor
  · intro hcurrent
    refine ⟨fun r hfiles hnone => hfiles ?_, fun r hr hfiles => ?_⟩
    · have hshown := hcurrent r
      rw [inodesOf_applyChange h, if_neg fun hrebuilt => hrebuilt.2 hnone, file_built] at hshown
      exact hshown.trans (files_eq_nil_of_none hnone)
    · have hout : r ∉ collectAffectedSeeds view.inodes change.seed := by
        rw [mem_affected_iff h]
        rintro (heq | ⟨hsome, -⟩)
        · exact hr heq
        · exact hsome hfiles
      have hshown := hcurrent r
      rwa [inodesOf_applyChange h, if_neg fun hrebuilt => hout hrebuilt.1, file_built, hfiles,
        eq_comm] at hshown
  · exact fun hfollows => current_of_built (built_applyChange h hfollows)

/-- The table of the start has the files of all seeds that the search found. -/
theorem built_start_iff {index : ClaimRef → m.Attrs} {seeds : List ClaimRef} :
    (FsView.start index seeds).Built ↔ ∀ r, r ∉ seeds → m.files index r = [] := by
  refine forall_congr' fun r => ?_
  have hstart : inodesOf (FsView.start index seeds).inodes r =
      if r ∈ seeds ∧ m.current index r ≠ none then m.built index r else [] :=
    inodesOf_visits seeds [] r
  rw [hstart]
  split_ifs with hvisited
  · exact iff_of_true rfl fun hr => absurd hvisited.1 hr
  · rw [eq_comm]
    refine built_eq_nil_iff.trans ⟨fun h _ => h, fun h => ?_⟩
    by_cases hr : r ∈ seeds
    · exact files_eq_nil_of_none (Classical.byContradiction fun hset => hvisited ⟨hr, hset⟩)
    · exact h hr

theorem current_start_iff {index : ClaimRef → m.Attrs} {seeds : List ClaimRef} :
    (FsView.start index seeds).Current ↔ ∀ r, r ∉ seeds → m.files index r = [] := by
  refine ⟨fun h r hr => ?_, fun h => current_of_built (built_start_iff.mpr h)⟩
  have hstart : inodesOf (FsView.start index seeds).inodes r =
      if r ∈ seeds ∧ m.current index r ≠ none then m.built index r else [] :=
    inodesOf_visits seeds [] r
  have hshown := h r
  rw [hstart, if_neg fun hvisited => hr hvisited.1] at hshown
  exact hshown.symm

end ViewLemmas

/-! ## Results -/

open ViewLemmas

/-- evr-fs shows the files of the index at its start and after every notification if and only if
the search at the start has found every seed with files, no seed with files loses its file-set,
and no seed gets its first file through a change of another one. -/
theorem view_current_iff (index : ClaimRef → m.Attrs) (seeds : List ClaimRef)
    (changes : List (IndexChange m)) :
    (∀ before, before <+: changes →
        (exec applyChange (FsView.start index seeds) before).Current) ↔
      (∀ seed, seed ∉ seeds → m.files index seed = []) ∧
        Along applyChange FsView.Follows (FsView.start index seeds) changes := by
  constructor
  · intro h
    have hstart := current_start_iff.mp (h [] List.nil_prefix)
    refine ⟨hstart, ?_⟩
    rw [← goal_iff_along FsView.Built FsView.Current (built_start_iff.mpr hstart)
      (fun _ => current_of_built) (fun _ _ => current_applyChange_iff)
      (fun _ _ => built_applyChange)]
    exact h
  · rintro ⟨hstart, halong⟩
    rw [goal_iff_along FsView.Built FsView.Current (built_start_iff.mpr hstart)
      (fun _ => current_of_built) (fun _ _ => current_applyChange_iff)
      (fun _ _ => built_applyChange)]
    exact halong

/-! ## A file-set that is gone -/

/-- A file. -/
def viewFile : FsFile :=
  ⟨"a", 1, Vector.replicate _ 0, 1, 1⟩

/-- A seed with its attribute set has a file-set with one file, one without it has none. -/
def flagMapping : Mapping where
  Attrs := Bool
  Desc := Bool
  desc index seed := index seed
  dependentSeeds _ _ := []
  fileSet flag := if flag then some [viewFile] else none
  reads _ _ _ hseed _ := hseed

/-- The attribute is set and taken away again. -/
def flagChanges : List (IndexChange flagMapping) :=
  [⟨Vector.replicate _ 7, true⟩, ⟨Vector.replicate _ 7, false⟩]

/-- evr-fs still shows the file that the seed no longer has. -/
theorem lost_file_set_shown :
    ¬∀ (m : Mapping) (index : ClaimRef → m.Attrs) (seeds : List ClaimRef),
      (∀ seed, seed ∉ seeds → m.files index seed = []) →
      ∀ changes before : List (IndexChange m), before <+: changes →
        (exec applyChange (FsView.start index seeds) before).Current := by
  intro h
  have hshown := h flagMapping (fun _ => false) [] (fun _ _ => rfl) flagChanges flagChanges
    (List.prefix_refl _) (Vector.replicate _ 7)
  revert hshown
  decide +kernel

end Everarch
