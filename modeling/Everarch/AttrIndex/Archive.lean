import Everarch.AttrIndex.ClaimSet
import Mathlib.Order.Bounds.Basic

/-!
# The archive time of a seed

What `claim_archive` holds after any claim sets were merged without an error: for each seed
that one of them archives the earliest time at which it is archived.

* `KeepsEarliest`: the rows for a set of archive times of each seed.
* `ArchiveLemmas.keepsEarliest_archiveClaim`: one more archive time.
* `ArchiveLemmas.archived_nextMerge`: one more claim set.

Result: `archive_time_is_earliest`.
-/

namespace Everarch

/-- The claim set after its annotation, the attr factories and the stylesheet. -/
def transformedClaimSet (env : ClaimSetEnv) (ref : BlobRef) (raw : XmlDoc) : Option XmlDoc :=
  (annotateClaims raw ref).bind fun raw =>
    (appendAttrFactoryClaims env.factories raw).bind fun raw =>
      (annotateClaims raw ref).bind env.transform

/-- The seeds of the archive claims of the transformed claim set. -/
def archivedSeeds (env : ClaimSetEnv) (ref : BlobRef) (raw : XmlDoc) : List ClaimRef :=
  match (transformedClaimSet env ref raw).bind getRootClaimSet with
  | none => []
  | some cs => (claimsNamed "archive" cs).filterMap fun n => parseArchiveClaim n.2

/-- The claim set archives the seed at `t`. -/
def ArchivesAt (env : ClaimSetEnv) (ref : BlobRef) (raw : XmlDoc) (seed : ClaimRef) (t : Int) :
    Prop :=
  seed ∈ archivedSeeds env ref raw ∧ (getRootClaimSet raw).bind (parseCreated env.timegm) = some t

/-- A call of `evr_merge_attr_index_claim_set` for the claim set with the ref. -/
structure MergeCall where
  ref : BlobRef
  reindex : Bool
  ord : RowOrder
  now : Int
  visited : Option ClaimRefTinySet

/-- The environment at the time of the call. The attr spec is that of the index. -/
def MergeCall.env (env : ClaimSetEnv) (m : MergeCall) : ClaimSetEnv :=
  { env with ord := m.ord, now := m.now }

/-- The result of the call for the claim set that is stored under its ref. -/
def MergeCall.merged (env : ClaimSetEnv) (claimSets : BlobRef → XmlDoc) (db : AttrIndexDb)
    (m : MergeCall) : Res × IndexState :=
  mergeAttrIndexClaimSet (m.env env) m.ref (claimSets m.ref) m.reindex ⟨db, m.visited⟩

/-- The database after the call. -/
def nextMerge (env : ClaimSetEnv) (claimSets : BlobRef → XmlDoc) (db : AttrIndexDb)
    (m : MergeCall) : AttrIndexDb :=
  (m.merged env claimSets db).2.db

/-- The call returns ok, and not because the claim set has been marked as failed after an attr
factory has failed. -/
def MergesWithoutError (env : ClaimSetEnv) (claimSets : BlobRef → XmlDoc) (db : AttrIndexDb)
    (m : MergeCall) : Prop :=
  (m.merged env claimSets db).1 = .ok ∧
    (transformedClaimSet env m.ref (claimSets m.ref)).isSome

instance (env : ClaimSetEnv) (claimSets : BlobRef → XmlDoc) (db : AttrIndexDb) (m : MergeCall) :
    Decidable (MergesWithoutError env claimSets db m) :=
  inferInstanceAs (Decidable (_ ∧ _))

/-- One row with the least time for each seed that has a time, and no other rows. -/
def KeepsEarliest (rows : List ClaimArchiveRow) (times : ClaimRef → Set Int) : Prop :=
  ∀ seed, (∃ t, IsLeast (times seed) t ∧ (rows.filter fun r => r.seed = seed) = [⟨seed, t⟩]) ∨
    times seed = ∅ ∧ (rows.filter fun r => r.seed = seed) = []

namespace ArchiveLemmas

open ClaimSetLemmas

theorem KeepsEarliest.congr {rows : List ClaimArchiveRow} {times times' : ClaimRef → Set Int}
    (h : KeepsEarliest rows times) (heq : ∀ seed, times' seed = times seed) :
    KeepsEarliest rows times' := by
  intro seed
  rw [heq]
  exact h seed

theorem filter_seed_of_ne (rows : List ClaimArchiveRow) {seed s : ClaimRef} (hne : s ≠ seed)
    (t : Int) :
    (((rows.filter fun r => r.seed ≠ seed) ++ [(⟨seed, t⟩ : ClaimArchiveRow)]).filter
      fun r => r.seed = s) = rows.filter fun r => r.seed = s := by
  rw [List.filter_append, List.filter_filter, List.filter_cons_of_neg (by simp [hne.symm]),
    List.filter_nil, List.append_nil]
  refine List.filter_congr fun r _ => ?_
  by_cases hr : r.seed = s
  · simp [hr, hne]
  · simp [hr]

/-- An archive claim adds its time to those of its seed. -/
theorem keepsEarliest_archiveClaim {db : AttrIndexDb} {times : ClaimRef → Set Int}
    (h : KeepsEarliest db.claimArchive times) (seed : ClaimRef) (created : Int) :
    KeepsEarliest (archiveClaim db seed created).claimArchive
      (fun s => if s = seed then insert created (times s) else times s) := by
  have hfind : (db.claimArchive.find? fun r => r.seed = seed) =
      (db.claimArchive.filter fun r => r.seed = seed).head? := List.head?_filter.symm
  unfold archiveClaim
  rcases h seed with ⟨t, hleast, hrows⟩ | ⟨hempty, hrows⟩
  · rw [hrows, List.head?_cons] at hfind
    rw [hfind]
    intro s
    dsimp only
    by_cases hs : s = seed
    · subst hs
      rw [if_pos rfl]
      refine .inl ⟨min created t, hleast.insert created, ?_⟩
      split
      · next hlt =>
        rw [Int.min_eq_left (Int.le_of_lt hlt), List.filter_append, List.filter_filter]
        simp
      · next hge => rw [Int.min_eq_right (Int.not_lt.mp hge), hrows]
    · rw [if_neg hs]
      split
      · rw [filter_seed_of_ne _ hs]
        exact h s
      · exact h s
  · rw [hrows, List.head?_nil] at hfind
    rw [hfind]
    intro s
    dsimp only
    by_cases hs : s = seed
    · subst hs
      rw [if_pos rfl, hempty, insert_empty_eq]
      refine .inl ⟨created, isLeast_singleton, ?_⟩
      rw [List.filter_append, hrows]
      simp
    · rw [if_neg hs, List.filter_append, List.filter_cons_of_neg (by simp [Ne.symm hs]),
        List.filter_nil, List.append_nil]
      exact h s

/-- The archive claims of a claim set add its time to those of their seeds. -/
theorem keepsEarliest_mergeArchiveClaims {created : Int} {nodes : List (Nat × XmlNode)}
    {st : IndexState} {times : ClaimRef → Set Int} (h : KeepsEarliest st.db.claimArchive times)
    (hok : (mergeArchiveClaims created nodes st).1 = .ok) :
    KeepsEarliest (mergeArchiveClaims created nodes st).2.db.claimArchive fun s =>
      {t | t ∈ times s ∨ s ∈ nodes.filterMap (fun n => parseArchiveClaim n.2) ∧ t = created} := by
  induction nodes generalizing st times with
  | nil => exact KeepsEarliest.congr h fun s => by simp
  | cons n nodes ih =>
    unfold mergeArchiveClaims at hok ⊢
    cases hp : parseArchiveClaim n.2 with
    | none => rw [hp] at hok; cases hok
    | some seed =>
      simp only [hp] at hok ⊢
      rcases hv : visitSeed st.visited seed with ⟨room, visited⟩
      simp only [hv] at hok ⊢
      cases room with
      | false => cases hok
      | true =>
        refine KeepsEarliest.congr (ih (keepsEarliest_archiveClaim h seed created) hok) fun s => ?_
        ext t
        rw [List.filterMap_cons_some (f := fun n : Nat × XmlNode => parseArchiveClaim n.2) hp]
        by_cases hs : s = seed
        · simp [hs]
          tauto
        · simp [hs]

/-- A claim set that is merged adds its time to those of the seeds that it archives. -/
theorem keepsEarliest_indexClaimSet {env : ClaimSetEnv} {created : Int} {ref : BlobRef}
    {raw : XmlDoc} {reindex : Bool} {st : IndexState} {times : ClaimRef → Set Int}
    (h : KeepsEarliest st.db.claimArchive times)
    (htransformed : (transformedClaimSet env ref raw).isSome)
    (hok : (indexClaimSet env created ref raw reindex st).1 = .ok) :
    KeepsEarliest (indexClaimSet env created ref raw reindex st).2.db.claimArchive fun s =>
      {t | t ∈ times s ∨ s ∈ archivedSeeds env ref raw ∧ t = created} := by
  obtain ⟨doc, hdoc⟩ := Option.isSome_iff_exists.mp htransformed
  have hdoc' := hdoc
  obtain ⟨raw1, h1, hdoc'⟩ := Option.bind_eq_some_iff.mp hdoc'
  obtain ⟨raw2, h2, h3⟩ := Option.bind_eq_some_iff.mp hdoc'
  unfold indexClaimSet at hok ⊢
  unfold archivedSeeds
  simp only [h1, h2, h3, hdoc, Option.bind_some] at hok ⊢
  cases hcs : getRootClaimSet doc with
  | none => exact KeepsEarliest.congr h fun s => by simp
  | some cs =>
    simp only [hcs] at hok ⊢
    unfold mergeClaims at hok ⊢
    obtain ⟨attr, claim, hattrs⟩ := mergeAttrClaims_eq env created ref (claimsNamed "attr" cs) st
    rcases hm : mergeAttrClaims env created ref (claimsNamed "attr" cs) st with ⟨res, st1⟩
    rw [hm] at hattrs
    have h' : KeepsEarliest st1.db.claimArchive times := by
      rw [show st1.db = _ from hattrs]
      exact h
    cases res with
    | ok =>
      simp only [hm] at hok ⊢
      rcases hm' : mergeArchiveClaims created (claimsNamed "archive" cs) st1 with ⟨res, st2⟩
      have harchive (hok : (mergeArchiveClaims created (claimsNamed "archive" cs) st1).1 = .ok) :=
        keepsEarliest_mergeArchiveClaims h' hok
      rw [hm'] at harchive
      cases res with
      | ok =>
        simp only [hm'] at hok ⊢
        cases reindex with
        | true => exact harchive rfl
        | false => exact harchive rfl
      | _ => simp [hm'] at hok
    | _ => simp [hm] at hok

section Run

variable {env : ClaimSetEnv} {claimSets : BlobRef → XmlDoc} {db : AttrIndexDb}

/-- The archive times of a seed after some calls. -/
def archiveTimes (env : ClaimSetEnv) (claimSets : BlobRef → XmlDoc) (ms : List MergeCall)
    (seed : ClaimRef) : Set Int :=
  {t | ∃ m ∈ ms, ArchivesAt env m.ref (claimSets m.ref) seed t}

/-- The rows are right, and a claim set that the table has was merged by one of the calls. -/
structure Archived (env : ClaimSetEnv) (claimSets : BlobRef → XmlDoc) (db : AttrIndexDb)
    (ms : List MergeCall) : Prop where
  rows : KeepsEarliest db.claimArchive (archiveTimes env claimSets ms)
  merged : ∀ ref ∈ db.claimSet.map (·.ref), ∃ m ∈ ms, m.ref = ref

theorem archived_setup (env : ClaimSetEnv) (claimSets : BlobRef → XmlDoc)
    (attrDef : List AttrDef) : Archived env claimSets (setupAttrIndexDb attrDef) [] where
  rows seed := .inr ⟨by simp [archiveTimes], rfl⟩
  merged ref h := absurd h List.not_mem_nil

theorem archiveTimes_append (env : ClaimSetEnv) (claimSets : BlobRef → XmlDoc)
    (ms : List MergeCall) (m : MergeCall) (seed : ClaimRef) :
    archiveTimes env claimSets (ms ++ [m]) seed =
      {t | t ∈ archiveTimes env claimSets ms seed ∨
        ArchivesAt env m.ref (claimSets m.ref) seed t} := by
  ext t
  simp only [archiveTimes, Set.mem_ofPred_eq, List.mem_append, List.mem_singleton, or_and_right,
    exists_or, exists_eq_left]

/-- A claim set archives at the time of its creation. -/
theorem archivesAt_iff {ref : BlobRef} {raw : XmlDoc} {cs : XmlNode} {created : Int}
    (hcs : getRootClaimSet raw = some cs) (hcreated : parseCreated env.timegm cs = some created)
    (seed : ClaimRef) (t : Int) :
    ArchivesAt env ref raw seed t ↔ seed ∈ archivedSeeds env ref raw ∧ t = created := by
  unfold ArchivesAt
  rw [hcs, Option.bind_some, hcreated, Option.some.injEq]
  exact and_congr_right fun _ => eq_comm

/-- The table that a merge goes on with has the ref. -/
theorem refs_of_insert {reindex : Bool} {ref : BlobRef} {created : Int} {db' : AttrIndexDb}
    (h : (if reindex then some db else insertClaimSet db ref created) = some db') :
    db'.claimArchive = db.claimArchive ∧
      ∀ ref' ∈ db'.claimSet.map (·.ref), ref' ∈ db.claimSet.map (·.ref) ∨ ref' = ref := by
  split at h
  · cases h
    exact ⟨rfl, fun ref' href => .inl href⟩
  · rw [eq_of_insertClaimSet h]
    refine ⟨rfl, fun ref' href => ?_⟩
    simpa only [List.map_append, List.map_cons, List.map_nil, List.mem_append,
      List.mem_singleton] using href

/-- One more call. A claim set that is skipped was merged before. -/
theorem archived_nextMerge {ms : List MergeCall} {m : MergeCall}
    (h : Archived env claimSets db ms) (hok : MergesWithoutError env claimSets db m) :
    Archived env claimSets (nextMerge env claimSets db m) (ms ++ [m]) := by
  have hgrow {ref : BlobRef} (hm : ∃ m' ∈ ms, m'.ref = ref) : ∃ m' ∈ ms ++ [m], m'.ref = ref := by
    obtain ⟨m', hm', heq⟩ := hm
    exact ⟨m', List.mem_append_left _ hm', heq⟩
  obtain ⟨hres, htransformed⟩ := hok
  unfold MergeCall.merged mergeAttrIndexClaimSet at hres
  unfold nextMerge MergeCall.merged mergeAttrIndexClaimSet
  cases hcs : getRootClaimSet (claimSets m.ref) with
  | none => simp [hcs] at hres
  | some cs =>
    cases hcreated : parseCreated (m.env env).timegm cs with
    | none => simp [hcs, hcreated] at hres
    | some created =>
      have htime := @archivesAt_iff env m.ref _ _ _ hcs hcreated
      simp only [hcs, hcreated] at hres ⊢
      cases hins : (if m.reindex then some db else insertClaimSet db m.ref created) with
      | none =>
        simp only [hins] at hres ⊢
        -- the ref is in the table, so a call before has merged the same claim set
        have hmem : m.ref ∈ db.claimSet.map (·.ref) := by
          split at hins
          · cases hins
          · exact mem_of_insertClaimSet hins
        obtain ⟨m', hm', heq⟩ := h.merged _ hmem
        refine ⟨KeepsEarliest.congr h.rows fun seed => ?_, fun ref href => hgrow (h.merged ref href)⟩
        rw [archiveTimes_append]
        ext t
        constructor
        · rintro (ht | ht)
          · exact ht
          · exact ⟨m', hm', by rw [heq]; exact ht⟩
        · exact .inl
      | some db' =>
        simp only [hins] at hres ⊢
        obtain ⟨harchive, hrefs⟩ := refs_of_insert hins
        constructor
        · have hrows : KeepsEarliest (IndexState.mk db' m.visited).db.claimArchive
              (archiveTimes env claimSets ms) := by
            rw [harchive]
            exact h.rows
          refine KeepsEarliest.congr (keepsEarliest_indexClaimSet hrows htransformed hres)
            fun seed => ?_
          rw [archiveTimes_append]
          simp only [htime]
          rfl
        · rw [indexClaimSet_refs]
          intro ref href
          rcases hrefs ref href with hmem | rfl
          · exact hgrow (h.merged ref hmem)
          · exact ⟨m, List.mem_append_right _ List.mem_cons_self, rfl⟩

theorem archived_run {attrDef : List AttrDef} {ms : List MergeCall}
    (hok : Along (nextMerge env claimSets) (MergesWithoutError env claimSets)
      (setupAttrIndexDb attrDef) ms) :
    Archived env claimSets (exec (nextMerge env claimSets) (setupAttrIndexDb attrDef) ms) ms := by
  induction ms using List.reverseRecOn with
  | nil => exact archived_setup env claimSets attrDef
  | append_singleton ms m ih =>
    obtain ⟨hms, hm⟩ := along_append_singleton.mp hok
    rw [exec_append_singleton]
    exact archived_nextMerge (ih hms) hm

end Run

end ArchiveLemmas

open ArchiveLemmas

/-- After claim sets were merged without an error in any order, a seed has one row with the
earliest time at which one of them archives it, and no row if none of them does. -/
theorem archive_time_is_earliest (env : ClaimSetEnv) (claimSets : BlobRef → XmlDoc)
    (attrDef : List AttrDef) (ms : List MergeCall)
    (hok : Along (nextMerge env claimSets) (MergesWithoutError env claimSets)
      (setupAttrIndexDb attrDef) ms) :
    KeepsEarliest
      (exec (nextMerge env claimSets) (setupAttrIndexDb attrDef) ms).claimArchive
      fun seed => {t | ∃ m ∈ ms, ArchivesAt env m.ref (claimSets m.ref) seed t} :=
  (archived_run hok).rows

/-- A claim set that archives a seed twice. -/
def archiveTwice (created : String) : XmlDoc :=
  let seed : XmlAttr := ⟨none, "seed", String.ofList (fmtClaimRef (Vector.replicate _ 0))⟩
  ⟨some (.element "claim-set" (some claimsNs) [⟨some dcNs, "created", created⟩]
    [.element "archive" (some claimsNs) [seed] [], .other,
      .element "archive" (some claimsNs) [seed] []])⟩

/-- The claim set with the letter 1 is older than the others. -/
def archiveIn (ref : BlobRef) : XmlDoc :=
  archiveTwice (if ref = Vector.replicate _ 1 then "2021-01-01T00:00:00.000000Z"
    else "2022-01-01T00:00:00.000000Z")

/-- The times of these claim sets. -/
def archiveEnv : ClaimSetEnv :=
  { sampleEnv with
    timegm := fun s => some (if s.take 4 = ['2', '0', '2', '1'] then 1609459200 else 1640995200) }

/-- A call for the claim set with the letter. -/
def mergeLetter (c : UInt8) : MergeCall :=
  ⟨Vector.replicate _ c, false, .byRowid, 0, none⟩

theorem archive_time_is_earliest_two :
    KeepsEarliest
      (exec (nextMerge archiveEnv archiveIn) (setupAttrIndexDb [])
        [mergeLetter 2, mergeLetter 1, mergeLetter 2]).claimArchive
      fun seed => {t | ∃ m ∈ [mergeLetter 2, mergeLetter 1, mergeLetter 2],
        ArchivesAt archiveEnv m.ref (archiveIn m.ref) seed t} :=
  archive_time_is_earliest _ _ _ _ (by decide +kernel)

end Everarch
