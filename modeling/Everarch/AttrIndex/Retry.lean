import Everarch.AttrIndex.ClaimSet

/-!
# Reindexing failed claim sets

`evr_find_reindexable_claim_sets` and its caller `evr_reindex_failed_claim_sets`. The first
sets `*found_claim_sets` where it runs out of rows. If the array is full before that, the loop
ends without it and the caller takes what happened to be in its variable for the number of
entries.

* `FindReindexableLemmas.find_eq`: what the loop leaves behind.

Result: `retry_selection_iff`.
-/

namespace Everarch

/-- What the selection depends on outside of the database: the comparison
`last_fail_timestamp + pow(1.5, fail_counter) * (30*1000) <= t` in SQLite's floating point
numbers, and the order of the rows. -/
structure RetryEnv where
  waitedOut : Int → Int → Int → Bool
  order : List ClaimSetRow → List ClaimSetRow
  perm : ∀ rows, (order rows).Perm rows

/-- The condition of `find_reindexable_claim_sets`. A null timestamp makes it null. -/
def ClaimSetRow.isDue (env : RetryEnv) (t : Int) (r : ClaimSetRow) : Bool :=
  0 < r.failCounter && r.lastFailTimestamp.any fun last => env.waitedOut last r.failCounter t

/-- The claim sets due for reindexing at `t`. -/
def AttrIndexDb.dueClaimSets (env : RetryEnv) (db : AttrIndexDb) (t : Int) : List ClaimSetRow :=
  db.claimSet.filter (·.isDue env t)

/-- The entries of the array that are set, and `*found_claim_sets`. -/
structure FoundClaimSets where
  refs : List BlobRef
  found : Nat

/-- The loop of `evr_find_reindexable_claim_sets` with `room` entries of the array left. -/
def findReindexableLoop : Nat → List ClaimSetRow → FoundClaimSets → FoundClaimSets
  | 0, _, out => out
  | _ + 1, [], out => { out with found := out.refs.length }
  | room + 1, r :: rows, out => findReindexableLoop room rows { out with refs := out.refs ++ [r.ref] }

/-- `evr_find_reindexable_claim_sets` with a `*found_claim_sets` that was `unset` before. -/
def findReindexableClaimSets (env : RetryEnv) (db : AttrIndexDb) (t : Int) (maxClaimSets : Nat)
    (unset : Nat) : FoundClaimSets :=
  findReindexableLoop maxClaimSets (env.order (db.dueClaimSets env t)) ⟨[], unset⟩

/-- `evr_max_claim_sets_per_reindex`. -/
def maxClaimSetsPerReindex : Nat := 256

/-- What `evr_reindex_failed_claim_sets` has come to: the array entries it has touched, `none`
for one that is not set. -/
structure ReindexFailed where
  res : Res
  touched : List (Option BlobRef)
  st : IndexState

/-- The loop of `evr_reindex_failed_claim_sets` over array entries. -/
def reindexFailedLoop (env : ClaimSetEnv) (getClaimSet : BlobRef → Option XmlDoc) :
    List (Option BlobRef) → ReindexFailed → ReindexFailed
  | [], run => run
  -- what an entry holds that is not set cannot be told
  | none :: _, run => { run with res := .noReturn, touched := run.touched ++ [none] }
  | some ref :: entries, run =>
    let run := { run with touched := run.touched ++ [some ref] }
    match getClaimSet ref with
    | none => { run with res := .error }
    | some doc =>
      match mergeAttrIndexClaimSet env ref doc true run.st with
      | (.ok, st) => reindexFailedLoop env getClaimSet entries { run with st := st }
      | (.noReturn, st) => { run with res := .noReturn, st := st }
      | (_, st) => { run with res := .error, st := st }

/-- `evr_reindex_failed_claim_sets` with a `found_claim_sets_len` that was `unset` before. -/
def reindexFailedClaimSets (retry : RetryEnv) (env : ClaimSetEnv)
    (getClaimSet : BlobRef → Option XmlDoc) (t : Int) (unset : Nat) (st : IndexState) :
    ReindexFailed :=
  let out := findReindexableClaimSets retry st.db t maxClaimSetsPerReindex unset
  reindexFailedLoop { env with now := t } getClaimSet
    ((List.range out.found).map fun i => out.refs[i]?) ⟨.ok, [], st⟩

/-! ## The claim sets that are found -/

/-- As many refs are reported as there are claim sets due, up to the maximum, all of them set,
distinct and due. -/
def ReportsDue (env : RetryEnv) (db : AttrIndexDb) (t : Int) (maxClaimSets unset : Nat) : Prop :=
  let out := findReindexableClaimSets env db t maxClaimSets unset
  out.found = min (db.dueClaimSets env t).length maxClaimSets ∧
    out.refs.length = out.found ∧ out.refs.Nodup ∧
    ∀ ref ∈ out.refs, ∃ r ∈ db.dueClaimSets env t, r.ref = ref

/-- Only entries that are set are touched, in order, and all of them where no fetch and no
merge fails. -/
def TouchesFound (retry : RetryEnv) (env : ClaimSetEnv) (getClaimSet : BlobRef → Option XmlDoc)
    (t : Int) (unset : Nat) (st : IndexState) : Prop :=
  let out := findReindexableClaimSets retry st.db t maxClaimSetsPerReindex unset
  let run := reindexFailedClaimSets retry env getClaimSet t unset st
  run.touched <+: out.refs.map some ∧ (run.res = .ok → run.touched = out.refs.map some)

namespace FindReindexableLemmas

variable {retry : RetryEnv} {db : AttrIndexDb} {t : Int}

theorem findReindexableLoop_eq (room : Nat) (rows : List ClaimSetRow) (out : FoundClaimSets) :
    findReindexableLoop room rows out =
      ⟨out.refs ++ (rows.take room).map (·.ref),
        if rows.length < room then out.refs.length + rows.length else out.found⟩ := by
  induction room generalizing rows out with
  | zero => simp [findReindexableLoop]
  | succ room ih =>
    cases rows with
    | nil => simp [findReindexableLoop]
    | cons r rows =>
      rw [findReindexableLoop, ih]
      simp [Nat.add_assoc, Nat.add_comm 1]

/-- The number is set only if there is room for one more row. -/
theorem find_eq (retry : RetryEnv) (db : AttrIndexDb) (t : Int) (maxClaimSets unset : Nat) :
    findReindexableClaimSets retry db t maxClaimSets unset =
      ⟨((retry.order (db.dueClaimSets retry t)).take maxClaimSets).map (·.ref),
        if (db.dueClaimSets retry t).length < maxClaimSets then (db.dueClaimSets retry t).length
        else unset⟩ := by
  rw [findReindexableClaimSets, findReindexableLoop_eq]
  simp [(retry.perm _).length_eq]

theorem nodup_found (hkey : (db.claimSet.map (·.ref)).Nodup) (n : Nat) :
    (((retry.order (db.dueClaimSets retry t)).take n).map (·.ref)).Nodup := by
  have hdue : ((db.dueClaimSets retry t).map (·.ref)).Nodup :=
    hkey.sublist (List.filter_sublist.map _)
  have horder := ((retry.perm (db.dueClaimSets retry t)).map (·.ref)).nodup_iff.mpr hdue
  exact horder.sublist ((List.take_sublist _ _).map _)

theorem reportsDue_of_lt (hkey : (db.claimSet.map (·.ref)).Nodup) {maxClaimSets : Nat}
    (hlt : (db.dueClaimSets retry t).length < maxClaimSets) (unset : Nat) :
    ReportsDue retry db t maxClaimSets unset := by
  have hle : (retry.order (db.dueClaimSets retry t)).length ≤ maxClaimSets :=
    (retry.perm _).length_eq.trans_le (Nat.le_of_lt hlt)
  unfold ReportsDue
  rw [find_eq, if_pos hlt]
  refine ⟨(Nat.min_eq_left (Nat.le_of_lt hlt)).symm, ?_, nodup_found hkey _, ?_⟩
  · rw [List.take_of_length_le hle, List.length_map, (retry.perm _).length_eq]
  · intro ref href
    obtain ⟨r, hr, rfl⟩ := List.mem_map.mp href
    exact ⟨r, (retry.perm _).mem_iff.mp (List.mem_of_mem_take hr), rfl⟩

/-- Over entries that are all set the loop touches some of the first, all of them if it
returns ok. -/
theorem reindexFailedLoop_set (env : ClaimSetEnv) (getClaimSet : BlobRef → Option XmlDoc)
    (refs : List BlobRef) (run : ReindexFailed) :
    ∃ n, (reindexFailedLoop env getClaimSet (refs.map some) run).touched =
        run.touched ++ (refs.take n).map some ∧
      ((reindexFailedLoop env getClaimSet (refs.map some) run).res = .ok → refs.length ≤ n) := by
  induction refs generalizing run with
  | nil => exact ⟨0, by simp [reindexFailedLoop], fun _ => Nat.le_refl _⟩
  | cons ref refs ih =>
    rw [List.map_cons, reindexFailedLoop]
    cases getClaimSet ref with
    | none => exact ⟨1, rfl, fun h => by cases h⟩
    | some doc =>
      dsimp only
      split
      · next st _ =>
        obtain ⟨n, htouched, hall⟩ :=
          ih { run with touched := run.touched ++ [some ref], st := st }
        refine ⟨n + 1, htouched.trans (by simp), fun h => Nat.succ_le_succ (hall h)⟩
      · exact ⟨1, rfl, fun h => by cases h⟩
      · exact ⟨1, rfl, fun h => by cases h⟩

theorem entries_eq (refs : List BlobRef) :
    ((List.range refs.length).map fun i => refs[i]?) = refs.map some := by
  apply List.ext_getElem
  · simp
  · intro i hi hi'
    simp

theorem touchesFound_of_lt {env : ClaimSetEnv} {getClaimSet : BlobRef → Option XmlDoc}
    {unset : Nat} {st : IndexState}
    (hlt : (st.db.dueClaimSets retry t).length < maxClaimSetsPerReindex) :
    TouchesFound retry env getClaimSet t unset st := by
  have hfound : (findReindexableClaimSets retry st.db t maxClaimSetsPerReindex unset).found =
      (findReindexableClaimSets retry st.db t maxClaimSetsPerReindex unset).refs.length := by
    rw [find_eq, if_pos hlt, List.length_map, List.length_take, (retry.perm _).length_eq,
      Nat.min_eq_right (Nat.le_of_lt hlt)]
  unfold TouchesFound reindexFailedClaimSets
  dsimp only
  rw [hfound, entries_eq]
  obtain ⟨n, htouched, hall⟩ := reindexFailedLoop_set { env with now := t } getClaimSet
    (findReindexableClaimSets retry st.db t maxClaimSetsPerReindex unset).refs ⟨.ok, [], st⟩
  rw [htouched, List.nil_append]
  refine ⟨(List.take_prefix _ _).map some, fun h => ?_⟩
  rw [List.take_of_length_le (hall h)]

end FindReindexableLemmas

open FindReindexableLemmas

/-- Whatever was in the variable of the caller, the claim sets due are reported, and touched by
the caller, if and only if there are fewer of them than the array has entries. -/
theorem retry_selection_iff (retry : RetryEnv) (db : AttrIndexDb) (t : Int)
    (hkey : (db.claimSet.map (·.ref)).Nodup) :
    (∀ maxClaimSets, (∀ unset, ReportsDue retry db t maxClaimSets unset) ↔
      (db.dueClaimSets retry t).length < maxClaimSets) ∧
    ((∀ env getClaimSet unset visited, TouchesFound retry env getClaimSet t unset ⟨db, visited⟩) ↔
      (db.dueClaimSets retry t).length < maxClaimSetsPerReindex) := by
  refine ⟨fun maxClaimSets => ⟨fun h => ?_, reportsDue_of_lt hkey⟩, fun h => ?_,
    fun h _ _ _ _ => touchesFound_of_lt h⟩
  · refine Classical.byContradiction fun hge => ?_
    -- the number that was there is none that could be reported
    have hfound := (h (maxClaimSets + 1)).1
    rw [find_eq, if_neg hge] at hfound
    exact absurd (hfound.trans_le (Nat.min_le_right _ _)) (Nat.not_succ_le_self _)
  · refine Classical.byContradiction fun hge => ?_
    -- the caller takes the 0 that was there for the number of claim sets
    have htouched := (h ⟨fun _ => none, fun _ => [], some, .byRowid, 0⟩ (fun _ => none) 0 none).2
    have hlen := congrArg List.length (htouched (by
      rw [reindexFailedClaimSets, find_eq, if_neg hge]
      rfl))
    rw [reindexFailedClaimSets, find_eq, if_neg hge] at hlen
    simp only [List.range_zero, List.map_nil, reindexFailedLoop, List.length_nil, List.length_map,
      List.length_take, (retry.perm _).length_eq] at hlen
    have hpos : 0 < maxClaimSetsPerReindex := by decide
    omega

/-- A claim set that has failed once. -/
def failedOnce (c : UInt8) : ClaimSetRow :=
  ⟨Vector.replicate _ c, 0, 1, some 0⟩

/-- Every failed claim set is due, and rows come in the order of the table. -/
def alwaysDue : RetryEnv where
  waitedOut := fun _ _ _ => true
  order := id
  perm := List.Perm.refl

theorem retry_selection_iff_two :
    ReportsDue alwaysDue ⟨[], .empty, [], [], [failedOnce 1, failedOnce 2]⟩ 7 3 0 :=
  ((retry_selection_iff alwaysDue _ 7 (by decide)).1 3).mpr (by decide) 0

/-- One claim set is due and there is one entry for it. -/
theorem full_array_not_reported :
    ¬∀ unset, ReportsDue alwaysDue ⟨[], .empty, [], [], [failedOnce 1]⟩ 7 1 unset := by
  intro h
  exact absurd (h 2).1 (by decide)

end Everarch
