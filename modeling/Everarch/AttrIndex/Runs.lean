import Everarch.AttrIndex.History

/-!
# Runs of merges

Runs of `=v`, `+v` and `-` operations from the freshly set up database, with pairwise
distinct times. A run whose steps meet `Regular` keeps the times of every seed and
key distinct (`distinct_run`) and leaves exactly the marks of its operations
(`marks_run`). What else holds depends on the scan of the future siblings:

* Without a misread rowid no timeline has a gap (`noGap_run`).
* If every scan ends right no value outlives a truncating row (`noOverrun_run`).

Results:
1. `merge_order_irrelevant`: two orders of the same operations give the same
   values at every time; `merge_order_matters`: not so for every order.
2. `chronological_merge_eq_replay`: chronological merges give the fold of the
   operations; `replay_broken_beyond_int`: up to `2^31` operations.
3. `merge_keeps_past`: a merge at `t` changes no value before `t`, and nothing of
   other seeds and keys; `merge_changes_past`: unless a rowid was misread.
4. `rm_value_removes_iff`: when `-v` removes `v`; `endsUnseen_iff_of_increasing`: what this
   comes to if the times increase; `rm_value_shows_removed`: it shows `v`.
-/

namespace Everarch

open MergeLemmas HistoryLemmas

/-! ## Regular runs -/

/-- The times of the rows of every seed and key are distinct. -/
def Distinct (db : AttrIndexDb) : Prop :=
  ∀ seed key, ((db.attr.siblings seed key).map (·.validFrom)).Nodup

/-- The step is accepted, has a time of its own, and rowids fit into an `int`. -/
structure Regular (db : AttrIndexDb) (s : MergeStep) : Prop where
  accepted : Accepted db s
  fit : RowidsFit db
  fresh : Fresh db s

namespace RunsLemmas

theorem valueFits_congr {db db' : AttrIndexDb} (h : db.attrDef = db'.attrDef) :
    valueFits db = valueFits db' := by
  funext key value
  unfold valueFits getAttrTypeForKey
  rw [h]

theorem valueFits_of_str {db : AttrIndexDb} {key : String}
    (h : getAttrTypeForKey db key = .str) (value : Option String) :
    valueFits db key value = true := by
  cases value with
  | none => rfl
  | some v => simp only [valueFits, h]

theorem exec_attrDef (db : AttrIndexDb) (steps : List MergeStep) :
    (exec nextDb db steps).attrDef = db.attrDef := by
  induction steps generalizing db with
  | nil => rfl
  | cons s steps ih => rw [exec_cons, ih, nextDb_attrDef]

theorem exec_rows_mem {db : AttrIndexDb} {steps : List MergeStep} {r : AttrRow}
    (h : r ∈ (exec nextDb db steps).attr.rows) :
    (∃ r0 ∈ db.attr.rows, r0.seed = r.seed ∧ r0.key = r.key ∧ r0.validFrom = r.validFrom) ∨
      ∃ s ∈ steps, s.About r.seed r.key ∧ s.time = r.validFrom := by
  induction steps using List.reverseRecOn generalizing r with
  | nil => exact .inl ⟨r, h, rfl, rfl, rfl⟩
  | append_singleton steps s ih =>
    rw [exec_append_singleton] at h
    rcases nextDb_rows_mem h with ⟨r0, hr0, hseed, hkey, htime⟩ | ⟨hseed, hkey, htime⟩
    · rw [← hseed, ← hkey, ← htime]
      rcases ih hr0 with hdb | ⟨s', hs', h'⟩
      · exact .inl hdb
      · exact .inr ⟨s', List.mem_append_left [s] hs', h'⟩
    · exact .inr ⟨s, by simp, ⟨hseed.symm, hkey.symm⟩, htime.symm⟩

theorem setup_exec_rows_mem {defs : List AttrDef} {steps : List MergeStep} {r : AttrRow}
    (h : r ∈ (exec nextDb (setupAttrIndexDb defs) steps).attr.rows) :
    ∃ s ∈ steps, s.About r.seed r.key ∧ s.time = r.validFrom := by
  rcases exec_rows_mem h with ⟨r0, hr0, -⟩ | hs
  · exact absurd hr0 List.not_mem_nil
  · exact hs

theorem exec_length_le (db : AttrIndexDb) (steps : List MergeStep) :
    (exec nextDb db steps).attr.rows.length ≤ db.attr.rows.length + steps.length := by
  induction steps generalizing db with
  | nil => exact Nat.le_refl _
  | cons s steps ih =>
    rw [exec_cons, List.length_cons]
    have h1 := ih (nextDb db s)
    have h2 := nextDb_length_le db s
    omega

/-- The steps of a run with distinct times have times of their own, and rowids fit into an
`int` in a run that is not too long. -/
theorem fits_fresh_run {defs : List AttrDef} {steps : List MergeStep}
    (hdist : (steps.map (·.time)).Nodup) (hlen : steps.length ≤ 2 ^ 31) :
    Along nextDb (fun db s => RowidsFit db ∧ Fresh db s) (setupAttrIndexDb defs) steps := by
  refine Along.of_prefix fun before s hpre => ⟨?_, ?_⟩
  · have hle := exec_length_le (setupAttrIndexDb defs) before
    have hpl := hpre.length_le
    rw [List.length_append, List.length_singleton] at hpl
    have h0 : (setupAttrIndexDb defs).attr.rows.length = 0 := rfl
    unfold RowidsFit
    omega
  · intro r hr heq
    obtain ⟨s', hs', -, htime⟩ := setup_exec_rows_mem (AttrTable.mem_siblings.mp hr).1
    have hnd := hdist.sublist (hpre.sublist.map (·.time))
    rw [List.map_append, List.nodup_append] at hnd
    exact hnd.2.2 s'.time (List.mem_map_of_mem hs') s.time (by simp) (htime.trans heq)

/-- Runs of operations with fitting values and distinct times are regular as long
as rowids fit into an `int`. -/
theorem regular_run {defs : List AttrDef} {steps : List MergeStep}
    (hfits : ∀ s ∈ steps, valueFits (setupAttrIndexDb defs) s.key s.op.val = true)
    (hdist : (steps.map (·.time)).Nodup) (hlen : steps.length ≤ 2 ^ 31) :
    Along nextDb Regular (setupAttrIndexDb defs) steps := by
  refine Along.of_prefix fun before s hpre => ?_
  have hrun : Along nextDb (fun db s => RowidsFit db ∧ Fresh db s) (setupAttrIndexDb defs) steps :=
    fits_fresh_run hdist hlen
  obtain ⟨hfit, hfresh⟩ := hrun.at_prefix hpre
  refine ⟨?_, hfit, hfresh⟩
  rw [accepted_iff, valueFits_congr (exec_attrDef _ before)]
  exact hfits s (hpre.subset (by simp))

theorem distinct_step {db : AttrIndexDb} {s : MergeStep} (hfit : RowidsFit db)
    (hfresh : Fresh db s) (hd : Distinct db) : Distinct (nextDb db s) := by
  intro seed key
  rw [← timeline_starts]
  by_cases hab : s.About seed key
  · obtain ⟨rfl, rfl⟩ := hab
    by_cases hacc : Accepted db s
    · rw [timeline_merge hacc hfit (hd _ _), marks_mergeSpans, List.map_append, timeline_starts,
        List.nodup_append]
      refine ⟨hd _ _, List.nodup_singleton _, ?_⟩
      intro a ha b hb
      obtain ⟨r, hr, rfl⟩ := List.mem_map.mp ha
      rw [List.mem_singleton.mp hb]
      exact hfresh r hr
    · rw [timeline_refused hacc hfit (hd _ _), marks_closeSpans, timeline_starts]
      exact hd _ _
  · rw [timeline_other hfit hab, timeline_starts]
    exact hd seed key

theorem distinct_setup (defs : List AttrDef) : Distinct (setupAttrIndexDb defs) :=
  fun _ _ => List.nodup_nil

section

variable {defs : List AttrDef} {steps : List MergeStep}

theorem distinct_run (h : Along nextDb Regular (setupAttrIndexDb defs) steps) :
    Distinct (exec nextDb (setupAttrIndexDb defs) steps) :=
  h.invariant Distinct (distinct_setup defs) fun _ _ hd hreg => distinct_step hreg.fit hreg.fresh hd

theorem marks_run (h : Along nextDb Regular (setupAttrIndexDb defs) steps) (seed : ClaimRef)
    (key : String) :
    marks (timeline (exec nextDb (setupAttrIndexDb defs) steps) seed key) =
      (steps.filter fun s => s.About seed key).map fun s => markOf s.event := by
  induction steps using List.reverseRecOn with
  | nil => rfl
  | append_singleton steps s ih =>
    obtain ⟨hbefore, hreg⟩ := along_append_singleton.mp h
    rw [exec_append_singleton, List.filter_append, List.map_append, ← ih hbefore]
    by_cases hab : s.About seed key
    · obtain ⟨rfl, rfl⟩ := hab
      rw [timeline_merge hreg.accepted hreg.fit (distinct_run hbefore _ _), marks_mergeSpans]
      have hself : s.About s.seed s.key := ⟨rfl, rfl⟩
      simp [hself, stepSpan]
    · rw [timeline_other hreg.fit hab]
      simp [hab]

theorem noGap_run (h : Along nextDb Regular (setupAttrIndexDb defs) steps)
    (hmis : Along nextDb (fun db s => ¬ MisreadsRowid db s) (setupAttrIndexDb defs) steps)
    (seed : ClaimRef) (key : String) :
    NoGap (timeline (exec nextDb (setupAttrIndexDb defs) steps) seed key) := by
  have hinv := (h.and hmis).invariant
    (fun db => Distinct db ∧ ∀ seed key, NoGap (timeline db seed key))
    ⟨distinct_setup defs, fun _ _ _ hs => absurd hs List.not_mem_nil⟩ ?_
  · exact hinv.2 seed key
  · rintro db s ⟨hd, hg⟩ ⟨hreg, hno⟩
    refine ⟨distinct_step hreg.fit hreg.fresh hd, fun seed key => ?_⟩
    by_cases hab : s.About seed key
    · obtain ⟨rfl, rfl⟩ := hab
      exact noGap_step hreg.accepted hreg.fit (hd _ _) hreg.fresh hno (hg _ _)
    · rw [timeline_other hreg.fit hab]
      exact hg seed key

theorem noOverrun_run (h : Along nextDb Regular (setupAttrIndexDb defs) steps)
    (hends : Along nextDb EndsRight (setupAttrIndexDb defs) steps) (seed : ClaimRef)
    (key : String) :
    NoOverrun (timeline (exec nextDb (setupAttrIndexDb defs) steps) seed key) := by
  have hinv := (h.and hends).invariant
    (fun db => Distinct db ∧ ∀ seed key, NoOverrun (timeline db seed key))
    ⟨distinct_setup defs, fun _ _ _ hs => absurd hs List.not_mem_nil⟩ ?_
  · exact hinv.2 seed key
  · rintro db s ⟨hd, ho⟩ ⟨hreg, hend⟩
    refine ⟨distinct_step hreg.fit hreg.fresh hd, fun seed key => ?_⟩
    by_cases hab : s.About seed key
    · obtain ⟨rfl, rfl⟩ := hab
      exact noOverrun_step hreg.accepted hreg.fit (hd _ _) hend (ho _ _)
    · rw [timeline_other hreg.fit hab]
      exact ho seed key

theorem not_misreads_of_endsRight {db : AttrIndexDb} {s : MergeStep} (h : EndsRight db s) :
    ¬ MisreadsRowid db s := by
  rcases h with hclear | ⟨-, hmis⟩
  · rintro ⟨c, -, hop, -⟩
    rw [hclear] at hop
    exact nomatch hop
  · exact hmis

/-- A regular run whose scans end right shows what its operations leave alive. -/
theorem valuesAt_run (h : Along nextDb Regular (setupAttrIndexDb defs) steps)
    (hends : Along nextDb EndsRight (setupAttrIndexDb defs) steps) (seed : ClaimRef)
    (key : String) (t : Int) :
    valuesAt (exec nextDb (setupAttrIndexDb defs) steps) seed key t =
      alive ((steps.filter fun s => s.About seed key).map fun s => markOf s.event) t := by
  rw [valuesAt_eq_visible, ← marks_run h]
  have hmis := hends.imp fun _ _ he => not_misreads_of_endsRight he
  exact visible_eq_alive (noGap_run h hmis seed key) (noOverrun_run h hends seed key) t

end

/-- A step that is not older than any row of its seed and key has nothing to end at. -/
theorem endsRight_of_latest {db : AttrIndexDb} {s : MergeStep}
    (h : ∀ r ∈ db.attr.siblings s.seed s.key, r.validFrom ≤ s.time) : EndsRight db s := by
  refine .inr ⟨?_, ?_⟩
  · intro u hu w _ _ _ hlt
    exact absurd hlt (Int.not_lt.mpr (h u hu))
  · rintro ⟨c, -, -, -, -, -, f, hf, hlt, -⟩
    exact absurd hlt (Int.not_lt.mpr (h f hf))

theorem endsRight_run {defs : List AttrDef} {steps : List MergeStep}
    (hinc : (steps.map (·.time)).Pairwise (· < ·)) :
    Along nextDb EndsRight (setupAttrIndexDb defs) steps := by
  refine Along.of_prefix fun before s hpre => endsRight_of_latest fun r hr => ?_
  obtain ⟨s', hs', -, htime⟩ := setup_exec_rows_mem (AttrTable.mem_siblings.mp hr).1
  have hpw := hinc.sublist (hpre.sublist.map (·.time))
  rw [List.map_append, List.pairwise_append] at hpw
  have hlt := hpw.2.2 s'.time (List.mem_map_of_mem hs') s.time (by simp)
  omega

theorem filter_about {steps : List MergeStep} {seed : ClaimRef} {key : String}
    (h : ∀ s ∈ steps, s.About seed key) : (steps.filter fun s => s.About seed key) = steps :=
  List.filter_eq_self.mpr fun s hs => decide_eq_true (h s hs)

theorem fits_of_about {defs : List AttrDef} {steps : List MergeStep} {seed : ClaimRef}
    {key : String} (hstr : getAttrTypeForKey (setupAttrIndexDb defs) key = .str)
    (h : ∀ s ∈ steps, s.About seed key) :
    ∀ s ∈ steps, valueFits (setupAttrIndexDb defs) s.key s.op.val = true := by
  intro s hs
  rw [(h s hs).2]
  exact valueFits_of_str hstr _

end RunsLemmas

open RunsLemmas

/-! ## The order of merges -/

/-- A step on one seed and key, for concrete runs. -/
def sampleStep (t : Int) (op : SetOp String) : MergeStep :=
  ⟨.byRowid, t, Vector.replicate _ 0, "k", op⟩

/-- Two orders of the same operations on a string key give the same values at
every time, if in both runs every future scan ends right. -/
theorem merge_order_irrelevant {defs : List AttrDef} {seed : ClaimRef} {key : String}
    {steps steps' : List MergeStep}
    (hstr : getAttrTypeForKey (setupAttrIndexDb defs) key = .str)
    (habout : ∀ s ∈ steps, s.About seed key) (habout' : ∀ s ∈ steps', s.About seed key)
    (hdist : (steps.map (·.time)).Nodup)
    (hperm : (steps.map (·.event)).Perm (steps'.map (·.event)))
    (hlen : steps.length ≤ 2 ^ 31)
    (hends : Along nextDb EndsRight (setupAttrIndexDb defs) steps)
    (hends' : Along nextDb EndsRight (setupAttrIndexDb defs) steps') (t : Int) :
    valuesAt (exec nextDb (setupAttrIndexDb defs) steps) seed key t =
      valuesAt (exec nextDb (setupAttrIndexDb defs) steps') seed key t := by
  have htimes : (steps.map (·.time)).Perm (steps'.map (·.time)) := by
    have := hperm.map Prod.fst
    rw [List.map_map, List.map_map] at this
    exact this
  have hlen' : steps'.length = steps.length := by simpa using htimes.length_eq.symm
  have hreg := regular_run (fits_of_about hstr habout) hdist hlen
  have hreg' := regular_run (fits_of_about hstr habout') (htimes.nodup_iff.mp hdist)
    (hlen' ▸ hlen)
  rw [valuesAt_run hreg hends, valuesAt_run hreg' hends', filter_about habout,
    filter_about habout']
  refine alive_eq_of_mem_iff (fun m => ?_) t
  have hmarks := hperm.map markOf
  rw [List.map_map, List.map_map] at hmarks
  exact hmarks.mem_iff

theorem merge_order_irrelevant_three :
    valuesAt (exec nextDb (setupAttrIndexDb []) [sampleStep 3 (.assign "c"),
        sampleStep 1 (.assign "a"), sampleStep 2 (.add "b")]) (Vector.replicate _ 0) "k" 2 =
      valuesAt (exec nextDb (setupAttrIndexDb []) [sampleStep 1 (.assign "a"),
        sampleStep 2 (.add "b"), sampleStep 3 (.assign "c")]) (Vector.replicate _ 0) "k" 2 :=
  merge_order_irrelevant (by decide) (by decide) (by decide) (by decide) (by decide)
    (by decide) (by decide) (by decide) 2

/-- The oldest of three replaces, merged last, is cut off by the youngest one and
not by the next one. -/
theorem merge_order_matters :
    let later := [sampleStep 2 (.assign "b"), sampleStep 3 (.assign "c"),
      sampleStep 1 (.assign "a")]
    let ordered := [sampleStep 1 (.assign "a"), sampleStep 2 (.assign "b"),
      sampleStep 3 (.assign "c")]
    (later.map (·.time)).Nodup ∧ (later.map (·.event)).Perm (ordered.map (·.event)) ∧
      valuesAt (exec nextDb (setupAttrIndexDb []) later) (Vector.replicate _ 0) "k" 2 ≠
        valuesAt (exec nextDb (setupAttrIndexDb []) ordered) (Vector.replicate _ 0) "k" 2 := by
  refine ⟨by decide, by decide, fun h => ?_⟩
  have hmem : ("k", "a") ∈ getSeedAttrs (exec nextDb (setupAttrIndexDb [])
      [sampleStep 2 (.assign "b"), sampleStep 3 (.assign "c"), sampleStep 1 (.assign "a")]) 2
      (Vector.replicate _ 0) := by decide
  have hno : ("k", "a") ∉ getSeedAttrs (exec nextDb (setupAttrIndexDb [])
      [sampleStep 1 (.assign "a"), sampleStep 2 (.assign "b"), sampleStep 3 (.assign "c")]) 2
      (Vector.replicate _ 0) := by decide
  exact hno (h.subset hmem)

/-! ## Chronological merges -/

/-- Chronological merges of operations on a string key give the fold of the
operations, as long as rowids fit into an `int`. -/
theorem chronological_merge_eq_replay {defs : List AttrDef} {seed : ClaimRef} {key : String}
    {steps : List MergeStep} (hstr : getAttrTypeForKey (setupAttrIndexDb defs) key = .str)
    (habout : ∀ s ∈ steps, s.About seed key) (hinc : (steps.map (·.time)).Pairwise (· < ·))
    (hlen : steps.length ≤ 2 ^ 31) (t : Int) :
    valuesAt (exec nextDb (setupAttrIndexDb defs) steps) seed key t =
      replay (steps.map (·.event)) t := by
  have hreg := regular_run (fits_of_about hstr habout) (hinc.imp Int.ne_of_lt) hlen
  rw [valuesAt_run hreg (endsRight_run hinc), filter_about habout, replay_eq_alive, List.map_map]
  · rfl
  · rw [List.pairwise_map] at hinc ⊢
    exact hinc

theorem chronological_merge_eq_replay_four :
    valuesAt (exec nextDb (setupAttrIndexDb []) [sampleStep 1 (.add "a"),
        sampleStep 2 (.assign "b"), sampleStep 3 (.add "b"), sampleStep 4 .clear])
      (Vector.replicate _ 0) "k" 3 =
    replay ([sampleStep 1 (.add "a"), sampleStep 2 (.assign "b"), sampleStep 3 (.add "b"),
      sampleStep 4 .clear].map (·.event)) 3 :=
  chronological_merge_eq_replay (by decide) (by decide) (by decide) (by decide) 3

namespace RunsLemmas

theorem exec_length_eq {defs : List AttrDef} {steps : List MergeStep}
    (h : Along nextDb Regular (setupAttrIndexDb defs) steps) :
    (exec nextDb (setupAttrIndexDb defs) steps).attr.rows.length = steps.length := by
  induction steps using List.reverseRecOn with
  | nil => rfl
  | append_singleton steps s ih =>
    obtain ⟨hbefore, hreg⟩ := along_append_singleton.mp h
    obtain ⟨valInt, hrows⟩ := nextDb_rows s hreg.fit
    rw [exec_append_singleton, hrows, if_pos hreg.accepted, List.length_append, List.length_map,
      ih hbefore, List.length_append]
    rfl

theorem stop_eq_none_of_latest {db : AttrIndexDb} {s : MergeStep}
    (h : ∀ r ∈ db.attr.siblings s.seed s.key, r.validFrom ≤ s.time) : s.stop db = none := by
  cases hstop : s.stop db with
  | none => rfl
  | some e =>
    obtain ⟨f, hf, -, hlt, -⟩ := stop_eq_some hstop
    exact absurd hlt (Int.not_lt.mpr (h f hf))

/-- No rowid from `2^31` on survives the conversion to `int`, so no merge closes
the rows that have one. -/
theorem mem_nextDb_of_rowid {db : AttrIndexDb} {r : AttrRow} (s : MergeStep)
    (hr : r ∈ db.attr.rows) (hid : 2 ^ 31 ≤ r.rowid) : r ∈ (nextDb db s).attr.rows := by
  have hkept : r ∈ (closePastSiblings (stepCloses s.op) s.time
      (db.attr.findPastSiblings s.ord s.seed s.key s.time) db.attr).2.rows := by
    rw [closePastSiblings_rows]
    refine List.mem_map.mpr ⟨r, hr, if_neg ?_⟩
    rintro ⟨u, -, -, heq⟩
    have hlt := toInt32_lt u.rowid
    omega
  unfold nextDb
  rw [merge_eq]
  obtain ⟨valInt, validUntil, heq⟩ := mergeSiblings_eq s.ord (stepCloses s.op) (stepStops s.op)
    s.op.truncates db s.time s.seed s.key s.op.val
  rw [heq]
  split
  · exact List.mem_append_left _ hkept
  · exact hkept

/-- `n` adds of one value, one at each time from 1 on. -/
def adds (n : Nat) : List MergeStep :=
  (List.range n).map fun i : Nat => sampleStep (i + 1) (.add "a")

theorem adds_succ (n : Nat) : adds (n + 1) = adds n ++ [sampleStep (n + 1) (.add "a")] := by
  unfold adds
  rw [List.range_succ, List.map_append]
  rfl

theorem time_le_of_mem_adds {n : Nat} {s : MergeStep} (h : s ∈ adds n) : s.time ≤ n := by
  obtain ⟨i, hi, rfl⟩ := List.mem_map.mp h
  have := List.mem_range.mp hi
  show (i + 1 : Int) ≤ n
  omega

theorem adds_increasing (n : Nat) : ((adds n).map (·.time)).Pairwise (· < ·) := by
  unfold adds
  rw [List.map_map, List.pairwise_map]
  refine List.pairwise_lt_range.imp fun {a b} hab => ?_
  show (a + 1 : Int) < b + 1
  omega

theorem adds_regular {n : Nat} (h : n ≤ 2 ^ 31) :
    Along nextDb Regular (setupAttrIndexDb []) (adds n) := by
  refine regular_run ?_ ((adds_increasing n).imp Int.ne_of_lt) ?_
  · intro s _
    exact valueFits_of_str rfl _
  · unfold adds
    rw [List.length_map, List.length_range]
    exact h

/-- After `n + 1` adds the last row has the rowid `n + 1` and is open. -/
theorem exists_open_row {n : Nat} (h : n + 1 ≤ 2 ^ 31) :
    ∃ r ∈ (exec nextDb (setupAttrIndexDb []) (adds (n + 1))).attr.rows, r.rowid = n + 1 ∧
      r.seed = Vector.replicate _ 0 ∧ r.key = "k" ∧ r.valStr = some "a" ∧ r.validFrom = n + 1 ∧
      r.validUntil = none := by
  have hreg := adds_regular h
  rw [adds_succ] at hreg ⊢
  obtain ⟨hbefore, hlast⟩ := along_append_singleton.mp hreg
  obtain ⟨valInt, hrows⟩ := nextDb_rows (sampleStep (n + 1) (.add "a")) hlast.fit
  rw [exec_append_singleton, hrows, if_pos hlast.accepted]
  refine ⟨_, List.mem_append_right _ List.mem_cons_self, ?_, rfl, rfl, rfl, rfl, ?_⟩
  · show _ + 1 = n + 1
    rw [exec_length_eq hbefore]
    simp [adds]
  · refine stop_eq_none_of_latest fun r hr => ?_
    obtain ⟨s, hs, -, htime⟩ := setup_exec_rows_mem (AttrTable.mem_siblings.mp hr).1
    have hle := time_le_of_mem_adds hs
    show r.validFrom ≤ n + 1
    omega

theorem adds_clear_increasing (n : Nat) :
    ((adds n ++ [sampleStep (n + 1) .clear]).map (·.time)).Pairwise (· < ·) := by
  rw [List.map_append, List.pairwise_append]
  refine ⟨adds_increasing n, List.pairwise_singleton _ _, ?_⟩
  intro a ha b hb
  obtain ⟨s, hs, rfl⟩ := List.mem_map.mp ha
  have hle := time_le_of_mem_adds hs
  rw [List.mem_singleton.mp hb]
  show s.time < n + 1
  omega

theorem mem_valuesAt_adds_clear {n : Nat} (h : n + 1 = 2 ^ 31) :
    "a" ∈ valuesAt (exec nextDb (setupAttrIndexDb [])
      (adds (n + 1) ++ [sampleStep ((n + 1 : Nat) + 1) .clear])) (Vector.replicate _ 0) "k"
        ((n + 1 : Nat) + 1) := by
  obtain ⟨r, hr, hid, hseed, hkey, hval, hfrom, huntil⟩ := exists_open_row (Nat.le_of_eq h)
  rw [exec_append_singleton]
  have hmem := mem_nextDb_of_rowid (sampleStep ((n + 1 : Nat) + 1) .clear) hr
    (Nat.le_of_eq (hid.trans h).symm)
  refine List.mem_filterMap.mpr ⟨r, hmem, ?_⟩
  rw [if_pos, hval, hkey]
  · rfl
  · refine ⟨hseed, ?_, ?_⟩
    · rw [hfrom]
      omega
    · rw [huntil]
      exact fun u hu => nomatch hu

theorem replay_adds_clear (n : Nat) :
    replay ((adds n ++ [sampleStep (n + 1) .clear]).map (·.event)) (n + 1) = ∅ := by
  have hle : (sampleStep (n + 1) .clear).event.1 ≤ (n + 1 : Int) := Int.le_refl _
  rw [List.map_append, List.map_singleton, replay_append_singleton, if_pos hle]
  rfl

end RunsLemmas

/-- After `2^31` adds a `-` leaves the last of them visible: its rowid is the
first one that does not fit into an `int`. -/
theorem replay_broken_beyond_int :
    ∃ n : Nat, n = 2 ^ 31 ∧
      ((adds n ++ [sampleStep (n + 1) .clear]).map (·.time)).Pairwise (· < ·) ∧
      valuesAt (exec nextDb (setupAttrIndexDb []) (adds n ++ [sampleStep (n + 1) .clear]))
          (Vector.replicate _ 0) "k" (n + 1) ≠
        replay ((adds n ++ [sampleStep (n + 1) .clear]).map (·.event)) (n + 1) := by
  refine ⟨(2 ^ 31 - 1) + 1, by decide, adds_clear_increasing _, fun heq => ?_⟩
  have hvis := mem_valuesAt_adds_clear (n := 2 ^ 31 - 1) (by decide)
  rw [heq, replay_adds_clear] at hvis
  exact hvis

/-! ## What a merge leaves alone -/

namespace RunsLemmas

/-- A step changes nothing before its time where there is no gap. -/
theorem valuesAt_nextDb_of_lt {db : AttrIndexDb} {s : MergeStep} (hfit : RowidsFit db)
    (hd : Distinct db) (hg : NoGap (timeline db s.seed s.key)) {t' : Int} (ht' : t' < s.time) :
    valuesAt (nextDb db s) s.seed s.key t' = valuesAt db s.seed s.key t' := by
  rw [valuesAt_eq_visible, valuesAt_eq_visible]
  have hclose : visible (closeSpans (timeline db s.seed s.key)
      (spanCloses s.op (timeline db s.seed s.key) s.time) s.time) t' =
        visible (timeline db s.seed s.key) t' :=
    visible_close_of_lt hg (fun _ _ hc _ => (spanCloses_scope hc).2) ht'
  by_cases hacc : Accepted db s
  · rw [timeline_merge hacc hfit (hd _ _), ← hclose]
    exact visible_merge_of_lt (show (stepSpan db s).start = s.time from rfl) ht'
  · rw [timeline_refused hacc hfit (hd _ _), hclose]

end RunsLemmas

/-- A merge at `t` leaves the values before `t` of every seed and key alone, and all
values of other seeds and keys, if no earlier merge misread a rowid. -/
theorem merge_keeps_past {defs : List AttrDef} {steps : List MergeStep}
    (hfits : ∀ s ∈ steps, valueFits (setupAttrIndexDb defs) s.key s.op.val = true)
    (hdist : (steps.map (·.time)).Nodup) (hlen : steps.length < 2 ^ 31)
    (hmis : Along nextDb (fun db s => ¬ MisreadsRowid db s) (setupAttrIndexDb defs) steps)
    (s : MergeStep) {seed : ClaimRef} {key : String} {t' : Int}
    (h : t' < s.time ∨ ¬ s.About seed key) :
    valuesAt (nextDb (exec nextDb (setupAttrIndexDb defs) steps) s) seed key t' =
      valuesAt (exec nextDb (setupAttrIndexDb defs) steps) seed key t' := by
  have hreg := regular_run hfits hdist (Nat.le_of_lt hlen)
  have hfit : RowidsFit (exec nextDb (setupAttrIndexDb defs) steps) := by
    unfold RowidsFit
    rw [exec_length_eq hreg]
    exact hlen
  by_cases hab : s.About seed key
  · obtain ⟨rfl, rfl⟩ := hab
    have hlt : t' < s.time := h.resolve_right fun hne => hne ⟨rfl, rfl⟩
    exact valuesAt_nextDb_of_lt hfit (distinct_run hreg) (noGap_run hreg hmis _ _) hlt
  · rw [valuesAt_eq_visible, valuesAt_eq_visible, timeline_other hfit hab]

theorem merge_keeps_past_two :
    valuesAt (nextDb (exec nextDb (setupAttrIndexDb []) [sampleStep 4 (.assign "a"),
        sampleStep 2 (.add "b")]) (sampleStep 3 .clear)) (Vector.replicate _ 0) "k" 2 =
      valuesAt (exec nextDb (setupAttrIndexDb []) [sampleStep 4 (.assign "a"),
        sampleStep 2 (.add "b")]) (Vector.replicate _ 0) "k" 2 :=
  merge_keeps_past (by decide) (by decide) (by decide) (by decide) (sampleStep 3 .clear)
    (.inl (by decide))

/-- The row of `=x` has the rowid 1, so the row of a later `+1` ends at the next
row although nothing replaces it there. The replace at 20 opens it up to 20. -/
theorem merge_changes_past :
    let steps := [sampleStep 1 (.assign "x"), sampleStep 10 (.add "w"), sampleStep 5 (.add "1")]
    (steps.map (·.time)).Nodup ∧
      valuesAt (nextDb (exec nextDb (setupAttrIndexDb []) steps) (sampleStep 20 (.assign "z")))
          (Vector.replicate _ 0) "k" 15 ≠
        valuesAt (exec nextDb (setupAttrIndexDb []) steps) (Vector.replicate _ 0) "k" 15 := by
  refine ⟨by decide, fun h => ?_⟩
  have hmem : ("k", "1") ∈ getSeedAttrs (nextDb (exec nextDb (setupAttrIndexDb [])
      [sampleStep 1 (.assign "x"), sampleStep 10 (.add "w"), sampleStep 5 (.add "1")])
      (sampleStep 20 (.assign "z"))) 15 (Vector.replicate _ 0) := by decide
  have hno : ("k", "1") ∉ getSeedAttrs (exec nextDb (setupAttrIndexDb [])
      [sampleStep 1 (.assign "x"), sampleStep 10 (.add "w"), sampleStep 5 (.add "1")]) 15
      (Vector.replicate _ 0) := by decide
  exact hno (h.subset hmem)

/-! ## Removing one value -/

/-- After `-v` at `t` exactly `v` is gone from `t` on and nothing changed before. -/
def RemovesValue (ord : RowOrder) (db : AttrIndexDb) (t : Int) (seed : ClaimRef) (key : String)
    (v : String) : Prop :=
  (∀ t', t ≤ t' → valuesAt (mergeAttrIndexAttrRm ord db t seed key (some v)).2 seed key t' =
    valuesAt db seed key t' \ {v}) ∧
  ∀ t', t' < t → valuesAt (mergeAttrIndexAttrRm ord db t seed key (some v)).2 seed key t' =
    valuesAt db seed key t'

/-- A `-` at `t` ends the row, before it looks at the value: the row is a past sibling, none
behind it truncates, and an `int` holds its rowid. -/
def EndedByRm (ord : RowOrder) (db : AttrIndexDb) (t : Int) (seed : ClaimRef) (key : String)
    (r : AttrRow) : Prop :=
  ∃ s ∈ scanned (db.attr.findPastSiblings ord seed key t), toInt32 s.rowid = r.rowid

instance (ord : RowOrder) (db : AttrIndexDb) (t : Int) (seed : ClaimRef) (key : String)
    (r : AttrRow) : Decidable (EndedByRm ord db t seed key r) :=
  inferInstanceAs (Decidable (∃ s ∈ _, _))

/-- No value depends on where the ended rows end: each of theirs is visible from the start of
its row up to `t`, and from `t` on another row has it. -/
def EndsUnseen (ord : RowOrder) (db : AttrIndexDb) (t : Int) (seed : ClaimRef) (key : String) :
    Prop :=
  ∀ r ∈ db.attr.siblings seed key, EndedByRm ord db t seed key r → ∀ v, r.valStr = some v →
    (∀ t', r.validFrom ≤ t' → t' < t → v ∈ valuesAt db seed key t') ∧
    ∃ r' ∈ db.attr.siblings seed key, ¬ EndedByRm ord db t seed key r' ∧ r'.valStr = some v ∧
      r'.validUntil = none

namespace RunsLemmas

/-- An operation is the common body, or it stops the process and changes nothing. One that inserts
a truncating row closes every row that its past loop visits. -/
theorem nextOpDb_cases (db : AttrIndexDb) (s : OpStep) :
    nextOpDb db s = db ∨ ∃ closes stops trunc, nextOpDb db s =
      (mergeSiblings s.ord closes stops trunc db s.time s.seed s.key s.value).2 ∧
        (trunc = true → ∀ r, closes r = true) := by
  unfold nextOpDb mergeAttrIndexAttrOp
  cases s.op with
  | replace => exact .inr ⟨_, _, _, rfl, fun _ _ => rfl⟩
  | rm => exact .inr ⟨_, _, _, rfl, fun _ _ => rfl⟩
  | add =>
    simp only [mergeAttrIndexAttrAdd]
    split
    · exact .inl rfl
    · exact .inr ⟨_, _, _, rfl, fun h => Bool.noConfusion h⟩

theorem nextOpDb_attrDef (db : AttrIndexDb) (s : OpStep) :
    (nextOpDb db s).attrDef = db.attrDef := by
  rcases nextOpDb_cases db s with heq | ⟨closes, stops, trunc, heq, -⟩
  · rw [heq]
  · obtain ⟨valInt, validUntil, hmerge⟩ := mergeSiblings_eq s.ord closes stops trunc db s.time
      s.seed s.key s.value
    rw [heq, hmerge]
    split <;> rfl

theorem opRun_attrDef (db : AttrIndexDb) (steps : List OpStep) :
    (exec nextOpDb db steps).attrDef = db.attrDef := by
  induction steps generalizing db with
  | nil => rfl
  | cons s steps ih => rw [exec_cons, ih, nextOpDb_attrDef]

/-- Where no row is younger, a merge that is accepted inserts an open row. -/
theorem mergeSiblings_latest (ord : RowOrder) (closes : AttrRow → Bool)
    (stops : Option AttrRow → AttrRow → Bool) (trunc : Bool) {db : AttrIndexDb} {t : Int}
    (seed : ClaimRef) {key : String} {value : Option String}
    (hfits : valueFits db key value = true) (hle : ∀ r ∈ db.attr.rows, r.validFrom ≤ t) :
    ∃ r ∈ (mergeSiblings ord closes stops trunc db t seed key value).2.attr.rows,
      r.seed = seed ∧ r.key = key ∧ r.valStr = value ∧ r.validFrom = t ∧ r.validUntil = none := by
  have hfuture : (closePastSiblings closes t (db.attr.findPastSiblings ord seed key t)
      db.attr).2.findFutureSiblings ord seed key t = [] := by
    rw [List.eq_nil_iff_forall_not_mem]
    intro r hr
    obtain ⟨hsib, hlt⟩ := AttrTable.mem_findFutureSiblings.mp hr
    have hrow := (AttrTable.mem_siblings.mp hsib).1
    rw [closePastSiblings_rows] at hrow
    obtain ⟨r0, hr0, rfl⟩ := List.mem_map.mp hrow
    have hsame : ∀ p : Prop, [Decidable p] →
        (if p then r0.setValidUntil t else r0).validFrom = r0.validFrom := by
      intro p _
      split <;> rfl
    rw [hsame] at hlt
    exact absurd (hle r0 hr0) (Int.not_le.mpr hlt)
  unfold mergeSiblings
  simp only [hfuture, List.find?_nil, Option.map_none]
  obtain ⟨valInt, hins⟩ := insertAttr_eq { db with
    attr := (closePastSiblings closes t (db.attr.findPastSiblings ord seed key t) db.attr).2 }
    seed key value t none trunc
  have hfits' : valueFits { db with attr := (closePastSiblings closes t
      (db.attr.findPastSiblings ord seed key t) db.attr).2 } key value = true := hfits
  rw [hins, if_pos hfits']
  exact ⟨_, List.mem_append_right _ List.mem_cons_self, rfl, rfl, rfl, rfl, rfl⟩

/-- A `-v` inserts a truncating row that carries `v`. -/
theorem mem_valuesAt_rm_value (ord : RowOrder) {db : AttrIndexDb} {t : Int} (seed : ClaimRef)
    {key v : String} (hfits : valueFits db key (some v) = true)
    (hle : ∀ r ∈ db.attr.rows, r.validFrom ≤ t) :
    v ∈ valuesAt (mergeAttrIndexAttrRm ord db t seed key (some v)).2 seed key t := by
  obtain ⟨r, hr, hseed, hkey, hval, hfrom, huntil⟩ :=
    mergeSiblings_latest ord (fun _ => true) (fun _ _ => true) true seed hfits hle
  refine List.mem_filterMap.mpr ⟨r, hr, ?_⟩
  rw [if_pos, hval, hkey]
  · rfl
  · refine ⟨hseed, Int.le_of_eq hfrom, ?_⟩
    rw [huntil]
    exact fun u hu => nomatch hu

/-! ### What a run leaves in the rows -/

theorem mergeSiblings_until {ord : RowOrder} {closes : AttrRow → Bool}
    {stops : Option AttrRow → AttrRow → Bool} {trunc : Bool} {db : AttrIndexDb} {t t' : Int}
    {seed : ClaimRef} {key : String} {value : Option String} (ht : t < t')
    (hrows : ∀ r ∈ db.attr.rows, r.validFrom < t' ∧ ∀ u ∈ r.validUntil, u < t') :
    ∀ r ∈ (mergeSiblings ord closes stops trunc db t seed key value).2.attr.rows,
      r.validFrom < t' ∧ ∀ u ∈ r.validUntil, u < t' := by
  have hclosed : ∀ r ∈ (closePastSiblings closes t (db.attr.findPastSiblings ord seed key t)
      db.attr).2.rows, r.validFrom < t' ∧ ∀ u ∈ r.validUntil, u < t' := by
    intro r hr
    rw [closePastSiblings_rows] at hr
    obtain ⟨r0, hr0, rfl⟩ := List.mem_map.mp hr
    split
    · exact ⟨(hrows r0 hr0).1, fun u hu => Option.some.inj hu ▸ ht⟩
    · exact hrows r0 hr0
  unfold mergeSiblings
  simp only
  generalize closePastSiblings closes t (db.attr.findPastSiblings ord seed key t) db.attr =
    closed at hclosed ⊢
  obtain ⟨valInt, hins⟩ := insertAttr_eq { db with attr := closed.2 } seed key value t
    (((closed.2.findFutureSiblings ord seed key t).find? (stops closed.1)).map (·.validFrom)) trunc
  rw [hins]
  split
  · intro r hr
    rcases List.mem_append.mp hr with hold | hnew
    · exact hclosed r hold
    · rw [List.mem_singleton.mp hnew]
      refine ⟨ht, fun u hu => ?_⟩
      obtain ⟨f, hf, rfl⟩ := Option.map_eq_some_iff.mp hu
      have hfuture := (AttrTable.mem_findFutureSiblings.mp (List.mem_of_find?_eq_some hf)).1
      exact (hclosed f (AttrTable.mem_siblings.mp hfuture).1).1
  · exact hclosed

theorem mergeSiblings_fits {ord : RowOrder} {closes : AttrRow → Bool}
    {stops : Option AttrRow → AttrRow → Bool} {trunc : Bool} {db : AttrIndexDb} {t : Int}
    {seed : ClaimRef} {key : String} {value : Option String}
    (hrows : ∀ r ∈ db.attr.rows, valueFits db r.key r.valStr = true) :
    ∀ r ∈ (mergeSiblings ord closes stops trunc db t seed key value).2.attr.rows,
      valueFits db r.key r.valStr = true := by
  have hclosed : ∀ r ∈ (closePastSiblings closes t (db.attr.findPastSiblings ord seed key t)
      db.attr).2.rows, valueFits db r.key r.valStr = true := by
    intro r hr
    rw [closePastSiblings_rows] at hr
    obtain ⟨r0, hr0, rfl⟩ := List.mem_map.mp hr
    split
    · exact hrows r0 hr0
    · exact hrows r0 hr0
  obtain ⟨valInt, validUntil, heq⟩ := mergeSiblings_eq ord closes stops trunc db t seed key value
  rw [heq]
  split
  · next hfits =>
    intro r hr
    rcases List.mem_append.mp hr with hold | hnew
    · exact hclosed r hold
    · rw [List.mem_singleton.mp hnew]
      exact hfits
  · exact hclosed

/-- In a run before `t` every row starts and ends before `t`, with a value of the type of its
key. -/
theorem opRun_rows {defs : List AttrDef} {steps : List OpStep} {t : Int}
    (ht : ∀ s ∈ steps, s.time < t) :
    ∀ r ∈ (exec nextOpDb (setupAttrIndexDb defs) steps).attr.rows,
      (r.validFrom < t ∧ ∀ u ∈ r.validUntil, u < t) ∧
        valueFits (setupAttrIndexDb defs) r.key r.valStr = true := by
  induction steps using List.reverseRecOn with
  | nil => exact fun r hr => absurd hr List.not_mem_nil
  | append_singleton steps s ih =>
    have hrows := ih fun s' hs' => ht s' (List.mem_append_left [s] hs')
    have hdef := valueFits_congr (opRun_attrDef (setupAttrIndexDb defs) steps)
    rw [exec_append_singleton]
    rcases nextOpDb_cases (exec nextOpDb (setupAttrIndexDb defs) steps) s with
      heq | ⟨closes, stops, trunc, heq, -⟩
    · rw [heq]
      exact hrows
    · rw [heq]
      intro r hr
      refine ⟨mergeSiblings_until (ht s (by simp)) (fun r hr => (hrows r hr).1) r hr, ?_⟩
      rw [← hdef]
      exact mergeSiblings_fits (fun r hr => hdef ▸ (hrows r hr).2) r hr

/-! ### A value that is refused -/

theorem mem_valuesAt {db : AttrIndexDb} {seed : ClaimRef} {key v : String} {t : Int} :
    v ∈ valuesAt db seed key t ↔ ∃ r ∈ db.attr.siblings seed key,
      r.valStr = some v ∧ r.validFrom ≤ t ∧ ∀ u ∈ r.validUntil, t < u := by
  rw [valuesAt_eq_visible]
  constructor
  · rintro ⟨s, hs, hv, hst, hstop⟩
    obtain ⟨r, hr, rfl⟩ := List.mem_map.mp hs
    exact ⟨r, hr, hv, hst, fun u hu => hstop u hu⟩
  · rintro ⟨r, hr, hv, hst, hstop⟩
    exact ⟨r.toSpan, List.mem_map_of_mem hr, hv, hst, fun u hu => hstop u hu⟩

section Refused

variable {ord : RowOrder} {db : AttrIndexDb} {t t' : Int} {seed : ClaimRef} {key v w : String}

/-- What is visible after a `-v` that is refused. -/
theorem mem_valuesAt_refused (hfits : valueFits db key (some v) = false) :
    w ∈ valuesAt (mergeAttrIndexAttrRm ord db t seed key (some v)).2 seed key t' ↔
      ∃ r ∈ db.attr.siblings seed key, r.valStr = some w ∧ r.validFrom ≤ t' ∧
        (EndedByRm ord db t seed key r ∧ t' < t ∨
          ¬ EndedByRm ord db t seed key r ∧ ∀ u ∈ r.validUntil, t' < u) := by
  obtain ⟨valInt, validUntil, heq⟩ := mergeSiblings_eq ord (fun _ => true) (fun _ _ => true) true
    db t seed key (some v)
  have hrows : (mergeAttrIndexAttrRm ord db t seed key (some v)).2.attr.rows =
      db.attr.rows.map fun r => if EndedByRm ord db t seed key r then r.setValidUntil t else r := by
    rw [mergeAttrIndexAttrRm, heq, hfits, if_neg Bool.false_ne_true]
    show (closePastSiblings _ _ _ _).2.rows = _
    rw [closePastSiblings_rows]
    refine List.map_congr_left fun r _ => ?_
    by_cases hended : EndedByRm ord db t seed key r
    · obtain ⟨s, hs, hid⟩ := hended
      rw [if_pos ⟨s, hs, rfl, hid⟩, if_pos ⟨s, hs, hid⟩]
    · rw [if_neg hended, if_neg]
      rintro ⟨s, hs, -, hid⟩
      exact hended ⟨s, hs, hid⟩
  rw [mem_valuesAt]
  simp only [AttrTable.mem_siblings, hrows, List.mem_map]
  constructor
  · rintro ⟨_, ⟨⟨r, hr, rfl⟩, hsib⟩, hval, hfrom, huntil⟩
    by_cases hended : EndedByRm ord db t seed key r
    · rw [if_pos hended] at hsib hval hfrom huntil
      exact ⟨r, ⟨hr, hsib⟩, hval, hfrom, .inl ⟨hended, huntil t rfl⟩⟩
    · rw [if_neg hended] at hsib hval hfrom huntil
      exact ⟨r, ⟨hr, hsib⟩, hval, hfrom, .inr ⟨hended, huntil⟩⟩
  · rintro ⟨r, ⟨hr, hsib⟩, hval, hfrom, ⟨hended, hlt⟩ | ⟨hended, huntil⟩⟩
    · refine ⟨r.setValidUntil t, ⟨⟨r, hr, if_pos hended⟩, hsib⟩, hval, hfrom, fun u hu => ?_⟩
      exact Option.some.inj hu ▸ hlt
    · exact ⟨r, ⟨⟨r, hr, if_neg hended⟩, hsib⟩, hval, hfrom, huntil⟩

/-- The rows began before `t`, and an end that they have is before `t`. -/
def SiblingsBefore (db : AttrIndexDb) (t : Int) (seed : ClaimRef) (key : String) : Prop :=
  ∀ r ∈ db.attr.siblings seed key, r.validFrom < t ∧ ∀ u ∈ r.validUntil, u < t

/-- A row that is visible at `t` or just before it has no end. -/
theorem SiblingsBefore.open_of_visible (h : SiblingsBefore db t seed key) {r : AttrRow}
    (hr : r ∈ db.attr.siblings seed key) (ht' : t ≤ t' + 1) (huntil : ∀ u ∈ r.validUntil, t' < u) :
    r.validUntil = none := by
  refine Option.eq_none_iff_forall_not_mem.mpr fun u hu => ?_
  have hlt := (h r hr).2 u hu
  have hgt := huntil u hu
  omega

theorem SiblingsBefore.mem_of_open (h : SiblingsBefore db t seed key) {r : AttrRow}
    (hr : r ∈ db.attr.siblings seed key) (hval : r.valStr = some w) (hnone : r.validUntil = none)
    (ht' : t ≤ t') : w ∈ valuesAt db seed key t' :=
  mem_valuesAt.mpr ⟨r, hr, hval, Int.le_trans (Int.le_of_lt (h r hr).1) ht',
    fun u hu => by rw [hnone] at hu; cases hu⟩

/-- A value that is refused is never visible. -/
theorem refused_not_visible (hfits : valueFits db key (some v) = false)
    (hvals : ∀ r ∈ db.attr.rows, valueFits db r.key r.valStr = true) :
    v ∉ valuesAt db seed key t' := by
  intro hmem
  obtain ⟨r, hr, hval, -⟩ := mem_valuesAt.mp hmem
  obtain ⟨hrow, -, hkey⟩ := AttrTable.mem_siblings.mp hr
  have hfit := hvals r hrow
  rw [hkey, hval, hfits] at hfit
  cases hfit

theorem endsUnseen_of_removesValue (hfits : valueFits db key (some v) = false)
    (hbefore : SiblingsBefore db t seed key) (hnever : v ∉ valuesAt db seed key t)
    (h : RemovesValue ord db t seed key v) : EndsUnseen ord db t seed key := by
  obtain ⟨hfrom, hpast⟩ := h
  intro r hr hended w hval
  have hseen : ∀ t', r.validFrom ≤ t' → t' < t → w ∈ valuesAt db seed key t' := by
    intro t' hstart hlt
    rw [← hpast t' hlt, mem_valuesAt_refused hfits]
    exact ⟨r, hr, hval, hstart, .inl ⟨hended, hlt⟩⟩
  refine ⟨hseen, ?_⟩
  -- the row that shows the value just before `t` has no end, so that the value is kept at `t`
  have hlt := (hbefore r hr).1
  obtain ⟨r1, hr1, hval1, -, huntil1⟩ := mem_valuesAt.mp (hseen (t - 1) (by omega) (by omega))
  have hnone1 := hbefore.open_of_visible hr1 (by omega) huntil1
  have hafter : w ∈ valuesAt db seed key t \ {v} := by
    have hmem := hbefore.mem_of_open hr1 hval1 hnone1 (Int.le_refl t)
    exact ⟨hmem, fun heq => hnever (heq ▸ hmem)⟩
  rw [← hfrom t (Int.le_refl t), mem_valuesAt_refused hfits] at hafter
  obtain ⟨r2, hr2, hval2, -, ⟨-, habsurd⟩ | ⟨hkept, huntil2⟩⟩ := hafter
  · exact absurd habsurd (Int.lt_irrefl t)
  · exact ⟨r2, hr2, hkept, hval2, hbefore.open_of_visible hr2 (by omega) huntil2⟩

theorem removesValue_of_endsUnseen (hfits : valueFits db key (some v) = false)
    (hbefore : SiblingsBefore db t seed key) (hnever : ∀ t', v ∉ valuesAt db seed key t')
    (h : EndsUnseen ord db t seed key) : RemovesValue ord db t seed key v := by
  refine ⟨fun t' ht' => ?_, fun t' ht' => ?_⟩
  · ext w
    rw [mem_valuesAt_refused hfits]
    constructor
    · rintro ⟨r, hr, hval, hfrom, ⟨-, hlt⟩ | ⟨-, huntil⟩⟩
      · exact absurd hlt (Int.not_lt.mpr ht')
      · have hmem := mem_valuesAt.mpr ⟨r, hr, hval, hfrom, huntil⟩
        exact ⟨hmem, fun heq => hnever t' (heq ▸ hmem)⟩
    · rintro ⟨hmem, -⟩
      obtain ⟨r, hr, hval, hfrom, huntil⟩ := mem_valuesAt.mp hmem
      by_cases hended : EndedByRm ord db t seed key r
      · obtain ⟨r', hr', hkept, hval', hnone⟩ := (h r hr hended w hval).2
        refine ⟨r', hr', hval', Int.le_trans (Int.le_of_lt (hbefore r' hr').1) ht',
          .inr ⟨hkept, fun u hu => ?_⟩⟩
        rw [hnone] at hu
        cases hu
      · exact ⟨r, hr, hval, hfrom, .inr ⟨hended, huntil⟩⟩
  · ext w
    rw [mem_valuesAt_refused hfits]
    constructor
    · rintro ⟨r, hr, hval, hfrom, ⟨hended, hlt⟩ | ⟨-, huntil⟩⟩
      · exact (h r hr hended w hval).1 t' hfrom hlt
      · exact mem_valuesAt.mpr ⟨r, hr, hval, hfrom, huntil⟩
    · intro hmem
      obtain ⟨r, hr, hval, hfrom, huntil⟩ := mem_valuesAt.mp hmem
      by_cases hended : EndedByRm ord db t seed key r
      · exact ⟨r, hr, hval, hfrom, .inl ⟨hended, ht'⟩⟩
      · exact ⟨r, hr, hval, hfrom, .inr ⟨hended, huntil⟩⟩

theorem removesValue_refused_iff (hfits : valueFits db key (some v) = false)
    (hrows : ∀ r ∈ db.attr.rows, (r.validFrom < t ∧ ∀ u ∈ r.validUntil, u < t) ∧
      valueFits db r.key r.valStr = true) :
    RemovesValue ord db t seed key v ↔ EndsUnseen ord db t seed key := by
  have hbefore : SiblingsBefore db t seed key :=
    fun r hr => (hrows r (AttrTable.mem_siblings.mp hr).1).1
  have hnever : ∀ t', v ∉ valuesAt db seed key t' :=
    fun t' => refused_not_visible hfits fun r hr => (hrows r hr).2
  exact ⟨endsUnseen_of_removesValue hfits hbefore (hnever t),
    removesValue_of_endsUnseen hfits hbefore hnever⟩

end Refused

/-! ### Times that increase -/

section Chronological

variable {ord : RowOrder} {db : AttrIndexDb} {t : Int} {seed : ClaimRef} {key : String}

/-- The rows come in the order of their times, and of the rows in front of a truncating one of
their seed and key none is open. -/
structure Chronological (rows : List AttrRow) : Prop where
  sorted : rows.Pairwise (·.validFrom < ·.validFrom)
  closed : ∀ r ∈ rows, ∀ u ∈ rows, u.seed = r.seed → u.key = r.key → u.trunc = true →
    r.validFrom < u.validFrom → r.validUntil ≠ none

/-- Whatever the past loop does not visit is closed. -/
theorem Chronological.closed_of_not_visited (h : Chronological db.attr.rows) {r : AttrRow}
    (hr : r ∈ db.attr.siblings seed key) (hle : r.validFrom ≤ t)
    (hnot : r ∉ scanned (db.attr.findPastSiblings ord seed key t)) : r.validUntil ≠ none := by
  intro hopen
  refine hnot (mem_scanned_of_lt (ord.sorted _) (AttrTable.mem_findPastSiblings.mpr ⟨hr, hle⟩) ?_)
  intro u hu htrunc hne
  obtain ⟨hrow, rfl, rfl⟩ := AttrTable.mem_siblings.mp hr
  obtain ⟨hurow, hseed, hkey⟩ :=
    AttrTable.mem_siblings.mp (AttrTable.mem_findPastSiblings.mp hu).1
  have hnodup : (db.attr.rows.map (·.validFrom)).Nodup :=
    List.pairwise_map.mpr (h.sorted.imp Int.ne_of_lt)
  refine lt_of_le_of_ne (Int.not_lt.mp fun hlt => ?_) fun heq =>
    hne (List.inj_on_of_nodup_map hnodup hurow hrow heq)
  exact h.closed r hrow u hurow hseed hkey htrunc hlt hopen

/-- Ending some of the rows keeps the order and what is closed. -/
theorem Chronological.map_setValidUntil {rows : List AttrRow} (h : Chronological rows) (t : Int)
    (p : AttrRow → Prop) [DecidablePred p] :
    Chronological (rows.map fun r => if p r then r.setValidUntil t else r) := by
  have hsame (r : AttrRow) : (if p r then r.setValidUntil t else r).validFrom = r.validFrom ∧
      (if p r then r.setValidUntil t else r).seed = r.seed ∧
      (if p r then r.setValidUntil t else r).key = r.key ∧
      (if p r then r.setValidUntil t else r).trunc = r.trunc := by
    split
    · exact ⟨rfl, rfl, rfl, rfl⟩
    · exact ⟨rfl, rfl, rfl, rfl⟩
  refine ⟨List.pairwise_map.mpr (h.sorted.imp fun {a b} hlt => ?_), ?_⟩
  · rw [(hsame a).1, (hsame b).1]
    exact hlt
  · simp only [List.forall_mem_map, hsame]
    intro r hr u hu hseed hkey htrunc hlt
    split
    · exact Option.some_ne_none t
    · exact h.closed r hr u hu hseed hkey htrunc hlt

/-- A row that is younger than all others joins them. A truncating one finds them closed. -/
theorem Chronological.append {rows : List AttrRow} (h : Chronological rows) {n : AttrRow}
    (hnew : ∀ r ∈ rows, r.validFrom < n.validFrom)
    (hclosed : n.trunc = true → ∀ r ∈ rows, n.seed = r.seed → n.key = r.key →
      r.validUntil ≠ none) : Chronological (rows ++ [n]) := by
  refine ⟨List.pairwise_append.mpr ⟨h.sorted, List.pairwise_singleton _ _, ?_⟩, ?_⟩
  · intro r hr u hu
    rw [List.mem_singleton.mp hu]
    exact hnew r hr
  · intro r hr u hu hseed hkey htrunc hlt
    rcases List.mem_append.mp hr with hr | hr
    · rcases List.mem_append.mp hu with hu | hu
      · exact h.closed r hr u hu hseed hkey htrunc hlt
      · rw [List.mem_singleton.mp hu] at hseed hkey htrunc
        exact hclosed htrunc r hr hseed hkey
    · rw [List.mem_singleton.mp hr] at hlt
      rcases List.mem_append.mp hu with hu | hu
      · exact absurd hlt (Int.not_lt.mpr (Int.le_of_lt (hnew u hu)))
      · rw [List.mem_singleton.mp hu] at hlt
        exact absurd hlt (Int.lt_irrefl _)

/-- One operation that is younger than every row. -/
theorem chronological_step (h : Chronological db.attr.rows) (hlen : db.attr.rows.length < 2 ^ 31)
    {s : OpStep} (hlt : ∀ r ∈ db.attr.rows, r.validFrom < s.time) :
    Chronological (nextOpDb db s).attr.rows := by
  rcases nextOpDb_cases db s with heq | ⟨closes, stops, trunc, heq, hcloses⟩
  · rwa [heq]
  obtain ⟨valInt, validUntil, hmerge⟩ := mergeSiblings_eq s.ord closes stops trunc db s.time s.seed
    s.key s.value
  have hrows := closePastSiblings_rows_of_lt hlen closes s.time
    (db.attr.findPastSiblings s.ord s.seed s.key s.time)
    fun r hr => (AttrTable.mem_siblings.mp (AttrTable.mem_findPastSiblings.mp hr).1).1
  have hended := h.map_setValidUntil s.time fun r =>
    r ∈ scanned (db.attr.findPastSiblings s.ord s.seed s.key s.time) ∧ closes r = true
  rw [heq, hmerge]
  split
  · show Chronological (_ ++ _)
    rw [hrows]
    refine hended.append ?_ ?_
    · simp only [List.forall_mem_map]
      intro r hr
      split
      · exact hlt r hr
      · exact hlt r hr
    · simp only [List.forall_mem_map]
      intro htrunc r hr
      split
      · exact fun _ _ => Option.some_ne_none s.time
      · next hnot =>
        intro hseed hkey
        have hout : r ∉ scanned (db.attr.findPastSiblings s.ord s.seed s.key s.time) :=
          fun hscan => hnot ⟨hscan, hcloses htrunc r⟩
        exact h.closed_of_not_visited (AttrTable.mem_siblings.mpr ⟨hr, hseed.symm, hkey.symm⟩)
          (Int.le_of_lt (hlt r hr)) hout
  · show Chronological (closePastSiblings _ _ _ _).2.rows
    rw [hrows]
    exact hended

theorem length_nextOpDb_le (db : AttrIndexDb) (s : OpStep) :
    (nextOpDb db s).attr.rows.length ≤ db.attr.rows.length + 1 := by
  rcases nextOpDb_cases db s with heq | ⟨closes, stops, trunc, heq, -⟩
  · rw [heq]
    exact Nat.le_succ _
  obtain ⟨valInt, validUntil, hmerge⟩ := mergeSiblings_eq s.ord closes stops trunc db s.time s.seed
    s.key s.value
  rw [heq, hmerge]
  split
  · show List.length (_ ++ _) ≤ _
    rw [List.length_append, closePastSiblings_rows, List.length_map, List.length_singleton]
  · show (closePastSiblings _ _ _ _).2.rows.length ≤ _
    rw [closePastSiblings_rows, List.length_map]
    exact Nat.le_succ _

theorem chronological_run {defs : List AttrDef} {steps : List OpStep}
    (hmono : (steps.map (·.time)).Pairwise (· < ·)) (hlen : steps.length ≤ 2 ^ 31) :
    Chronological (exec nextOpDb (setupAttrIndexDb defs) steps).attr.rows ∧
      (exec nextOpDb (setupAttrIndexDb defs) steps).attr.rows.length ≤ steps.length := by
  induction steps using List.reverseRecOn with
  | nil => exact ⟨⟨List.Pairwise.nil, fun r hr => absurd hr List.not_mem_nil⟩, Nat.le_refl _⟩
  | append_singleton steps s ih =>
    rw [List.map_append, List.pairwise_append] at hmono
    rw [List.length_append, List.length_singleton] at hlen ⊢
    obtain ⟨hchron, hle⟩ := ih hmono.1 (Nat.le_of_succ_le hlen)
    rw [exec_append_singleton]
    have hbefore : ∀ s' ∈ steps, s'.time < s.time := fun s' hs' =>
      hmono.2.2 _ (List.mem_map_of_mem hs') _ (List.mem_singleton_self _)
    exact ⟨chronological_step hchron (Nat.lt_of_le_of_lt hle hlen)
        fun r hr => (opRun_rows hbefore r hr).1.1,
      (length_nextOpDb_le _ s).trans (Nat.succ_le_succ hle)⟩

end Chronological

end RunsLemmas

/-- After at most 2³¹ operations whose times increase, the ends that a refused `-v` gives to rows
are not seen if and only if none of these rows has a value. -/
theorem endsUnseen_iff_of_increasing {defs : List AttrDef} {steps : List OpStep} {t : Int}
    (hmono : (steps.map (·.time)).Pairwise (· < ·)) (hlen : steps.length < 2 ^ 31)
    (ht : ∀ s ∈ steps, s.time < t) (ord : RowOrder) (seed : ClaimRef) (key : String) :
    EndsUnseen ord (exec nextOpDb (setupAttrIndexDb defs) steps) t seed key ↔
      ∀ r ∈ (exec nextOpDb (setupAttrIndexDb defs) steps).attr.siblings seed key,
        EndedByRm ord (exec nextOpDb (setupAttrIndexDb defs) steps) t seed key r →
          r.valStr = none := by
  obtain ⟨hchron, hle⟩ := @chronological_run defs steps hmono (Nat.le_of_lt hlen)
  have hrows := @opRun_rows defs steps t ht
  generalize exec nextOpDb (setupAttrIndexDb defs) steps = db at hchron hle hrows ⊢
  constructor
  · intro hunseen r hr hended
    refine Option.eq_none_iff_forall_not_mem.mpr fun v hv => ?_
    obtain ⟨-, r', hr', hkept, -, hopen⟩ := hunseen r hr hended v hv
    have hrow := (AttrTable.mem_siblings.mp hr').1
    have hnot : r' ∉ scanned (db.attr.findPastSiblings ord seed key t) := fun hscan =>
      hkept ⟨r', hscan, AttrTable.toInt32_rowid hrow (Nat.lt_of_le_of_lt hle hlen)⟩
    exact hchron.closed_of_not_visited hr' (Int.le_of_lt (hrows r' hrow).1.1) hnot hopen
  · intro hnone r hr hended v hv
    rw [hnone r hr hended] at hv
    cases hv

/-- On every table reached before `t`, a `-v` at `t` removes `v` and nothing else if and only if
it is refused, as `v` is not of the type of its key, and no value depends on the ends that it
has given to rows by then. Otherwise it leaves `v` itself visible. -/
theorem rm_value_removes_iff {defs : List AttrDef} {steps : List OpStep} {t : Int}
    (ht : ∀ s ∈ steps, s.time < t) (ord : RowOrder) (seed : ClaimRef) (key v : String) :
    RemovesValue ord (exec nextOpDb (setupAttrIndexDb defs) steps) t seed key v ↔
      valueFits (setupAttrIndexDb defs) key (some v) = false ∧
        EndsUnseen ord (exec nextOpDb (setupAttrIndexDb defs) steps) t seed key := by
  have hdef := valueFits_congr (opRun_attrDef (setupAttrIndexDb defs) steps)
  have hrows := @opRun_rows defs steps t ht
  rw [← hdef] at hrows ⊢
  cases hfits : valueFits (exec nextOpDb (setupAttrIndexDb defs) steps) key (some v) with
  | false => exact (removesValue_refused_iff hfits hrows).trans (and_iff_right rfl).symm
  | true =>
    refine iff_of_false (fun h => ?_) fun h => Bool.noConfusion h.1
    have hle : ∀ r ∈ (exec nextOpDb (setupAttrIndexDb defs) steps).attr.rows, r.validFrom ≤ t :=
      fun r hr => Int.le_of_lt (hrows r hr).1.1
    have hvis := mem_valuesAt_rm_value ord seed hfits hle
    rw [h.1 t (Int.le_refl t)] at hvis
    exact hvis.2 rfl

/-- A `-` of a text on a number that has been removed before changes nothing. -/
theorem rm_value_removes_refused :
    RemovesValue .byRowid (exec nextOpDb (setupAttrIndexDb [⟨"k", .int⟩])
      [⟨.byRowid, 1, Vector.replicate _ 0, .add, "k", some "7"⟩,
        ⟨.byRowid, 2, Vector.replicate _ 0, .rm, "k", none⟩]) 3 (Vector.replicate _ 0) "k" "x" := by
  have hempty : ∀ r ∈ (exec nextOpDb (setupAttrIndexDb [⟨"k", .int⟩])
      [⟨.byRowid, 1, Vector.replicate _ 0, .add, "k", some "7"⟩,
        ⟨.byRowid, 2, Vector.replicate _ 0, .rm, "k", none⟩]).attr.siblings (Vector.replicate _ 0)
      "k", EndedByRm .byRowid (exec nextOpDb (setupAttrIndexDb [⟨"k", .int⟩])
        [⟨.byRowid, 1, Vector.replicate _ 0, .add, "k", some "7"⟩,
          ⟨.byRowid, 2, Vector.replicate _ 0, .rm, "k", none⟩]) 3 (Vector.replicate _ 0) "k" r →
      r.valStr = none := by decide
  refine (rm_value_removes_iff (by decide) .byRowid (Vector.replicate _ 0) "k" "x").mpr
    ⟨by decide, fun r hr hended v hval => ?_⟩
  rw [hempty r hr hended] at hval
  cases hval

theorem rm_value_shows_removed :
    (mergeAttrIndexAttrRm .byRowid (exec nextOpDb (setupAttrIndexDb [])
        [⟨.byRowid, 1, Vector.replicate _ 0, .add, "k", some "a"⟩]) 2 (Vector.replicate _ 0) "k"
        (some "a")).1 = .ok ∧
      ¬ RemovesValue .byRowid (exec nextOpDb (setupAttrIndexDb [])
        [⟨.byRowid, 1, Vector.replicate _ 0, .add, "k", some "a"⟩]) 2 (Vector.replicate _ 0) "k"
        "a" := by
  refine ⟨by decide, fun h => ?_⟩
  have hmem : ("k", "a") ∈ getSeedAttrs (mergeAttrIndexAttrRm .byRowid (exec nextOpDb
      (setupAttrIndexDb []) [⟨.byRowid, 1, Vector.replicate _ 0, .add, "k", some "a"⟩]) 2
      (Vector.replicate _ 0) "k" (some "a")).2 2 (Vector.replicate _ 0) := by decide
  have hsub := (h.1 2 (Int.le_refl 2)).subset hmem
  exact absurd rfl hsub.2

end Everarch
