import Everarch.AttrIndex.Remerge
import Mathlib.Data.List.Pairwise

/-!
# Values that are reported twice

`evr_get_seed_attrs` visits every row that is visible at a time, so that a value is reported
once for each visible row that has it. Three things make rows of one value overlap:

* The past scan gives every row it closes the time of the operation as `valid_until`, rows that
  had ended before as well. A row that was closed by a later row of its value then reaches into
  that row.
* The future scan of `+v` does not end at a later row with the value, as it compares with a
  column of the past statement.
* A row that outlives a truncating row is not reached by the past scan of a row of its value.

Result: `values_reported_once_iff`, the exact condition on the steps of a run;
`added_value_reported_twice`: it fails when a value is added out of order.
-/

namespace Everarch

open MergeLemmas HistoryLemmas RunsLemmas RemergeLemmas

/-- The past scan of the step reaches the row: no truncating row before the step is younger. -/
def Reached (db : AttrIndexDb) (s : MergeStep) (r : AttrRow) : Prop :=
  r.validFrom ≤ s.time ∧ ∀ u ∈ db.attr.siblings s.seed s.key, u.trunc = true →
    u.validFrom ≤ s.time → u.validFrom ≤ r.validFrom

/-- Of the values that the step closes, the past scan reaches one row each. -/
def ReachesOnce (db : AttrIndexDb) (s : MergeStep) : Prop :=
  ∀ r ∈ db.attr.siblings s.seed s.key, ∀ u ∈ db.attr.siblings s.seed s.key,
    Reached db s r → r.validFrom < u.validFrom → u.validFrom < s.time → r.valStr.isSome →
      (s.op.truncates = true ∨ s.op.val = r.valStr) → r.valStr ≠ u.valStr

/-- The past scan reaches every older row with the value that has not ended. -/
def OlderReached (db : AttrIndexDb) (s : MergeStep) (v : String) : Prop :=
  ∀ r ∈ db.attr.siblings s.seed s.key, r.valStr = some v → r.validFrom < s.time →
    Reached db s r ∨ ∃ e ∈ r.validUntil, e ≤ s.time

/-- A later row at which the future scan of the step can end. -/
def CanEndAt (db : AttrIndexDb) (s : MergeStep) (w : AttrRow) : Prop :=
  s.time < w.validFrom ∧ (w.trunc = true ∨ MisreadsRowid db s)

/-- There is a row at which the step can end, and no later row with the value is older than
the youngest of them. -/
def LaterBehindEnd (db : AttrIndexDb) (s : MergeStep) (v : String) : Prop :=
  ∀ u ∈ db.attr.siblings s.seed s.key, u.valStr = some v → s.time < u.validFrom →
    (∃ w ∈ db.attr.siblings s.seed s.key, CanEndAt db s w) ∧
      ∀ w ∈ db.attr.siblings s.seed s.key, CanEndAt db s w → w.validFrom ≤ u.validFrom

/-- The step makes no rows of one value overlap. An operation whose value is not of the type
of its key closes rows and inserts none. -/
def MergesOnce (db : AttrIndexDb) (s : MergeStep) : Prop :=
  ReachesOnce db s ∧ (valueFits db s.key s.op.val = true → ∀ v ∈ s.op.val,
    OlderReached db s v ∧ LaterBehindEnd db s v)

instance (db : AttrIndexDb) (s : MergeStep) (r : AttrRow) : Decidable (Reached db s r) :=
  inferInstanceAs (Decidable (_ ∧ _))

instance (db : AttrIndexDb) (s : MergeStep) : Decidable (ReachesOnce db s) :=
  inferInstanceAs (Decidable (∀ r ∈ db.attr.siblings s.seed s.key, _))

instance (db : AttrIndexDb) (s : MergeStep) (v : String) : Decidable (OlderReached db s v) :=
  inferInstanceAs (Decidable (∀ r ∈ db.attr.siblings s.seed s.key, _))

instance (db : AttrIndexDb) (s : MergeStep) (w : AttrRow) : Decidable (CanEndAt db s w) :=
  inferInstanceAs (Decidable (_ ∧ _))

instance (db : AttrIndexDb) (s : MergeStep) (v : String) : Decidable (LaterBehindEnd db s v) :=
  inferInstanceAs (Decidable (∀ u ∈ db.attr.siblings s.seed s.key, _))

instance (db : AttrIndexDb) (s : MergeStep) : Decidable (MergesOnce db s) :=
  inferInstanceAs (Decidable (_ ∧ _))

namespace OnceLemmas

variable {db : AttrIndexDb} {s : MergeStep}

/-! ## Visits and spans -/

/-- Rows of every seed and key are valid for some time. -/
def ProperRows (db : AttrIndexDb) : Prop :=
  ∀ seed key, Proper (timeline db seed key)

/-- What the statement of `evr_get_seed_attrs` makes of a row. -/
def visited (t : Int) (seed : ClaimRef) (r : AttrRow) : Option (String × String) :=
  if r.seed = seed ∧ r.validFrom ≤ t ∧ (∀ u ∈ r.validUntil, t < u) then r.valStr.map (r.key, ·)
  else none

theorem visited_eq_some {t : Int} {seed : ClaimRef} {r : AttrRow} {p : String × String} :
    visited t seed r = some p ↔
      r.seed = seed ∧ r.key = p.1 ∧ r.valStr = some p.2 ∧ r.toSpan.Covers t := by
  unfold visited
  constructor
  · intro h
    split at h
    · next hc =>
      obtain ⟨v, hv, rfl⟩ := Option.map_eq_some_iff.mp h
      exact ⟨hc.1, rfl, hv, hc.2.1, fun e he => hc.2.2 e he⟩
    · cases h
  · rintro ⟨hseed, hkey, hv, hfrom, huntil⟩
    rw [if_pos ⟨hseed, hfrom, fun e he => huntil e he⟩, hv, hkey]
    rfl

theorem nodup_rows (table : AttrTable) : table.rows.Nodup := by
  have hnd : (table.rows.map (·.rowid)).Nodup := by
    rw [table.rowids]
    exact List.nodup_range'
  exact hnd.of_map _

/-- A visit is made once if and only if no two rows make it. -/
theorem nodup_getSeedAttrs_iff (t : Int) (seed : ClaimRef) :
    (getSeedAttrs db t seed).Nodup ↔ ∀ r ∈ db.attr.rows, ∀ u ∈ db.attr.rows, r ≠ u →
      ∀ p, visited t seed r = some p → visited t seed u ≠ some p := by
  have hpairs : (getSeedAttrs db t seed).Nodup ↔ db.attr.rows.Pairwise fun r u =>
      ∀ p, visited t seed r = some p → visited t seed u ≠ some p := by
    refine List.pairwise_filterMap.trans (iff_of_eq ?_)
    congr 1
    funext r u
    apply propext
    constructor
    · exact fun h p hp hp' => h p hp p hp' rfl
    · rintro h p hp p' hp' rfl
      exact h p hp hp'
  rw [hpairs]
  constructor
  · intro h r hr u hu hne
    have : Std.Symm fun r u => ∀ p, visited t seed r = some p → visited t seed u ≠ some p :=
      ⟨fun r u hne p hp hp' => hne p hp' hp⟩
    exact h.forall hr hu hne
  · intro h
    exact (nodup_rows _).pairwise_of_forall_ne fun r hr u hu hne => h r hr u hu hne

/-- No value is reported twice if and only if spans of one value do not overlap. -/
theorem reported_once_iff (hd : Distinct db) (hp : ProperRows db) :
    (∀ t seed, (getSeedAttrs db t seed).Nodup) ↔
      ∀ seed key, ShownOnce (timeline db seed key) := by
  simp only [nodup_getSeedAttrs_iff, ne_eq, visited_eq_some]
  constructor
  · intro h seed key s hs u hu v hsv huv hlt
    obtain ⟨r, hr, rfl⟩ := List.mem_map.mp hs
    obtain ⟨w, hw, rfl⟩ := List.mem_map.mp hu
    obtain ⟨hrow, hseed, hkey⟩ := AttrTable.mem_siblings.mp hr
    obtain ⟨hrow', hseed', hkey'⟩ := AttrTable.mem_siblings.mp hw
    by_contra hover
    have hne : r ≠ w := by
      rintro rfl
      exact absurd hlt (Int.lt_irrefl _)
    -- the older span still covers the start of the younger one
    refine h w.validFrom seed r hrow w hrow' hne (key, v) ⟨hseed, hkey, hsv, Int.le_of_lt hlt, ?_⟩
      ⟨hseed', hkey', huv, Int.le_refl _, fun e he => hp seed key _ hu e he⟩
    intro e he
    exact Int.not_le.mp fun hle => hover ⟨e, he, hle⟩
  · rintro h t seed r hr u hu hne ⟨key, v⟩ ⟨hseed, hkey, hv, hcov⟩ ⟨hseed', hkey', hv', hcov'⟩
    have hr' := AttrTable.mem_siblings.mpr ⟨hr, hseed, hkey⟩
    have hu' := AttrTable.mem_siblings.mpr ⟨hu, hseed', hkey'⟩
    have hspan := h seed key _ (List.mem_map_of_mem hr') _ (List.mem_map_of_mem hu') v hv hv'
    have hspan' := h seed key _ (List.mem_map_of_mem hu') _ (List.mem_map_of_mem hr') v hv' hv
    rcases Int.lt_trichotomy r.validFrom u.validFrom with hlt | heq | hlt
    · obtain ⟨e, he, hle⟩ := hspan hlt
      exact absurd (hcov.2 e he) (Int.not_lt.mpr (hle.trans hcov'.1))
    · exact hne (List.inj_on_of_nodup_map (hd seed key) hr' hu' heq)
    · obtain ⟨e, he, hle⟩ := hspan' hlt
      exact absurd (hcov'.2 e he) (Int.not_lt.mpr (hle.trans hcov.1))

/-! ## One step -/

theorem lt_of_spanCloses (hfresh : Fresh db s) {sp : Span Int String}
    (hsp : sp ∈ timeline db s.seed s.key)
    (hc : spanCloses s.op (timeline db s.seed s.key) s.time sp = true) : sp.start < s.time := by
  obtain ⟨r, hr, rfl⟩ := List.mem_map.mp hsp
  exact lt_of_le_of_ne (spanCloses_scope hc).1 (hfresh r hr)

theorem properRows_step (hfit : RowidsFit db) (hfresh : Fresh db s) (hd : Distinct db)
    (hp : ProperRows db) : ProperRows (nextDb db s) := by
  intro seed key
  by_cases hab : s.About seed key
  · obtain ⟨rfl, rfl⟩ := hab
    by_cases hacc : Accepted db s
    · rw [timeline_merge hacc hfit (hd _ _)]
      refine proper_merge (hp _ _) (fun sp hsp hc => lt_of_spanCloses hfresh hsp hc) fun e he => ?_
      obtain ⟨f, -, rfl, hlt, -⟩ := stop_eq_some he
      exact hlt
    · rw [timeline_refused hacc hfit (hd _ _)]
      exact proper_close (hp _ _) fun sp hsp hc => lt_of_spanCloses hfresh hsp hc
  · rw [timeline_other hfit hab]
    exact hp seed key

/-- The past scan closes a row that it reaches if the operation removes its value or brings it
in again. -/
theorem spanCloses_iff_reached {r : AttrRow} (hval : r.valStr.isSome) :
    spanCloses s.op (timeline db s.seed s.key) s.time r.toSpan = true ↔
      Reached db s r ∧ (s.op.truncates = true ∨ s.op.val = r.valStr) := by
  obtain ⟨v, hv⟩ := Option.isSome_iff_exists.mp hval
  unfold spanCloses timeline
  rw [Bool.and_eq_true, decide_eq_true_eq, List.forall_mem_map]
  refine and_congr Iff.rfl ?_
  cases s.op with
  | assign w => simp [SetOp.truncates]
  | clear => simp [SetOp.truncates]
  | add w =>
    simp only [SetOp.truncates, SetOp.val, AttrRow.toSpan, hv, Option.isNone_some, Bool.false_or,
      beq_iff_eq, Bool.false_eq_true, false_or]
    exact eq_comm

theorem closesOnce_iff :
    ClosesOnce (timeline db s.seed s.key) (spanCloses s.op (timeline db s.seed s.key) s.time)
      s.time ↔ ReachesOnce db s := by
  unfold ClosesOnce ReachesOnce
  constructor
  · intro h r hr u hu hreach hlt hut hval hop heq
    obtain ⟨v, hv⟩ := Option.isSome_iff_exists.mp hval
    have hle := h _ (List.mem_map_of_mem hr) ((spanCloses_iff_reached hval).mpr ⟨hreach, hop⟩) _
      (List.mem_map_of_mem hu) v hv (heq.symm.trans hv) hlt
    exact absurd hut (Int.not_lt.mpr hle)
  · intro h sp hsp hc up hup v hv hv' hlt
    obtain ⟨r, hr, rfl⟩ := List.mem_map.mp hsp
    obtain ⟨u, hu, rfl⟩ := List.mem_map.mp hup
    have hval : r.valStr.isSome := Option.isSome_iff_exists.mpr ⟨v, hv⟩
    obtain ⟨hreach, hop⟩ := (spanCloses_iff_reached hval).mp hc
    by_contra hle
    have hvs : r.valStr = some v := hv
    have hvs' : u.valStr = some v := hv'
    exact h r hr u hu hreach hlt (Int.not_le.mp hle) hval hop (hvs.trans hvs'.symm)

theorem olderReached_iff {v : String} (hv : s.op.val = some v) :
    (∀ sp ∈ timeline db s.seed s.key, sp.val = some v → sp.start < s.time →
      spanCloses s.op (timeline db s.seed s.key) s.time sp = true ∨
        ∃ e, sp.stop = some e ∧ e ≤ s.time) ↔ OlderReached db s v := by
  unfold timeline OlderReached
  rw [List.forall_mem_map]
  refine forall_congr' fun r => forall_congr' fun hr => forall_congr' fun hval => ?_
  have hvs : r.valStr = some v := hval
  refine forall_congr' fun _ => or_congr ?_ Iff.rfl
  rw [← timeline, spanCloses_iff_reached (Option.isSome_iff_exists.mpr ⟨v, hvs⟩)]
  exact and_iff_left (.inr (hv.trans hvs.symm))

/-- The new row ends at the youngest of the rows at which it can end. -/
theorem stop_le_iff (hd : ((db.attr.siblings s.seed s.key).map (·.validFrom)).Nodup) {v : String}
    (hv : s.op.val = some v) (t : Int) :
    (∃ e, s.stop db = some e ∧ e ≤ t) ↔
      (∃ w ∈ db.attr.siblings s.seed s.key, CanEndAt db s w) ∧
        ∀ w ∈ db.attr.siblings s.seed s.key, CanEndAt db s w → w.validFrom ≤ t := by
  by_cases hmis : MisreadsRowid db s
  · obtain ⟨f, hf, -, hft, hfmax, hstop⟩ := stop_of_misreads hd hmis
    constructor
    · rintro ⟨e, he, hle⟩
      obtain rfl : f.validFrom = e := Option.some.inj (hstop.symm.trans he)
      exact ⟨⟨f, hf, hft, .inr hmis⟩, fun w hw _ => (hfmax w hw).trans hle⟩
    · rintro ⟨-, h⟩
      exact ⟨_, hstop, h f hf ⟨hft, .inr hmis⟩⟩
  · constructor
    · rintro ⟨e, he, hle⟩
      obtain ⟨f, hf, hftr, rfl, hft⟩ := stop_trunc he hv hmis
      refine ⟨⟨f, hf, hft, .inl hftr⟩, fun w hw hcan => (trunc_le_stop he hw ?_ hcan.1).trans hle⟩
      exact hcan.2.resolve_right hmis
    · rintro ⟨⟨w, hw, hlt, htr⟩, h⟩
      obtain ⟨e, he⟩ := stop_isSome hw (htr.resolve_right hmis) hlt
      obtain ⟨f, hf, hftr, rfl, hft⟩ := stop_trunc he hv hmis
      exact ⟨_, he, h f hf ⟨hft, .inl hftr⟩⟩

theorem laterBehindEnd_iff (hd : ((db.attr.siblings s.seed s.key).map (·.validFrom)).Nodup)
    {v : String} (hv : s.op.val = some v) :
    (∀ u ∈ timeline db s.seed s.key, u.val = some v → s.time < u.start →
      ∃ e, (stepSpan db s).stop = some e ∧ e ≤ u.start) ↔ LaterBehindEnd db s v := by
  unfold timeline LaterBehindEnd
  rw [List.forall_mem_map]
  refine forall_congr' fun u => forall_congr' fun hu => forall_congr' fun hval => ?_
  exact forall_congr' fun _ => stop_le_iff hd hv u.validFrom

theorem shownOnce_step_iff (hfit : RowidsFit db) (hd : Distinct db)
    (honce : ∀ seed key, ShownOnce (timeline db seed key)) :
    (∀ seed key, ShownOnce (timeline (nextDb db s) seed key)) ↔ MergesOnce db s := by
  have hown : (∀ seed key, ShownOnce (timeline (nextDb db s) seed key)) ↔
      ShownOnce (timeline (nextDb db s) s.seed s.key) := by
    refine ⟨fun h => h s.seed s.key, fun h seed key => ?_⟩
    by_cases hab : s.About seed key
    · obtain ⟨rfl, rfl⟩ := hab
      exact h
    · rw [timeline_other hfit hab]
      exact honce seed key
  rw [hown]
  unfold MergesOnce
  rw [← accepted_iff, ← closesOnce_iff]
  by_cases hacc : Accepted db s
  · rw [timeline_merge hacc hfit (hd _ _), shownOnce_merge_iff (honce _ _)
      (show (stepSpan db s).start = s.time from rfl)]
    refine and_congr Iff.rfl ?_
    rw [forall_prop_of_true hacc]
    refine forall_congr' fun v => forall_congr' fun hv => ?_
    rw [olderReached_iff hv, laterBehindEnd_iff (hd _ _) hv]
  · rw [timeline_refused hacc hfit (hd _ _), shownOnce_close_iff (honce _ _)]
    exact (and_iff_left fun h => absurd h hacc).symm

theorem distinct_proper_run {defs : List AttrDef} {steps : List MergeStep}
    (hdist : (steps.map (·.time)).Nodup) (hlen : steps.length ≤ 2 ^ 31) :
    Distinct (exec nextDb (setupAttrIndexDb defs) steps) ∧
      ProperRows (exec nextDb (setupAttrIndexDb defs) steps) := by
  refine (fits_fresh_run hdist hlen).invariant (fun db => Distinct db ∧ ProperRows db) ?_ ?_
  · exact ⟨distinct_setup defs, fun _ _ _ hs => absurd hs List.not_mem_nil⟩
  · rintro db s ⟨hd, hp⟩ ⟨hfit, hfresh⟩
    exact ⟨distinct_step hfit hfresh hd, properRows_step hfit hfresh hd hp⟩

end OnceLemmas

open OnceLemmas

/-- In a run of operations with distinct times no state reports a value twice if and only if
no step makes rows of one value overlap. -/
theorem values_reported_once_iff {defs : List AttrDef} {steps : List MergeStep}
    (hdist : (steps.map (·.time)).Nodup) (hlen : steps.length ≤ 2 ^ 31) :
    (∀ before, before <+: steps → ∀ t seed,
      (getSeedAttrs (exec nextDb (setupAttrIndexDb defs) before) t seed).Nodup) ↔
      Along nextDb MergesOnce (setupAttrIndexDb defs) steps := by
  have hstate {before : List MergeStep} (hpre : before <+: steps) :
      Distinct (exec nextDb (setupAttrIndexDb defs) before) ∧
        ProperRows (exec nextDb (setupAttrIndexDb defs) before) :=
    distinct_proper_run (hdist.sublist (hpre.sublist.map (·.time))) (hpre.length_le.trans hlen)
  have hrun : Along nextDb (fun db s => RowidsFit db ∧ Fresh db s) (setupAttrIndexDb defs) steps :=
    fits_fresh_run hdist hlen
  refine invariant_iff_along (fun db => ∀ t seed, (getSeedAttrs db t seed).Nodup)
    (fun _ _ => List.nodup_nil) fun before s hpre honce => ?_
  have hbefore := hstate ((List.prefix_append _ _).trans hpre)
  obtain ⟨hfit, -⟩ := hrun.at_prefix hpre
  rw [reported_once_iff (hstate hpre).1 (hstate hpre).2, exec_append_singleton]
  rw [reported_once_iff hbefore.1 hbefore.2] at honce
  exact shownOnce_step_iff hfit hbefore.1 honce

/-- Each value is brought in again after it was removed. -/
def addAgain : List MergeStep :=
  [sampleStep 1 (.add "a"), sampleStep 2 (.add "b"), sampleStep 3 (.assign "a"),
    sampleStep 4 (.add "b")]

theorem values_reported_once_iff_add_again :
    Along nextDb MergesOnce (setupAttrIndexDb []) addAgain ∧
      ∀ before, before <+: addAgain → ∀ t seed,
        (getSeedAttrs (exec nextDb (setupAttrIndexDb []) before) t seed).Nodup := by
  have hsteps : Along nextDb MergesOnce (setupAttrIndexDb []) addAgain := by decide
  exact ⟨hsteps, (values_reported_once_iff (by decide) (by decide)).mpr hsteps⟩

/-- The same value added at an earlier time is not ended by the row that is there. -/
theorem added_value_reported_twice :
    ([sampleStep 2 (.add "a"), sampleStep 1 (.add "a")].map (·.time)).Nodup ∧
      ¬ (getSeedAttrs (exec nextDb (setupAttrIndexDb [])
        [sampleStep 2 (.add "a"), sampleStep 1 (.add "a")]) 2 (Vector.replicate _ 0)).Nodup := by
  decide

/-- The third of three chronological adds extends the first row into the second. -/
example : ¬ (getSeedAttrs (exec nextDb (setupAttrIndexDb []) [sampleStep 1 (.add "a"),
    sampleStep 2 (.add "a"), sampleStep 3 (.add "a")]) 2 (Vector.replicate _ 0)).Nodup := by
  decide

end Everarch
