import Everarch.AttrIndex.Runs

/-!
# Merges with equal times

All attributes of a claim set are merged with its created time, so equal times are
the normal case. The past scan ends at the first truncating row, and SQLite may
return rows with the same `valid_from` in any order, so rows that share the time of
a truncating row may be out of reach of every later scan. This does no harm as long
as they are closed.

* `TiesWithTrunc`: the step brings in a value at the time of a truncating row.
* `TiedRowsClosed`: the invariant. Next to a youngest truncating row all rows with a
  value that are not younger are closed.
* `tiedRowsClosed_step`, `tiedRowsClosed_run`: steps that do not tie with a
  truncating row keep it.

Result: `truncation_complete`, after `=v` exactly `v` and after `-` nothing is
visible; `truncation_incomplete`: not so after a tie.
-/

namespace Everarch

open MergeLemmas HistoryLemmas RunsLemmas

/-- The step brings in a value at the time of a truncating row. -/
def TiesWithTrunc (db : AttrIndexDb) (s : MergeStep) : Prop :=
  s.op.val.isSome ∧ ∃ r ∈ db.attr.siblings s.seed s.key, r.trunc = true ∧ r.validFrom = s.time

instance (db : AttrIndexDb) (s : MergeStep) : Decidable (TiesWithTrunc db s) :=
  inferInstanceAs (Decidable (_ ∧ _))

/-- The row ends at or before the start of one of the rows. -/
def ClosedWithin (rows : List AttrRow) (r : AttrRow) : Prop :=
  ∃ e, r.validUntil = some e ∧ ∃ u ∈ rows, e ≤ u.validFrom

/-- Next to a youngest truncating row all rows with a value that are not younger
are closed. -/
def TiedRowsClosed (rows : List AttrRow) : Prop :=
  ∀ c ∈ rows, c.trunc = true → (∀ u ∈ rows, u.trunc = true → u.validFrom ≤ c.validFrom) →
    ∀ r ∈ rows, r ≠ c → r.valStr.isSome → r.validFrom ≤ c.validFrom → ClosedWithin rows r

namespace TiesLemmas

/-- What the past scan leaves of a row. -/
def afterScan (db : AttrIndexDb) (s : MergeStep) (r : AttrRow) : AttrRow :=
  if r ∈ scanned (s.past db) ∧ stepCloses s.op r = true then r.setValidUntil s.time else r

theorem afterScan_validFrom (db : AttrIndexDb) (s : MergeStep) (r : AttrRow) :
    (afterScan db s r).validFrom = r.validFrom := by
  unfold afterScan
  split <;> rfl

theorem afterScan_trunc (db : AttrIndexDb) (s : MergeStep) (r : AttrRow) :
    (afterScan db s r).trunc = r.trunc := by
  unfold afterScan
  split <;> rfl

theorem afterScan_valStr (db : AttrIndexDb) (s : MergeStep) (r : AttrRow) :
    (afterScan db s r).valStr = r.valStr := by
  unfold afterScan
  split <;> rfl

/-- The rows after an accepted step that is not older than any row. -/
theorem siblings_latest {db : AttrIndexDb} {s : MergeStep} (h : Accepted db s)
    (hfit : RowidsFit db) (hle : ∀ r ∈ db.attr.siblings s.seed s.key, r.validFrom ≤ s.time) :
    ∃ n : AttrRow, n.validFrom = s.time ∧ n.valStr = s.op.val ∧ n.trunc = s.op.truncates ∧
      n.validUntil = none ∧ (nextDb db s).attr.siblings s.seed s.key =
        (db.attr.siblings s.seed s.key).map (afterScan db s) ++ [n] := by
  obtain ⟨n, hn, hsib⟩ := siblings_nextDb s hfit s.seed s.key
  rw [if_pos ⟨h, rfl, rfl⟩] at hsib
  refine ⟨n, congrArg (·.start) hn, congrArg (·.val) hn, congrArg (·.trunc) hn, ?_, hsib⟩
  exact (congrArg (·.stop) hn).trans (stop_eq_none_of_latest hle)

theorem mem_past_of_le {db : AttrIndexDb} {s : MergeStep}
    (hle : ∀ r ∈ db.attr.siblings s.seed s.key, r.validFrom ≤ s.time) {r : AttrRow}
    (hr : r ∈ db.attr.siblings s.seed s.key) : r ∈ s.past db :=
  AttrTable.mem_findPastSiblings.mpr ⟨hr, hle r hr⟩

/-- Rows that the scan does not reach lie behind a youngest truncating row. -/
theorem exists_trunc_of_not_scanned {siblings : List AttrRow}
    (hs : siblings.Pairwise fun a b => b.validFrom ≤ a.validFrom) {r : AttrRow}
    (hr : r ∈ siblings) (hno : r ∉ scanned siblings) :
    ∃ c ∈ siblings, c.trunc = true ∧ c ≠ r ∧ r.validFrom ≤ c.validFrom ∧
      ∀ u ∈ siblings, u.trunc = true → u.validFrom ≤ c.validFrom := by
  induction siblings with
  | nil => exact absurd hr List.not_mem_nil
  | cons a siblings ih =>
    rw [List.pairwise_cons] at hs
    unfold scanned at hno
    cases ha : a.trunc with
    | true =>
      rw [ha, if_pos rfl, List.mem_singleton] at hno
      refine ⟨a, List.mem_cons_self, ha, fun h => hno h.symm, ?_, ?_⟩
      · exact hs.1 r ((List.mem_cons.mp hr).resolve_left hno)
      · intro u hu _
        rcases List.mem_cons.mp hu with rfl | hu
        · exact Int.le_refl _
        · exact hs.1 u hu
    | false =>
      rw [ha, if_neg Bool.false_ne_true, List.mem_cons, not_or] at hno
      have hr' := (List.mem_cons.mp hr).resolve_left hno.1
      obtain ⟨c, hc, htr, hne, hle, hmax⟩ := ih hs.2 hr' hno.2
      refine ⟨c, List.mem_cons_of_mem a hc, htr, hne, hle, fun u hu hutr => ?_⟩
      rcases List.mem_cons.mp hu with rfl | hu
      · rw [ha] at hutr
        cases hutr
      · exact hmax u hu hutr

theorem stepCloses_of_truncates {op : SetOp String} (h : op.truncates = true) (r : AttrRow) :
    stepCloses op r = true := by
  cases op with
  | assign v => rfl
  | add v => exact nomatch h
  | clear => rfl

theorem closedWithin_afterScan {db : AttrIndexDb} {s : MergeStep} {rows : List AttrRow}
    {n r : AttrRow} (hn : n.validFrom = s.time) (h : ClosedWithin rows r) :
    ClosedWithin (rows.map (afterScan db s) ++ [n]) (afterScan db s r) := by
  obtain ⟨e, he, u, hu, hle⟩ := h
  by_cases hc : r ∈ scanned (s.past db) ∧ stepCloses s.op r = true
  · refine ⟨s.time, ?_, n, by simp, Int.le_of_eq hn.symm⟩
    unfold afterScan
    rw [if_pos hc]
    rfl
  · refine ⟨e, ?_, afterScan db s u, ?_, ?_⟩
    · unfold afterScan
      rw [if_neg hc]
      exact he
    · exact List.mem_append_left _ (List.mem_map_of_mem hu)
    · rw [afterScan_validFrom]
      exact hle

/-- After a truncating step that is not older than any row, every row with a value
is closed. -/
theorem closedWithin_of_truncates {db : AttrIndexDb} {s : MergeStep} {n : AttrRow}
    (hinv : TiedRowsClosed (db.attr.siblings s.seed s.key))
    (hle : ∀ r ∈ db.attr.siblings s.seed s.key, r.validFrom ≤ s.time)
    (htr : s.op.truncates = true) (hn : n.validFrom = s.time) {r : AttrRow}
    (hr : r ∈ db.attr.siblings s.seed s.key) (hv : r.valStr.isSome) :
    ClosedWithin ((db.attr.siblings s.seed s.key).map (afterScan db s) ++ [n])
      (afterScan db s r) := by
  by_cases hsc : r ∈ scanned (s.past db)
  · refine ⟨s.time, ?_, n, by simp, Int.le_of_eq hn.symm⟩
    unfold afterScan
    rw [if_pos ⟨hsc, stepCloses_of_truncates htr r⟩]
    rfl
  · obtain ⟨c, hc, hctr, hne, hrc, hmax⟩ :=
      exists_trunc_of_not_scanned (s.ord.sorted _) (mem_past_of_le hle hr) hsc
    refine closedWithin_afterScan hn (hinv c ?_ hctr ?_ r hr hne.symm hv hrc)
    · exact (AttrTable.mem_findPastSiblings.mp hc).1
    · exact fun u hu => hmax u (mem_past_of_le hle hu)

theorem tiedRowsClosed_step {db : AttrIndexDb} {s : MergeStep} (h : Accepted db s)
    (hfit : RowidsFit db) (hle : ∀ r ∈ db.attr.siblings s.seed s.key, r.validFrom ≤ s.time)
    (htie : ¬ TiesWithTrunc db s) (hinv : TiedRowsClosed (db.attr.siblings s.seed s.key)) :
    TiedRowsClosed ((nextDb db s).attr.siblings s.seed s.key) := by
  obtain ⟨n, hfrom, hval, htrunc, -, hsib⟩ := siblings_latest h hfit hle
  rw [hsib]
  intro c' hc' hctr hmax r' hr' hne hv hrc
  rcases List.mem_append.mp hr' with hr' | hr'
  · obtain ⟨r, hr, rfl⟩ := List.mem_map.mp hr'
    rw [afterScan_valStr] at hv
    cases htr : s.op.truncates with
    | true => exact closedWithin_of_truncates hinv hle htr hfrom hr hv
    | false =>
      -- the step is `+v`, so the youngest truncating rows are the old ones
      rcases List.mem_append.mp hc' with hc' | hc'
      · obtain ⟨c, hc, rfl⟩ := List.mem_map.mp hc'
        rw [afterScan_trunc] at hctr
        rw [afterScan_validFrom, afterScan_validFrom] at hrc
        refine closedWithin_afterScan hfrom (hinv c hc hctr ?_ r hr ?_ hv hrc)
        · intro u hu hutr
          have := hmax (afterScan db s u) (List.mem_append_left _ (List.mem_map_of_mem hu))
            ((afterScan_trunc db s u).trans hutr)
          rw [afterScan_validFrom, afterScan_validFrom] at this
          exact this
        · exact fun heq => hne (congrArg (afterScan db s) heq)
      · rw [List.mem_singleton.mp hc', htrunc, htr] at hctr
        exact nomatch hctr
  · rw [List.mem_singleton.mp hr'] at hne hv hrc
    rcases List.mem_append.mp hc' with hc' | hc'
    · obtain ⟨c, hc, rfl⟩ := List.mem_map.mp hc'
      rw [afterScan_trunc] at hctr
      rw [afterScan_validFrom, hfrom] at hrc
      refine absurd ⟨hval ▸ hv, c, hc, hctr, ?_⟩ htie
      exact Int.le_antisymm (hle c hc) hrc
    · exact absurd (List.mem_singleton.mp hc').symm hne

theorem rowidsFit_run (defs : List AttrDef) {steps : List MergeStep}
    (hlen : steps.length < 2 ^ 31) :
    RowidsFit (exec nextDb (setupAttrIndexDb defs) steps) := by
  have hle := exec_length_le (setupAttrIndexDb defs) steps
  have h0 : (setupAttrIndexDb defs).attr.rows.length = 0 := rfl
  unfold RowidsFit
  omega

theorem tiedRowsClosed_run {defs : List AttrDef} {steps : List MergeStep}
    (hfits : ∀ s ∈ steps, valueFits (setupAttrIndexDb defs) s.key s.op.val = true)
    (hmono : (steps.map (·.time)).Pairwise (· ≤ ·)) (hlen : steps.length < 2 ^ 31)
    (hties : Along nextDb (fun db s => ¬ TiesWithTrunc db s) (setupAttrIndexDb defs) steps)
    (seed : ClaimRef) (key : String) :
    TiedRowsClosed ((exec nextDb (setupAttrIndexDb defs) steps).attr.siblings seed key) := by
  induction steps using List.reverseRecOn generalizing seed key with
  | nil => exact fun c hc => absurd hc List.not_mem_nil
  | append_singleton steps s ih =>
    obtain ⟨hbefore, htie⟩ := along_append_singleton.mp hties
    rw [List.length_append, List.length_singleton] at hlen
    rw [List.map_append, List.pairwise_append] at hmono
    have hinv := ih (fun s' hs' => hfits s' (List.mem_append_left _ hs')) hmono.1
      (Nat.lt_of_succ_lt hlen) hbefore
    have hfit := rowidsFit_run defs (Nat.lt_of_succ_lt hlen)
    rw [exec_append_singleton]
    by_cases hab : s.About seed key
    · obtain ⟨rfl, rfl⟩ := hab
      refine tiedRowsClosed_step ?_ hfit ?_ htie (hinv _ _)
      · rw [accepted_iff, valueFits_congr (exec_attrDef _ steps)]
        exact hfits s (by simp)
      · intro r hr
        obtain ⟨s', hs', -, htime⟩ := setup_exec_rows_mem (AttrTable.mem_siblings.mp hr).1
        rw [← htime]
        exact hmono.2.2 s'.time (List.mem_map_of_mem hs') s.time (by simp)
    · rw [siblings_other hfit hab]
      exact hinv seed key

/-- A truncating step that is not older than any row of its seed and key shows its
own value only, from its time on. -/
theorem valuesAt_of_truncates {db : AttrIndexDb} {s : MergeStep} (h : Accepted db s)
    (hfit : RowidsFit db) (hle : ∀ r ∈ db.attr.siblings s.seed s.key, r.validFrom ≤ s.time)
    (hinv : TiedRowsClosed (db.attr.siblings s.seed s.key)) (htr : s.op.truncates = true)
    {t' : Int} (ht' : s.time ≤ t') :
    valuesAt (nextDb db s) s.seed s.key t' = {v | s.op.val = some v} := by
  obtain ⟨n, hfrom, hval, -, huntil, hsib⟩ := siblings_latest h hfit hle
  rw [valuesAt_eq_visible]
  unfold timeline
  rw [hsib]
  apply Set.Subset.antisymm
  · rintro v ⟨sp, hsp, hv, -, hstop⟩
    obtain ⟨r', hr', rfl⟩ := List.mem_map.mp hsp
    rcases List.mem_append.mp hr' with hr' | hr'
    · obtain ⟨r, hr, rfl⟩ := List.mem_map.mp hr'
      have hsome : r.valStr.isSome := by
        rw [← afterScan_valStr db s r]
        exact Option.isSome_of_eq_some hv
      obtain ⟨e, he, u', hu', hue⟩ := closedWithin_of_truncates hinv hle htr hfrom hr hsome
      have hu : u'.validFrom ≤ s.time := by
        rcases List.mem_append.mp hu' with hu' | hu'
        · obtain ⟨u, hu, rfl⟩ := List.mem_map.mp hu'
          rw [afterScan_validFrom]
          exact hle u hu
        · rw [List.mem_singleton.mp hu', hfrom]
      have hlt := hstop e he
      omega
    · rw [List.mem_singleton.mp hr'] at hv
      exact hval ▸ hv
  · intro v hv
    refine ⟨n.toSpan, List.mem_map_of_mem (by simp), hval.trans hv, ?_, ?_⟩
    · show n.validFrom ≤ t'
      omega
    · intro e he
      have he' : n.validUntil = some e := he
      rw [huntil] at he'
      exact nomatch he'

end TiesLemmas

open TiesLemmas

/-- After a chronological run in which no value was merged at the time of a
truncating row, `=v` leaves exactly `v` and `-` leaves nothing, whatever order rows
with equal times come in. -/
theorem truncation_complete {defs : List AttrDef} {steps : List MergeStep}
    (hfits : ∀ s ∈ steps, valueFits (setupAttrIndexDb defs) s.key s.op.val = true)
    (hmono : (steps.map (·.time)).Pairwise (· ≤ ·)) (hlen : steps.length < 2 ^ 31)
    (hties : Along nextDb (fun db s => ¬ TiesWithTrunc db s) (setupAttrIndexDb defs) steps)
    {s : MergeStep} (hs : valueFits (setupAttrIndexDb defs) s.key s.op.val = true)
    (hle : ∀ r ∈ (exec nextDb (setupAttrIndexDb defs) steps).attr.siblings s.seed s.key,
      r.validFrom ≤ s.time) {t' : Int} (ht' : s.time ≤ t') :
    (∀ v, s.op = .assign v →
      valuesAt (nextDb (exec nextDb (setupAttrIndexDb defs) steps) s) s.seed s.key t' = {v}) ∧
    (s.op = .clear →
      valuesAt (nextDb (exec nextDb (setupAttrIndexDb defs) steps) s) s.seed s.key t' = ∅) := by
  have hacc : Accepted (exec nextDb (setupAttrIndexDb defs) steps) s := by
    rw [accepted_iff, valueFits_congr (exec_attrDef _ steps)]
    exact hs
  have hinv := tiedRowsClosed_run hfits hmono hlen hties s.seed s.key
  have hvalues := fun htr =>
    valuesAt_of_truncates hacc (rowidsFit_run defs hlen) hle hinv htr ht'
  constructor
  · intro v hop
    rw [hvalues (by rw [hop]; rfl), hop]
    ext w
    exact ⟨fun h => (Option.some.inj h).symm, fun h => congrArg some (Eq.symm h)⟩
  · intro hop
    rw [hvalues (by rw [hop]; rfl), hop]
    ext w
    exact ⟨fun h => absurd h (Option.some_ne_none w).symm, fun h => absurd h (Set.notMem_empty w)⟩

theorem truncation_complete_four :
    (∀ v, (sampleStep 2 (.assign "c")).op = .assign v →
      valuesAt (nextDb (exec nextDb (setupAttrIndexDb []) [sampleStep 1 (.add "a"),
        sampleStep 1 (.add "b"), sampleStep 1 .clear, sampleStep 2 (.add "d")])
        (sampleStep 2 (.assign "c"))) (Vector.replicate _ 0) "k" 2 = {v}) ∧
    ((sampleStep 2 (.assign "c")).op = .clear →
      valuesAt (nextDb (exec nextDb (setupAttrIndexDb []) [sampleStep 1 (.add "a"),
        sampleStep 1 (.add "b"), sampleStep 1 .clear, sampleStep 2 (.add "d")])
        (sampleStep 2 (.assign "c"))) (Vector.replicate _ 0) "k" 2 = ∅) :=
  truncation_complete (by decide) (by decide) (by decide) (by decide) (by decide) (by decide)
    (by decide)

/-- `+b` is merged at the time of `=a` and stays visible behind it when `=c` comes. -/
theorem truncation_incomplete :
    let steps := [sampleStep 1 (.assign "a"), sampleStep 1 (.add "b")]
    (steps.map (·.time)).Pairwise (· ≤ ·) ∧
      valuesAt (nextDb (exec nextDb (setupAttrIndexDb []) steps) (sampleStep 2 (.assign "c")))
        (Vector.replicate _ 0) "k" 2 ≠ {"c"} := by
  refine ⟨by decide, fun h => ?_⟩
  have hmem : ("k", "b") ∈ getSeedAttrs (nextDb (exec nextDb (setupAttrIndexDb [])
      [sampleStep 1 (.assign "a"), sampleStep 1 (.add "b")]) (sampleStep 2 (.assign "c"))) 2
      (Vector.replicate _ 0) := by decide
  have hc := h.subset hmem
  exact absurd hc (by decide)

end Everarch
