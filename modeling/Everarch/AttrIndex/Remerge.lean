import Everarch.AttrIndex.Runs

/-!
# Merging an operation again

`evr_reindex_failed_claim_sets` retries claim sets of which some claims may have been merged
before. An operation that is merged again closes its own row and the rows it closed the first
time, and inserts a row that ends where the scan of the future siblings says. That scan ends
at the youngest later truncating row, while the row of the first time ended at the oldest one.

* `RemergeHarmless`: the later rows do not expose the difference.

Result: `remerge_harmless_iff`, an operation of a chronological run can be merged again if and
only if it is so; `remerge_revives_value`: a replaced value comes back.
-/

namespace Everarch

open MergeLemmas HistoryLemmas RunsLemmas

/-- Every later truncating row but the youngest has the value. -/
def LaterTruncsKeep (db : AttrIndexDb) (s : MergeStep) (v : String) : Prop :=
  ∀ u ∈ db.attr.siblings s.seed s.key, ∀ w ∈ db.attr.siblings s.seed s.key,
    u.trunc = true → w.trunc = true → s.time < u.validFrom → u.validFrom < w.validFrom →
      u.valStr = some v

/-- Every later truncating row has the value, and some later row has it. -/
def LaterRowsShow (db : AttrIndexDb) (s : MergeStep) (v : String) : Prop :=
  (∀ u ∈ db.attr.siblings s.seed s.key, u.trunc = true → s.time < u.validFrom →
    u.valStr = some v) ∧
  ∃ u ∈ db.attr.siblings s.seed s.key, s.time < u.validFrom ∧ u.valStr = some v

/-- The operation removes all values, or its value is left at every time that its new row
covers. -/
def RemergeHarmless (db : AttrIndexDb) (s : MergeStep) : Prop :=
  ∀ v ∈ s.op.val, if MisreadsRowid db s then LaterRowsShow db s v else LaterTruncsKeep db s v

instance (db : AttrIndexDb) (s : MergeStep) (v : String) : Decidable (LaterTruncsKeep db s v) :=
  inferInstanceAs (Decidable (∀ u ∈ db.attr.siblings s.seed s.key, _))

instance (db : AttrIndexDb) (s : MergeStep) (v : String) : Decidable (LaterRowsShow db s v) :=
  inferInstanceAs (Decidable (_ ∧ _))

instance (db : AttrIndexDb) (s : MergeStep) : Decidable (RemergeHarmless db s) :=
  inferInstanceAs (Decidable (∀ v ∈ s.op.val, _))

namespace RemergeLemmas

variable {db : AttrIndexDb} {s : MergeStep}

/-! ## The end of the new row -/

theorem trunc_le_stop {e : Int} (h : s.stop db = some e) {u : AttrRow}
    (hu : u ∈ db.attr.siblings s.seed s.key) (htr : u.trunc = true) (hlt : s.time < u.validFrom) :
    u.validFrom ≤ e := by
  obtain ⟨f, -, rfl, -, hfind⟩ := stop_eq_some h
  refine find?_youngest (s.ord.sorted _) hfind
    (AttrTable.mem_findFutureSiblings.mpr ⟨hu, hlt⟩) ?_
  cases s.op with
  | assign v => exact htr
  | add v => simp [stepStops, addStops, htr]
  | clear => rfl

/-- A misread rowid ends the new row at the youngest row. -/
theorem stop_of_misreads (hd : ((db.attr.siblings s.seed s.key).map (·.validFrom)).Nodup)
    (h : MisreadsRowid db s) :
    ∃ f ∈ db.attr.siblings s.seed s.key, f.trunc = false ∧ s.time < f.validFrom ∧
      (∀ u ∈ db.attr.siblings s.seed s.key, u.validFrom ≤ f.validFrom) ∧
      s.stop db = some f.validFrom := by
  obtain ⟨c, hc, hop, hctr, hct, hcmax, f, hf, hft, hftr, hfmax⟩ := h
  refine ⟨f, hf, hftr, hft, hfmax, ?_⟩
  have hcurrent : (s.past db).find? (·.trunc) = some c := by
    have hsome : ((s.past db).find? (·.trunc)).isSome :=
      List.find?_isSome.mpr ⟨c, AttrTable.mem_findPastSiblings.mpr ⟨hc, hct⟩, hctr⟩
    obtain ⟨c', hc'⟩ := Option.isSome_iff_exists.mp hsome
    obtain ⟨hsib, hle⟩ := AttrTable.mem_findPastSiblings.mp (List.mem_of_find?_eq_some hc')
    have hyoung := find?_youngest (s.ord.sorted _) hc'
      (AttrTable.mem_findPastSiblings.mpr ⟨hc, hct⟩) hctr
    have hold := hcmax c' hsib (by simpa using List.find?_some hc') hle
    rw [hc', List.inj_on_of_nodup_map hd hsib hc (Int.le_antisymm hold hyoung)]
  have hstops (u : AttrRow) : stepStops s.op ((s.past db).find? (·.trunc)) u = true := by
    rw [hcurrent, hop]
    simp [stepStops, addStops]
  have hfuture : f ∈ s.future db := AttrTable.mem_findFutureSiblings.mpr ⟨hf, hft⟩
  have hsome : ((s.future db).find? (stepStops s.op ((s.past db).find? (·.trunc)))).isSome :=
    List.find?_isSome.mpr ⟨f, hfuture, hstops f⟩
  obtain ⟨f', hf'⟩ := Option.isSome_iff_exists.mp hsome
  have hsib := (AttrTable.mem_findFutureSiblings.mp (List.mem_of_find?_eq_some hf')).1
  have hyoung := find?_youngest (s.ord.sorted _) hf' hfuture (hstops f)
  rw [MergeStep.stop, hf', Option.map_some, Int.le_antisymm (hfmax f' hsib) hyoung]

/-! ## What the past scan closes -/

section Closed

variable (hd : ((db.attr.siblings s.seed s.key).map (·.validFrom)).Nodup)
  (hown : markOf s.event ∈ marks (timeline db s.seed s.key))
include hd hown

/-- Spans with the time of the operation are its own. -/
theorem eq_own {sp : Span Int String} (hsp : sp ∈ timeline db s.seed s.key)
    (htime : sp.start = s.time) : sp.toMark = markOf s.event := by
  rw [← timeline_starts] at hd
  exact List.inj_on_of_nodup_map hd (mem_marks_of_mem hsp) hown htime

/-- Closed spans have no value other than that of the operation. -/
theorem val_of_closed {sp : Span Int String} (hsp : sp ∈ timeline db s.seed s.key)
    (hc : spanCloses s.op (timeline db s.seed s.key) s.time sp = true) {w : String}
    (hw : sp.val = some w) : s.op.val = some w := by
  rcases spanCloses_val hc hw with htr | hval
  · obtain ⟨hle, hun⟩ := spanCloses_scope hc
    have htime : sp.start = s.time := by
      refine Int.le_antisymm hle (Int.not_lt.mp fun hlt => ?_)
      exact absurd (hun _ hown htr hlt) (Int.lt_irrefl _)
    rw [← hw, eq_own hd hown hsp htime]
    rfl
  · exact hval

end Closed

/-- Older spans with the value of the operation are closed, or they ended before it. -/
theorem closed_or_ended (ho : NoOverrun (timeline db s.seed s.key)) {v : String}
    (hv : s.op.val = some v) {sp : Span Int String} (hsp : sp ∈ timeline db s.seed s.key)
    (hval : sp.val = some v) (hle : sp.start ≤ s.time) :
    spanCloses s.op (timeline db s.seed s.key) s.time sp = true ∨
      ∃ e, sp.stop = some e ∧ e ≤ s.time := by
  by_cases hreach : ∀ u ∈ timeline db s.seed s.key, u.trunc = true → u.start ≤ s.time →
      u.start ≤ sp.start
  · refine .inl ?_
    unfold spanCloses
    rw [Bool.and_eq_true, decide_eq_true_eq]
    refine ⟨⟨hle, hreach⟩, ?_⟩
    cases hop : s.op with
    | assign w => rfl
    | clear => rfl
    | add w =>
      rw [hop] at hv
      have hw : w = v := Option.some.inj hv
      simp [hval, hw]
  · simp only [not_forall, not_le] at hreach
    obtain ⟨u, hu, htr, hut, hlt⟩ := hreach
    obtain ⟨e, he, hle'⟩ := ho sp hsp u hu (by simp [hval]) htr hlt
    exact .inr ⟨e, he, hle'.trans hut⟩

/-! ## What is visible afterwards -/

/-- A table whose rows show what its operations leave, with the row of the step. -/
structure Merged (db : AttrIndexDb) (s : MergeStep) : Prop where
  accepted : Accepted db s
  fit : RowidsFit db
  distinct : Distinct db
  noGap : NoGap (timeline db s.seed s.key)
  noOverrun : NoOverrun (timeline db s.seed s.key)
  own : markOf s.event ∈ marks (timeline db s.seed s.key)

/-- The step changes nothing if its new row covers a time only where its value is left, and
every time up to which nothing removes it. -/
theorem values_unchanged_iff (h : Merged db s) :
    (∀ t, valuesAt (nextDb db s) s.seed s.key t = valuesAt db s.seed s.key t) ↔
      ∀ v, s.op.val = some v → ∀ t, s.time ≤ t →
        ((stepSpan db s).Covers t ∨ BroughtSince (marks (timeline db s.seed s.key)) s.time v t ↔
          Untouched (marks (timeline db s.seed s.key)) s.time t ∨
            BroughtSince (marks (timeline db s.seed s.key)) s.time v t) := by
  have hd := h.distinct s.seed s.key
  have hafter {v : String} (hv : s.op.val = some v) {t : Int} (ht : s.time ≤ t) :
      v ∈ valuesAt (nextDb db s) s.seed s.key t ↔ (stepSpan db s).Covers t ∨
        BroughtSince (marks (timeline db s.seed s.key)) s.time v t := by
    rw [valuesAt_eq_visible, timeline_merge h.accepted h.fit hd]
    refine mem_visible_merge_iff h.noGap h.noOverrun hv (fun sp _ hc => (spanCloses_scope hc).1)
      (fun sp hsp hval hle => ?_) ht
    exact closed_or_ended h.noOverrun hv hsp hval hle
  have hbefore {v : String} (hv : s.op.val = some v) {t : Int} (ht : s.time ≤ t) :
      v ∈ valuesAt db s.seed s.key t ↔
        Untouched (marks (timeline db s.seed s.key)) s.time t ∨
          BroughtSince (marks (timeline db s.seed s.key)) s.time v t := by
    rw [valuesAt_eq_visible, visible_eq_alive h.noGap h.noOverrun]
    exact mem_alive_iff_of_mark h.own hv ht
  constructor
  · intro hsame v hv t ht
    rw [← hafter hv ht, ← hbefore hv ht, hsame t]
  · intro hiff t
    rcases Int.lt_or_le t s.time with hlt | hge
    · exact valuesAt_nextDb_of_lt h.fit h.distinct h.noGap hlt
    · ext w
      by_cases hw : s.op.val = some w
      · rw [hafter hw hge, hbefore hw hge]
        exact hiff w hw t hge
      · rw [valuesAt_eq_visible, valuesAt_eq_visible, timeline_merge h.accepted h.fit hd]
        exact mem_visible_merge_of_ne hw
          (fun sp hsp hc hval => hw (val_of_closed hd h.own hsp hc hval)) t

section Later

variable (hd : ((db.attr.siblings s.seed s.key).map (·.validFrom)).Nodup)

theorem mem_marks_timeline {m : Mark Int String} {seed : ClaimRef} {key : String} :
    m ∈ marks (timeline db seed key) ↔
      ∃ r ∈ db.attr.siblings seed key, r.toSpan.toMark = m := by
  unfold marks timeline
  rw [List.map_map, List.mem_map]
  rfl

theorem covers_stepSpan {t : Int} (ht : s.time ≤ t) :
    (stepSpan db s).Covers t ↔ ∀ e, s.stop db = some e → t < e :=
  ⟨fun h => h.2, fun h => ⟨ht, h⟩⟩

/-- A later truncating row removes the value at its time. -/
theorem touched_at {u : AttrRow} (hu : u ∈ db.attr.siblings s.seed s.key) (htr : u.trunc = true)
    {t : Int} (hlt : t < u.validFrom) :
    ¬ Untouched (marks (timeline db s.seed s.key)) t u.validFrom :=
  fun hun => absurd (hun _ (mem_marks_timeline.mpr ⟨u, hu, rfl⟩) htr hlt) (Int.lt_irrefl _)

include hd in
/-- What is left at the time of a truncating row is its own value. -/
theorem val_of_broughtSince {u : AttrRow} (hu : u ∈ db.attr.siblings s.seed s.key)
    (htr : u.trunc = true) {t : Int} {v : String}
    (h : BroughtSince (marks (timeline db s.seed s.key)) t v u.validFrom) :
    u.valStr = some v := by
  obtain ⟨m, hm, -, hle, hv, hun⟩ := h
  obtain ⟨r, hr, rfl⟩ := mem_marks_timeline.mp hm
  have htime : r.validFrom = u.validFrom :=
    Int.le_antisymm hle (Int.not_lt.mp fun hlt => touched_at hu htr hlt hun)
  rw [← List.inj_on_of_nodup_map hd hr hu htime]
  exact hv

/-- A value is left if the last truncating row before has it. -/
theorem broughtSince_of_touched {t t' : Int} {v : String}
    (h : ¬ Untouched (marks (timeline db s.seed s.key)) t t')
    (hval : ∀ u ∈ db.attr.siblings s.seed s.key, u.trunc = true → t < u.validFrom →
      u.validFrom ≤ t' → u.valStr = some v) :
    BroughtSince (marks (timeline db s.seed s.key)) t v t' := by
  obtain ⟨m, hm, htr, hlt, hle, hun⟩ := exists_last_touch h
  obtain ⟨u, hu, rfl⟩ := mem_marks_timeline.mp hm
  exact ⟨_, hm, hlt, hle, hval u hu htr hlt hle, hun⟩

include hd in
/-- The new row ends at the youngest later truncating row. -/
theorem laterTruncsKeep_iff {v : String} (hv : s.op.val = some v) (hmis : ¬ MisreadsRowid db s) :
    (∀ t, s.time ≤ t →
      ((stepSpan db s).Covers t ∨ BroughtSince (marks (timeline db s.seed s.key)) s.time v t ↔
        Untouched (marks (timeline db s.seed s.key)) s.time t ∨
          BroughtSince (marks (timeline db s.seed s.key)) s.time v t)) ↔
      LaterTruncsKeep db s v := by
  constructor
  · intro h u hu w hw hutr hwtr hlt hlt'
    have hcovers : (stepSpan db s).Covers u.validFrom :=
      (covers_stepSpan (Int.le_of_lt hlt)).mpr fun e he =>
        Int.lt_of_lt_of_le hlt' (trunc_le_stop he hw hwtr (Int.lt_trans hlt hlt'))
    rcases (h u.validFrom (Int.le_of_lt hlt)).mp (.inl hcovers) with hun | hbrought
    · exact absurd hun (touched_at hu hutr hlt)
    · exact val_of_broughtSince hd hu hutr hbrought
  · intro h t ht
    rw [covers_stepSpan ht]
    constructor
    · rintro (hcovers | hbrought)
      · by_cases hun : Untouched (marks (timeline db s.seed s.key)) s.time t
        · exact .inl hun
        · refine .inr (broughtSince_of_touched hun fun u hu htr hlt hle => ?_)
          obtain ⟨e, he⟩ := stop_isSome hu htr hlt
          obtain ⟨f, hf, hftr, rfl, -⟩ := stop_trunc he hv hmis
          exact h u hu f hf htr hftr hlt (Int.lt_of_le_of_lt hle (hcovers _ he))
      · exact .inr hbrought
    · rintro (hun | hbrought)
      · refine .inl fun e he => ?_
        obtain ⟨f, hf, htr, rfl, hlt⟩ := stop_trunc he hv hmis
        exact hun _ (mem_marks_timeline.mpr ⟨f, hf, rfl⟩) htr hlt
      · exact .inr hbrought

include hd in
/-- The new row ends at the youngest row, which does not truncate. -/
theorem laterRowsShow_iff {v : String} (hmis : MisreadsRowid db s) :
    (∀ t, s.time ≤ t →
      ((stepSpan db s).Covers t ∨ BroughtSince (marks (timeline db s.seed s.key)) s.time v t ↔
        Untouched (marks (timeline db s.seed s.key)) s.time t ∨
          BroughtSince (marks (timeline db s.seed s.key)) s.time v t)) ↔
      LaterRowsShow db s v := by
  obtain ⟨f, hf, hftr, hft, hfmax, hstop⟩ := stop_of_misreads hd hmis
  have hcovers {t : Int} (ht : s.time ≤ t) : (stepSpan db s).Covers t ↔ t < f.validFrom := by
    rw [covers_stepSpan ht, hstop]
    exact ⟨fun h => h _ rfl, fun h e he => Option.some.inj he ▸ h⟩
  constructor
  · intro h
    have htruncs (u : AttrRow) (hu : u ∈ db.attr.siblings s.seed s.key) (htr : u.trunc = true)
        (hlt : s.time < u.validFrom) : u.valStr = some v := by
      have hne : u.validFrom ≠ f.validFrom := by
        intro heq
        rw [List.inj_on_of_nodup_map hd hu hf heq, hftr] at htr
        cases htr
      have hshown := (hcovers (Int.le_of_lt hlt)).mpr (lt_of_le_of_ne (hfmax u hu) hne)
      rcases (h u.validFrom (Int.le_of_lt hlt)).mp (.inl hshown) with hun | hbrought
      · exact absurd hun (touched_at hu htr hlt)
      · exact val_of_broughtSince hd hu htr hbrought
    refine ⟨htruncs, ?_⟩
    by_cases hun : Untouched (marks (timeline db s.seed s.key)) s.time f.validFrom
    -- nothing removes the value, so that some row must show it when the new one ends
    · rcases (h f.validFrom (Int.le_of_lt hft)).mpr (.inl hun) with hshown | hbrought
      · exact absurd ((hcovers (Int.le_of_lt hft)).mp hshown) (Int.lt_irrefl _)
      · obtain ⟨m, hm, hlt, -, hv, -⟩ := hbrought
        obtain ⟨u, hu, rfl⟩ := mem_marks_timeline.mp hm
        exact ⟨u, hu, hlt, hv⟩
    · obtain ⟨m, hm, htr, hlt, -, -⟩ := exists_last_touch hun
      obtain ⟨u, hu, rfl⟩ := mem_marks_timeline.mp hm
      exact ⟨u, hu, hlt, htruncs u hu htr hlt⟩
  · rintro ⟨htruncs, u, hu, hlt, hv⟩ t ht
    rw [hcovers ht]
    constructor
    · rintro (hshown | hbrought)
      · by_cases hun : Untouched (marks (timeline db s.seed s.key)) s.time t
        · exact .inl hun
        · exact .inr (broughtSince_of_touched hun fun w hw htr hlt' _ => htruncs w hw htr hlt')
      · exact .inr hbrought
    · rintro (hun | hbrought)
      · rcases Int.lt_or_le t f.validFrom with hshown | hend
        · exact .inl hshown
        · exact .inr ⟨_, mem_marks_timeline.mpr ⟨u, hu, rfl⟩, hlt, (hfmax u hu).trans hend, hv,
            hun.mono (Int.le_of_lt hlt)⟩
      · exact .inr hbrought

end Later

theorem remerge_iff (h : Merged db s) :
    (∀ t, valuesAt (nextDb db s) s.seed s.key t = valuesAt db s.seed s.key t) ↔
      RemergeHarmless db s := by
  have hd := h.distinct s.seed s.key
  rw [values_unchanged_iff h]
  refine forall_congr' fun v => forall_congr' fun hv => ?_
  by_cases hmis : MisreadsRowid db s
  · rw [if_pos hmis]
    exact laterRowsShow_iff hd hmis
  · rw [if_neg hmis]
    exact laterTruncsKeep_iff hd hv hmis

/-- The table of a chronological run. -/
theorem merged_run {defs : List AttrDef} {steps : List MergeStep}
    (hfits : ∀ s ∈ steps, valueFits (setupAttrIndexDb defs) s.key s.op.val = true)
    (hinc : (steps.map (·.time)).Pairwise (· < ·)) (hlen : steps.length < 2 ^ 31) {s : MergeStep}
    (hs : s ∈ steps) (ord : RowOrder) :
    Merged (exec nextDb (setupAttrIndexDb defs) steps) { s with ord := ord } := by
  have hreg := regular_run hfits (hinc.imp Int.ne_of_lt) (Nat.le_of_lt hlen)
  have hends : Along nextDb EndsRight (setupAttrIndexDb defs) steps := endsRight_run hinc
  have hmis := hends.imp fun _ _ he => not_misreads_of_endsRight he
  refine ⟨?_, ?_, distinct_run hreg, noGap_run hreg hmis _ _, noOverrun_run hreg hends _ _, ?_⟩
  · rw [accepted_iff, valueFits_congr (exec_attrDef _ steps)]
    exact hfits s hs
  · unfold RowidsFit
    rw [exec_length_eq hreg]
    exact hlen
  · rw [marks_run hreg]
    refine List.mem_map.mpr ⟨s, List.mem_filter.mpr ⟨hs, ?_⟩, rfl⟩
    exact decide_eq_true ⟨rfl, rfl⟩

end RemergeLemmas

open RemergeLemmas

/-- Merging an operation of a chronological run again leaves all values of every seed and key
alone, if and only if the rows that came after it do not expose the end of its new row. -/
theorem remerge_harmless_iff {defs : List AttrDef} {steps : List MergeStep}
    (hfits : ∀ s ∈ steps, valueFits (setupAttrIndexDb defs) s.key s.op.val = true)
    (hinc : (steps.map (·.time)).Pairwise (· < ·)) (hlen : steps.length < 2 ^ 31) {s : MergeStep}
    (hs : s ∈ steps) (ord : RowOrder) :
    (∀ seed key t, valuesAt (nextDb (exec nextDb (setupAttrIndexDb defs) steps)
        { s with ord := ord }) seed key t =
      valuesAt (exec nextDb (setupAttrIndexDb defs) steps) seed key t) ↔
      RemergeHarmless (exec nextDb (setupAttrIndexDb defs) steps) s := by
  have hmerged := merged_run hfits hinc hlen hs ord
  have hiff : (∀ t, valuesAt (nextDb (exec nextDb (setupAttrIndexDb defs) steps)
        { s with ord := ord }) s.seed s.key t =
      valuesAt (exec nextDb (setupAttrIndexDb defs) steps) s.seed s.key t) ↔
      RemergeHarmless (exec nextDb (setupAttrIndexDb defs) steps) s := remerge_iff hmerged
  rw [← hiff]
  constructor
  · exact fun h t => h s.seed s.key t
  · intro h seed key t
    by_cases hab : ({ s with ord := ord } : MergeStep).About seed key
    · obtain ⟨rfl, rfl⟩ := hab
      exact h t
    · rw [valuesAt_eq_visible, valuesAt_eq_visible, timeline_other hmerged.fit hab]

/-- A value that is added, and assigned before everything is removed. -/
def addThenAssign : List MergeStep :=
  [sampleStep 1 (.assign "a"), sampleStep 2 (.add "b"), sampleStep 3 (.assign "b"),
    sampleStep 4 .clear]

theorem remerge_harmless_iff_add :
    RemergeHarmless (exec nextDb (setupAttrIndexDb []) addThenAssign) (sampleStep 2 (.add "b")) ∧
      ∀ seed key t, valuesAt (nextDb (exec nextDb (setupAttrIndexDb []) addThenAssign)
          (sampleStep 2 (.add "b"))) seed key t =
        valuesAt (exec nextDb (setupAttrIndexDb []) addThenAssign) seed key t := by
  have hharmless : RemergeHarmless (exec nextDb (setupAttrIndexDb []) addThenAssign)
      (sampleStep 2 (.add "b")) := by decide
  exact ⟨hharmless, (remerge_harmless_iff (by decide) (by decide) (by decide)
    (List.mem_cons_of_mem _ List.mem_cons_self) .byRowid).mpr hharmless⟩

/-- The value that was replaced first comes back until the last replace. -/
theorem remerge_revives_value :
    let steps := [sampleStep 1 (.assign "a"), sampleStep 2 (.assign "b"), sampleStep 3 (.assign "c")]
    (steps.map (·.time)).Pairwise (· < ·) ∧ sampleStep 1 (.assign "a") ∈ steps ∧
      valuesAt (nextDb (exec nextDb (setupAttrIndexDb []) steps) (sampleStep 1 (.assign "a")))
          (Vector.replicate _ 0) "k" 2 ≠
        valuesAt (exec nextDb (setupAttrIndexDb []) steps) (Vector.replicate _ 0) "k" 2 := by
  refine ⟨by decide, List.mem_cons_self, fun h => ?_⟩
  have hmem : ("k", "a") ∈ getSeedAttrs (nextDb (exec nextDb (setupAttrIndexDb [])
      [sampleStep 1 (.assign "a"), sampleStep 2 (.assign "b"), sampleStep 3 (.assign "c")])
      (sampleStep 1 (.assign "a"))) 2 (Vector.replicate _ 0) := by decide
  have hno : ("k", "a") ∉ getSeedAttrs (exec nextDb (setupAttrIndexDb [])
      [sampleStep 1 (.assign "a"), sampleStep 2 (.assign "b"), sampleStep 3 (.assign "c")]) 2
      (Vector.replicate _ 0) := by decide
  exact hno (h.subset hmem)

end Everarch
