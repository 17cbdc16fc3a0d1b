import Everarch.AttrIndex.Merge

/-!
# Merges and the history of an attribute

The rows of a seed and key are a timeline (`timeline`), a merge is a merge of
timelines (`timeline_merge`). Two things can go wrong in the scan of the future
siblings, and both are conditions on the table before the merge:

* The scan runs from the youngest row down, so `=v` and `+v` are cut off by the
  *youngest* later truncating row. That is the right one if there is at most one
  (`AtMostOneLaterTrunc`).
* The scan of `+v` compares the value with a column of the past statement, which
  is a rowid (`MisreadsRowid`).

A third one is in the scan of the past siblings: rowids pass through an `int`, so
a table with `2^31` rows or more is not closed properly.

Results, over runs of operations with pairwise distinct times:
1. `merge_order_irrelevant`: two orders of the same operations give the same
   values at every time.
2. `chronological_merge_eq_replay`: chronological merges give the fold of the
   operations.
3. `merge_keeps_past`: a merge at `t` changes no value before `t`, and nothing of
   other seeds and keys.
4. `rm_value_keeps_removed_value`: `-v` leaves `v` visible.
-/

namespace Everarch

open MergeLemmas

/-! ## The rows of a seed and key as a timeline -/

/-- The span of a row. -/
def AttrRow.toSpan (r : AttrRow) : Span Int String :=
  ⟨⟨r.validFrom, r.valStr, r.trunc⟩, r.validUntil⟩

/-- The timeline of a seed and key. -/
def timeline (db : AttrIndexDb) (seed : ClaimRef) (key : String) : List (Span Int String) :=
  (db.attr.siblings seed key).map (·.toSpan)

/-- The operation as an event of the history. -/
def MergeStep.event (s : MergeStep) : Int × SetOp String :=
  (s.time, s.op)

/-- The step is about the seed and key. -/
def MergeStep.About (s : MergeStep) (seed : ClaimRef) (key : String) : Prop :=
  s.seed = seed ∧ s.key = key

instance (s : MergeStep) (seed : ClaimRef) (key : String) : Decidable (s.About seed key) :=
  inferInstanceAs (Decidable (_ ∧ _))

/-- No row of the step's seed and key has its time. -/
def Fresh (db : AttrIndexDb) (s : MergeStep) : Prop :=
  ∀ r ∈ db.attr.siblings s.seed s.key, r.validFrom ≠ s.time

/-- The rowids of the table fit into an `int`. -/
def RowidsFit (db : AttrIndexDb) : Prop :=
  db.attr.rows.length < 2 ^ 31

/-- At most one truncating row of the step's seed and key is younger than it. -/
def AtMostOneLaterTrunc (db : AttrIndexDb) (s : MergeStep) : Prop :=
  ∀ u ∈ db.attr.siblings s.seed s.key, ∀ w ∈ db.attr.siblings s.seed s.key,
    u.trunc = true → w.trunc = true → s.time < u.validFrom → s.time < w.validFrom →
      u.validFrom = w.validFrom

/-- The step is a `+v`, the youngest truncating row up to its time has a rowid
that reads `v`, and the youngest row after its time does not truncate. -/
def MisreadsRowid (db : AttrIndexDb) (s : MergeStep) : Prop :=
  ∃ c ∈ db.attr.siblings s.seed s.key, s.op = .add (toString c.rowid) ∧ c.trunc = true ∧
    c.validFrom ≤ s.time ∧
    (∀ u ∈ db.attr.siblings s.seed s.key, u.trunc = true → u.validFrom ≤ s.time →
      u.validFrom ≤ c.validFrom) ∧
    ∃ f ∈ db.attr.siblings s.seed s.key, s.time < f.validFrom ∧ f.trunc = false ∧
      ∀ u ∈ db.attr.siblings s.seed s.key, u.validFrom ≤ f.validFrom

instance (db : AttrIndexDb) : Decidable (RowidsFit db) :=
  inferInstanceAs (Decidable (_ < _))

instance (db : AttrIndexDb) (s : MergeStep) : Decidable (AtMostOneLaterTrunc db s) :=
  inferInstanceAs (Decidable (∀ u ∈ db.attr.siblings s.seed s.key, _))

instance (db : AttrIndexDb) (s : MergeStep) : Decidable (MisreadsRowid db s) :=
  inferInstanceAs (Decidable (∃ c ∈ db.attr.siblings s.seed s.key, _))

/-- The future scan of the step ends at the next truncating row, if at all. -/
def EndsRight (db : AttrIndexDb) (s : MergeStep) : Prop :=
  s.op = .clear ∨ (AtMostOneLaterTrunc db s ∧ ¬ MisreadsRowid db s)

instance (db : AttrIndexDb) (s : MergeStep) : Decidable (EndsRight db s) :=
  inferInstanceAs (Decidable (_ ∨ _))

namespace HistoryLemmas

theorem valuesAt_eq_visible (db : AttrIndexDb) (seed : ClaimRef) (key : String) (t : Int) :
    valuesAt db seed key t = visible (timeline db seed key) t := by
  apply Set.Subset.antisymm
  · intro v hv
    obtain ⟨r, hr, h⟩ := List.mem_filterMap.mp hv
    split at h
    · next hc =>
      obtain ⟨w, hw, hkw⟩ := Option.map_eq_some_iff.mp h
      obtain ⟨hkey, rfl⟩ := Prod.mk.inj hkw
      exact ⟨r.toSpan, List.mem_map_of_mem (AttrTable.mem_siblings.mpr ⟨hr, hc.1, hkey⟩), hw,
        hc.2.1, fun e he => hc.2.2 e he⟩
    · exact nomatch h
  · rintro v ⟨s, hs, hv, hst, hstop⟩
    obtain ⟨r, hr, rfl⟩ := List.mem_map.mp hs
    obtain ⟨hrow, hseed, rfl⟩ := AttrTable.mem_siblings.mp hr
    refine List.mem_filterMap.mpr ⟨r, hrow, ?_⟩
    have hvs : r.valStr = some v := hv
    rw [if_pos ⟨hseed, hst, fun e he => hstop e he⟩, hvs]
    rfl

/-- What a merge may do to the rows in any case, accepted or not. -/
theorem mergeSiblings_rows_mem {ord : RowOrder} {closes : AttrRow → Bool}
    {stops : Option AttrRow → AttrRow → Bool} {trunc : Bool} {db : AttrIndexDb} {t : Int}
    {seed : ClaimRef} {key : String} {value : Option String} {r : AttrRow}
    (h : r ∈ (mergeSiblings ord closes stops trunc db t seed key value).2.attr.rows) :
    (∃ r0 ∈ db.attr.rows, r0.seed = r.seed ∧ r0.key = r.key ∧ r0.validFrom = r.validFrom) ∨
      (r.seed = seed ∧ r.key = key ∧ r.validFrom = t) := by
  have hclose : ∀ {siblings : List AttrRow} {r : AttrRow},
      r ∈ (closePastSiblings closes t siblings db.attr).2.rows →
      ∃ r0 ∈ db.attr.rows, r0.seed = r.seed ∧ r0.key = r.key ∧ r0.validFrom = r.validFrom := by
    intro siblings r hr
    rw [closePastSiblings_rows] at hr
    obtain ⟨r0, hr0, rfl⟩ := List.mem_map.mp hr
    exact ⟨r0, hr0, by split <;> exact ⟨rfl, rfl, rfl⟩⟩
  obtain ⟨valInt, validUntil, heq⟩ := mergeSiblings_eq ord closes stops trunc db t seed key value
  rw [heq] at h
  split at h
  · rcases List.mem_append.mp h with hr | hr
    · exact .inl (hclose hr)
    · rw [List.mem_singleton.mp hr]
      exact .inr ⟨rfl, rfl, rfl⟩
  · exact .inl (hclose h)

theorem nextDb_rows_mem {db : AttrIndexDb} {s : MergeStep} {r : AttrRow}
    (h : r ∈ (nextDb db s).attr.rows) :
    (∃ r0 ∈ db.attr.rows, r0.seed = r.seed ∧ r0.key = r.key ∧ r0.validFrom = r.validFrom) ∨
      (r.seed = s.seed ∧ r.key = s.key ∧ r.validFrom = s.time) := by
  unfold nextDb at h
  rw [merge_eq] at h
  exact mergeSiblings_rows_mem h

theorem nextDb_length_le (db : AttrIndexDb) (s : MergeStep) :
    (nextDb db s).attr.rows.length ≤ db.attr.rows.length + 1 := by
  unfold nextDb
  rw [merge_eq]
  obtain ⟨valInt, validUntil, heq⟩ := mergeSiblings_eq s.ord (stepCloses s.op) (stepStops s.op)
    s.op.truncates db s.time s.seed s.key s.op.val
  rw [heq]
  split
  · show (_ ++ [_]).length ≤ _
    rw [List.length_append, closePastSiblings_rows, List.length_map, List.length_singleton]
  · show (closePastSiblings _ _ _ _).2.rows.length ≤ _
    rw [closePastSiblings_rows, List.length_map]
    exact Nat.le_succ _

/-- The test of the past loop on spans: no truncating span up to `t` is younger,
and the value passes the test of the operation. -/
def spanCloses (op : SetOp String) (spans : List (Span Int String)) (t : Int)
    (s : Span Int String) : Bool :=
  decide (s.start ≤ t ∧ ∀ u ∈ spans, u.trunc = true → u.start ≤ t → u.start ≤ s.start) &&
    match op with
    | .add v => s.val.isNone || s.val == some v
    | _ => true

/-- The span of the row that a step inserts. -/
def stepSpan (db : AttrIndexDb) (s : MergeStep) : Span Int String :=
  ⟨markOf s.event, s.stop db⟩

theorem mem_scanned_past {db : AttrIndexDb} {s : MergeStep}
    (hd : ((db.attr.siblings s.seed s.key).map (·.validFrom)).Nodup) {r : AttrRow}
    (hr : r ∈ db.attr.siblings s.seed s.key) :
    r ∈ scanned (s.past db) ↔ r.validFrom ≤ s.time ∧
      ∀ u ∈ db.attr.siblings s.seed s.key, u.trunc = true → u.validFrom ≤ s.time →
        u.validFrom ≤ r.validFrom := by
  have hsorted := s.ord.sorted
    ((db.attr.siblings s.seed s.key).filter fun r => r.validFrom ≤ s.time)
  constructor
  · intro h
    refine ⟨(AttrTable.mem_findPastSiblings.mp (scanned_subset h)).2, fun u hu htr hut => ?_⟩
    exact trunc_le_of_mem_scanned hsorted h (AttrTable.mem_findPastSiblings.mpr ⟨hu, hut⟩) htr
  · rintro ⟨hrt, hle⟩
    refine mem_scanned_of_lt hsorted (AttrTable.mem_findPastSiblings.mpr ⟨hr, hrt⟩) ?_
    intro u hu htr hne
    obtain ⟨hu, hut⟩ := AttrTable.mem_findPastSiblings.mp hu
    refine lt_of_le_of_ne (hle u hu htr hut) fun heq => hne ?_
    exact List.inj_on_of_nodup_map hd hu hr heq

theorem spanCloses_toSpan {db : AttrIndexDb} {s : MergeStep}
    (hd : ((db.attr.siblings s.seed s.key).map (·.validFrom)).Nodup) {r : AttrRow}
    (hr : r ∈ db.attr.siblings s.seed s.key) :
    spanCloses s.op (timeline db s.seed s.key) s.time r.toSpan = true ↔
      r ∈ scanned (s.past db) ∧ stepCloses s.op r = true := by
  rw [mem_scanned_past hd hr]
  unfold spanCloses timeline
  rw [Bool.and_eq_true, decide_eq_true_eq, List.forall_mem_map]
  cases s.op with
  | assign v => rfl
  | add v => rfl
  | clear => rfl

theorem siblings_nextDb {db : AttrIndexDb} (s : MergeStep) (hfit : RowidsFit db)
    (seed : ClaimRef) (key : String) :
    ∃ n : AttrRow, n.toSpan = stepSpan db s ∧
      (nextDb db s).attr.siblings seed key =
        ((db.attr.siblings seed key).map fun r =>
          if r ∈ scanned (s.past db) ∧ stepCloses s.op r = true then r.setValidUntil s.time
          else r) ++ if Accepted db s ∧ s.About seed key then [n] else [] := by
  obtain ⟨valInt, hrows⟩ := nextDb_rows s hfit
  refine ⟨⟨db.attr.rows.length + 1, s.seed, s.key, s.op.val, valInt, s.time, s.stop db,
    s.op.truncates⟩, rfl, ?_⟩
  unfold AttrTable.siblings
  rw [hrows, List.filter_append, List.filter_map]
  congr 1
  · congr 1
    refine List.filter_congr fun r _ => ?_
    simp only [Function.comp_apply]
    split <;> rfl
  · unfold MergeStep.About
    by_cases hacc : Accepted db s
    · by_cases hab : s.seed = seed ∧ s.key = key
      · simp [hacc, hab]
      · simp [hacc, hab]
    · simp [hacc]

/-- A step closes spans of its seed and key, accepted or not. -/
theorem map_closed_siblings {db : AttrIndexDb} {s : MergeStep}
    (hd : ((db.attr.siblings s.seed s.key).map (·.validFrom)).Nodup) :
    (((db.attr.siblings s.seed s.key).map fun r =>
      if r ∈ scanned (s.past db) ∧ stepCloses s.op r = true then r.setValidUntil s.time
      else r).map (·.toSpan)) = closeSpans (timeline db s.seed s.key)
        (spanCloses s.op (timeline db s.seed s.key) s.time) s.time := by
  unfold closeSpans
  show _ = ((db.attr.siblings s.seed s.key).map (·.toSpan)).map _
  rw [List.map_map, List.map_map]
  refine List.map_congr_left fun r hr => ?_
  show (if _ then _ else _ : AttrRow).toSpan = if _ then r.toSpan.closeAt s.time else r.toSpan
  have hiff := spanCloses_toSpan hd hr
  by_cases hc : r ∈ scanned (s.past db) ∧ stepCloses s.op r = true
  · rw [if_pos hc, if_pos (hiff.mpr hc)]
    rfl
  · rw [if_neg hc, if_neg fun h' => hc (hiff.mp h')]

theorem timeline_merge {db : AttrIndexDb} {s : MergeStep} (h : Accepted db s)
    (hfit : RowidsFit db) (hd : ((db.attr.siblings s.seed s.key).map (·.validFrom)).Nodup) :
    timeline (nextDb db s) s.seed s.key = mergeSpans (timeline db s.seed s.key)
      (spanCloses s.op (timeline db s.seed s.key) s.time) s.time (stepSpan db s) := by
  obtain ⟨n, hn, hsib⟩ := siblings_nextDb s hfit s.seed s.key
  unfold mergeSpans
  rw [← map_closed_siblings hd, ← hn]
  show ((nextDb db s).attr.siblings s.seed s.key).map (·.toSpan) = _
  rw [hsib, if_pos ⟨h, rfl, rfl⟩, List.map_append, List.map_singleton]

theorem timeline_refused {db : AttrIndexDb} {s : MergeStep} (h : ¬ Accepted db s)
    (hfit : RowidsFit db) (hd : ((db.attr.siblings s.seed s.key).map (·.validFrom)).Nodup) :
    timeline (nextDb db s) s.seed s.key = closeSpans (timeline db s.seed s.key)
      (spanCloses s.op (timeline db s.seed s.key) s.time) s.time := by
  obtain ⟨n, -, hsib⟩ := siblings_nextDb s hfit s.seed s.key
  rw [← map_closed_siblings hd]
  show ((nextDb db s).attr.siblings s.seed s.key).map (·.toSpan) = _
  rw [hsib, if_neg fun hc => h hc.1, List.append_nil]

/-- A step leaves the rows of other seeds and keys alone. -/
theorem siblings_other {db : AttrIndexDb} {s : MergeStep} (hfit : RowidsFit db)
    {seed : ClaimRef} {key : String} (hne : ¬ s.About seed key) :
    (nextDb db s).attr.siblings seed key = db.attr.siblings seed key := by
  obtain ⟨n, -, hsib⟩ := siblings_nextDb s hfit seed key
  rw [hsib, if_neg fun hc => hne hc.2, List.append_nil]
  refine (List.map_congr_left fun r hr => ?_).trans (List.map_id _)
  rw [if_neg]
  · rfl
  · rintro ⟨hs, -⟩
    have hmem := (AttrTable.mem_findPastSiblings.mp (scanned_subset hs)).1
    obtain ⟨-, hseed, hkey⟩ := AttrTable.mem_siblings.mp hmem
    obtain ⟨-, hseed', hkey'⟩ := AttrTable.mem_siblings.mp hr
    exact hne ⟨hseed.symm.trans hseed', hkey.symm.trans hkey'⟩

theorem timeline_other {db : AttrIndexDb} {s : MergeStep} (hfit : RowidsFit db)
    {seed : ClaimRef} {key : String} (hne : ¬ s.About seed key) :
    timeline (nextDb db s) seed key = timeline db seed key := by
  unfold timeline
  rw [siblings_other hfit hne]

theorem timeline_starts (db : AttrIndexDb) (seed : ClaimRef) (key : String) :
    (marks (timeline db seed key)).map (·.start) =
      (db.attr.siblings seed key).map (·.validFrom) := by
  unfold marks timeline
  rw [List.map_map, List.map_map]
  rfl

/-- The row that ends the future scan is a later row that passes its test. -/
theorem stop_eq_some {db : AttrIndexDb} {s : MergeStep} {e : Int} (h : s.stop db = some e) :
    ∃ f ∈ db.attr.siblings s.seed s.key, f.validFrom = e ∧ s.time < f.validFrom ∧
      (s.future db).find? (stepStops s.op ((s.past db).find? (·.trunc))) = some f := by
  obtain ⟨f, hf, rfl⟩ := Option.map_eq_some_iff.mp h
  obtain ⟨hsib, hlt⟩ := AttrTable.mem_findFutureSiblings.mp (List.mem_of_find?_eq_some hf)
  exact ⟨f, hsib, rfl, hlt, hf⟩

/-- Without a misread rowid, `=v` and `+v` are ended by a truncating row only. -/
theorem stop_trunc {db : AttrIndexDb} {s : MergeStep} {e : Int} {v : String}
    (h : s.stop db = some e) (hv : s.op.val = some v) (hmis : ¬ MisreadsRowid db s) :
    ∃ f ∈ db.attr.siblings s.seed s.key, f.trunc = true ∧ f.validFrom = e ∧ s.time < e := by
  obtain ⟨f, hf, rfl, hlt, hfind⟩ := stop_eq_some h
  refine ⟨f, hf, ?_, rfl, hlt⟩
  have hp := List.find?_some hfind
  cases hop : s.op with
  | assign w =>
    rw [hop] at hp
    exact hp
  | clear =>
    rw [hop] at hv
    exact nomatch hv
  | add w =>
    cases htr : f.trunc with
    | true => rfl
    | false =>
      rw [hop] at hp hfind
      simp only [stepStops, addStops, htr, Bool.false_or, Bool.and_eq_true, beq_iff_eq] at hp
      obtain ⟨c, hc⟩ := Option.isSome_iff_exists.mp hp.1
      have hw : toString c.rowid = w := by
        have := hp.2
        rw [hc] at this
        exact Option.some.inj this
      have hcpast := AttrTable.mem_findPastSiblings.mp (List.mem_of_find?_eq_some hc)
      refine absurd ⟨c, hcpast.1, ?_, ?_, hcpast.2, ?_, f, hf, hlt, htr, ?_⟩ hmis
      · rw [hop, hw]
      · simpa using List.find?_some hc
      · intro u hu hutr hut
        exact find?_youngest (s.ord.sorted _) hc
          (AttrTable.mem_findPastSiblings.mpr ⟨hu, hut⟩) hutr
      · intro u hu
        rcases Int.lt_or_le s.time u.validFrom with hut | hut
        · refine find?_youngest (s.ord.sorted _) hfind
            (AttrTable.mem_findFutureSiblings.mpr ⟨hu, hut⟩) ?_
          rw [hc]
          show (u.trunc || (true && (some (toString c.rowid) == some w))) = true
          rw [hw]
          simp
        · omega

theorem stop_isSome {db : AttrIndexDb} {s : MergeStep} {u : AttrRow}
    (hu : u ∈ db.attr.siblings s.seed s.key) (htr : u.trunc = true)
    (hlt : s.time < u.validFrom) : ∃ e, s.stop db = some e := by
  have hp : stepStops s.op ((s.past db).find? (·.trunc)) u = true := by
    cases s.op with
    | assign v => exact htr
    | add v => simp [stepStops, addStops, htr]
    | clear => rfl
  have hsome : ((s.future db).find? (stepStops s.op ((s.past db).find? (·.trunc)))).isSome :=
    List.find?_isSome.mpr ⟨u, AttrTable.mem_findFutureSiblings.mpr ⟨hu, hlt⟩, hp⟩
  obtain ⟨f, hf⟩ := Option.isSome_iff_exists.mp hsome
  exact ⟨f.validFrom, by simp [MergeStep.stop, hf]⟩

theorem spanCloses_scope {op : SetOp String} {spans : List (Span Int String)} {t : Int}
    {s : Span Int String} (h : spanCloses op spans t s = true) :
    s.start ≤ t ∧ Untouched (marks spans) s.start t := by
  unfold spanCloses at h
  rw [Bool.and_eq_true, decide_eq_true_eq] at h
  refine ⟨h.1.1, fun m hm htr hlt => ?_⟩
  obtain ⟨u, hu, rfl⟩ := List.mem_map.mp hm
  by_contra hle
  exact absurd (h.1.2 u hu htr (not_lt.mp hle)) (not_le.mpr hlt)

theorem spanCloses_val {op : SetOp String} {spans : List (Span Int String)} {t : Int}
    {s : Span Int String} {v : String} (h : spanCloses op spans t s = true)
    (hv : s.val = some v) : op.truncates = true ∨ op.val = some v := by
  unfold spanCloses at h
  rw [Bool.and_eq_true] at h
  cases op with
  | assign w => exact .inl rfl
  | clear => exact .inl rfl
  | add w =>
    refine .inr ?_
    have hw := h.2
    simp only [hv, Option.isNone_some, Bool.false_or, beq_iff_eq] at hw
    exact hw.symm

/-- Steps keep timelines without gaps, unless a rowid is misread. -/
theorem noGap_step {db : AttrIndexDb} {s : MergeStep} (h : Accepted db s) (hfit : RowidsFit db)
    (hd : ((db.attr.siblings s.seed s.key).map (·.validFrom)).Nodup) (hfresh : Fresh db s)
    (hmis : ¬ MisreadsRowid db s) (hg : NoGap (timeline db s.seed s.key)) :
    NoGap (timeline (nextDb db s) s.seed s.key) := by
  rw [timeline_merge h hfit hd]
  refine hg.merge (show (stepSpan db s).start = s.time from rfl) ?_ ?_ ?_
  · intro sp hsp hc _
    obtain ⟨r, hr, rfl⟩ := List.mem_map.mp hsp
    exact lt_of_le_of_ne (spanCloses_scope hc).1 (hfresh r hr)
  · intro sp _ hc v hv
    exact spanCloses_val hc hv
  · intro e v he hv
    obtain ⟨f, hf, htr, rfl, hlt⟩ := stop_trunc he hv hmis
    exact ⟨f.toSpan, List.mem_map_of_mem hf, hlt, le_refl _, .inl htr⟩

/-- Steps that end right keep timelines without overruns. -/
theorem noOverrun_step {db : AttrIndexDb} {s : MergeStep} (h : Accepted db s)
    (hfit : RowidsFit db) (hd : ((db.attr.siblings s.seed s.key).map (·.validFrom)).Nodup)
    (hends : EndsRight db s) (ho : NoOverrun (timeline db s.seed s.key)) :
    NoOverrun (timeline (nextDb db s) s.seed s.key) := by
  rw [timeline_merge h hfit hd]
  refine ho.merge (show (stepSpan db s).start = s.time from rfl) ?_ ?_ ?_
  · intro sp _ hc _
    exact (spanCloses_scope hc).2
  · intro htr sp hsp hv hlt
    by_cases hsc : ∀ u ∈ timeline db s.seed s.key, u.trunc = true → u.start ≤ s.time →
        u.start ≤ sp.start
    · refine .inl ?_
      unfold spanCloses
      rw [Bool.and_eq_true, decide_eq_true_eq]
      refine ⟨⟨le_of_lt hlt, hsc⟩, ?_⟩
      cases hop : s.op with
      | assign v => rfl
      | clear => rfl
      | add v =>
        have htr' : s.op.truncates = true := htr
        rw [hop] at htr'
        exact nomatch htr'
    · simp only [not_forall, not_le] at hsc
      obtain ⟨u, hu, hutr, hut, hsu⟩ := hsc
      obtain ⟨e, he, hle⟩ := ho sp hsp u hu hv hutr hsu
      exact .inr ⟨e, he, le_trans hle hut⟩
  · intro sp hsp hv htr hlt
    obtain ⟨u, hu, rfl⟩ := List.mem_map.mp hsp
    obtain ⟨v, hv⟩ := Option.isSome_iff_exists.mp hv
    rcases hends with hclear | ⟨hone, hmis⟩
    · have hv' : s.op.val = some v := hv
      rw [hclear] at hv'
      exact nomatch hv'
    · obtain ⟨e, he⟩ := stop_isSome hu htr hlt
      obtain ⟨f, hf, hftr, hfe, hte⟩ := stop_trunc he hv hmis
      refine ⟨e, he, le_of_eq ?_⟩
      rw [← hfe]
      exact hone f hf u hu hftr htr (hfe ▸ hte) hlt

end HistoryLemmas

end Everarch
