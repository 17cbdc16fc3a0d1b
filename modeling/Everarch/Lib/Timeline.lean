import Mathlib.Data.List.Basic
import Mathlib.Data.List.Induction
import Mathlib.Data.Set.Insert
import Mathlib.Order.Lattice

/-!
# Timelines: validity spans of set-valued histories

A history is a list of operations on a set of values, each with a time: assign
one value, add one value, clear. A timeline stores such a history as spans: one
span per operation with the time it starts and the time its value stops to be
visible. This file says what a timeline must satisfy so that the values visible
at a time are those the history gives, and what one merge of a further operation
keeps. Times are any linear order, values any type.

* `Span`, `visible`: the spans and the values they show at a time.
* `alive`: the values that are left at a time when every truncating mark removes
  all older ones. It does not depend on the order in which marks were merged.
* `NoGap`, `NoOverrun`: the two halves of a faithful timeline.
* `alive_subset_visible`, `visible_subset_alive`: what each half gives.
* `NoGap.merge`, `NoOverrun.merge`: one merge keeps them.
* `visible_close_of_lt`, `visible_merge_of_lt`: a merge at `t` leaves the values
  before `t` alone.
* `mem_visible_merge_iff`: what a merge at `t` does to its own value from `t` on.
* `shownOnce_merge_iff`: when a merge makes no span reach another one of its value.
* `replay_eq_alive`: on a chronological history `alive` is the fold of the
  operations.
-/

namespace Everarch

/-! ## Operations and their chronological meaning -/

/-- An operation on a set of values. -/
inductive SetOp (V : Type) where
  | assign (v : V)
  | add (v : V)
  | clear
deriving DecidableEq, Repr

/-- The set after the operation. -/
def SetOp.apply {V : Type} : SetOp V → Set V → Set V
  | .assign v, _ => {v}
  | .add v, s => insert v s
  | .clear, _ => ∅

/-- The value the operation brings in. -/
def SetOp.val {V : Type} : SetOp V → Option V
  | .assign v => some v
  | .add v => some v
  | .clear => none

/-- The operation removes every older value. -/
def SetOp.truncates {V : Type} : SetOp V → Bool
  | .assign _ => true
  | .add _ => false
  | .clear => true

/-- The fold of the operations with a time up to `t` over the empty set, in list
order. -/
def replay {T V : Type} [LinearOrder T] (history : List (T × SetOp V)) (t : T) : Set V :=
  (history.filter (fun e => e.1 ≤ t)).foldl (fun s e => e.2.apply s) ∅

/-! ## Marks and spans -/

/-- What an operation leaves in a timeline whatever is merged later. -/
structure Mark (T V : Type) where
  start : T
  val : Option V
  trunc : Bool
deriving DecidableEq, Repr

/-- A mark with the time at which its value stops to be visible. -/
structure Span (T V : Type) extends Mark T V where
  stop : Option T
deriving DecidableEq, Repr

/-- The mark of an operation. -/
def markOf {T V : Type} (e : T × SetOp V) : Mark T V :=
  ⟨e.1, e.2.val, e.2.truncates⟩

/-- The marks of a timeline. -/
def marks {T V : Type} (spans : List (Span T V)) : List (Mark T V) :=
  spans.map (·.toMark)

theorem mem_marks_of_mem {T V : Type} {spans : List (Span T V)} {s : Span T V}
    (h : s ∈ spans) : s.toMark ∈ marks spans :=
  List.mem_map_of_mem h

section Visible

variable {T V : Type} [LinearOrder T]

/-- The span shows its value at `t`. -/
def Span.Covers (s : Span T V) (t : T) : Prop :=
  s.start ≤ t ∧ ∀ e, s.stop = some e → t < e

/-- The values visible at `t`. -/
def visible (spans : List (Span T V)) (t : T) : Set V :=
  {v | ∃ s ∈ spans, s.val = some v ∧ s.Covers t}

/-- No truncating mark lies in `(s, t]`. -/
def Untouched (marks : List (Mark T V)) (s t : T) : Prop :=
  ∀ u ∈ marks, u.trunc = true → s < u.start → t < u.start

/-- The values brought in up to `t` and not removed by a later mark up to `t`. -/
def alive (marks : List (Mark T V)) (t : T) : Set V :=
  {v | ∃ m ∈ marks, m.val = some v ∧ m.start ≤ t ∧ Untouched marks m.start t}

/-- A value only stops to be visible where it is removed or brought in again. -/
def NoGap (spans : List (Span T V)) : Prop :=
  ∀ s ∈ spans, ∀ e v, s.stop = some e → s.val = some v →
    ∃ u ∈ spans, s.start < u.start ∧ u.start ≤ e ∧ (u.trunc = true ∨ u.val = some v)

/-- No value stays visible past a truncating mark younger than it. -/
def NoOverrun (spans : List (Span T V)) : Prop :=
  ∀ s ∈ spans, ∀ u ∈ spans, s.val.isSome → u.trunc = true → s.start < u.start →
    ∃ e, s.stop = some e ∧ e ≤ u.start

theorem Untouched.mono {ms : List (Mark T V)} {s s' t : T} (h : Untouched ms s t)
    (hs : s ≤ s') : Untouched ms s' t :=
  fun u hu ht hlt => h u hu ht (lt_of_le_of_lt hs hlt)

theorem Untouched.of_le {ms : List (Mark T V)} {s t t' : T} (h : Untouched ms s t)
    (ht : t' ≤ t) : Untouched ms s t' :=
  fun u hu hu' hlt => lt_of_le_of_lt ht (h u hu hu' hlt)

theorem alive_eq_of_mem_iff {ms ms' : List (Mark T V)} (h : ∀ m, m ∈ ms ↔ m ∈ ms') (t : T) :
    alive ms t = alive ms' t := by
  ext v
  simp only [alive, Untouched, Set.mem_ofPred_eq, h]

/-- A value that was not removed is shown by a span that is not older. The induction is on
the number of spans that start after `s`: where `s` stops early, `NoGap` gives a younger span
with the same value. -/
theorem NoGap.exists_covers {spans : List (Span T V)} (h : NoGap spans) {s : Span T V} {v : V}
    {t : T} (hs : s ∈ spans) (hv : s.val = some v) (hst : s.start ≤ t)
    (hun : Untouched (marks spans) s.start t) :
    ∃ u ∈ spans, s.start ≤ u.start ∧ u.val = some v ∧ u.Covers t := by
  induction hn : (spans.filter (fun u => s.start < u.start)).length using Nat.strong_induction_on
    generalizing s with
  | _ n ih =>
    by_cases hc : s.Covers t
    · exact ⟨s, hs, le_refl _, hv, hc⟩
    · obtain ⟨e, he, het⟩ : ∃ e, s.stop = some e ∧ e ≤ t := by
        by_contra hno
        refine hc ⟨hst, fun e he => ?_⟩
        by_contra hlt
        exact hno ⟨e, he, not_lt.mp hlt⟩
      obtain ⟨u, hu, hsu, hue, hor⟩ := h s hs e v he hv
      have hut : u.start ≤ t := le_trans hue het
      rcases hor with htr | huv
      · exact absurd (hun _ (mem_marks_of_mem hu) htr hsu) (not_lt.mpr hut)
      · have hsub : (spans.filter (fun w => u.start < w.start)).Sublist
            (spans.filter (fun w => s.start < w.start)) := by
          refine List.monotone_filter_right _ fun w hw => ?_
          simp only [decide_eq_true_eq] at hw ⊢
          exact lt_trans hsu hw
        have hfewer : (spans.filter (fun w => u.start < w.start)).length < n := by
          rw [← hn]
          refine lt_of_le_of_ne hsub.length_le fun heq => ?_
          have hmem : u ∈ spans.filter (fun w => u.start < w.start) := by
            rw [hsub.eq_of_length heq]
            simp [hu, hsu]
          simp at hmem
        obtain ⟨w, hw, huw, hwv, hcovers⟩ :=
          ih _ hfewer hu huv hut (hun.mono (le_of_lt hsu)) rfl
        exact ⟨w, hw, le_trans (le_of_lt hsu) huw, hwv, hcovers⟩

theorem NoGap.mem_visible {spans : List (Span T V)} (h : NoGap spans) {s : Span T V} {v : V}
    {t : T} (hs : s ∈ spans) (hv : s.val = some v) (hst : s.start ≤ t)
    (hun : Untouched (marks spans) s.start t) : v ∈ visible spans t := by
  obtain ⟨u, hu, -, huv, hcovers⟩ := h.exists_covers hs hv hst hun
  exact ⟨u, hu, huv, hcovers⟩

/-- The youngest of the truncating marks in `(s, t]`. -/
theorem exists_last_touch {ms : List (Mark T V)} {s t : T} (h : ¬ Untouched ms s t) :
    ∃ u ∈ ms, u.trunc = true ∧ s < u.start ∧ u.start ≤ t ∧ Untouched ms u.start t := by
  induction ms with
  | nil => exact absurd (fun u hu => absurd hu List.not_mem_nil) h
  | cons m ms ih =>
    by_cases hm : m.trunc = true ∧ s < m.start ∧ m.start ≤ t
    · by_cases hrest : Untouched ms m.start t
      · refine ⟨m, List.mem_cons_self, hm.1, hm.2.1, hm.2.2, fun u hu htr hlt => ?_⟩
        rcases List.mem_cons.mp hu with rfl | hu
        · exact absurd hlt (lt_irrefl _)
        · exact hrest u hu htr hlt
      · have htouched : ¬ Untouched ms s t := fun hs => hrest (hs.mono (le_of_lt hm.2.1))
        obtain ⟨u, hu, htr, hsu, hut, hun⟩ := ih htouched
        refine ⟨u, List.mem_cons_of_mem _ hu, htr, hsu, hut, fun w hw hwtr hlt => ?_⟩
        rcases List.mem_cons.mp hw with rfl | hw
        -- the first mark is not younger, as something touches the time behind it
        · exact absurd (hun.mono (le_of_lt hlt)) hrest
        · exact hun w hw hwtr hlt
    · have htouched : ¬ Untouched ms s t := by
        intro hs
        refine h fun u hu htr hlt => ?_
        rcases List.mem_cons.mp hu with rfl | hu
        · exact not_le.mp fun hle => hm ⟨htr, hlt, hle⟩
        · exact hs u hu htr hlt
      obtain ⟨u, hu, htr, hsu, hut, hun⟩ := ih htouched
      refine ⟨u, List.mem_cons_of_mem _ hu, htr, hsu, hut, fun w hw hwtr hlt => ?_⟩
      rcases List.mem_cons.mp hw with rfl | hw
      · exact not_le.mp fun hle => hm ⟨hwtr, lt_trans hsu hlt, hle⟩
      · exact hun w hw hwtr hlt

theorem alive_subset_visible {spans : List (Span T V)} (h : NoGap spans) (t : T) :
    alive (marks spans) t ⊆ visible spans t := by
  rintro v ⟨m, hm, hv, hmt, hun⟩
  obtain ⟨s, hs, rfl⟩ := List.mem_map.mp hm
  exact h.mem_visible hs hv hmt hun

theorem visible_subset_alive {spans : List (Span T V)} (h : NoOverrun spans) (t : T) :
    visible spans t ⊆ alive (marks spans) t := by
  rintro v ⟨s, hs, hv, hst, hstop⟩
  refine ⟨s.toMark, mem_marks_of_mem hs, hv, hst, ?_⟩
  intro m hm htr hlt
  obtain ⟨u, hu, rfl⟩ := List.mem_map.mp hm
  obtain ⟨e, he, hle⟩ := h s hs u hu (by simp [hv]) htr hlt
  exact lt_of_lt_of_le (hstop e he) hle

/-- A timeline without gaps and overruns shows exactly the values of its history. -/
theorem visible_eq_alive {spans : List (Span T V)} (hg : NoGap spans) (ho : NoOverrun spans)
    (t : T) : visible spans t = alive (marks spans) t :=
  Set.Subset.antisymm (visible_subset_alive ho t) (alive_subset_visible hg t)

end Visible

/-! ## Merging one operation -/

section Merge

variable {T V : Type}

/-- The span with its value ended at `t`. -/
def Span.closeAt (s : Span T V) (t : T) : Span T V :=
  { s with stop := some t }

/-- The spans that `closes` selects end at `t`. -/
def closeSpans (spans : List (Span T V)) (closes : Span T V → Bool) (t : T) :
    List (Span T V) :=
  spans.map fun s => if closes s then s.closeAt t else s

/-- A merge at `t` closes spans and adds the span `n` of the merged operation. -/
def mergeSpans (spans : List (Span T V)) (closes : Span T V → Bool) (t : T) (n : Span T V) :
    List (Span T V) :=
  closeSpans spans closes t ++ [n]

variable {spans : List (Span T V)} {closes : Span T V → Bool} {t : T} {n : Span T V}

theorem mem_mergeSpans {s' : Span T V} :
    s' ∈ mergeSpans spans closes t n ↔
      (∃ s ∈ spans, (if closes s then s.closeAt t else s) = s') ∨ s' = n := by
  simp [mergeSpans, closeSpans]

theorem toMark_ite_closeAt (s : Span T V) :
    (if closes s then s.closeAt t else s).toMark = s.toMark := by
  split <;> rfl

@[simp] theorem marks_closeSpans : marks (closeSpans spans closes t) = marks spans := by
  unfold marks closeSpans
  rw [List.map_map]
  exact List.map_congr_left fun s _ => toMark_ite_closeAt s

@[simp] theorem marks_mergeSpans :
    marks (mergeSpans spans closes t n) = marks spans ++ [n.toMark] := by
  have happ : marks (mergeSpans spans closes t n) =
    marks (closeSpans spans closes t) ++ [n.toMark] := List.map_append
  rw [happ, marks_closeSpans]

/-- A span of the old timeline has a span with the same mark in the new one. -/
theorem exists_mem_mergeSpans (closes : Span T V → Bool) (t : T) (n : Span T V) {s : Span T V}
    (h : s ∈ spans) : ∃ s' ∈ mergeSpans spans closes t n, s'.toMark = s.toMark :=
  ⟨_, mem_mergeSpans.mpr (.inl ⟨s, h, rfl⟩), toMark_ite_closeAt s⟩

theorem mem_mergeSpans_self : n ∈ mergeSpans spans closes t n :=
  mem_mergeSpans.mpr (.inr rfl)

theorem fields_ite_closeAt (s : Span T V) :
    (if closes s then s.closeAt t else s).start = s.start ∧
      (if closes s then s.closeAt t else s).val = s.val ∧
      (if closes s then s.closeAt t else s).stop = if closes s then some t else s.stop := by
  split
  · exact ⟨rfl, rfl, rfl⟩
  · exact ⟨rfl, rfl, rfl⟩

theorem exists_mem_closeSpans (closes : Span T V → Bool) (t : T) {s : Span T V} (hs : s ∈ spans) :
    ∃ s' ∈ closeSpans spans closes t, s'.start = s.start ∧ s'.val = s.val ∧
      s'.stop = if closes s then some t else s.stop :=
  ⟨_, List.mem_map_of_mem hs, fields_ite_closeAt s⟩

theorem mem_closeSpans {s' : Span T V} (h : s' ∈ closeSpans spans closes t) :
    ∃ s ∈ spans, s'.start = s.start ∧ s'.val = s.val ∧
      s'.stop = if closes s then some t else s.stop := by
  obtain ⟨s, hs, rfl⟩ := List.mem_map.mp h
  exact ⟨s, hs, fields_ite_closeAt s⟩

variable [LinearOrder T]

/-- A merge opens no gap when the spans it closes are younger than `t`, carry a
value that the merged operation removes or brings in again, and its own span
stops only at a mark that does the same. -/
theorem NoGap.merge (h : NoGap spans) (hn : n.start = t)
    (hlt : ∀ s ∈ spans, closes s = true → s.val.isSome → s.start < t)
    (hval : ∀ s ∈ spans, closes s = true → ∀ v, s.val = some v →
      n.trunc = true ∨ n.val = some v)
    (hstop : ∀ e v, n.stop = some e → n.val = some v →
      ∃ u ∈ spans, t < u.start ∧ u.start ≤ e ∧ (u.trunc = true ∨ u.val = some v)) :
    NoGap (mergeSpans spans closes t n) := by
  intro s' hs' e v he hv
  rcases mem_mergeSpans.mp hs' with ⟨s, hs, rfl⟩ | rfl
  · by_cases hc : closes s = true
    · rw [if_pos hc] at he hv ⊢
      have hsv : s.val = some v := hv
      obtain rfl : t = e := Option.some.inj he
      refine ⟨n, mem_mergeSpans_self, ?_, le_of_eq hn, hval s hs hc v hsv⟩
      rw [hn]
      exact hlt s hs hc (by simp [hsv])
    · rw [if_neg hc] at he hv ⊢
      obtain ⟨u, hu, h1, h2, h3⟩ := h s hs e v he hv
      obtain ⟨u', hu', hmark⟩ := exists_mem_mergeSpans closes t n hu
      refine ⟨u', hu', ?_⟩
      rw [hmark]
      exact ⟨h1, h2, h3⟩
  · obtain ⟨u, hu, h1, h2, h3⟩ := hstop e v he hv
    obtain ⟨u', hu', hmark⟩ := exists_mem_mergeSpans closes t s' hu
    refine ⟨u', hu', ?_⟩
    rw [hmark, hn]
    exact ⟨h1, h2, h3⟩

/-- A merge causes no overrun when no truncating mark lies between a span it
closes and `t`, a truncating operation leaves no older value open past `t`, and
its own span stops at the next truncating mark. -/
theorem NoOverrun.merge (h : NoOverrun spans) (hn : n.start = t)
    (hun : ∀ s ∈ spans, closes s = true → s.val.isSome → Untouched (marks spans) s.start t)
    (htr : n.trunc = true → ∀ s ∈ spans, s.val.isSome → s.start < t →
      closes s = true ∨ ∃ e, s.stop = some e ∧ e ≤ t)
    (hstop : ∀ u ∈ spans, n.val.isSome → u.trunc = true → t < u.start →
      ∃ e, n.stop = some e ∧ e ≤ u.start) :
    NoOverrun (mergeSpans spans closes t n) := by
  intro s' hs' u' hu' hv hu'tr hlt
  rcases mem_mergeSpans.mp hu' with ⟨u, hu, rfl⟩ | rfl
  · rw [toMark_ite_closeAt] at hu'tr hlt ⊢
    rcases mem_mergeSpans.mp hs' with ⟨s, hs, rfl⟩ | rfl
    · rw [toMark_ite_closeAt] at hv hlt
      by_cases hc : closes s = true
      · rw [if_pos hc]
        exact ⟨t, rfl, le_of_lt (hun s hs hc hv _ (mem_marks_of_mem hu) hu'tr hlt)⟩
      · rw [if_neg hc]
        exact h s hs u hu hv hu'tr hlt
    · rw [hn] at hlt
      exact hstop u hu hv hu'tr hlt
  · rcases mem_mergeSpans.mp hs' with ⟨s, hs, rfl⟩ | rfl
    · rw [toMark_ite_closeAt] at hv hlt
      rw [hn] at hlt ⊢
      by_cases hc : closes s = true
      · rw [if_pos hc]
        exact ⟨t, rfl, le_refl t⟩
      · rw [if_neg hc]
        exact (htr hu'tr s hs hv hlt).resolve_left hc
    · exact absurd hlt (lt_irrefl _)

/-- Closing spans of a timeline without gaps at `t` changes nothing before `t`: a
span that is re-opened up to `t` carries a value that was alive there anyway. -/
theorem visible_close_of_lt (h : NoGap spans)
    (hun : ∀ s ∈ spans, closes s = true → s.val.isSome → Untouched (marks spans) s.start t)
    {t' : T} (ht' : t' < t) :
    visible (closeSpans spans closes t) t' = visible spans t' := by
  apply Set.Subset.antisymm
  · rintro v ⟨s', hs', hv, hst, hstop⟩
    obtain ⟨s, hs, rfl⟩ := List.mem_map.mp hs'
    by_cases hc : closes s = true
    · rw [toMark_ite_closeAt] at hv hst
      exact h.mem_visible hs hv hst ((hun s hs hc (by simp [hv])).of_le (le_of_lt ht'))
    · rw [if_neg hc] at hv hst hstop
      exact ⟨s, hs, hv, hst, hstop⟩
  · rintro v ⟨s, hs, hv, hst, hstop⟩
    refine ⟨_, List.mem_map_of_mem hs, ?_⟩
    by_cases hc : closes s = true
    · rw [if_pos hc]
      refine ⟨hv, hst, fun e he => ?_⟩
      obtain rfl : t = e := Option.some.inj he
      exact ht'
    · rw [if_neg hc]
      exact ⟨hv, hst, hstop⟩

/-- The span of the merged operation shows nothing before its start. -/
theorem visible_merge_of_lt (hn : n.start = t) {t' : T} (ht' : t' < t) :
    visible (mergeSpans spans closes t n) t' = visible (closeSpans spans closes t) t' := by
  apply Set.Subset.antisymm
  · rintro v ⟨s, hs, hv, hst, hstop⟩
    rcases List.mem_append.mp hs with hs | hs
    · exact ⟨s, hs, hv, hst, hstop⟩
    · rw [List.mem_singleton.mp hs, hn] at hst
      exact absurd (lt_of_le_of_lt hst ht') (lt_irrefl t)
  · rintro v ⟨s, hs, h⟩
    exact ⟨s, List.mem_append_left _ hs, h⟩

end Merge

/-! ## Merging an operation again -/

section Again

variable {T V : Type} [LinearOrder T] {spans : List (Span T V)} {closes : Span T V → Bool} {t : T}
  {n : Span T V}

/-- The value was brought in after `t` and is left at `t'`. -/
def BroughtSince (marks : List (Mark T V)) (t : T) (v : V) (t' : T) : Prop :=
  ∃ m ∈ marks, t < m.start ∧ m.start ≤ t' ∧ m.val = some v ∧ Untouched marks m.start t'

/-- A value that was brought in at `t` is left at a later time if nothing removed it, or if it
was brought in again. -/
theorem mem_alive_iff_of_mark {ms : List (Mark T V)} {m : Mark T V} (hm : m ∈ ms) {v : V}
    (hv : m.val = some v) {t' : T} (ht' : m.start ≤ t') :
    v ∈ alive ms t' ↔ Untouched ms m.start t' ∨ BroughtSince ms m.start v t' := by
  constructor
  · rintro ⟨u, hu, huv, hut', hun⟩
    rcases lt_or_ge m.start u.start with hlt | hge
    · exact .inr ⟨u, hu, hlt, hut', huv, hun⟩
    · exact .inl (hun.mono hge)
  · rintro (hun | ⟨u, hu, -, hut', huv, hun⟩)
    · exact ⟨m, hm, hv, ht', hun⟩
    · exact ⟨u, hu, huv, hut', hun⟩

/-- The spans after `t` show what was brought in since. -/
theorem exists_covers_iff_broughtSince (hg : NoGap spans) (ho : NoOverrun spans) {v : V} {t' : T} :
    (∃ s ∈ spans, t < s.start ∧ s.val = some v ∧ s.Covers t') ↔
      BroughtSince (marks spans) t v t' := by
  constructor
  · rintro ⟨s, hs, hlt, hv, hst', hstop⟩
    refine ⟨s.toMark, mem_marks_of_mem hs, hlt, hst', hv, fun m hm htr hsm => ?_⟩
    obtain ⟨u, hu, rfl⟩ := List.mem_map.mp hm
    obtain ⟨e, he, hle⟩ := ho s hs u hu (by simp [hv]) htr hsm
    exact lt_of_lt_of_le (hstop e he) hle
  · rintro ⟨m, hm, hlt, hmt', hv, hun⟩
    obtain ⟨s, hs, rfl⟩ := List.mem_map.mp hm
    obtain ⟨u, hu, hsu, huv, hcovers⟩ := hg.exists_covers hs hv hmt' hun
    exact ⟨u, hu, lt_of_lt_of_le hlt hsu, huv, hcovers⟩

/-- A value that the merge neither closes nor brings in is left alone. -/
theorem mem_visible_merge_of_ne {w : V} (hn : n.val ≠ some w)
    (hclosed : ∀ s ∈ spans, closes s = true → s.val ≠ some w) (t' : T) :
    w ∈ visible (mergeSpans spans closes t n) t' ↔ w ∈ visible spans t' := by
  constructor
  · rintro ⟨s', hs', hv, hcovers⟩
    rcases mem_mergeSpans.mp hs' with ⟨s, hs, rfl⟩ | rfl
    · by_cases hc : closes s = true
      · rw [if_pos hc] at hv
        exact absurd hv (hclosed s hs hc)
      · rw [if_neg hc] at hv hcovers
        exact ⟨s, hs, hv, hcovers⟩
    · exact absurd hv hn
  · rintro ⟨s, hs, hv, hcovers⟩
    have hc : ¬ closes s = true := fun hc => hclosed s hs hc hv
    refine ⟨s, mem_mergeSpans.mpr (.inl ⟨s, hs, if_neg hc⟩), hv, hcovers⟩

/-- The value of a merge at `t` is shown by its own span and by what was brought in since, if
the merge closes the older spans with that value. -/
theorem mem_visible_merge_iff (hg : NoGap spans) (ho : NoOverrun spans) {v : V}
    (hn : n.val = some v) (hclosed : ∀ s ∈ spans, closes s = true → s.start ≤ t)
    (hreach : ∀ s ∈ spans, s.val = some v → s.start ≤ t →
      closes s = true ∨ ∃ e, s.stop = some e ∧ e ≤ t) {t' : T} (ht' : t ≤ t') :
    v ∈ visible (mergeSpans spans closes t n) t' ↔
      n.Covers t' ∨ BroughtSince (marks spans) t v t' := by
  rw [← exists_covers_iff_broughtSince hg ho]
  constructor
  · rintro ⟨s', hs', hv, hcovers⟩
    rcases mem_mergeSpans.mp hs' with ⟨s, hs, rfl⟩ | rfl
    · by_cases hc : closes s = true
      · rw [if_pos hc] at hcovers
        exact absurd (hcovers.2 t rfl) (not_lt.mpr ht')
      · rw [if_neg hc] at hv hcovers
        refine .inr ⟨s, hs, not_le.mp fun hle => ?_, hv, hcovers⟩
        obtain ⟨e, he, hle'⟩ := (hreach s hs hv hle).resolve_left hc
        exact absurd (hcovers.2 e he) (not_lt.mpr (le_trans hle' ht'))
    · exact .inl hcovers
  · rintro (hcovers | ⟨s, hs, hlt, hv, hcovers⟩)
    · exact ⟨n, mem_mergeSpans_self, hn, hcovers⟩
    · have hc : ¬ closes s = true := fun hc => absurd (hclosed s hs hc) (not_le.mpr hlt)
      exact ⟨s, mem_mergeSpans.mpr (.inl ⟨s, hs, if_neg hc⟩), hv, hcovers⟩

end Again

/-! ## Values that are shown once -/

section Once

variable {T V : Type} [LinearOrder T] {spans : List (Span T V)} {closes : Span T V → Bool} {t : T}
  {n : Span T V}

/-- Every span shows its value at its start. -/
def Proper (spans : List (Span T V)) : Prop :=
  ∀ s ∈ spans, ∀ e, s.stop = some e → s.start < e

/-- A span ends before its value is brought in again. -/
def ShownOnce (spans : List (Span T V)) : Prop :=
  ∀ s ∈ spans, ∀ u ∈ spans, ∀ v, s.val = some v → u.val = some v → s.start < u.start →
    ∃ e, s.stop = some e ∧ e ≤ u.start

/-- Closing a span at `t` does not make it reach one of its value. -/
def ClosesOnce (spans : List (Span T V)) (closes : Span T V → Bool) (t : T) : Prop :=
  ∀ s ∈ spans, closes s = true → ∀ u ∈ spans, ∀ v, s.val = some v → u.val = some v →
    s.start < u.start → t ≤ u.start

theorem proper_close (h : Proper spans) (hlt : ∀ s ∈ spans, closes s = true → s.start < t) :
    Proper (closeSpans spans closes t) := by
  intro s' hs' e he
  obtain ⟨s, hs, rfl⟩ := List.mem_map.mp hs'
  by_cases hc : closes s = true
  · rw [if_pos hc] at he ⊢
    rw [← Option.some.inj he]
    exact hlt s hs hc
  · rw [if_neg hc] at he ⊢
    exact h s hs e he

theorem proper_merge (h : Proper spans) (hlt : ∀ s ∈ spans, closes s = true → s.start < t)
    (hn : ∀ e, n.stop = some e → n.start < e) : Proper (mergeSpans spans closes t n) := by
  intro s hs e he
  rcases List.mem_append.mp hs with hold | hnew
  · exact proper_close h hlt s hold e he
  · rw [List.mem_singleton.mp hnew] at he ⊢
    exact hn e he

theorem shownOnce_close_iff (h : ShownOnce spans) :
    ShownOnce (closeSpans spans closes t) ↔ ClosesOnce spans closes t := by
  constructor
  · intro honce s hs hc u hu v hsv huv hlt
    obtain ⟨s', hs', hstart, hval, hstop⟩ := exists_mem_closeSpans closes t hs
    obtain ⟨u', hu', hustart, huval, -⟩ := exists_mem_closeSpans closes t hu
    obtain ⟨e, he, hle⟩ := honce s' hs' u' hu' v (hval.trans hsv) (huval.trans huv)
      (hstart ▸ hustart ▸ hlt)
    rw [hstop, if_pos hc] at he
    rw [Option.some.inj he, ← hustart]
    exact hle
  · intro hcloses s' hs' u' hu' v hsv huv hlt
    obtain ⟨s, hs, hstart, hval, hstop⟩ := mem_closeSpans hs'
    obtain ⟨u, hu, hustart, huval, -⟩ := mem_closeSpans hu'
    rw [hval] at hsv
    rw [huval] at huv
    rw [hstart, hustart] at hlt
    rw [hstop, hustart]
    by_cases hc : closes s = true
    · rw [if_pos hc]
      exact ⟨t, rfl, hcloses s hs hc u hu v hsv huv hlt⟩
    · rw [if_neg hc]
      exact h s hs u hu v hsv huv hlt

/-- What a merge must meet: what it closes, the older spans of its value and the younger
ones. -/
theorem shownOnce_merge_iff (h : ShownOnce spans) (hn : n.start = t) :
    ShownOnce (mergeSpans spans closes t n) ↔ ClosesOnce spans closes t ∧
      ∀ v, n.val = some v →
        (∀ s ∈ spans, s.val = some v → s.start < t →
          closes s = true ∨ ∃ e, s.stop = some e ∧ e ≤ t) ∧
        ∀ u ∈ spans, u.val = some v → t < u.start → ∃ e, n.stop = some e ∧ e ≤ u.start := by
  constructor
  · intro honce
    refine ⟨(shownOnce_close_iff h).mp fun s hs u hu => honce s (List.mem_append_left _ hs) u
      (List.mem_append_left _ hu), fun v hv => ⟨fun s hs hsv hlt => ?_, fun u hu huv hlt => ?_⟩⟩
    · obtain ⟨s', hs', hstart, hval, hstop⟩ := exists_mem_closeSpans closes t hs
      obtain ⟨e, he, hle⟩ := honce s' (List.mem_append_left _ hs') n mem_mergeSpans_self v
        (hval.trans hsv) hv (by rw [hstart, hn]; exact hlt)
      rw [hstop] at he
      by_cases hc : closes s = true
      · exact .inl hc
      · rw [if_neg hc] at he
        exact .inr ⟨e, he, hn ▸ hle⟩
    · obtain ⟨u', hu', hstart, hval, -⟩ := exists_mem_closeSpans closes t hu
      rw [← hstart] at hlt ⊢
      exact honce n mem_mergeSpans_self u' (List.mem_append_left _ hu') v hv (hval.trans huv)
        (hn ▸ hlt)
  · rintro ⟨hcloses, hown⟩ s hs u hu v hsv huv hlt
    rcases List.mem_append.mp hs with hsold | hsnew
    · rcases List.mem_append.mp hu with huold | hunew
      · exact (shownOnce_close_iff h).mpr hcloses s hsold u huold v hsv huv hlt
      · rw [List.mem_singleton.mp hunew] at huv hlt ⊢
        obtain ⟨s0, hs0, hstart, hval, hstop⟩ := mem_closeSpans hsold
        rw [hstart, hn] at hlt
        rw [hstop, hn]
        by_cases hc : closes s0 = true
        · exact ⟨t, if_pos hc, le_refl _⟩
        · rw [if_neg hc]
          exact ((hown v huv).1 s0 hs0 (hval ▸ hsv) hlt).resolve_left hc
    · rw [List.mem_singleton.mp hsnew] at hsv hlt ⊢
      rcases List.mem_append.mp hu with huold | hunew
      · obtain ⟨u0, hu0, hstart, hval, -⟩ := mem_closeSpans huold
        rw [hstart] at hlt ⊢
        exact (hown v hsv).2 u0 hu0 (hval ▸ huv) (hn ▸ hlt)
      · rw [List.mem_singleton.mp hunew] at hlt
        exact absurd hlt (lt_irrefl _)

end Once

/-! ## Chronological histories -/

section Replay

variable {T V : Type} [LinearOrder T]

theorem replay_append_singleton (history : List (T × SetOp V)) (e : T × SetOp V) (t : T) :
    replay (history ++ [e]) t =
      if e.1 ≤ t then e.2.apply (replay history t) else replay history t := by
  unfold replay
  by_cases h : e.1 ≤ t
  · simp [h, List.filter_append]
  · simp [h, List.filter_append]

/-- The youngest mark of a history decides what is alive from its time on. -/
theorem alive_append_singleton {ms : List (Mark T V)} {m : Mark T V}
    (h : ∀ u ∈ ms, u.start < m.start) (t : T) (v : V) :
    v ∈ alive (ms ++ [m]) t ↔
      if m.start ≤ t then m.val = some v ∨ (m.trunc = false ∧ v ∈ alive ms t)
      else v ∈ alive ms t := by
  have hun : ∀ s, Untouched (ms ++ [m]) s t ↔
      Untouched ms s t ∧ (m.trunc = true → s < m.start → t < m.start) := by
    intro s
    simp only [Untouched, List.forall_mem_append, List.forall_mem_singleton]
  split
  · next hmt =>
    constructor
    · rintro ⟨u, hu, hv, hut, hu'⟩
      rcases List.mem_append.mp hu with hu | hu
      · refine .inr ⟨?_, u, hu, hv, hut, ((hun _).mp hu').1⟩
        by_contra htr
        exact absurd (((hun _).mp hu').2 (by simpa using htr) (h u hu)) (not_lt.mpr hmt)
      · rw [List.mem_singleton.mp hu] at hv
        exact .inl hv
    · rintro (hv | ⟨htr, u, hu, hv, hut, hu'⟩)
      · refine ⟨m, by simp, hv, hmt, (hun _).mpr ⟨?_, fun _ hlt => absurd hlt (lt_irrefl _)⟩⟩
        exact fun u hu _ hlt => absurd (lt_trans hlt (h u hu)) (lt_irrefl _)
      · exact ⟨u, by simp [hu], hv, hut, (hun _).mpr ⟨hu', by simp [htr]⟩⟩
  · next hmt =>
    constructor
    · rintro ⟨u, hu, hv, hut, hu'⟩
      rcases List.mem_append.mp hu with hu | hu
      · exact ⟨u, hu, hv, hut, ((hun _).mp hu').1⟩
      · rw [List.mem_singleton.mp hu] at hut
        exact absurd hut hmt
    · rintro ⟨u, hu, hv, hut, hu'⟩
      exact ⟨u, by simp [hu], hv, hut, (hun _).mpr ⟨hu', fun _ _ => not_le.mp hmt⟩⟩

/-- On a history with strictly increasing times the fold of the operations gives
exactly the alive values. -/
theorem replay_eq_alive {history : List (T × SetOp V)}
    (h : history.Pairwise (fun a b => a.1 < b.1)) (t : T) :
    replay history t = alive (history.map markOf) t := by
  induction history using List.reverseRecOn with
  | nil => simp [replay, alive]
  | append_singleton history e ih =>
    rw [List.pairwise_append] at h
    obtain ⟨hh, -, hlast⟩ := h
    have hlt : ∀ u ∈ history.map markOf, u.start < (markOf e).start := by
      intro u hu
      obtain ⟨e', he', rfl⟩ := List.mem_map.mp hu
      exact hlast e' he' e (by simp)
    ext v
    rw [replay_append_singleton, List.map_append, List.map_singleton,
      alive_append_singleton hlt t v, ← ih hh]
    by_cases het : e.1 ≤ t
    · have hst : (markOf e).start ≤ t := het
      rw [if_pos het, if_pos hst]
      rcases e with ⟨s, op⟩
      cases op with
      | assign w => simp [markOf, SetOp.apply, SetOp.val, SetOp.truncates, eq_comm]
      | add w => simp [markOf, SetOp.apply, SetOp.val, SetOp.truncates, eq_comm]
      | clear => simp [markOf, SetOp.apply, SetOp.val, SetOp.truncates]
    · have hst : ¬ (markOf e).start ≤ t := het
      rw [if_neg het, if_neg hst]

end Replay

end Everarch
