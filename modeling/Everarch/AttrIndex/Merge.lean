import Everarch.AttrIndex.Table
import Everarch.Claims
import Everarch.Lib.Run
import Everarch.Lib.Timeline

/-!
# Merging one attribute operation

`evr_merge_attr_index_attr_replace`, `_add` and `_rm` of attr-index-db.c. The three
share their shape: scan the past siblings and close some of them, scan the future
siblings for the end of the new row, insert the row. Each keeps its own tests.

* `closePastSiblings_rows`: what the past scan does to the table.
* `trunc_le_of_mem_scanned`, `mem_scanned_of_lt`: which rows the past scan reaches
  when rows come ordered by `valid_from desc`.
* `accepted_iff`: a step is accepted if its value is of the type of its key.
* `nextDb_rows`: the table after a step, accepted or not.
-/

namespace Everarch

/-! ## The functions -/

/-- `evr_insert_attr`. The value is checked against the type of its key after it
has been bound and before the row is inserted. -/
def insertAttr (db : AttrIndexDb) (ref : ClaimRef) (key : String) (value : Option String)
    (validFrom : Int) (validUntil : Option Int) (trunc : Bool) : Res × AttrIndexDb :=
  let insert (valInt : Option Int) : AttrIndexDb :=
    { db with attr := db.attr.insert ref key value valInt validFrom validUntil trunc }
  match value with
  | none => (.ok, insert none)
  | some v =>
    match getAttrTypeForKey db key with
    | .str => (.ok, insert none)
    | .int =>
      match sscanfInt v.toList with
      | none => (.userDataInvalid, db)
      | some number => (.ok, insert (some number))
    | .claimRef =>
      match parseClaimRef (Vector.replicate _ 0) v.toList with
      | (.ok, _) => (.ok, insert none)
      | _ => (.userDataInvalid, db)

/-- The check of `evr_insert_attr`: the value is of the type of its key. -/
def valueFits (db : AttrIndexDb) (key : String) : Option String → Bool
  | none => true
  | some v =>
    match getAttrTypeForKey db key with
    | .str => true
    | .int => (sscanfInt v.toList).isSome
    | .claimRef => (parseClaimRef (Vector.replicate _ 0) v.toList).1 = .ok

/-- The past sibling loop: rows that `closes` selects get `t` as `valid_until`, the
first truncating row ends it. The statement is left on that row, or done. The
rowid goes through an `int` variable. -/
def closePastSiblings (closes : AttrRow → Bool) (t : Int) :
    List AttrRow → AttrTable → Option AttrRow × AttrTable
  | [], table => (none, table)
  | s :: siblings, table =>
    let table := if closes s then table.updateValidUntil (toInt32 s.rowid) t else table
    if s.trunc then (some s, table) else closePastSiblings closes t siblings table

/-- The common body: `closes` is the test of the past loop and `stops` that of the
future loop, which may read the past statement's current row. -/
def mergeSiblings (ord : RowOrder) (closes : AttrRow → Bool)
    (stops : Option AttrRow → AttrRow → Bool) (trunc : Bool) (db : AttrIndexDb) (t : Int)
    (seed : ClaimRef) (key : String) (value : Option String) : Res × AttrIndexDb :=
  let past := db.attr.findPastSiblings ord seed key t
  let (current, table) := closePastSiblings closes t past db.attr
  let future := table.findFutureSiblings ord seed key t
  let validUntil := (future.find? (stops current)).map (·.validFrom)
  insertAttr { db with attr := table } seed key value t validUntil trunc

/-- `evr_merge_attr_index_attr_replace`. -/
def mergeAttrIndexAttrReplace (ord : RowOrder) (db : AttrIndexDb) (t : Int) (seed : ClaimRef)
    (key : String) (value : Option String) : Res × AttrIndexDb :=
  mergeSiblings ord (fun _ => true) (fun _ s => s.trunc) true db t seed key value

/-- The test of the past loop of `add`: rows without a value and rows with the
added value. -/
def addCloses (value : Option String) (s : AttrRow) : Bool :=
  s.valStr.isNone || s.valStr == value

/-- The test of the future loop of `add`. The row value it compares with is column
0 of the *past* statement, which is the rowid of its current row as text and null
when the statement is done. -/
def addStops (value : Option String) (current : Option AttrRow) (s : AttrRow) : Bool :=
  s.trunc || (current.isSome && current.map (fun c => toString c.rowid) == value)

/-- Without a value, `add` passes a null pointer to `strcmp` at the first past
sibling with a value, and at the first future sibling when the past statement is
left on a row and the sibling does not truncate. -/
def addComparesNull (past future : List AttrRow) (current : Option AttrRow) : Bool :=
  ((past.takeWhile fun s => !s.trunc) ++ current.toList).any (·.valStr.isSome) ||
    (current.isSome && future.head?.any fun s => !s.trunc)

/-- `evr_merge_attr_index_attr_add`. -/
def mergeAttrIndexAttrAdd (ord : RowOrder) (db : AttrIndexDb) (t : Int) (seed : ClaimRef)
    (key : String) (value : Option String) : Res × AttrIndexDb :=
  let past := db.attr.findPastSiblings ord seed key t
  let future := db.attr.findFutureSiblings ord seed key t
  if value.isNone && addComparesNull past future (past.find? (·.trunc)) then (.noReturn, db)
  else mergeSiblings ord (addCloses value) (addStops value) false db t seed key value

/-- `evr_merge_attr_index_attr_rm`, with a value or without. -/
def mergeAttrIndexAttrRm (ord : RowOrder) (db : AttrIndexDb) (t : Int) (seed : ClaimRef)
    (key : String) (value : Option String) : Res × AttrIndexDb :=
  mergeSiblings ord (fun _ => true) (fun _ _ => true) true db t seed key value

/-! ## Operations as inputs of a run -/

/-- The switch of `evr_merge_attr_index_attr` over the operation. -/
def mergeAttrIndexAttrOp (ord : RowOrder) (db : AttrIndexDb) (t : Int) (seed : ClaimRef)
    (op : AttrOp) (key : String) (value : Option String) : Res × AttrIndexDb :=
  match op with
  | .replace => mergeAttrIndexAttrReplace ord db t seed key value
  | .add => mergeAttrIndexAttrAdd ord db t seed key value
  | .rm => mergeAttrIndexAttrRm ord db t seed key value

/-- One pass of the loop of `evr_merge_attr_index_attr`. `ord` is the order in which
SQLite returns the siblings. -/
structure OpStep where
  ord : RowOrder
  time : Int
  seed : ClaimRef
  op : AttrOp
  key : String
  value : Option String

/-- The database after the call, whatever it returned. -/
def nextOpDb (db : AttrIndexDb) (s : OpStep) : AttrIndexDb :=
  (mergeAttrIndexAttrOp s.ord db s.time s.seed s.op s.key s.value).2

/-- One operation with the time of its claim set: `=v`, `+v` or `-` without a
value. -/
structure MergeStep where
  ord : RowOrder
  time : Int
  seed : ClaimRef
  key : String
  op : SetOp String

/-- The operation code and value of a set operation. -/
def attrOpOf : SetOp String → AttrOp × Option String
  | .assign v => (.replace, some v)
  | .add v => (.add, some v)
  | .clear => (.rm, none)

/-- Merges one operation. -/
def MergeStep.merge (s : MergeStep) (db : AttrIndexDb) : Res × AttrIndexDb :=
  mergeAttrIndexAttrOp s.ord db s.time s.seed (attrOpOf s.op).1 s.key (attrOpOf s.op).2

/-- The database after the merge. -/
def nextDb (db : AttrIndexDb) (s : MergeStep) : AttrIndexDb :=
  (s.merge db).2

/-- The operation is accepted: its merge returns `evr_ok`. -/
def Accepted (db : AttrIndexDb) (s : MergeStep) : Prop :=
  (s.merge db).1 = .ok

instance (db : AttrIndexDb) (s : MergeStep) : Decidable (Accepted db s) :=
  inferInstanceAs (Decidable (_ = _))

/-- The values that `evr_get_seed_attrs` reports for a seed and key at `t`. -/
def valuesAt (db : AttrIndexDb) (seed : ClaimRef) (key : String) (t : Int) : Set String :=
  {v | (key, v) ∈ getSeedAttrs db t seed}

/-! ## What the two scans do -/

/-- The past siblings that the loop visits: up to the first truncating one. -/
def scanned : List AttrRow → List AttrRow
  | [] => []
  | s :: siblings => if s.trunc then [s] else s :: scanned siblings

namespace MergeLemmas

theorem closePastSiblings_current (closes : AttrRow → Bool) (t : Int) (siblings : List AttrRow)
    (table : AttrTable) :
    (closePastSiblings closes t siblings table).1 = siblings.find? (·.trunc) := by
  induction siblings generalizing table with
  | nil => rfl
  | cons s siblings ih =>
    unfold closePastSiblings
    cases hs : s.trunc with
    | true => simp [hs]
    | false => simp [hs, ih]

theorem closePastSiblings_rows (closes : AttrRow → Bool) (t : Int) (siblings : List AttrRow)
    (table : AttrTable) :
    (closePastSiblings closes t siblings table).2.rows = table.rows.map fun r =>
      if ∃ s ∈ scanned siblings, closes s = true ∧ toInt32 s.rowid = r.rowid then
        r.setValidUntil t else r := by
  induction siblings generalizing table with
  | nil => simp [closePastSiblings, scanned]
  | cons s siblings ih =>
    have hone : (if closes s = true then table.updateValidUntil (toInt32 s.rowid) t
        else table).rows = table.rows.map fun r =>
          if closes s = true ∧ toInt32 s.rowid = r.rowid then r.setValidUntil t else r := by
      cases hc : closes s with
      | true => simp [AttrTable.updateValidUntil, eq_comm]
      | false => simp
    unfold closePastSiblings scanned
    cases hs : s.trunc with
    | true => simp [hone]
    | false =>
      simp only [Bool.false_eq_true, if_false, ih, hone, List.map_map, List.exists_mem_cons_iff]
      refine List.map_congr_left fun r _ => ?_
      by_cases h : closes s = true ∧ toInt32 s.rowid = r.rowid
      · have hid : (r.setValidUntil t).setValidUntil t = r.setValidUntil t := rfl
        simp [h, hid]
      · simp [h]

theorem scanned_subset {siblings : List AttrRow} {r : AttrRow} (h : r ∈ scanned siblings) :
    r ∈ siblings := by
  induction siblings with
  | nil => exact h
  | cons s siblings ih =>
    unfold scanned at h
    cases hs : s.trunc with
    | true =>
      rw [hs, if_pos rfl] at h
      exact List.mem_cons.mpr (.inl (List.mem_singleton.mp h))
    | false =>
      rw [hs, if_neg Bool.false_ne_true] at h
      rcases List.mem_cons.mp h with rfl | h
      · exact List.mem_cons_self
      · exact List.mem_cons_of_mem s (ih h)

/-- No truncating row of the result is younger than a visited row. -/
theorem trunc_le_of_mem_scanned {siblings : List AttrRow}
    (hs : siblings.Pairwise fun a b => b.validFrom ≤ a.validFrom) {r u : AttrRow}
    (h : r ∈ scanned siblings) (hu : u ∈ siblings) (htr : u.trunc = true) :
    u.validFrom ≤ r.validFrom := by
  induction siblings with
  | nil => exact absurd hu List.not_mem_nil
  | cons s siblings ih =>
    rw [List.pairwise_cons] at hs
    unfold scanned at h
    cases hst : s.trunc with
    | true =>
      rw [hst, if_pos rfl, List.mem_singleton] at h
      subst h
      rcases List.mem_cons.mp hu with rfl | hu
      · exact Int.le_refl _
      · exact hs.1 u hu
    | false =>
      rw [hst, if_neg Bool.false_ne_true] at h
      rcases List.mem_cons.mp hu with rfl | hu'
      · rw [hst] at htr
        exact absurd htr Bool.false_ne_true
      · rcases List.mem_cons.mp h with rfl | h'
        · exact hs.1 u hu'
        · exact ih hs.2 h' hu'

/-- Every row younger than all truncating rows is visited. -/
theorem mem_scanned_of_lt {siblings : List AttrRow}
    (hs : siblings.Pairwise fun a b => b.validFrom ≤ a.validFrom) {r : AttrRow}
    (hr : r ∈ siblings) (h : ∀ u ∈ siblings, u.trunc = true → u ≠ r → u.validFrom < r.validFrom) :
    r ∈ scanned siblings := by
  induction siblings with
  | nil => exact absurd hr List.not_mem_nil
  | cons s siblings ih =>
    rw [List.pairwise_cons] at hs
    unfold scanned
    by_cases hrs : s = r
    · subst hrs
      cases hst : s.trunc with
      | true => simp
      | false => simp
    · have hr' : r ∈ siblings := (List.mem_cons.mp hr).resolve_left (Ne.symm hrs)
      cases hst : s.trunc with
      | true =>
        have hlt := h s List.mem_cons_self hst hrs
        exact absurd (hs.1 r hr') (Int.not_le.mpr hlt)
      | false =>
        rw [if_neg Bool.false_ne_true]
        exact List.mem_cons_of_mem s
          (ih hs.2 hr' fun u hu => h u (List.mem_cons_of_mem s hu))

/-- The first hit in a result ordered by `valid_from desc` is a youngest one. -/
theorem find?_youngest {siblings : List AttrRow} {p : AttrRow → Bool} {u : AttrRow}
    (hs : siblings.Pairwise fun a b => b.validFrom ≤ a.validFrom)
    (h : siblings.find? p = some u) {w : AttrRow} (hw : w ∈ siblings) (hp : p w = true) :
    w.validFrom ≤ u.validFrom := by
  induction siblings with
  | nil => exact absurd hw List.not_mem_nil
  | cons s siblings ih =>
    rw [List.pairwise_cons] at hs
    cases hps : p s with
    | true =>
      rw [List.find?_cons_of_pos hps] at h
      obtain rfl : s = u := Option.some.inj h
      rcases List.mem_cons.mp hw with rfl | hw
      · exact Int.le_refl _
      · exact hs.1 w hw
    | false =>
      rw [List.find?_cons_of_neg (by simp [hps])] at h
      rcases List.mem_cons.mp hw with rfl | hw
      · rw [hps] at hp
        exact absurd hp Bool.false_ne_true
      · exact ih hs.2 h hw

theorem insertAttr_eq (db : AttrIndexDb) (ref : ClaimRef) (key : String)
    (value : Option String) (validFrom : Int) (validUntil : Option Int) (trunc : Bool) :
    ∃ valInt, insertAttr db ref key value validFrom validUntil trunc =
      if valueFits db key value then
        (.ok, { db with attr := db.attr.insert ref key value valInt validFrom validUntil trunc })
      else (.userDataInvalid, db) := by
  unfold insertAttr valueFits
  cases value with
  | none => exact ⟨none, rfl⟩
  | some v =>
    simp only
    cases getAttrTypeForKey db key with
    | str => exact ⟨none, rfl⟩
    | int =>
      simp only
      rcases Option.eq_none_or_eq_some (sscanfInt v.toList) with hn | ⟨number, hn⟩
      · exact ⟨none, by simp [hn]⟩
      · exact ⟨some number, by simp [hn]⟩
    | claimRef =>
      refine ⟨none, ?_⟩
      simp only [decide_eq_true_eq]
      split
      · next hok => rw [if_pos (congrArg Prod.fst hok)]
      · next hne =>
        rw [if_neg]
        intro hok
        exact hne _ (Prod.ext hok rfl)

/-- The spec of the common body: the past scan has been done in any case, the row
is inserted if its value is of the type of its key. -/
theorem mergeSiblings_eq (ord : RowOrder) (closes : AttrRow → Bool)
    (stops : Option AttrRow → AttrRow → Bool) (trunc : Bool) (db : AttrIndexDb) (t : Int)
    (seed : ClaimRef) (key : String) (value : Option String) :
    ∃ valInt validUntil, mergeSiblings ord closes stops trunc db t seed key value =
      if valueFits db key value then
        (.ok, { db with
          attr := (closePastSiblings closes t (db.attr.findPastSiblings ord seed key t)
            db.attr).2.insert seed key value valInt t validUntil trunc })
      else
        (.userDataInvalid, { db with
          attr := (closePastSiblings closes t (db.attr.findPastSiblings ord seed key t)
            db.attr).2 }) := by
  unfold mergeSiblings
  obtain ⟨valInt, hins⟩ := insertAttr_eq _ seed key value t _ trunc
  exact ⟨valInt, _, hins⟩

theorem mergeSiblings_ok_iff {ord : RowOrder} {closes : AttrRow → Bool}
    {stops : Option AttrRow → AttrRow → Bool} {trunc : Bool} {db : AttrIndexDb} {t : Int}
    {seed : ClaimRef} {key : String} {value : Option String} :
    (mergeSiblings ord closes stops trunc db t seed key value).1 = .ok ↔
      valueFits db key value = true := by
  obtain ⟨valInt, validUntil, heq⟩ := mergeSiblings_eq ord closes stops trunc db t seed key value
  rw [heq]
  cases valueFits db key value with
  | true => simp
  | false => simp

end MergeLemmas

/-! ## One step of a run -/

/-- The test of the past loop for an operation. -/
def stepCloses : SetOp String → AttrRow → Bool
  | .add v => addCloses (some v)
  | _ => fun _ => true

/-- The test of the future loop for an operation. -/
def stepStops : SetOp String → Option AttrRow → AttrRow → Bool
  | .assign _ => fun _ s => s.trunc
  | .add v => addStops (some v)
  | .clear => fun _ _ => true

/-- The past siblings of a step in the order it reads them. -/
def MergeStep.past (s : MergeStep) (db : AttrIndexDb) : List AttrRow :=
  db.attr.findPastSiblings s.ord s.seed s.key s.time

/-- The future siblings of a step in the order it reads them. -/
def MergeStep.future (s : MergeStep) (db : AttrIndexDb) : List AttrRow :=
  db.attr.findFutureSiblings s.ord s.seed s.key s.time

/-- The `valid_until` that a step gives its own row. -/
def MergeStep.stop (s : MergeStep) (db : AttrIndexDb) : Option Int :=
  ((s.future db).find? (stepStops s.op ((s.past db).find? (·.trunc)))).map (·.validFrom)

namespace MergeLemmas

theorem merge_eq (s : MergeStep) (db : AttrIndexDb) :
    s.merge db = mergeSiblings s.ord (stepCloses s.op) (stepStops s.op) s.op.truncates db
      s.time s.seed s.key s.op.val := by
  unfold MergeStep.merge mergeAttrIndexAttrOp
  cases s.op with
  | assign v => rfl
  | add v => rfl
  | clear => rfl

/-- In a table whose rowids fit into an `int`, the past scan closes the visited
rows that pass the test. -/
theorem closePastSiblings_rows_of_lt {table : AttrTable} (hlen : table.rows.length < 2 ^ 31)
    (closes : AttrRow → Bool) (t : Int) (siblings : List AttrRow)
    (hsub : ∀ r ∈ siblings, r ∈ table.rows) :
    (closePastSiblings closes t siblings table).2.rows = table.rows.map fun r =>
      if r ∈ scanned siblings ∧ closes r = true then r.setValidUntil t else r := by
  rw [closePastSiblings_rows]
  refine List.map_congr_left fun r hr => ?_
  have hiff : (∃ s ∈ scanned siblings, closes s = true ∧ toInt32 s.rowid = r.rowid) ↔
      r ∈ scanned siblings ∧ closes r = true := by
    constructor
    · rintro ⟨s, hs, hc, hid⟩
      have hst := hsub s (scanned_subset hs)
      rw [AttrTable.toInt32_rowid hst hlen] at hid
      have heq : s = r := AttrTable.rowid_inj hst hr (by exact_mod_cast hid)
      subst heq
      exact ⟨hs, hc⟩
    · rintro ⟨hs, hc⟩
      exact ⟨r, hs, hc, AttrTable.toInt32_rowid hr hlen⟩
  simp only [hiff]

theorem filter_map_of_fixed {α : Type} {l : List α} {f : α → α} {p : α → Bool}
    (hp : ∀ a ∈ l, p (f a) = p a) (hf : ∀ a ∈ l, p a = true → f a = a) :
    (l.map f).filter p = l.filter p := by
  induction l with
  | nil => rfl
  | cons a l ih =>
    have ih' := ih (fun b hb => hp b (List.mem_cons_of_mem a hb))
      fun b hb => hf b (List.mem_cons_of_mem a hb)
    rw [List.map_cons, List.filter_cons, List.filter_cons, ih', hp a List.mem_cons_self]
    cases hpa : p a with
    | true => rw [hf a List.mem_cons_self hpa]
    | false => rfl

/-- The past scan does not change what the future scan reads. -/
theorem future_closePastSiblings {table : AttrTable} (hlen : table.rows.length < 2 ^ 31)
    (ord : RowOrder) (closes : AttrRow → Bool) (t : Int) (seed : ClaimRef) (key : String) :
    (closePastSiblings closes t (table.findPastSiblings ord seed key t)
      table).2.findFutureSiblings ord seed key t = table.findFutureSiblings ord seed key t := by
  unfold AttrTable.findFutureSiblings AttrTable.siblings
  rw [closePastSiblings_rows_of_lt hlen closes t _ fun r hr =>
    (AttrTable.mem_siblings.mp (AttrTable.mem_findPastSiblings.mp hr).1).1]
  congr 1
  rw [List.filter_filter, List.filter_filter]
  apply filter_map_of_fixed
  · intro r _
    split <;> rfl
  · intro r _ hr
    rw [if_neg]
    rintro ⟨hs, -⟩
    have hle := (AttrTable.mem_findPastSiblings.mp (scanned_subset hs)).2
    simp only [Bool.and_eq_true, decide_eq_true_eq] at hr
    omega

theorem accepted_iff {db : AttrIndexDb} {s : MergeStep} :
    Accepted db s ↔ valueFits db s.key s.op.val = true := by
  unfold Accepted
  rw [merge_eq]
  exact mergeSiblings_ok_iff

theorem nextDb_attrDef (db : AttrIndexDb) (s : MergeStep) :
    (nextDb db s).attrDef = db.attrDef := by
  unfold nextDb
  rw [merge_eq]
  obtain ⟨valInt, validUntil, heq⟩ := mergeSiblings_eq s.ord (stepCloses s.op) (stepStops s.op)
    s.op.truncates db s.time s.seed s.key s.op.val
  rw [heq]
  split <;> rfl

/-- The table after a step, while rowids fit into an `int`: the visited past rows
that pass the test are closed, and one row is added if the step is accepted. -/
theorem nextDb_rows {db : AttrIndexDb} (s : MergeStep) (hlen : db.attr.rows.length < 2 ^ 31) :
    ∃ valInt, (nextDb db s).attr.rows =
      (db.attr.rows.map fun r =>
        if r ∈ scanned (s.past db) ∧ stepCloses s.op r = true then r.setValidUntil s.time else r) ++
      if Accepted db s then [⟨db.attr.rows.length + 1, s.seed, s.key, s.op.val, valInt, s.time,
        s.stop db, s.op.truncates⟩] else [] := by
  have hrows := closePastSiblings_rows_of_lt hlen (stepCloses s.op) s.time (s.past db)
    fun r hr => (AttrTable.mem_siblings.mp (AttrTable.mem_findPastSiblings.mp hr).1).1
  unfold MergeStep.past at hrows
  simp only [accepted_iff]
  unfold nextDb
  rw [merge_eq]
  unfold mergeSiblings
  simp only [future_closePastSiblings hlen, closePastSiblings_current]
  obtain ⟨valInt, hins⟩ := insertAttr_eq { db with
    attr := (closePastSiblings (stepCloses s.op) s.time
      (db.attr.findPastSiblings s.ord s.seed s.key s.time) db.attr).2 }
    s.seed s.key s.op.val s.time (s.stop db) s.op.truncates
  refine ⟨valInt, ?_⟩
  refine (congrArg (fun res => (res : Res × AttrIndexDb).2.attr.rows) hins).trans ?_
  show (if valueFits db s.key s.op.val = true then _ else _ : Res × AttrIndexDb).2.attr.rows = _
  cases valueFits db s.key s.op.val with
  | true =>
    rw [if_pos rfl, if_pos rfl]
    show (closePastSiblings _ _ _ _).2.rows ++ _ = _
    rw [hrows, List.length_map]
    rfl
  | false =>
    rw [if_neg Bool.false_ne_true, if_neg Bool.false_ne_true, List.append_nil]
    exact hrows

end MergeLemmas

end Everarch
