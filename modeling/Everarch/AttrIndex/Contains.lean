import Everarch.AttrIndex.QueryMeaning
import Everarch.Lib.Sql.Glob

/-!
# The contains condition

The condition `key~needle` against the seeds that have a value with the needle in it. The needle
stands between two stars in a glob pattern, where some characters have a meaning of their own.

* `ContainsLemmas.selectsContaining_iff`: what is left to show about the values.

Result: `contains_means_contains_iff`.
-/

namespace Everarch

open Sql

/-- The text is over ASCII. -/
def AsciiText (s : String) : Prop :=
  ∀ c ∈ s.toList, c.toNat < 128

instance (s : String) : Decidable (AsciiText s) :=
  List.decidableBAll _ _

/-- The values in the database are over ASCII. -/
def AttrIndexDb.AsciiValues (db : AttrIndexDb) : Prop :=
  ∀ r ∈ db.attr.rows, ∀ v ∈ r.valStr, AsciiText v

/-- The seed has a value for the key, valid at `t`, that contains the needle in lower case. -/
def HasContaining (db : AttrIndexDb) (t : Int) (seed : ClaimRef) (key needle : String) : Prop :=
  ∃ r ∈ db.attr.rows, r.seed = seed ∧ r.key = key ∧
    (∃ v, r.valStr = some v ∧ (lower needle).toList <:+: (lower v).toList) ∧ r.ValidAt t

/-- The query selects exactly the seeds with such a value. -/
def SelectsContaining (db : AttrIndexDb) (q : AttrQuery) (key needle : String) : Prop :=
  ∃ stmt, q.statement = some stmt ∧ ∀ v, v ∈ evalSelect db.toSql [] stmt.query ↔
    ∃ seed : ClaimRef, v = .blob seed.toList ∧ SeedAt db q.effectiveTime seed ∧
      HasContaining db q.effectiveTime seed key needle

/-- On every database and at every time, `key~needle` selects the seeds whose values contain the
needle. -/
def ContainsMeansContains (key needle : String) : Prop :=
  ∀ db : AttrIndexDb, db.AsciiValues → ∀ q : AttrQuery,
    q.root = some (.containsCnd key needle) → SelectsContaining db q key needle

namespace ContainsLemmas

/-! ### ASCII -/

theorem ascii_cases {P : Char → Prop} (h : ∀ n < 128, P (Char.ofNat n)) {c : Char}
    (hc : c.toNat < 128) : P c :=
  Char.ofNat_toNat c ▸ h c.toNat hc

theorem globSpecial_toLower {c : Char} (hc : c.toNat < 128) :
    GlobSpecial c.toLower ↔ GlobSpecial c :=
  ascii_cases (P := fun c => GlobSpecial c.toLower ↔ GlobSpecial c) (by decide) hc

theorem toLower_toLower {c : Char} (hc : c.toNat < 128) : c.toLower.toLower = c.toLower :=
  ascii_cases (P := fun c => c.toLower.toLower = c.toLower) (by decide) hc

theorem toNat_toLower_lt {c : Char} (hc : c.toNat < 128) : c.toLower.toNat < 128 :=
  ascii_cases (P := fun c => c.toLower.toNat < 128) (by decide) hc

theorem toList_lower (s : String) : (lower s).toList = s.toList.map Char.toLower :=
  String.toList_ofList

theorem toList_pattern (needle : String) :
    (lower ("*" ++ needle ++ "*")).toList = '*' :: ((lower needle).toList ++ ['*']) := by
  rw [toList_lower, toList_lower, String.toList_append, String.toList_append, List.map_append,
    List.map_append]
  rfl

/-- What is special in a needle is special in its lower case. -/
theorem special_lower_iff {needle : String} (h : AsciiText needle) :
    (∀ c ∈ (lower needle).toList, ¬GlobSpecial c) ↔ ∀ c ∈ needle.toList, ¬GlobSpecial c := by
  rw [toList_lower, List.forall_mem_map]
  exact forall₂_congr fun c hc => not_congr (globSpecial_toLower (h c hc))

/-- A text with characters of a lower case is its own lower case. -/
theorem lower_eq_self {needle s : String} (h : AsciiText needle)
    (hs : ∀ c ∈ s.toList, c ∈ (lower needle).toList ∨ c = 'a') : lower s = s ∧ AsciiText s := by
  have hchar : ∀ c ∈ s.toList, c.toLower = c ∧ c.toNat < 128 := by
    intro c hc
    rcases hs c hc with hmem | rfl
    · rw [toList_lower] at hmem
      obtain ⟨d, hd, rfl⟩ := List.mem_map.mp hmem
      exact ⟨toLower_toLower (h d hd), toNat_toLower_lt (h d hd)⟩
    · exact ⟨rfl, by decide⟩
  refine ⟨String.toList_inj.mp ?_, fun c hc => (hchar c hc).2⟩
  rw [toList_lower]
  exact (List.map_congr_left fun c hc => (hchar c hc).1).trans (List.map_id' _)

/-! ### Queries -/

theorem selectsContaining_iff {db : AttrIndexDb} {q : AttrQuery} {key needle : String}
    (hroot : q.root = some (.containsCnd key needle)) :
    SelectsContaining db q key needle ↔ ∀ seed, SeedAt db q.effectiveTime seed →
      ((QueryNode.containsCnd key needle).Holds db q.effectiveTime seed ↔
        HasContaining db q.effectiveTime seed key needle) := by
  have hnot : ∀ l r, q.root ≠ some (.boolOr l r) := by
    intro l r h
    rw [hroot] at h
    cases h
  obtain ⟨stmt, hstmt, hselect⟩ : q.SelectsIntended db :=
    QueryMeaningLemmas.selectsIntended_of_not_or hnot
  have hintends : ∀ seed, q.Intends db seed ↔ SeedAt db q.effectiveTime seed ∧
      (QueryNode.containsCnd key needle).Holds db q.effectiveTime seed := by
    intro seed
    refine and_congr Iff.rfl ⟨fun h => h _ hroot, fun h root hr => ?_⟩
    obtain rfl := Option.some.inj (hroot.symm.trans hr)
    exact h
  simp only [hintends] at hselect
  constructor
  · rintro ⟨stmt', hstmt', hselect'⟩ seed hseed
    obtain rfl := Option.some.inj (hstmt.symm.trans hstmt')
    have hiff := (hselect (.blob seed.toList)).symm.trans (hselect' (.blob seed.toList))
    simp only [QueryMeaningLemmas.blob_inj, exists_eq_left', hseed, true_and] at hiff
    exact hiff
  · intro hall
    refine ⟨stmt, hstmt, fun v => (hselect v).trans (exists_congr fun seed => ?_)⟩
    exact and_congr Iff.rfl (and_congr_right (hall seed))

/-- A needle without special characters is looked for as it is. -/
theorem holds_iff_of_plain {needle : String} (hneedle : AsciiText needle)
    (hplain : ∀ c ∈ needle.toList, ¬GlobSpecial c) (db : AttrIndexDb) (t : Int) (seed : ClaimRef)
    (key : String) : (QueryNode.containsCnd key needle).Holds db t seed ↔
      HasContaining db t seed key needle := by
  have hglob : ∀ v, glob (lower ("*" ++ needle ++ "*")) (lower v) = true ↔
      (lower needle).toList <:+: (lower v).toList := fun v =>
    glob_stars_of_plain (toList_pattern needle) ((special_lower_iff hneedle).mpr hplain)
  simp only [QueryNode.Holds, HasContaining, hglob]

/-! ### A database with one value -/

/-- A database with one seed, whose key has the value `v` since time 0. -/
def oneValueDb (key v : String) : AttrIndexDb where
  attrDef := []
  attr := AttrTable.empty.insert (Vector.replicate _ 0) key (some v) none 0 none true
  claim := [⟨Vector.replicate _ 0, Vector.replicate _ 0⟩]
  claimArchive := []
  claimSet := [⟨Vector.replicate _ 0, 0, 0, none⟩]

theorem rows_oneValueDb (key v : String) : (oneValueDb key v).attr.rows =
    [⟨1, Vector.replicate _ 0, key, some v, none, 0, none, true⟩] := rfl

theorem seedAt_oneValueDb (key v : String) :
    SeedAt (oneValueDb key v) 0 (Vector.replicate _ 0) := by
  refine ⟨⟨_, List.mem_singleton_self _, rfl, _, List.mem_singleton_self _, ?_, Int.le_refl 0⟩, ?_⟩
  · decide
  · exact fun a ha => absurd ha List.not_mem_nil

/-- On it the condition is about the one value. -/
theorem oneValueDb_iff {key needle v : String}
    (h : (QueryNode.containsCnd key needle).Holds (oneValueDb key v) 0 (Vector.replicate _ 0) ↔
      HasContaining (oneValueDb key v) 0 (Vector.replicate _ 0) key needle) :
    glob (lower ("*" ++ needle ++ "*")) (lower v) = true ↔
      (lower needle).toList <:+: (lower v).toList := by
  have hvalid : AttrRow.ValidAt ⟨1, Vector.replicate _ 0, key, some v, none, 0, none, true⟩ 0 :=
    ⟨Int.le_refl 0, fun u hu => by cases hu⟩
  simpa only [QueryNode.Holds, HasContaining, rows_oneValueDb, List.mem_singleton,
    exists_eq_left, Option.some.injEq, exists_eq_left', hvalid, and_true, true_and] using h

theorem plain_of_contains {key needle : String} (hneedle : AsciiText needle)
    (h : ContainsMeansContains key needle) : ∀ c ∈ needle.toList, ¬GlobSpecial c := by
  refine (special_lower_iff hneedle).mp fun c hc hspecial => ?_
  obtain ⟨v, hv, hne⟩ := exists_glob_stars_ne (toList_pattern needle) hc hspecial
  obtain ⟨hlower, hascii⟩ := lower_eq_self hneedle hv
  have hvalues : (oneValueDb key v).AsciiValues := by
    intro r hr w hw
    rw [rows_oneValueDb] at hr
    obtain rfl := List.mem_singleton.mp hr
    cases hw
    exact hascii
  have hselect := h (oneValueDb key v) hvalues ⟨some (.containsCnd key needle), 0, 100, 0⟩ rfl
  have hiff := oneValueDb_iff
    ((selectsContaining_iff rfl).mp hselect _ (seedAt_oneValueDb key v))
  rw [hlower] at hiff
  exact hne hiff

end ContainsLemmas

open ContainsLemmas

/-- `key~needle` means contains exactly if the needle has none of the characters `*`, `?` and
`[`. -/
theorem contains_means_contains_iff {key needle : String} (hneedle : AsciiText needle) :
    ContainsMeansContains key needle ↔ ∀ c ∈ needle.toList, c ≠ '*' ∧ c ≠ '?' ∧ c ≠ '[' := by
  have hspecial : ∀ c, ¬GlobSpecial c ↔ c ≠ '*' ∧ c ≠ '?' ∧ c ≠ '[' := fun c => by
    rw [GlobSpecial, not_or, not_or]
  simp only [← hspecial]
  constructor
  · exact plain_of_contains hneedle
  · intro hplain db _ q hroot
    refine (selectsContaining_iff hroot).mpr fun seed _ => ?_
    exact holds_iff_of_plain hneedle hplain db q.effectiveTime seed key

theorem contains_means_contains_iff_word : ContainsMeansContains "k" "word" :=
  (contains_means_contains_iff (by decide)).mpr (by simp)

/-- `k~[` does not find the value `[`. -/
theorem bracket_not_found :
    ¬SelectsContaining (oneValueDb "k" "[") ⟨some (.containsCnd "k" "["), 0, 100, 0⟩ "k" "[" := by
  intro h
  have hiff := oneValueDb_iff ((selectsContaining_iff rfl).mp h _ (seedAt_oneValueDb "k" "["))
  have htext : (lower "[").toList = ['['] := by
    rw [toList_lower]
    rfl
  -- the bracket opens a set that nothing closes
  obtain ⟨t, -, hmatch⟩ := (glob_stars (toList_pattern "[")).mp (hiff.mpr (List.infix_refl _))
  rw [htext] at hmatch
  obtain ⟨c, t, q, -, hclass, -⟩ := GlobLemmas.globMatch_set.mp hmatch
  obtain ⟨r, hr⟩ := GlobLemmas.globClass_rest hclass
  have hstar : ['*'] = r ++ ']' :: q := hr
  have hclosed : ']' ∈ ['*'] := hstar ▸ List.mem_append_right r List.mem_cons_self
  exact absurd hclosed (by decide)

end Everarch
