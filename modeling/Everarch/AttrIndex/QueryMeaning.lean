import Everarch.AttrIndex.Query
import Everarch.Lib.Sql.Semantics

/-!
# What attribute queries select

The tables of the attribute index as SQL tables, what a query is meant to select
(`AttrQuery.Intends`) and what its statement selects (`mem_selected`).

* `isTrue_nodeExpr`: the parsed condition of a node means what the node says.
* `isTrue_whereExpr`: the parsed condition of the statement. With a root `||` the
  fixed part guards the left side only.

Result: `query_meaning_iff`, the exact condition under which a query selects what it
is meant to; `query_or_unguarded`: a query that selects an archived seed.
-/

namespace Everarch

open Sql QueryLemmas

/-! ## The tables as SQL tables -/

/-- A column that may be null. -/
def nullable {α : Type} (f : α → Value) : Option α → Value
  | none => .null
  | some a => f a

def ClaimRow.toRow (r : ClaimRow) : List Value :=
  [.blob r.ref.toList, .blob r.seed.toList]

def ClaimSetRow.toRow (r : ClaimSetRow) : List Value :=
  [.blob r.ref.toList, .int r.created, .int r.failCounter, nullable .int r.lastFailTimestamp]

def ClaimArchiveRow.toRow (r : ClaimArchiveRow) : List Value :=
  [.blob r.seed.toList, .int r.validUntil]

def AttrRow.toRow (r : AttrRow) : List Value :=
  [.blob r.seed.toList, .text r.key, nullable .text r.valStr, nullable .int r.valInt,
    .int r.validFrom, nullable .int r.validUntil, .int (if r.trunc then 1 else 0)]

/-- The tables that queries read, with the columns of `evr_setup_attr_index_db`. -/
def AttrIndexDb.toSql (db : AttrIndexDb) : Database
  | "claim" => some ⟨["ref", "seed"], db.claim.map (·.toRow)⟩
  | "claim_set" =>
    some ⟨["ref", "created", "fail_counter", "last_fail_timestamp"], db.claimSet.map (·.toRow)⟩
  | "claim_archive" => some ⟨["seed", "valid_until"], db.claimArchive.map (·.toRow)⟩
  | "attr" =>
    some ⟨["seed", "key", "val_str", "val_int", "valid_from", "valid_until", "trunc"],
      db.attr.rows.map (·.toRow)⟩
  | _ => none

/-! ## What queries are meant to select -/

/-- The row is valid at `t`. -/
def AttrRow.ValidAt (r : AttrRow) (t : Int) : Prop :=
  r.validFrom ≤ t ∧ ∀ u ∈ r.validUntil, t < u

/-- The boolean reading of a node, its leaves evaluated on the attr rows valid at `t`. -/
def QueryNode.Holds (db : AttrIndexDb) (t : Int) (seed : ClaimRef) : QueryNode → Prop
  | .refCnd ref => seed = ref
  | .eqCnd key value =>
    ∃ r ∈ db.attr.rows, r.seed = seed ∧ r.key = key ∧ r.valStr = some value ∧ r.ValidAt t
  | .containsCnd key needle =>
    ∃ r ∈ db.attr.rows, r.seed = seed ∧ r.key = key ∧
      (∃ v, r.valStr = some v ∧ glob (lower ("*" ++ needle ++ "*")) (lower v) = true) ∧ r.ValidAt t
  | .boolAnd l r => l.Holds db t seed ∧ r.Holds db t seed
  | .boolOr l r => l.Holds db t seed ∨ r.Holds db t seed

/-- The seed has a claim whose own claim set was created up to `t`, and is not
archived at `t`. -/
def SeedAt (db : AttrIndexDb) (t : Int) (seed : ClaimRef) : Prop :=
  (∃ c ∈ db.claim, c.seed = seed ∧
    ∃ cs ∈ db.claimSet, cs.ref = (splitClaimRef c.ref).1 ∧ cs.created ≤ t) ∧
  ∀ a ∈ db.claimArchive, a.seed = seed → t < a.validUntil

/-- The seeds that a query should select. -/
def AttrQuery.Intends (db : AttrIndexDb) (q : AttrQuery) (seed : ClaimRef) : Prop :=
  SeedAt db q.effectiveTime seed ∧ ∀ root, q.root = some root → root.Holds db q.effectiveTime seed

/-- The statement selects exactly the seeds that the query should select, before
limit and offset apply. -/
def AttrQuery.SelectsIntended (db : AttrIndexDb) (q : AttrQuery) : Prop :=
  ∃ stmt, q.statement = some stmt ∧ ∀ v, v ∈ evalSelect db.toSql [] stmt.query ↔
    ∃ seed : ClaimRef, v = .blob seed.toList ∧ q.Intends db seed

namespace QueryMeaningLemmas

def claimFrame (c : ClaimRow) : Frame :=
  ⟨"c", ["ref", "seed"], c.toRow⟩

def claimSetFrame (cs : ClaimSetRow) : Frame :=
  ⟨"cs", ["ref", "created", "fail_counter", "last_fail_timestamp"], cs.toRow⟩

def archiveFrame (a : ClaimArchiveRow) : Frame :=
  ⟨"ca", ["seed", "valid_until"], a.toRow⟩

def attrFrame (r : AttrRow) : Frame :=
  ⟨"attr", ["seed", "key", "val_str", "val_int", "valid_from", "valid_until", "trunc"], r.toRow⟩

theorem mem_joinRows_claims {db : AttrIndexDb} {scope : List Frame} :
    scope ∈ joinRows db.toSql [("claim", "c"), ("claim_set", "cs")] ↔
      ∃ c ∈ db.claim, ∃ cs ∈ db.claimSet, scope = [claimFrame c, claimSetFrame cs] := by
  simp only [joinRows, AttrIndexDb.toSql, claimFrame, claimSetFrame, List.mem_flatMap,
    List.mem_map, exists_exists_and_eq_and, List.mem_singleton, exists_eq_left]
  simp only [eq_comm]

theorem mem_joinRows_attr {db : AttrIndexDb} {scope : List Frame} :
    scope ∈ joinRows db.toSql [("attr", "attr")] ↔ ∃ r ∈ db.attr.rows, scope = [attrFrame r] := by
  simp only [joinRows, AttrIndexDb.toSql, attrFrame, List.mem_flatMap, List.mem_map,
    exists_exists_and_eq_and, List.mem_singleton, exists_eq_left]
  simp only [eq_comm]

theorem mem_joinRows_archive {db : AttrIndexDb} {scope : List Frame} :
    scope ∈ joinRows db.toSql [("claim_archive", "ca")] ↔
      ∃ a ∈ db.claimArchive, scope = [archiveFrame a] := by
  simp only [joinRows, AttrIndexDb.toSql, archiveFrame, List.mem_flatMap, List.mem_map,
    exists_exists_and_eq_and, List.mem_singleton, exists_eq_left]
  simp only [eq_comm]

theorem blob_inj {n : Nat} {a b : Vector UInt8 n} :
    Value.blob a.toList = Value.blob b.toList ↔ a = b := by
  rw [Value.blob.injEq, Vector.toList_inj]

theorem isTrue_validUntil (db : Database) (r : AttrRow) (env : List (List Frame)) (t : Int) :
    (eval db ([attrFrame r] :: env) (.bin .or
      (.bin .gt (.column ⟨none, "valid_until"⟩) (.value (.int t)))
      (.isNull false (.column ⟨none, "valid_until"⟩)))).IsTrue ↔ ∀ u ∈ r.validUntil, t < u := by
  show (evalBin .or (evalBin .gt (nullable .int r.validUntil) (.int t)) (ofTruth (some
    ((nullable .int r.validUntil = .null) != false)))).IsTrue ↔ _
  rw [isTrue_or, isTrue_ofTruth]
  cases r.validUntil with
  | none => simp [nullable]
  | some u =>
    show (evalBin .gt (.int u) (.int t)).IsTrue ∨ _ ↔ _
    rw [isTrue_gt]
    simp [nullable]

/-- The leaves that look for an attr row. -/
theorem isTrue_attrExpr {db : AttrIndexDb} {c : ClaimRow} {cs : ClaimSetRow} {t : Int}
    {key : String} {valTest : Expr} :
    (eval db.toSql [[claimFrame c, claimSetFrame cs]] (attrExpr t key valTest)).IsTrue ↔
      ∃ r ∈ db.attr.rows, r.seed = c.seed ∧ r.key = key ∧ r.valStr.isSome ∧
        (eval db.toSql [[attrFrame r], [claimFrame c, claimSetFrame cs]] valTest).IsTrue ∧
        r.ValidAt t := by
  have hcond : ∀ r : AttrRow, (eval db.toSql [[attrFrame r], [claimFrame c, claimSetFrame cs]]
      (.bin .and (.bin .and (.bin .and (.bin .and
        (.bin .eq (.column ⟨none, "key"⟩) (.value (.text key))) valTest)
        (.bin .le (.column ⟨none, "valid_from"⟩) (.value (.int t))))
        (.bin .or (.bin .gt (.column ⟨none, "valid_until"⟩) (.value (.int t)))
          (.isNull false (.column ⟨none, "valid_until"⟩))))
        (.isNull true (.column ⟨none, "val_str"⟩)))).IsTrue ↔
      (((r.key = key ∧
        (eval db.toSql [[attrFrame r], [claimFrame c, claimSetFrame cs]] valTest).IsTrue) ∧
        r.validFrom ≤ t) ∧ ∀ u ∈ r.validUntil, t < u) ∧ r.valStr.isSome := by
    intro r
    show (evalBin .and (evalBin .and (evalBin .and (evalBin .and (evalBin .eq (.text r.key)
      (.text key)) _) (evalBin .le (.int r.validFrom) (.int t))) _) _).IsTrue ↔ _
    rw [isTrue_and, isTrue_and, isTrue_and, isTrue_and, isTrue_eq, isTrue_le]
    refine and_congr (and_congr (and_congr (and_congr ?_ Iff.rfl) Iff.rfl) ?_) ?_
    · simp
    · exact isTrue_validUntil db.toSql r [[claimFrame c, claimSetFrame cs]] t
    · rw [isTrue_isNull]
      show (nullable .text r.valStr = .null ↔ _) ↔ _
      cases r.valStr with
      | none => simp [nullable]
      | some v => simp [nullable]
  unfold attrExpr
  rw [isTrue_in, mem_evalSelect]
  have hseed : eval db.toSql [[claimFrame c, claimSetFrame cs]] seedExpr =
      .blob c.seed.toList := rfl
  rw [hseed]
  constructor
  · rintro ⟨-, scope, hscope, hc, hval⟩
    obtain ⟨r, hr, rfl⟩ := mem_joinRows_attr.mp hscope
    obtain ⟨⟨⟨⟨hkey, htest⟩, hfrom⟩, huntil⟩, hsome⟩ := (hcond r).mp hc
    exact ⟨r, hr, blob_inj.mp hval, hkey, hsome, htest, hfrom, huntil⟩
  · rintro ⟨r, hr, hs, hkey, hsome, htest, hfrom, huntil⟩
    refine ⟨nofun, [attrFrame r], mem_joinRows_attr.mpr ⟨r, hr, rfl⟩, ?_, blob_inj.mpr hs⟩
    exact (hcond r).mpr ⟨⟨⟨⟨hkey, htest⟩, hfrom⟩, huntil⟩, hsome⟩

/-- The condition of a node means what the node says. -/
theorem isTrue_nodeExpr (db : AttrIndexDb) (c : ClaimRow) (cs : ClaimSetRow) (t : Int)
    (node : QueryNode) :
    (eval db.toSql [[claimFrame c, claimSetFrame cs]] (nodeExpr t node)).IsTrue ↔
      node.Holds db t c.seed := by
  induction node with
  | refCnd ref =>
    show (evalBin .eq (.blob c.seed.toList) (.blob ref.toList)).IsTrue ↔ c.seed = ref
    rw [isTrue_eq, blob_inj]
    simp
  | eqCnd key value =>
    show (eval _ _ (attrExpr t key (eqTest value))).IsTrue ↔ _
    rw [isTrue_attrExpr]
    refine exists_congr fun r => and_congr Iff.rfl (and_congr Iff.rfl (and_congr Iff.rfl ?_))
    show r.valStr.isSome = true ∧ (evalBin .eq (nullable .text r.valStr) (.text value)).IsTrue ∧
      r.ValidAt t ↔ _
    rw [isTrue_eq]
    cases r.valStr with
    | none => simp
    | some v => simp [nullable]
  | containsCnd key needle =>
    show (eval _ _ (attrExpr t key (containsTest needle))).IsTrue ↔ _
    rw [isTrue_attrExpr]
    refine exists_congr fun r => and_congr Iff.rfl (and_congr Iff.rfl (and_congr Iff.rfl ?_))
    cases hv : r.valStr with
    | none => simp
    | some v =>
      have htest : eval db.toSql [[attrFrame r], [claimFrame c, claimSetFrame cs]]
          (containsTest needle) = callFunction "glob" [.text (lower ("*" ++ needle ++ "*")),
            callFunction "lower" [nullable .text r.valStr]] := rfl
      rw [htest, hv]
      show _ ∧ (ofTruth (some (glob _ (lower v)))).IsTrue ∧ _ ↔ _
      rw [isTrue_ofTruth]
      simp
  | boolAnd l r ihl ihr => exact isTrue_and.trans (and_congr ihl ihr)
  | boolOr l r ihl ihr => exact isTrue_or.trans (or_congr ihl ihr)

theorem substrOf_ref (ref : ClaimRef) :
    substrOf ref.toList 0 29 = (splitClaimRef ref).1.toList := by
  have hlen : ref.toList.length = 30 := Vector.length_toList
  refine List.ext_getElem ?_ fun i h1 h2 => ?_
  · simp [substrOf, splitClaimRef, hlen, blobRefSize]
  · simp [substrOf, splitClaimRef]
    rfl

/-- The fixed condition on a claim and a claim set. -/
def BaseHolds (db : AttrIndexDb) (t : Int) (c : ClaimRow) (cs : ClaimSetRow) : Prop :=
  cs.ref = (splitClaimRef c.ref).1 ∧ cs.created ≤ t ∧
    ∀ a ∈ db.claimArchive, a.seed = c.seed → t < a.validUntil

theorem isTrue_archiveUnit (db : AttrIndexDb) (c : ClaimRow) (cs : ClaimSetRow) (t : Int)
    (tok : Token) :
    (eval db.toSql [[claimFrame c, claimSetFrame cs]] (archiveUnit tok (.int t)).2).IsTrue ↔
      ∀ a ∈ db.claimArchive, a.seed = c.seed → t < a.validUntil := by
  have hmem : ∀ v, v ∈ evalSelect db.toSql [[claimFrame c, claimSetFrame cs]]
      (.mk false ⟨some "ca", "seed"⟩ [("claim_archive", "ca")]
        (.bin .and (.bin .eq (.column ⟨some "ca", "seed"⟩) seedExpr)
          (.bin .le (.column ⟨some "ca", "valid_until"⟩) (.value (.int t))))) ↔
      ∃ a ∈ db.claimArchive, (a.seed = c.seed ∧ a.validUntil ≤ t) ∧ .blob a.seed.toList = v := by
    intro v
    rw [mem_evalSelect]
    have hcond : ∀ a : ClaimArchiveRow,
        (eval db.toSql ([archiveFrame a] :: [[claimFrame c, claimSetFrame cs]])
          (.bin .and (.bin .eq (.column ⟨some "ca", "seed"⟩) seedExpr)
            (.bin .le (.column ⟨some "ca", "valid_until"⟩) (.value (.int t))))).IsTrue ↔
          a.seed = c.seed ∧ a.validUntil ≤ t := by
      intro a
      show (evalBin .and (evalBin .eq (.blob a.seed.toList) (.blob c.seed.toList))
        (evalBin .le (.int a.validUntil) (.int t))).IsTrue ↔ _
      rw [isTrue_and, isTrue_eq, isTrue_le, blob_inj]
      simp
    constructor
    · rintro ⟨scope, hscope, hc, hv⟩
      obtain ⟨a, ha, rfl⟩ := mem_joinRows_archive.mp hscope
      exact ⟨a, ha, (hcond a).mp hc, hv⟩
    · rintro ⟨a, ha, hc, hv⟩
      exact ⟨_, mem_joinRows_archive.mpr ⟨a, ha, rfl⟩, (hcond a).mpr hc, hv⟩
  have hseed : eval db.toSql [[claimFrame c, claimSetFrame cs]] seedExpr =
      .blob c.seed.toList := rfl
  unfold archiveUnit
  rw [isTrue_not_in (by rw [hseed]; exact nofun), hseed, hmem]
  · constructor
    · intro h a ha hs
      by_contra hle
      exact h ⟨a, ha, ⟨hs, Int.not_lt.mp hle⟩, blob_inj.mpr hs⟩
    · rintro h ⟨a, ha, ⟨hs, hle⟩, -⟩
      exact absurd (h a ha hs) (Int.not_lt.mpr hle)
  · rw [hmem]
    rintro ⟨a, -, -, hv⟩
    exact nomatch hv

theorem isTrue_base (db : AttrIndexDb) (c : ClaimRow) (cs : ClaimSetRow) (t : Int)
    (units : List (List Token × Expr)) :
    (eval db.toSql [[claimFrame c, claimSetFrame cs]]
      (conj ownSetUnit.2 (baseUnits t ++ units))).IsTrue ↔ BaseHolds db t c cs ∧
        ∀ u ∈ units, (eval db.toSql [[claimFrame c, claimSetFrame cs]] u.2).IsTrue := by
  have hown : (eval db.toSql [[claimFrame c, claimSetFrame cs]] ownSetUnit.2).IsTrue ↔
      cs.ref = (splitClaimRef c.ref).1 := by
    show (evalBin .eq (.blob cs.ref.toList) (.blob (substrOf c.ref.toList 0 29))).IsTrue ↔ _
    rw [isTrue_eq, substrOf_ref, blob_inj]
    simp
  have hcreated : (eval db.toSql [[claimFrame c, claimSetFrame cs]]
      (createdUnit (.value (.int t)) (.int t)).2).IsTrue ↔ cs.created ≤ t := isTrue_le
  rw [isTrue_conj, hown, List.forall_mem_append]
  unfold baseUnits BaseHolds
  rw [List.forall_mem_cons, List.forall_mem_singleton, hcreated, isTrue_archiveUnit]
  constructor
  · rintro ⟨h1, ⟨h2, h3⟩, h4⟩
    exact ⟨⟨h1, h2, h3⟩, h4⟩
  · rintro ⟨⟨h1, h2, h3⟩, h4⟩
    exact ⟨h1, ⟨h2, h3⟩, h4⟩

/-- When the whole condition is true of a claim and a claim set. -/
theorem isTrue_whereExpr (db : AttrIndexDb) (c : ClaimRow) (cs : ClaimSetRow) (t : Int)
    (root : Option QueryNode) :
    (eval db.toSql [[claimFrame c, claimSetFrame cs]] (whereExpr t root)).IsTrue ↔
      match root with
      | none => BaseHolds db t c cs
      | some (.boolOr l r) =>
        BaseHolds db t c cs ∧ l.Holds db t c.seed ∨ r.Holds db t c.seed
      | some node => BaseHolds db t c cs ∧ node.Holds db t c.seed := by
  cases root with
  | none =>
    show (eval _ _ (conj ownSetUnit.2 (baseUnits t))).IsTrue ↔ _
    have h := isTrue_base db c cs t []
    rw [List.append_nil] at h
    rw [h]
    exact and_iff_left (List.forall_mem_nil _)
  | some node =>
    have hunit : ∀ leaf, (eval db.toSql [[claimFrame c, claimSetFrame cs]]
        (conj ownSetUnit.2 (baseUnits t ++ [(boundToks t leaf, nodeExpr t leaf)]))).IsTrue ↔
          BaseHolds db t c cs ∧ leaf.Holds db t c.seed := by
      intro leaf
      rw [isTrue_base, List.forall_mem_singleton, isTrue_nodeExpr]
    cases node with
    | refCnd ref => exact hunit _
    | eqCnd key value => exact hunit _
    | containsCnd key needle => exact hunit _
    | boolAnd l r =>
      show (eval _ _ (conj ownSetUnit.2 (baseUnits t ++ [parenUnit t l, parenUnit t r]))).IsTrue ↔ _
      rw [isTrue_base, List.forall_mem_cons, List.forall_mem_singleton]
      exact and_congr Iff.rfl
        (and_congr (isTrue_nodeExpr db c cs t l) (isTrue_nodeExpr db c cs t r))
    | boolOr l r =>
      show (evalBin .or (eval _ _ (conj ownSetUnit.2 (baseUnits t ++ [parenUnit t l]))) _).IsTrue ↔ _
      rw [isTrue_or, isTrue_base, List.forall_mem_singleton]
      exact or_congr (and_congr Iff.rfl (isTrue_nodeExpr db c cs t l)) (isTrue_nodeExpr db c cs t r)

/-- The values that a query selects. -/
theorem mem_selected (db : AttrIndexDb) (q : AttrQuery) (v : Value) :
    (∃ stmt, q.statement = some stmt ∧ v ∈ evalSelect db.toSql [] stmt.query) ↔
      ∃ c ∈ db.claim, ∃ cs ∈ db.claimSet, .blob c.seed.toList = v ∧
        match q.root with
        | none => BaseHolds db q.effectiveTime c cs
        | some (.boolOr l r) => BaseHolds db q.effectiveTime c cs ∧
            l.Holds db q.effectiveTime c.seed ∨ r.Holds db q.effectiveTime c.seed
        | some node => BaseHolds db q.effectiveTime c cs ∧ node.Holds db q.effectiveTime c.seed := by
  rw [statement_eq]
  simp only [Option.some.injEq, exists_eq_left', mem_evalSelect]
  constructor
  · rintro ⟨scope, hscope, hc, hv⟩
    obtain ⟨c, hcm, cs, hcs, rfl⟩ := mem_joinRows_claims.mp hscope
    exact ⟨c, hcm, cs, hcs, hv, (isTrue_whereExpr db c cs q.effectiveTime q.root).mp hc⟩
  · rintro ⟨c, hcm, cs, hcs, hv, hc⟩
    exact ⟨_, mem_joinRows_claims.mpr ⟨c, hcm, cs, hcs, rfl⟩,
      (isTrue_whereExpr db c cs q.effectiveTime q.root).mpr hc, hv⟩

theorem seedAt_iff {db : AttrIndexDb} {t : Int} {seed : ClaimRef} :
    SeedAt db t seed ↔ ∃ c ∈ db.claim, ∃ cs ∈ db.claimSet, c.seed = seed ∧ BaseHolds db t c cs := by
  constructor
  · rintro ⟨⟨c, hc, hseed, cs, hcs, href, hcreated⟩, harch⟩
    exact ⟨c, hc, cs, hcs, hseed, href, hcreated, fun a ha hs => harch a ha (hs.trans hseed)⟩
  · rintro ⟨c, hc, cs, hcs, hseed, href, hcreated, harch⟩
    exact ⟨⟨c, hc, hseed, cs, hcs, href, hcreated⟩, fun a ha hs => harch a ha (hs.trans hseed.symm)⟩

/-- A condition on the seed behind the fixed condition. -/
theorem mem_guarded {db : AttrIndexDb} {t : Int} {v : Value} (P : ClaimRef → Prop) :
    (∃ c ∈ db.claim, ∃ cs ∈ db.claimSet, .blob c.seed.toList = v ∧ BaseHolds db t c cs ∧ P c.seed) ↔
      ∃ seed : ClaimRef, v = .blob seed.toList ∧ SeedAt db t seed ∧ P seed := by
  constructor
  · rintro ⟨c, hc, cs, hcs, rfl, hbase, hp⟩
    exact ⟨c.seed, rfl, seedAt_iff.mpr ⟨c, hc, cs, hcs, rfl, hbase⟩, hp⟩
  · rintro ⟨seed, rfl, hseed, hp⟩
    obtain ⟨c, hc, cs, hcs, rfl, hbase⟩ := seedAt_iff.mp hseed
    exact ⟨c, hc, cs, hcs, rfl, hbase, hp⟩

theorem selectsIntended_iff (db : AttrIndexDb) (q : AttrQuery) :
    q.SelectsIntended db ↔ ∀ v,
      (∃ stmt, q.statement = some stmt ∧ v ∈ evalSelect db.toSql [] stmt.query) ↔
        ∃ seed : ClaimRef, v = .blob seed.toList ∧ q.Intends db seed := by
  unfold AttrQuery.SelectsIntended
  rw [statement_eq]
  simp only [Option.some.injEq, exists_eq_left']

/-- Without a root `||` a query selects what it is meant to. -/
theorem selectsIntended_of_not_or {db : AttrIndexDb} {q : AttrQuery}
    (h : ∀ l r, q.root ≠ some (.boolOr l r)) : q.SelectsIntended db := by
  rw [selectsIntended_iff]
  intro v
  rw [mem_selected]
  unfold AttrQuery.Intends
  rw [← mem_guarded]
  refine exists_congr fun c => and_congr Iff.rfl (exists_congr fun cs => and_congr Iff.rfl
    (and_congr Iff.rfl ?_))
  cases hroot : q.root with
  | none => exact ⟨fun hb => ⟨hb, nofun⟩, fun hb => hb.1⟩
  | some node =>
    have hone : (∀ root, some node = some root → root.Holds db q.effectiveTime c.seed) ↔
        node.Holds db q.effectiveTime c.seed :=
      ⟨fun hall => hall node rfl, fun hn root hr => Option.some.inj hr ▸ hn⟩
    rw [hone]
    cases node with
    | refCnd ref => exact Iff.rfl
    | eqCnd key value => exact Iff.rfl
    | containsCnd key needle => exact Iff.rfl
    | boolAnd l r => exact Iff.rfl
    | boolOr l r => exact absurd hroot (h l r)

/-- A root `||` selects what it is meant to if its right side is guarded, and only
then. -/
theorem selectsIntended_or {db : AttrIndexDb} {q : AttrQuery} {l r : QueryNode}
    (hroot : q.root = some (.boolOr l r)) :
    q.SelectsIntended db ↔ ∀ c ∈ db.claim, db.claimSet ≠ [] →
      r.Holds db q.effectiveTime c.seed → SeedAt db q.effectiveTime c.seed := by
  rw [selectsIntended_iff]
  constructor
  · intro h c hc hne hr
    obtain ⟨cs, hcs⟩ := List.exists_mem_of_ne_nil _ hne
    have hsel := (mem_selected db q (.blob c.seed.toList)).mpr
      ⟨c, hc, cs, hcs, rfl, by rw [hroot]; exact .inr hr⟩
    obtain ⟨seed, hv, hseed, -⟩ := (h _).mp hsel
    rw [blob_inj.mp hv]
    exact hseed
  · intro h v
    rw [mem_selected]
    constructor
    · rintro ⟨c, hc, cs, hcs, rfl, hcond⟩
      rw [hroot] at hcond
      refine ⟨c.seed, rfl, ?_, ?_⟩
      · rcases hcond with ⟨hbase, -⟩ | hr
        · exact seedAt_iff.mpr ⟨c, hc, cs, hcs, rfl, hbase⟩
        · exact h c hc (List.ne_nil_of_mem hcs) hr
      · intro root hr
        obtain rfl := Option.some.inj (hroot.symm.trans hr)
        exact hcond.imp And.right id
    · rintro ⟨seed, rfl, hseed, hall⟩
      obtain ⟨c, hc, cs, hcs, rfl, hbase⟩ := seedAt_iff.mp hseed
      refine ⟨c, hc, cs, hcs, rfl, ?_⟩
      rw [hroot]
      exact (hall _ hroot).imp (fun hl => ⟨hbase, hl⟩) id

end QueryMeaningLemmas

open QueryMeaningLemmas

/-- Every seed with a claim that satisfies the right side of a root `||` has a claim
whose own claim set was created up to the effective time and is not archived. -/
def AttrQuery.OrGuarded (db : AttrIndexDb) (q : AttrQuery) : Prop :=
  ∀ l r, q.root = some (.boolOr l r) → ∀ c ∈ db.claim, db.claimSet ≠ [] →
    r.Holds db q.effectiveTime c.seed → SeedAt db q.effectiveTime c.seed

/-- A query selects exactly the seeds it is meant to if and only if its root is no
`||` or the fixed condition does not matter for its right side. -/
theorem query_meaning_iff (db : AttrIndexDb) (q : AttrQuery) :
    q.SelectsIntended db ↔ q.OrGuarded db := by
  by_cases hor : ∃ l r, q.root = some (.boolOr l r)
  · obtain ⟨l, r, hroot⟩ := hor
    rw [selectsIntended_or hroot]
    constructor
    · intro h l' r' hroot'
      rw [hroot] at hroot'
      obtain ⟨-, rfl⟩ := QueryNode.boolOr.inj (Option.some.inj hroot')
      exact h
    · intro h
      exact h l r hroot
  · have hno : ∀ l r, q.root ≠ some (.boolOr l r) := fun l r hroot => hor ⟨l, r, hroot⟩
    exact ⟨fun _ l r hroot => absurd hroot (hno l r), fun _ => selectsIntended_of_not_or hno⟩

/-- A database with one seed, archived from time 7 on, whose key `k` has the value
`w` since time 5. -/
def archivedSeedDb : AttrIndexDb where
  attrDef := []
  attr := AttrTable.empty.insert (Vector.replicate _ 0) "k" (some "w") none 5 none true
  claim := [⟨Vector.replicate _ 0, Vector.replicate _ 0⟩]
  claimArchive := [⟨Vector.replicate _ 0, 7⟩]
  claimSet := [⟨Vector.replicate _ 0, 5, 0, none⟩]

/-- `k=v || k=w` at time 10 selects the archived seed. -/
theorem query_or_unguarded :
    ¬ AttrQuery.SelectsIntended archivedSeedDb
      ⟨some (.boolOr (.eqCnd "k" "v") (.eqCnd "k" "w")), 10, 100, 0⟩ := by
  rw [selectsIntended_or rfl]
  intro h
  have hguard := h ⟨Vector.replicate _ 0, Vector.replicate _ 0⟩ (by decide) (by decide)
    ⟨⟨1, Vector.replicate _ 0, "k", some "w", none, 5, none, true⟩, by decide, rfl, rfl, rfl,
      by decide, nofun⟩
  have hlt := hguard.2 ⟨Vector.replicate _ 0, 7⟩ (by decide) rfl
  exact absurd hlt (by decide)

end Everarch
