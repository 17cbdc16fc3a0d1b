import Everarch.AttrIndex.Table
import Everarch.Lib.Sql.Syntax

/-!
# Attribute queries

A query is rendered to SQL text node by node (attr-query-sql.c), put behind the fixed
part of the statement and bound (`evr_attr_build_sql_query` and
`evr_attr_query_claims` of attr-index-db.c). This file reads the text back.

* `appendCnd_lexes`, `bind_binds`, `parse_node`: what the text of a node parses to.
* `statement_eq`: the statement of a query. At the root the condition is not in
  parentheses, so a root `||` takes the fixed part for its left side (`whereExpr`).
-/

namespace Everarch

open Sql

/-! ## Queries and their text -/

/-- `struct evr_attr_query_node`, one constructor for each pair of `append_cnd` and
`bind` functions. -/
inductive QueryNode where
  | refCnd (ref : ClaimRef)
  | eqCnd (key value : String)
  | containsCnd (key needle : String)
  | boolAnd (l r : QueryNode)
  | boolOr (l r : QueryNode)
deriving DecidableEq, Repr

/-- `struct evr_attr_query`. The selector only decides what is reported of a seed. -/
structure AttrQuery where
  root : Option QueryNode
  effectiveTime : Int
  limit : Int
  offset : Int

/-- `evr_append_bool`. -/
def appendBool (l r joinStr : String) : String :=
  "(" ++ l ++ joinStr ++ r ++ ")"

/-- The text that `append_cnd` of a node appends. -/
def QueryNode.appendCnd : QueryNode → String
  | .refCnd _ => "c.seed = ?"
  | .eqCnd _ _ => "c.seed in (select seed from attr where key = ? and val_str = ? and valid_from <= ? and (valid_until > ? or valid_until is null) and val_str not null)"
  | .containsCnd _ _ => "c.seed in (select seed from attr where key = ? and glob(lower(\"*\" || ? || \"*\"), lower(val_str)) and valid_from <= ? and (valid_until > ? or valid_until is null) and val_str not null)"
  | .boolAnd l r => appendBool l.appendCnd r.appendCnd ") and ("
  | .boolOr l r => appendBool l.appendCnd r.appendCnd ") or ("

/-- The values that `bind` of a node binds, in order. -/
def QueryNode.bind (t : Int) : QueryNode → List Value
  | .refCnd ref => [.blob ref.toList]
  | .eqCnd key value => [.text key, .text value, .int t, .int t]
  | .containsCnd key needle => [.text key, .text needle, .int t, .int t]
  | .boolAnd l r => l.bind t ++ r.bind t
  | .boolOr l r => l.bind t ++ r.bind t

/-- `evr_sql_extract_blob_ref`: `evr_blob_ref_size + 1` is pasted unevaluated. -/
def sqlExtractBlobRef (column : String) : String :=
  "substr(" ++ column ++ ", 0, " ++ "(224 / 8) + 1" ++ ")"

/-- `prefix` of `evr_attr_build_sql_query`. -/
def sqlPrefix : String :=
  "select distinct seed from claim c " ++ "inner join claim_set cs " ++ "where cs.ref = " ++
    sqlExtractBlobRef "c.ref" ++ " and cs.created <= ?" ++
    " and c.seed not in (select ca.seed from claim_archive ca where ca.seed = c.seed and ca.valid_until <= ?)"

/-- `suffix` of `evr_attr_build_sql_query`. -/
def sqlSuffix : String :=
  " order by cs.created desc limit ? offset ?"

/-- `evr_attr_build_sql_query`. -/
def attrBuildSqlQuery (root : Option QueryNode) : String :=
  match root with
  | none => sqlPrefix ++ sqlSuffix
  | some root => sqlPrefix ++ " and " ++ root.appendCnd ++ sqlSuffix

/-- The values that `evr_attr_query_claims` binds, in order. -/
def AttrQuery.params (q : AttrQuery) : List Value :=
  [.int q.effectiveTime, .int q.effectiveTime] ++
    (match q.root with
    | none => []
    | some root => root.bind q.effectiveTime) ++ [.int q.limit, .int q.offset]

/-- The statement that `evr_attr_query_claims` steps through. -/
def AttrQuery.statement (q : AttrQuery) : Option Statement :=
  prepare (attrBuildSqlQuery q.root) q.params

/-! ## Reading the text back -/

namespace QueryLemmas

/-- `c.seed`. -/
def seedExpr : Expr :=
  .column ⟨some "c", "seed"⟩

/-- The leaves that look for an attr row: the value test is `valTest`. -/
def attrExpr (t : Int) (key : String) (valTest : Expr) : Expr :=
  .inSelect false seedExpr (.mk false ⟨none, "seed"⟩ [("attr", "attr")]
    (.bin .and (.bin .and (.bin .and (.bin .and
      (.bin .eq (.column ⟨none, "key"⟩) (.value (.text key)))
      valTest)
      (.bin .le (.column ⟨none, "valid_from"⟩) (.value (.int t))))
      (.bin .or (.bin .gt (.column ⟨none, "valid_until"⟩) (.value (.int t)))
        (.isNull false (.column ⟨none, "valid_until"⟩))))
      (.isNull true (.column ⟨none, "val_str"⟩))))

/-- `val_str = value`. -/
def eqTest (value : String) : Expr :=
  .bin .eq (.column ⟨none, "val_str"⟩) (.value (.text value))

/-- `glob(lower("*" || needle || "*"), lower(val_str))`. -/
def containsTest (needle : String) : Expr :=
  .call "glob" (.more
    (.call "lower" (.one (.bin .concat (.bin .concat (.quoted "*") (.value (.text needle)))
      (.quoted "*"))))
    (.one (.call "lower" (.one (.column ⟨none, "val_str"⟩)))))

/-- What the text of a node parses to. -/
def nodeExpr (t : Int) : QueryNode → Expr
  | .refCnd ref => .bin .eq seedExpr (.value (.blob ref.toList))
  | .eqCnd key value => attrExpr t key (eqTest value)
  | .containsCnd key needle => attrExpr t key (containsTest needle)
  | .boolAnd l r => .bin .and (nodeExpr t l) (nodeExpr t r)
  | .boolOr l r => .bin .or (nodeExpr t l) (nodeExpr t r)

/-- The tokens of the leaves that look for an attr row, around the value test. -/
def attrToks (key from_ until_ : Token) (valTest : List Token) : List Token :=
  [.ident "c", .dot, .ident "seed", .kw .in_, .lparen, .kw .select, .ident "seed", .kw .from_,
    .ident "attr", .kw .where_, .ident "key", .op .eq, key, .op .and] ++ valTest ++
  [.op .and, .ident "valid_from", .op .le, from_, .op .and, .lparen, .ident "valid_until", .op .gt,
    until_, .op .or, .ident "valid_until", .kw .is, .kw .null, .rparen, .op .and,
    .ident "val_str", .kw .not, .kw .null, .rparen]

def eqToks (value : Token) : List Token :=
  [.ident "val_str", .op .eq, value]

def containsToks (needle : Token) : List Token :=
  [.ident "glob", .lparen, .ident "lower", .lparen, .quoted "*", .op .concat, needle, .op .concat,
    .quoted "*", .rparen, .comma, .ident "lower", .lparen, .ident "val_str", .rparen, .rparen]

def boolToks (op : BinOp) (l r : List Token) : List Token :=
  [.lparen] ++ l ++ [.rparen, .op op, .lparen] ++ r ++ [.rparen]

/-- The tokens of a node, `param` standing for the parameters. -/
def nodeToks : QueryNode → List Token
  | .refCnd _ => [.ident "c", .dot, .ident "seed", .op .eq, .param]
  | .eqCnd _ _ => attrToks .param .param .param (eqToks .param)
  | .containsCnd _ _ => attrToks .param .param .param (containsToks .param)
  | .boolAnd l r => boolToks .and (nodeToks l) (nodeToks r)
  | .boolOr l r => boolToks .or (nodeToks l) (nodeToks r)

/-- The tokens of a node with its parameters bound. -/
def boundToks (t : Int) : QueryNode → List Token
  | .refCnd ref => [.ident "c", .dot, .ident "seed", .op .eq, .value (.blob ref.toList)]
  | .eqCnd key value => attrToks (.value (.text key)) (.value (.int t)) (.value (.int t))
      (eqToks (.value (.text value)))
  | .containsCnd key needle => attrToks (.value (.text key)) (.value (.int t)) (.value (.int t))
      (containsToks (.value (.text needle)))
  | .boolAnd l r => boolToks .and (boundToks t l) (boundToks t r)
  | .boolOr l r => boolToks .or (boundToks t l) (boundToks t r)

theorem lexes_bool {joinStr l r : String} {op : BinOp} {tl tr : List Token}
    (hjoin : Lexes joinStr [.rparen, .op op, .lparen]) (hl : Lexes l tl) (hr : Lexes r tr) :
    Lexes (appendBool l r joinStr) (boolToks op tl tr) := by
  have hopen : Lexes "(" [.lparen] := lexes_ofList (by decide)
  have hclose : Lexes ")" [.rparen] := lexes_ofList (by decide)
  exact (((hopen.append hl).append hjoin).append hr).append hclose

theorem appendCnd_lexes (node : QueryNode) : Lexes node.appendCnd (nodeToks node) := by
  induction node with
  | refCnd ref =>
    apply lexes_ofList
    rfl
  | eqCnd key value =>
    apply lexes_ofList
    show _ = (attrToks .param .param .param (eqToks .param), _)
    decide +kernel
  | containsCnd key needle =>
    apply lexes_ofList
    show _ = (attrToks .param .param .param (containsToks .param), _)
    decide +kernel
  | boolAnd l r ihl ihr => exact lexes_bool (lexes_ofList (by decide)) ihl ihr
  | boolOr l r ihl ihr => exact lexes_bool (lexes_ofList (by decide)) ihl ihr

theorem binds_bool (op : BinOp) {l r l' r' : List Token} {vl vr : List Value}
    (hl : Binds l vl l') (hr : Binds r vr r') :
    Binds (boolToks op l r) (vl ++ vr) (boolToks op l' r') := by
  have hopen : Binds [.lparen] [] [.lparen] := ⟨rfl, rfl⟩
  have hjoin : Binds [.rparen, .op op, .lparen] [] [.rparen, .op op, .lparen] := ⟨rfl, rfl⟩
  have hclose : Binds [.rparen] [] [.rparen] := ⟨rfl, rfl⟩
  have h := (((hopen.append hl).append hjoin).append hr).append hclose
  simpa [boolToks] using h

theorem bind_binds (t : Int) (node : QueryNode) :
    Binds (nodeToks node) (node.bind t) (boundToks t node) := by
  induction node with
  | refCnd ref => exact ⟨rfl, rfl⟩
  | eqCnd key value => exact ⟨rfl, rfl⟩
  | containsCnd key needle => exact ⟨rfl, rfl⟩
  | boolAnd l r ihl ihr => exact binds_bool .and ihl ihr
  | boolOr l r ihl ihr => exact binds_bool .or ihl ihr

/-- Levels of parentheses around the leaves of a node. -/
def depth : QueryNode → Nat
  | .refCnd _ => 0
  | .eqCnd _ _ => 0
  | .containsCnd _ _ => 0
  | .boolAnd l r => max (depth l) (depth r) + 1
  | .boolOr l r => max (depth l) (depth r) + 1

theorem depth_le_length (t : Int) (node : QueryNode) : depth node ≤ (boundToks t node).length := by
  induction node with
  | refCnd ref => exact Nat.zero_le _
  | eqCnd key value => exact Nat.zero_le _
  | containsCnd key needle => exact Nat.zero_le _
  | boolAnd l r ihl ihr =>
    simp only [depth, boundToks, boolToks, List.length_append, List.length_cons, List.length_nil]
    omega
  | boolOr l r ihl ihr =>
    simp only [depth, boundToks, boolToks, List.length_append, List.length_cons, List.length_nil]
    omega

theorem isUnit_refCnd (n : Nat) (t : Int) (ref : ClaimRef) :
    IsUnit (n + 20) (boundToks t (.refCnd ref)) (nodeExpr t (.refCnd ref)) := by
  intro tok rest ht
  cases ht with
  | rparen => rfl
  | and => rfl
  | or => rfl
  | order => rfl

theorem isUnit_eqCnd (n : Nat) (t : Int) (key value : String) :
    IsUnit (n + 20) (boundToks t (.eqCnd key value)) (nodeExpr t (.eqCnd key value)) := by
  intro tok rest ht
  cases ht with
  | rparen => rfl
  | and => rfl
  | or => rfl
  | order => rfl

theorem isUnit_containsCnd (n : Nat) (t : Int) (key needle : String) :
    IsUnit (n + 20) (boundToks t (.containsCnd key needle))
      (nodeExpr t (.containsCnd key needle)) := by
  intro tok rest ht
  cases ht with
  | rparen => rfl
  | and => rfl
  | or => rfl
  | order => rfl

/-- An operand in front of a closing parenthesis. -/
theorem parse_unit {n : Nat} {toks : List Token} {e : Expr} (h : IsUnit (n + 20) toks e)
    (rest : List Token) : parseExpr (n + 21) (toks ++ .rparen :: rest) = some (e, .rparen :: rest) := by
  have hnone : ∀ u ∈ ([] : List (List Token × Expr)), IsUnit (n + 20) u.1 u.2 := nofun
  have hparse := parseExpr_units (toks, e) [] h hnone (by simp) .rparen nofun nofun rest
  rw [show andTail [] = [] from rfl, List.append_nil] at hparse
  exact hparse

theorem parse_node (t : Int) (node : QueryNode) (n : Nat) (hn : depth node ≤ n)
    (rest : List Token) :
    parseExpr (n + 21) (boundToks t node ++ .rparen :: rest) =
      some (nodeExpr t node, .rparen :: rest) := by
  induction node generalizing n rest with
  | refCnd ref => exact parse_unit (isUnit_refCnd n t ref) rest
  | eqCnd key value => exact parse_unit (isUnit_eqCnd n t key value) rest
  | containsCnd key needle => exact parse_unit (isUnit_containsCnd n t key needle) rest
  | boolAnd l r ihl ihr =>
    obtain ⟨m, rfl⟩ := Nat.exists_eq_succ_of_ne_zero (Nat.ne_of_gt (Nat.zero_lt_of_lt hn))
    have hm : max (depth l) (depth r) ≤ m := Nat.le_of_succ_le_succ hn
    have hl := isUnit_paren (ihl m (Nat.le_trans (Nat.le_max_left _ _) hm))
    have hr := isUnit_paren (ihr m (Nat.le_trans (Nat.le_max_right _ _) hm))
    have hparse := parseExpr_units (_, _) [(_, _)] hl (by simpa using hr)
      (by simp) .rparen Token.noConfusion Token.noConfusion rest
    simpa [andTail, conj, boundToks, boolToks, nodeExpr] using hparse
  | boolOr l r ihl ihr =>
    obtain ⟨m, rfl⟩ := Nat.exists_eq_succ_of_ne_zero (Nat.ne_of_gt (Nat.zero_lt_of_lt hn))
    have hm : max (depth l) (depth r) ≤ m := Nat.le_of_succ_le_succ hn
    have hl := isUnit_paren (ihl m (Nat.le_trans (Nat.le_max_left _ _) hm))
    have hr := isUnit_paren (ihr m (Nat.le_trans (Nat.le_max_right _ _) hm))
    have hparse := parseExpr_units_or (_, _) [] (_, _) hl
      (fun _ h => absurd h List.not_mem_nil) hr (by simp) (by omega) .rparen Token.noConfusion
      Token.noConfusion rest
    simpa [andTail, conj, boundToks, boolToks, nodeExpr] using hparse

/-! ### The statement -/

/-- `cs.ref = substr(c.ref, 0, (224 / 8) + 1)`. -/
def ownSetUnit : List Token × Expr :=
  ([.ident "cs", .dot, .ident "ref", .op .eq, .ident "substr", .lparen, .ident "c", .dot,
      .ident "ref", .comma, .num 0, .comma, .lparen, .num 224, .op .div, .num 8, .rparen, .op .plus,
      .num 1, .rparen],
    .bin .eq (.column ⟨some "cs", "ref"⟩) (.call "substr" (.more (.column ⟨some "c", "ref"⟩)
      (.more (.value (.int 0)) (.one (.bin .plus
        (.bin .div (.value (.int 224)) (.value (.int 8))) (.value (.int 1))))))))

/-- `cs.created <= t`. -/
def createdUnit (t : Token) (v : Value) : List Token × Expr :=
  ([.ident "cs", .dot, .ident "created", .op .le, t],
    .bin .le (.column ⟨some "cs", "created"⟩) (.value v))

/-- `c.seed not in (select ca.seed from claim_archive ca where ...)`. -/
def archiveUnit (t : Token) (v : Value) : List Token × Expr :=
  ([.ident "c", .dot, .ident "seed", .kw .not, .kw .in_, .lparen, .kw .select, .ident "ca", .dot,
      .ident "seed", .kw .from_, .ident "claim_archive", .ident "ca", .kw .where_, .ident "ca", .dot,
      .ident "seed", .op .eq, .ident "c", .dot, .ident "seed", .op .and, .ident "ca", .dot,
      .ident "valid_until", .op .le, t, .rparen],
    .inSelect true seedExpr (.mk false ⟨some "ca", "seed"⟩ [("claim_archive", "ca")]
      (.bin .and (.bin .eq (.column ⟨some "ca", "seed"⟩) seedExpr)
        (.bin .le (.column ⟨some "ca", "valid_until"⟩) (.value v)))))

/-- The tokens of the fixed condition. -/
def baseToks (t : Token) : List Token :=
  ownSetUnit.1 ++ andTail [createdUnit t .null, archiveUnit t .null]

def selectToks : List Token :=
  [.kw .select, .kw .distinct, .ident "seed", .kw .from_, .ident "claim", .ident "c", .kw .inner,
    .kw .join, .ident "claim_set", .ident "cs", .kw .where_]

def suffixToks (limit offset : Token) : List Token :=
  [.kw .order, .kw .by_, .ident "cs", .dot, .ident "created", .kw .desc, .kw .limit, limit,
    .kw .offset, offset]

/-- The fixed condition at `t`, from its parts to the left. -/
def baseUnits (t : Int) : List (List Token × Expr) :=
  [createdUnit (.value (.int t)) (.int t), archiveUnit (.value (.int t)) (.int t)]

def parenUnit (t : Int) (node : QueryNode) : List Token × Expr :=
  (.lparen :: (boundToks t node ++ [.rparen]), nodeExpr t node)

/-- What the whole condition parses to. A root `||` takes the fixed condition and its
left side for one operand. -/
def whereExpr (t : Int) : Option QueryNode → Expr
  | none => conj ownSetUnit.2 (baseUnits t)
  | some (.boolAnd l r) => conj ownSetUnit.2 (baseUnits t ++ [parenUnit t l, parenUnit t r])
  | some (.boolOr l r) =>
    .bin .or (conj ownSetUnit.2 (baseUnits t ++ [parenUnit t l])) (nodeExpr t r)
  | some leaf => conj ownSetUnit.2 (baseUnits t ++ [(boundToks t leaf, nodeExpr t leaf)])

/-- The tokens of the whole condition. -/
def whereToks (t : Int) : Option QueryNode → List Token
  | none => baseToks (.value (.int t))
  | some root => baseToks (.value (.int t)) ++ [.op .and] ++ boundToks t root

theorem isUnit_base (n : Nat) (t : Int) :
    IsUnit (n + 20) ownSetUnit.1 ownSetUnit.2 ∧ ∀ u ∈ baseUnits t, IsUnit (n + 20) u.1 u.2 := by
  refine ⟨?_, ?_⟩
  · intro tok rest ht
    cases ht with
    | rparen => rfl
    | and => rfl
    | or => rfl
    | order => rfl
  · intro u hu
    rcases List.mem_cons.mp hu with rfl | hu
    · intro tok rest ht
      cases ht with
      | rparen => rfl
      | and => rfl
      | or => rfl
      | order => rfl
    · rw [List.mem_singleton.mp hu]
      intro tok rest ht
      cases ht with
      | rparen => rfl
      | and => rfl
      | or => rfl
      | order => rfl

theorem isUnit_parenUnit (t : Int) (node : QueryNode) {n : Nat} (hn : depth node < n) :
    IsUnit (n + 20) (parenUnit t node).1 (parenUnit t node).2 := by
  obtain ⟨m, rfl⟩ := Nat.exists_eq_succ_of_ne_zero (Nat.ne_of_gt (Nat.zero_lt_of_lt hn))
  exact isUnit_paren (parse_node t node m (Nat.le_of_lt_succ hn))

/-- A root that is an operand of `and` as it stands. -/
theorem parse_where_unit (t : Int) {n : Nat} {u : List Token × Expr}
    (hu : IsUnit (n + 20) u.1 u.2) (rest : List Token) :
    parseExpr (n + 21) (baseToks (.value (.int t)) ++ [.op .and] ++ u.1 ++ .kw .order :: rest) =
      some (conj ownSetUnit.2 (baseUnits t ++ [u]), .kw .order :: rest) := by
  obtain ⟨hown, hbase⟩ := isUnit_base n t
  have h := parseExpr_units ownSetUnit (baseUnits t ++ [u]) hown
    (List.forall_mem_append.mpr ⟨hbase, List.forall_mem_singleton.mpr hu⟩) (by simp [baseUnits])
    .order nofun nofun rest
  simpa [andTail, baseToks, baseUnits, createdUnit, archiveUnit] using h

theorem parse_where (t : Int) (root : Option QueryNode) {n : Nat}
    (hn : ∀ node, root = some node → depth node ≤ n) (rest : List Token) :
    parseExpr (n + 21) (whereToks t root ++ .kw .order :: rest) =
      some (whereExpr t root, .kw .order :: rest) := by
  obtain ⟨hown, hbase⟩ := isUnit_base n t
  cases root with
  | none =>
    have h := parseExpr_units ownSetUnit (baseUnits t) hown hbase (by simp [baseUnits]) .order
      nofun nofun rest
    exact h
  | some node =>
    cases node with
    | refCnd ref => exact parse_where_unit t (u := (_, _)) (isUnit_refCnd n t ref) rest
    | eqCnd key value => exact parse_where_unit t (u := (_, _)) (isUnit_eqCnd n t key value) rest
    | containsCnd key needle =>
      exact parse_where_unit t (u := (_, _)) (isUnit_containsCnd n t key needle) rest
    | boolAnd l r =>
      have hd : max (depth l) (depth r) < n := hn _ rfl
      have hl := isUnit_parenUnit t l (Nat.lt_of_le_of_lt (Nat.le_max_left _ _) hd)
      have hr := isUnit_parenUnit t r (Nat.lt_of_le_of_lt (Nat.le_max_right _ _) hd)
      have h := parseExpr_units ownSetUnit (baseUnits t ++ [parenUnit t l, parenUnit t r]) hown
        (List.forall_mem_append.mpr ⟨hbase, by simpa using ⟨hl, hr⟩⟩) (by simp [baseUnits]) .order
        nofun nofun rest
      simpa [andTail, whereToks, whereExpr, baseToks, baseUnits, createdUnit, archiveUnit, parenUnit,
        boundToks, boolToks] using h
    | boolOr l r =>
      have hd : max (depth l) (depth r) < n := hn _ rfl
      have hl := isUnit_parenUnit t l (Nat.lt_of_le_of_lt (Nat.le_max_left _ _) hd)
      have hr := isUnit_parenUnit t r (Nat.lt_of_le_of_lt (Nat.le_max_right _ _) hd)
      have h := parseExpr_units_or ownSetUnit (baseUnits t ++ [parenUnit t l]) (parenUnit t r) hown
        (List.forall_mem_append.mpr ⟨hbase, List.forall_mem_singleton.mpr hl⟩) hr
        (by simp [baseUnits]) (by omega) .order nofun nofun rest
      simpa [andTail, whereToks, whereExpr, baseToks, baseUnits, createdUnit, archiveUnit, parenUnit,
        boundToks, boolToks] using h

theorem parseSelect_selectToks (expr : Parser Expr) (toks : List Token) :
    parseSelect expr (selectToks ++ toks) = (expr toks).map fun (cond, toks) =>
      (.mk true ⟨none, "seed"⟩ [("claim", "c"), ("claim_set", "cs")] cond, toks) := rfl

theorem parseTail_suffixToks (n : Nat) (query : Select) (limit offset : Value) :
    parseTail (parseExpr (n + 21)) query (suffixToks (.value limit) (.value offset)) =
      some ⟨query, some (⟨some "cs", "created"⟩, true), some (.value limit),
        some (.value offset)⟩ := rfl

theorem sqlPrefix_lexes : Lexes sqlPrefix (selectToks ++ baseToks .param) := by
  have hclaim : Lexes "select distinct seed from claim c " [.kw .select, .kw .distinct,
      .ident "seed", .kw .from_, .ident "claim", .ident "c"] := by
    apply lexes_ofList
    decide +kernel
  have hset : Lexes "inner join claim_set cs " [.kw .inner, .kw .join, .ident "claim_set",
      .ident "cs"] := by
    apply lexes_ofList
    decide +kernel
  have hwhere : Lexes "where cs.ref = " [.kw .where_, .ident "cs", .dot, .ident "ref", .op .eq] := by
    apply lexes_ofList
    decide +kernel
  have hown : Lexes (sqlExtractBlobRef "c.ref") (ownSetUnit.1.drop 4) := by
    unfold Lexes
    decide +kernel
  have hcreated : Lexes " and cs.created <= ?" (.op .and :: (createdUnit .param .null).1) := by
    apply lexes_ofList
    decide +kernel
  have harchive : Lexes " and c.seed not in (select ca.seed from claim_archive ca where ca.seed = c.seed and ca.valid_until <= ?)"
      (.op .and :: (archiveUnit .param .null).1) := by
    apply lexes_ofList
    decide +kernel
  exact ((((hclaim.append hset).append hwhere).append hown).append hcreated).append harchive

theorem attrBuildSqlQuery_lexes (root : Option QueryNode) :
    Lexes (attrBuildSqlQuery root) (selectToks ++ (match root with
      | none => baseToks .param
      | some root => baseToks .param ++ [.op .and] ++ nodeToks root) ++
        suffixToks .param .param) := by
  have hstart := sqlPrefix_lexes
  have hsuffix : Lexes sqlSuffix (suffixToks .param .param) := by
    apply lexes_ofList
    decide +kernel
  cases root with
  | none => exact hstart.append hsuffix
  | some root =>
    have hsep : Lexes " and " [.op .and] := lexes_ofList (by decide)
    have h := ((hstart.append hsep).append (appendCnd_lexes root)).append hsuffix
    simpa [attrBuildSqlQuery] using h

theorem params_binds (q : AttrQuery) :
    Binds (selectToks ++ (match q.root with
      | none => baseToks .param
      | some root => baseToks .param ++ [.op .and] ++ nodeToks root) ++ suffixToks .param .param)
      q.params (selectToks ++ whereToks q.effectiveTime q.root ++
        suffixToks (.value (.int q.limit)) (.value (.int q.offset))) := by
  have hbase : Binds (selectToks ++ baseToks .param) [.int q.effectiveTime, .int q.effectiveTime]
      (selectToks ++ baseToks (.value (.int q.effectiveTime))) := ⟨rfl, rfl⟩
  have hsuffix : Binds (suffixToks .param .param) [.int q.limit, .int q.offset]
      (suffixToks (.value (.int q.limit)) (.value (.int q.offset))) := ⟨rfl, rfl⟩
  unfold AttrQuery.params
  cases q.root with
  | none => exact hbase.append hsuffix
  | some root =>
    have hsep : Binds [.op .and] [] [.op .and] := ⟨rfl, rfl⟩
    have h := ((hbase.append hsep).append (bind_binds q.effectiveTime root)).append hsuffix
    simpa [whereToks] using h

/-- Every query gives a statement, whose condition is `whereExpr`. -/
theorem statement_eq (q : AttrQuery) :
    q.statement = some ⟨.mk true ⟨none, "seed"⟩ [("claim", "c"), ("claim_set", "cs")]
      (whereExpr q.effectiveTime q.root), some (⟨some "cs", "created"⟩, true),
      some (.value (.int q.limit)), some (.value (.int q.offset))⟩ := by
  unfold AttrQuery.statement prepare
  rw [(attrBuildSqlQuery_lexes q.root).lex_eq, (params_binds q).2, Option.bind_some]
  obtain ⟨n, hn, hlen⟩ : ∃ n, (∀ node, q.root = some node → depth node ≤ n) ∧
      (selectToks ++ whereToks q.effectiveTime q.root ++
        suffixToks (.value (.int q.limit)) (.value (.int q.offset))).length + 1 = n + 21 := by
    cases hroot : q.root with
    | none => exact ⟨56, nofun, rfl⟩
    | some root =>
      refine ⟨(boundToks q.effectiveTime root).length + 57, ?_, ?_⟩
      · intro node hnode
        obtain rfl := Option.some.inj hnode
        have := depth_le_length q.effectiveTime root
        omega
      · simp [selectToks, whereToks, baseToks, suffixToks, ownSetUnit, createdUnit, archiveUnit,
          andTail]
  rw [hlen]
  unfold parseStatement
  rw [List.append_assoc, parseSelect_selectToks]
  have hsuffix : suffixToks (.value (.int q.limit)) (.value (.int q.offset)) = .kw .order ::
      (suffixToks (.value (.int q.limit)) (.value (.int q.offset))).tail := rfl
  rw [hsuffix, parse_where q.effectiveTime q.root hn, ← hsuffix]
  exact parseTail_suffixToks n _ _ _

end QueryLemmas

end Everarch
