import Everarch.AttrIndex.QueryTokens
import Everarch.Claims

/-!
# Parsing a query text

The push parser that attr-query-parser.y describes, with its symbols on a stack. A state
that cannot shift the next token reduces, as the default reductions of the generated
tables do. `&&` binds tighter than `||` and both group to the left.

* `QueryParserLemmas.push_shift`, `push_reduce`: one step of the parser.
* `QueryParserLemmas.cond_shifts`, `options_shift`: what the tokens of a condition and of the
  options leave on the stack.
* `QueryParserLemmas.queryText_read`: what the grammar derives is read.
-/

namespace Everarch

/-! ## The parser -/

/-- `evr_attr_selector_none` and `evr_attr_selector_all`. -/
inductive AttrSelector where
  | none_
  | all
deriving DecidableEq, Repr

/-- `struct evr_attr_query` with its selector. -/
structure ParsedQuery where
  selector : Option AttrSelector
  query : AttrQuery

/-- `evr_default_attr_query_limit`. -/
def defaultAttrQueryLimit : Int := 100

/-- What the actions take from outside: the time of `evr_now`, `strptime` and `timegm` and what the
memory of a new node holds, which is any value: `malloc` does not set it, and
`evr_parse_claim_ref` leaves some of it where the text is no blob ref but ends like a claim ref. -/
structure QueryEnv where
  now : Int
  timegm : List Char → Option Int
  heap : ClaimRef

/-- Why no query was built: bison's own message, or the text given to `yyerror`. -/
inductive QueryError where
  | syntaxError
  | yyerror (text : String)
deriving DecidableEq, Repr

/-- A symbol on the stack of the parser with its value. -/
inductive QuerySym where
  | tok (t : QueryTok)
  | cond (n : QueryNode)
  | condOrEmpty (n : Option QueryNode)
  | selector (s : Option AttrSelector)
  | atExpr (t : Int)
  | limitExpr (i : Int)
  | offsetExpr (i : Int)
  | query (q : ParsedQuery)
  | line (q : ParsedQuery)

/-- `struct evr_attr_query_result`. -/
structure QueryResult where
  query : Option ParsedQuery
  error : Option QueryError

/-- `evr_attr_query_ref_cnd`. -/
def attrQueryRefCnd (env : QueryEnv) (s : List Char) : Option QueryNode :=
  match parseClaimRef env.heap s with
  | (.ok, ref) => some (.refCnd ref)
  | _ => none

/-- `evr_attr_query_eq_cnd`. -/
def attrQueryEqCnd (key value : List Char) : QueryNode :=
  .eqCnd (String.ofList key) (String.ofList value)

/-- `evr_attr_query_contains_cnd`. -/
def attrQueryContainsCnd (key needle : List Char) : QueryNode :=
  .containsCnd (String.ofList key) (String.ofList needle)

/-- `evr_build_attr_query`. -/
def buildAttrQuery (selector : Option AttrSelector) (root : Option QueryNode) (t limit offset : Int) :
    ParsedQuery :=
  ⟨selector, ⟨root, t, limit, offset⟩⟩

/-- The tokens that a condition begins with. -/
def opensCond : QueryTok → Bool
  | .ref | .string _ | .bOpen => true
  | _ => false

def isString : QueryTok → Bool
  | .string _ => true
  | _ => false

/-- Whether the token is shifted, the stack with its top in front. Behind `||` and a condition
only `&&` is, behind `&&` and a condition nothing is: this is where the `%left` lines decide. -/
def shifts : List QuerySym → QueryTok → Bool
  | [], t => opensCond t || t == .select || t == .end_
  | .tok .select :: _, t => t == .wildcard
  | .tok .where_ :: _, t => opensCond t
  | .tok .bOpen :: _, t => opensCond t
  | .tok .boolOr :: _, t => opensCond t
  | .tok .boolAnd :: _, t => opensCond t
  | .tok .ref :: _, t => t == .eq
  | .tok .eq :: _, t => isString t
  | .tok .contains :: _, t => isString t
  | .tok .at_ :: _, t => isString t
  | .tok .limit :: _, t => isString t
  | .tok .offset :: _, t => isString t
  | .tok (.string _) :: .tok .eq :: _, _ => false
  | .tok (.string _) :: .tok .contains :: _, _ => false
  | .tok (.string _) :: .tok .at_ :: _, _ => false
  | .tok (.string _) :: .tok .limit :: _, _ => false
  | .tok (.string _) :: .tok .offset :: _, _ => false
  | .tok (.string _) :: _, t => t == .eq || t == .contains
  | .cond _ :: .tok .boolAnd :: _, _ => false
  | .cond _ :: .tok .boolOr :: _, t => t == .boolAnd
  | .cond _ :: .tok .bOpen :: _, t => t == .boolAnd || t == .boolOr || t == .bClose
  | .cond _ :: _, t => t == .boolAnd || t == .boolOr
  | .selector _ :: _, t => t == .where_ || t == .at_
  | .condOrEmpty _ :: _, t => t == .at_
  | .atExpr _ :: _, t => t == .limit
  | .limitExpr _ :: _, t => t == .offset
  | .query _ :: _, t => t == .end_
  | _, _ => false

/-- The result of an action that may call `yyerror`. -/
def orYyerror (text : String) (s : List QuerySym) : Option QuerySym →
    Option (Except QueryError (List QuerySym))
  | none => some (.error (.yyerror text))
  | some sym => some (.ok (sym :: s))

/-- The reduction of a stack, none where no rule ends on it. Of the two empty rules at the
beginning the one for `attr_selector` comes first. -/
def reduce (env : QueryEnv) : List QuerySym → Option (Except QueryError (List QuerySym))
  -- condition
  | .tok (.string v) :: .tok .eq :: .tok .ref :: s =>
    orYyerror "Unable to parse ref=* condition." s ((attrQueryRefCnd env v).map .cond)
  | .tok (.string v) :: .tok .eq :: .tok (.string k) :: s => some (.ok (.cond (attrQueryEqCnd k v) :: s))
  | .tok (.string v) :: .tok .contains :: .tok (.string k) :: s =>
    some (.ok (.cond (attrQueryContainsCnd k v) :: s))
  | .tok .bClose :: .cond n :: .tok .bOpen :: s => some (.ok (.cond n :: s))
  | .cond r :: .tok .boolOr :: .cond l :: s => some (.ok (.cond (.boolOr l r) :: s))
  | .cond r :: .tok .boolAnd :: .cond l :: s => some (.ok (.cond (.boolAnd l r) :: s))
  -- condition_or_empty
  | [.cond n] => some (.ok [.condOrEmpty (some n)])
  | .cond n :: .tok .where_ :: s => some (.ok (.condOrEmpty (some n) :: .tok .where_ :: s))
  | .tok .where_ :: s => some (.ok (.condOrEmpty none :: .tok .where_ :: s))
  -- attr_selector
  | [] => some (.ok [.selector none])
  | .tok .wildcard :: .tok .select :: s => some (.ok (.selector (some .all) :: s))
  -- at_expression
  | .tok (.string v) :: .tok .at_ :: s =>
    orYyerror "Unable to parse 'at' timestamp" s ((timeFromIso8601 env.timegm v).map .atExpr)
  | .selector sel :: s => some (.ok (.atExpr env.now :: .selector sel :: s))
  | .condOrEmpty n :: s => some (.ok (.atExpr env.now :: .condOrEmpty n :: s))
  -- limit_expression
  | .tok (.string v) :: .tok .limit :: s =>
    orYyerror "Unable to parse limit integer" s ((sscanfInt v).map .limitExpr)
  | .atExpr t :: s => some (.ok (.limitExpr defaultAttrQueryLimit :: .atExpr t :: s))
  -- offset_expression
  | .tok (.string v) :: .tok .offset :: s =>
    orYyerror "Unable to parse offset integer" s ((sscanfInt v).map .offsetExpr)
  | .limitExpr l :: s => some (.ok (.offsetExpr 0 :: .limitExpr l :: s))
  -- query
  | .offsetExpr o :: .limitExpr l :: .atExpr t :: .condOrEmpty n :: .tok .where_ :: .selector sel :: s =>
    some (.ok (.query (buildAttrQuery sel n t l o) :: s))
  | .offsetExpr o :: .limitExpr l :: .atExpr t :: .condOrEmpty n :: s =>
    some (.ok (.query (buildAttrQuery (some .none_) n t l o) :: s))
  | .offsetExpr o :: .limitExpr l :: .atExpr t :: .selector sel :: s =>
    some (.ok (.query (buildAttrQuery sel none t l o) :: s))
  -- line
  | .tok .end_ :: .query q :: s => some (.ok (.line q :: s))
  | [.tok .end_] => some (.ok [.line (buildAttrQuery none none env.now defaultAttrQueryLimit 0)])
  | _ => none

/-- How many reductions may follow, from the symbol at the top. -/
def QuerySym.rank : QuerySym → Nat
  | .tok .where_ => 36
  | .tok (.string _) | .tok .bClose => 13
  | .tok .wildcard => 20
  | .tok .end_ => 1
  | .tok _ => 0
  | .cond _ => 28
  | .condOrEmpty _ | .selector _ => 27
  | .atExpr _ => 18
  | .limitExpr _ => 9
  | .offsetExpr _ | .query _ | .line _ => 0

/-- A bound on the reductions that a stack allows. -/
def parseBudget : List QuerySym → Nat
  | [] => 36
  | sym :: s => 8 * (s.length + 1) + sym.rank

/-- What is left when the parser stops with an error: a query that was built stays. -/
def stopped (s : List QuerySym) (e : QueryError) : QueryResult :=
  match s with
  | [.line q] => ⟨some q, some e⟩
  | _ => ⟨none, some e⟩

/-- `yypush_parse` with one token: the result if it stops, else the stack. -/
def yypushParse (env : QueryEnv) : Nat → List QuerySym → QueryTok → Except QueryResult (List QuerySym)
  | 0, s, _ => .error (stopped s .syntaxError)
  | fuel + 1, s, t =>
    if shifts s t then .ok (.tok t :: s)
    else
      match reduce env s with
      | none => .error (stopped s .syntaxError)
      | some (.error e) => .error (stopped s e)
      | some (.ok s) => yypushParse env fuel s t

/-- The loop of `evr_attr_parse_query`. -/
def pushToks (env : QueryEnv) : List QuerySym → List QueryTok → QueryResult
  | _, [] => ⟨none, none⟩
  | s, t :: ts =>
    match yypushParse env (parseBudget s + 1) s t with
    | .error r => r
    | .ok s => pushToks env s ts

/-- `evr_attr_parse_query`. At the end of the text `yylex` returns `END`, and once more to
the parser that waits for the end of its input. -/
def attrParseQuery (env : QueryEnv) (text : List Char) : QueryResult :=
  pushToks env [] (queryToks text ++ [.end_, .end_])

/-! ## The grammar -/

/-- The three levels of conditions: any, without `||`, and without `||` and `&&`. -/
inductive CondLevel where
  | all
  | conj
  | simple
deriving DecidableEq

/-- The tokens of a condition, with `&&` above `||` and both to the left. -/
inductive CondText (env : QueryEnv) : CondLevel → List QueryTok → QueryNode → Prop
  | ref {v : List Char} {n : QueryNode} (h : attrQueryRefCnd env v = some n) :
    CondText env .simple [.ref, .eq, .string v] n
  | eq (k v : List Char) : CondText env .simple [.string k, .eq, .string v] (attrQueryEqCnd k v)
  | contains (k v : List Char) :
    CondText env .simple [.string k, .contains, .string v] (attrQueryContainsCnd k v)
  | bracket {w : List QueryTok} {n : QueryNode} (h : CondText env .all w n) :
    CondText env .simple (.bOpen :: (w ++ [.bClose])) n
  | and {wl wr : List QueryTok} {l r : QueryNode} (hl : CondText env .conj wl l)
    (hr : CondText env .simple wr r) : CondText env .conj (wl ++ .boolAnd :: wr) (.boolAnd l r)
  | or {wl wr : List QueryTok} {l r : QueryNode} (hl : CondText env .all wl l)
    (hr : CondText env .conj wr r) : CondText env .all (wl ++ .boolOr :: wr) (.boolOr l r)
  | conj {w : List QueryTok} {n : QueryNode} (h : CondText env .simple w n) : CondText env .conj w n
  | all {w : List QueryTok} {n : QueryNode} (h : CondText env .conj w n) : CondText env .all w n

/-- A part that may be absent: `at`, `limit` or `offset` with its value. -/
inductive OptionText {α : Type} (key : QueryTok) (absent : α) (parse : List Char → Option α) :
    List QueryTok → α → Prop
  | absent : OptionText key absent parse [] absent
  | given {v : List Char} {a : α} (h : parse v = some a) :
    OptionText key absent parse [key, .string v] a

/-- `attr_selector`. -/
inductive SelectorText : List QueryTok → Option AttrSelector → Prop
  | absent : SelectorText [] none
  | all : SelectorText [.select, .wildcard] (some .all)

/-- `condition_or_empty`. -/
inductive CondOrEmptyText (env : QueryEnv) : List QueryTok → Option QueryNode → Prop
  | absent : CondOrEmptyText env [] none
  | given {w : List QueryTok} {n : QueryNode} (h : CondText env .all w n) :
    CondOrEmptyText env w (some n)

/-- The end of a query: `at_expression`, `limit_expression` and `offset_expression`. -/
structure OptionsText (env : QueryEnv) (w : List QueryTok) (t limit offset : Int) : Prop where
  parts : ∃ wt wl wo, w = wt ++ wl ++ wo ∧
    OptionText .at_ env.now (timeFromIso8601 env.timegm) wt t ∧
    OptionText .limit defaultAttrQueryLimit sscanfInt wl limit ∧
    OptionText .offset 0 sscanfInt wo offset

/-- The tokens of a query. Where nothing is asked for but the options, no selector is
built. -/
inductive QueryText (env : QueryEnv) : List QueryTok → ParsedQuery → Prop
  | bare {ws w : List QueryTok} {sel : Option AttrSelector} {t limit offset : Int}
    (hs : SelectorText ws sel) (hw : OptionsText env w t limit offset) :
    QueryText env (ws ++ w) (buildAttrQuery sel none t limit offset)
  | where_ {ws wc w : List QueryTok} {sel : Option AttrSelector} {n : Option QueryNode}
    {t limit offset : Int} (hs : SelectorText ws sel) (hc : CondOrEmptyText env wc n)
    (hw : OptionsText env w t limit offset) :
    QueryText env (ws ++ .where_ :: wc ++ w) (buildAttrQuery sel n t limit offset)
  | cond {wc w : List QueryTok} {n : QueryNode} {t limit offset : Int}
    (hc : CondText env .all wc n) (hw : OptionsText env w t limit offset) :
    QueryText env (wc ++ w) (buildAttrQuery (some .none_) (some n) t limit offset)

namespace QueryParserLemmas

variable {env : QueryEnv} {s s' : List QuerySym} {t : QueryTok} {ts w : List QueryTok}

theorem orYyerror_ok {text : String} {sym : Option QuerySym}
    (h : orYyerror text s sym = some (.ok s')) : ∃ a, sym = some a ∧ s' = a :: s := by
  cases sym with
  | none => cases h
  | some a => exact ⟨a, rfl, by cases h; rfl⟩

/-- What a reduction does to the stack. -/
inductive Reduced (env : QueryEnv) : List QuerySym → List QuerySym → Prop
  | ref {v : List Char} {n : QueryNode} {s : List QuerySym} (h : attrQueryRefCnd env v = some n) :
    Reduced env (.tok (.string v) :: .tok .eq :: .tok .ref :: s) (.cond n :: s)
  | eq (v k : List Char) (s : List QuerySym) :
    Reduced env (.tok (.string v) :: .tok .eq :: .tok (.string k) :: s)
      (.cond (attrQueryEqCnd k v) :: s)
  | contains (v k : List Char) (s : List QuerySym) :
    Reduced env (.tok (.string v) :: .tok .contains :: .tok (.string k) :: s)
      (.cond (attrQueryContainsCnd k v) :: s)
  | bracket (n : QueryNode) (s : List QuerySym) :
    Reduced env (.tok .bClose :: .cond n :: .tok .bOpen :: s) (.cond n :: s)
  | or (l r : QueryNode) (s : List QuerySym) :
    Reduced env (.cond r :: .tok .boolOr :: .cond l :: s) (.cond (.boolOr l r) :: s)
  | and (l r : QueryNode) (s : List QuerySym) :
    Reduced env (.cond r :: .tok .boolAnd :: .cond l :: s) (.cond (.boolAnd l r) :: s)
  | cond (n : QueryNode) : Reduced env [.cond n] [.condOrEmpty (some n)]
  | whereCond (n : QueryNode) (s : List QuerySym) :
    Reduced env (.cond n :: .tok .where_ :: s) (.condOrEmpty (some n) :: .tok .where_ :: s)
  | whereEmpty (s : List QuerySym) :
    Reduced env (.tok .where_ :: s) (.condOrEmpty none :: .tok .where_ :: s)
  | noSelector : Reduced env [] [.selector none]
  | select (s : List QuerySym) :
    Reduced env (.tok .wildcard :: .tok .select :: s) (.selector (some .all) :: s)
  | at_ {v : List Char} {t : Int} {s : List QuerySym} (h : timeFromIso8601 env.timegm v = some t) :
    Reduced env (.tok (.string v) :: .tok .at_ :: s) (.atExpr t :: s)
  | selectorNow (sel : Option AttrSelector) (s : List QuerySym) :
    Reduced env (.selector sel :: s) (.atExpr env.now :: .selector sel :: s)
  | condNow (n : Option QueryNode) (s : List QuerySym) :
    Reduced env (.condOrEmpty n :: s) (.atExpr env.now :: .condOrEmpty n :: s)
  | limit {v : List Char} {i : Int} {s : List QuerySym} (h : sscanfInt v = some i) :
    Reduced env (.tok (.string v) :: .tok .limit :: s) (.limitExpr i :: s)
  | noLimit (t : Int) (s : List QuerySym) :
    Reduced env (.atExpr t :: s) (.limitExpr defaultAttrQueryLimit :: .atExpr t :: s)
  | offset {v : List Char} {i : Int} {s : List QuerySym} (h : sscanfInt v = some i) :
    Reduced env (.tok (.string v) :: .tok .offset :: s) (.offsetExpr i :: s)
  | noOffset (l : Int) (s : List QuerySym) :
    Reduced env (.limitExpr l :: s) (.offsetExpr 0 :: .limitExpr l :: s)
  | whereQuery (o l t : Int) (n : Option QueryNode) (sel : Option AttrSelector) (s : List QuerySym) :
    Reduced env
      (.offsetExpr o :: .limitExpr l :: .atExpr t :: .condOrEmpty n :: .tok .where_ :: .selector sel :: s)
      (.query (buildAttrQuery sel n t l o) :: s)
  | condQuery (o l t : Int) (n : Option QueryNode) (s : List QuerySym)
    (hs : ∀ sel s', s = .tok .where_ :: .selector sel :: s' → False) :
    Reduced env (.offsetExpr o :: .limitExpr l :: .atExpr t :: .condOrEmpty n :: s)
      (.query (buildAttrQuery (some .none_) n t l o) :: s)
  | bareQuery (o l t : Int) (sel : Option AttrSelector) (s : List QuerySym) :
    Reduced env (.offsetExpr o :: .limitExpr l :: .atExpr t :: .selector sel :: s)
      (.query (buildAttrQuery sel none t l o) :: s)
  | line (q : ParsedQuery) (s : List QuerySym) :
    Reduced env (.tok .end_ :: .query q :: s) (.line q :: s)
  | emptyLine :
    Reduced env [.tok .end_] [.line (buildAttrQuery none none env.now defaultAttrQueryLimit 0)]

theorem reduced_of_reduce (h : reduce env s = some (.ok s')) : Reduced env s s' := by
  unfold reduce at h
  split at h
  case h_1 =>
    obtain ⟨a, ha, rfl⟩ := orYyerror_ok h
    obtain ⟨n, hn, rfl⟩ := Option.map_eq_some_iff.mp ha
    exact .ref hn
  case h_12 =>
    obtain ⟨a, ha, rfl⟩ := orYyerror_ok h
    obtain ⟨n, hn, rfl⟩ := Option.map_eq_some_iff.mp ha
    exact .at_ hn
  case h_15 =>
    obtain ⟨a, ha, rfl⟩ := orYyerror_ok h
    obtain ⟨n, hn, rfl⟩ := Option.map_eq_some_iff.mp ha
    exact .limit hn
  case h_17 =>
    obtain ⟨a, ha, rfl⟩ := orYyerror_ok h
    obtain ⟨n, hn, rfl⟩ := Option.map_eq_some_iff.mp ha
    exact .offset hn
  case h_20 hs =>
    cases h
    exact .condQuery _ _ _ _ _ hs
  case h_24 => cases h
  all_goals
    cases h
    constructor

theorem Reduced.budget_lt (h : Reduced env s s') : parseBudget s' < parseBudget s := by
  cases h <;> simp only [parseBudget, List.length_cons, List.length_nil, QuerySym.rank] <;> omega

/-- Fuel beyond the parseBudget does not matter. -/
theorem yypushParse_fuel {fuel fuel' : Nat} (h : parseBudget s < fuel) (h' : parseBudget s < fuel') :
    yypushParse env fuel s t = yypushParse env fuel' s t := by
  induction fuel generalizing s fuel' with
  | zero => exact absurd h (Nat.not_lt_zero _)
  | succ fuel ih =>
    cases fuel' with
    | zero => exact absurd h' (Nat.not_lt_zero _)
    | succ fuel' =>
      simp only [yypushParse]
      split
      · rfl
      · split
        · rfl
        · rfl
        · rename_i s' hreduce
          have hlt := (reduced_of_reduce hreduce).budget_lt
          exact ih (by omega) (by omega)

theorem push_shift (h : shifts s t = true) : pushToks env s (t :: ts) = pushToks env (.tok t :: s) ts := by
  rw [pushToks, yypushParse, if_pos h]

theorem push_reduce (hshift : shifts s t = false) (h : reduce env s = some (.ok s')) :
    pushToks env s (t :: ts) = pushToks env s' (t :: ts) := by
  have hlt := (reduced_of_reduce h).budget_lt
  have hpush : yypushParse env (parseBudget s + 1) s t = yypushParse env (parseBudget s' + 1) s' t := by
    rw [yypushParse, if_neg (by rw [hshift]; exact Bool.false_ne_true), h]
    exact yypushParse_fuel hlt (Nat.lt_succ_self _)
  rw [pushToks, pushToks, hpush]

theorem push_end (q : ParsedQuery) : pushToks env [.line q] (t :: ts) = ⟨some q, some .syntaxError⟩ := by
  have hreduce : reduce env [.line q] = none := rfl
  rw [pushToks, yypushParse, if_neg (show ¬shifts [.line q] t = true from Bool.false_ne_true), hreduce]
  rfl

/-! ### What the grammar derives is read -/

/-- The level of the condition that may stand next on a stack. -/
def accepts : CondLevel → List QuerySym → Bool
  | _, [] => true
  | _, .tok .where_ :: _ => true
  | _, .tok .bOpen :: _ => true
  | lvl, .tok .boolOr :: _ => lvl != .all
  | lvl, .tok .boolAnd :: _ => lvl == .simple
  | _, _ => false

theorem accepts_cases {lvl : CondLevel} (h : accepts lvl s = true) :
    s = [] ∨ (∃ s', s = .tok .where_ :: s') ∨ (∃ s', s = .tok .bOpen :: s') ∨
      (∃ s', s = .tok .boolOr :: s' ∧ lvl ≠ .all) ∨ ∃ s', s = .tok .boolAnd :: s' ∧ lvl = .simple := by
  unfold accepts at h
  split at h
  · exact .inl rfl
  · exact .inr (.inl ⟨_, rfl⟩)
  · exact .inr (.inr (.inl ⟨_, rfl⟩))
  · exact .inr (.inr (.inr (.inl ⟨_, rfl, by simpa using h⟩)))
  · exact .inr (.inr (.inr (.inr ⟨_, rfl, by simpa using h⟩)))
  · cases h

theorem accepts_conj (h : accepts .conj s = true) : accepts .simple s = true := by
  rcases accepts_cases h with rfl | ⟨s', rfl⟩ | ⟨s', rfl⟩ | ⟨s', rfl, -⟩ | ⟨s', rfl, -⟩
  all_goals rfl

theorem accepts_all (h : accepts .all s = true) : accepts .conj s = true := by
  rcases accepts_cases h with rfl | ⟨s', rfl⟩ | ⟨s', rfl⟩ | ⟨s', rfl, h⟩ | ⟨s', rfl, h⟩
  all_goals first | rfl | exact absurd rfl h | cases h

theorem shifts_opens {lvl : CondLevel} (h : accepts lvl s = true) (ht : opensCond t = true) :
    shifts s t = true := by
  rcases accepts_cases h with rfl | ⟨s', rfl⟩ | ⟨s', rfl⟩ | ⟨s', rfl, -⟩ | ⟨s', rfl, -⟩
  · simp [shifts, ht]
  all_goals exact ht

theorem shifts_key {lvl : CondLevel} (h : accepts lvl s = true) (k : List Char) :
    shifts (.tok (.string k) :: s) t = (t == .eq || t == .contains) := by
  rcases accepts_cases h with rfl | ⟨s', rfl⟩ | ⟨s', rfl⟩ | ⟨s', rfl, -⟩ | ⟨s', rfl, -⟩
  all_goals rfl

theorem shifts_and (h : accepts .conj s = true) (n : QueryNode) :
    shifts (.cond n :: s) .boolAnd = true := by
  rcases accepts_cases h with rfl | ⟨s', rfl⟩ | ⟨s', rfl⟩ | ⟨s', rfl, -⟩ | ⟨s', rfl, h⟩
  all_goals first | rfl | cases h

theorem shifts_or (h : accepts .all s = true) (n : QueryNode) :
    shifts (.cond n :: s) .boolOr = true := by
  rcases accepts_cases h with rfl | ⟨s', rfl⟩ | ⟨s', rfl⟩ | ⟨s', rfl, h⟩ | ⟨s', rfl, h⟩
  all_goals first | rfl | exact absurd rfl h | cases h

/-- The tokens of a condition leave the condition on the stack. Behind a condition with `||` at
its top no `&&` may follow, which would take its right side away. -/
theorem cond_shifts {lvl : CondLevel} {n : QueryNode} (h : CondText env lvl w n)
    (hs : accepts lvl s = true) (hnext : lvl = .all → t ≠ .boolAnd) :
    pushToks env s (w ++ t :: ts) = pushToks env (.cond n :: s) (t :: ts) := by
  induction h generalizing s t ts with
  | @ref v n hn =>
    have hreduce : reduce env (.tok (.string v) :: .tok .eq :: .tok .ref :: s) =
        some (.ok (.cond n :: s)) := by simp [reduce, hn, orYyerror]
    simp only [List.cons_append, List.nil_append]
    rw [push_shift (shifts_opens hs rfl), push_shift rfl, push_shift rfl, push_reduce rfl hreduce]
  | eq k v =>
    simp only [List.cons_append, List.nil_append]
    rw [push_shift (shifts_opens hs rfl), push_shift (shifts_key hs k), push_shift rfl,
      push_reduce rfl rfl]
  | contains k v =>
    simp only [List.cons_append, List.nil_append]
    rw [push_shift (shifts_opens hs rfl), push_shift (shifts_key hs k), push_shift rfl,
      push_reduce rfl rfl]
  | @bracket w n _ ih =>
    have hinner : accepts .all (.tok .bOpen :: s) = true := rfl
    simp only [List.cons_append, List.append_assoc, List.nil_append]
    rw [push_shift (shifts_opens hs rfl), ih hinner (fun _ => QueryTok.noConfusion), push_shift rfl,
      push_reduce rfl rfl]
  | @and wl wr l r _ _ ihl ihr =>
    have hright : accepts .simple (.tok .boolAnd :: .cond l :: s) = true := rfl
    simp only [List.append_assoc, List.cons_append]
    rw [ihl hs CondLevel.noConfusion, push_shift (shifts_and hs l), ihr hright CondLevel.noConfusion,
      push_reduce rfl rfl]
  | @or wl wr l r _ _ ihl ihr =>
    have hright : accepts .conj (.tok .boolOr :: .cond l :: s) = true := rfl
    have hstop : shifts (.cond r :: .tok .boolOr :: .cond l :: s) t = false :=
      beq_eq_false_iff_ne.mpr (hnext rfl)
    simp only [List.append_assoc, List.cons_append]
    rw [ihl hs (fun _ => QueryTok.noConfusion), push_shift (shifts_or hs l),
      ihr hright CondLevel.noConfusion, push_reduce hstop rfl]
  | conj _ ih => exact ih (accepts_conj hs) CondLevel.noConfusion
  | all _ ih => exact ih (accepts_all hs) CondLevel.noConfusion

/-- The symbols that the options stand behind. -/
def beforeOptions : QuerySym → Bool
  | .selector _ | .condOrEmpty _ => true
  | _ => false

theorem at_shifts {sym : QuerySym} {a : Int} (hsym : beforeOptions sym = true)
    (h : OptionText .at_ env.now (timeFromIso8601 env.timegm) w a) (hat : t ≠ .at_)
    (hwhere : t ≠ .where_) :
    pushToks env (sym :: s) (w ++ t :: ts) = pushToks env (.atExpr a :: sym :: s) (t :: ts) := by
  have hnow : reduce env (sym :: s) = some (.ok (.atExpr env.now :: sym :: s)) := by
    cases sym <;> first | rfl | cases hsym
  have hnone : shifts (sym :: s) t = false := by
    cases sym with
    | selector sel => simp [shifts, hat, hwhere]
    | condOrEmpty n => simp [shifts, hat]
    | _ => cases hsym
  have hgiven : shifts (sym :: s) .at_ = true := by
    cases sym <;> first | rfl | cases hsym
  cases h with
  | absent => exact push_reduce hnone hnow
  | @given v _ hv =>
    have hreduce : reduce env (.tok (.string v) :: .tok .at_ :: sym :: s) =
        some (.ok (.atExpr a :: sym :: s)) := by simp [reduce, hv, orYyerror]
    simp only [List.cons_append, List.nil_append]
    rw [push_shift hgiven, push_shift rfl, push_reduce rfl hreduce]

theorem limit_shifts {a l : Int} (h : OptionText .limit defaultAttrQueryLimit sscanfInt w l)
    (hlimit : t ≠ .limit) : pushToks env (.atExpr a :: s) (w ++ t :: ts) =
      pushToks env (.limitExpr l :: .atExpr a :: s) (t :: ts) := by
  cases h with
  | absent => exact push_reduce (beq_eq_false_iff_ne.mpr hlimit) rfl
  | @given v _ hv =>
    have hreduce : reduce env (.tok (.string v) :: .tok .limit :: .atExpr a :: s) =
        some (.ok (.limitExpr l :: .atExpr a :: s)) := by simp [reduce, hv, orYyerror]
    simp only [List.cons_append, List.nil_append]
    rw [push_shift rfl, push_shift rfl, push_reduce rfl hreduce]

theorem offset_shifts {l o : Int} (h : OptionText .offset 0 sscanfInt w o) (hoffset : t ≠ .offset) :
    pushToks env (.limitExpr l :: s) (w ++ t :: ts) =
      pushToks env (.offsetExpr o :: .limitExpr l :: s) (t :: ts) := by
  cases h with
  | absent => exact push_reduce (beq_eq_false_iff_ne.mpr hoffset) rfl
  | @given v _ hv =>
    have hreduce : reduce env (.tok (.string v) :: .tok .offset :: .limitExpr l :: s) =
        some (.ok (.offsetExpr o :: .limitExpr l :: s)) := by simp [reduce, hv, orYyerror]
    simp only [List.cons_append, List.nil_append]
    rw [push_shift rfl, push_shift rfl, push_reduce rfl hreduce]

/-- A part that may be absent, and what stands behind it, begin with its key or with what
stands behind it. -/
theorem optionText_head {α : Type} {key : QueryTok} {d a : α} {parse : List Char → Option α}
    (h : OptionText key d parse w a) (t : QueryTok) (ts : List QueryTok) :
    ∃ t' ts', w ++ t :: ts = t' :: ts' ∧ (t' = key ∨ t' = t) := by
  cases h with
  | absent => exact ⟨t, ts, rfl, .inr rfl⟩
  | given _ => exact ⟨key, _, rfl, .inl rfl⟩

theorem options_shift {sym : QuerySym} {a l o : Int} (h : OptionsText env w a l o)
    (hsym : beforeOptions sym = true) : pushToks env (sym :: s) (w ++ .end_ :: ts) =
      pushToks env (.offsetExpr o :: .limitExpr l :: .atExpr a :: sym :: s) (.end_ :: ts) := by
  obtain ⟨wt, wl, wo, rfl, ht, hl, ho⟩ := h.parts
  obtain ⟨t', ts', hoffset, ht'⟩ := optionText_head ho .end_ ts
  obtain ⟨t'', ts'', hlimit, ht''⟩ := optionText_head hl t' ts'
  have hnext : t' ≠ .limit ∧ t'' ≠ .at_ ∧ t'' ≠ .where_ := by
    rcases ht' with rfl | rfl <;> rcases ht'' with rfl | rfl <;> decide
  rw [List.append_assoc, List.append_assoc, hoffset, hlimit,
    at_shifts hsym ht hnext.2.1 hnext.2.2, ← hlimit, limit_shifts hl hnext.1, ← hoffset,
    offset_shifts ho (by decide)]

/-- Behind a query only the end of the text is read. -/
theorem push_query {sym : QuerySym} {q : ParsedQuery} {more : List QuerySym} {a l o : Int}
    (h : OptionsText env w a l o) (hsym : beforeOptions sym = true)
    (hreduce : reduce env (.offsetExpr o :: .limitExpr l :: .atExpr a :: sym :: more) =
      some (.ok [.query q])) :
    pushToks env (sym :: more) (w ++ .end_ :: t :: ts) = ⟨some q, some .syntaxError⟩ := by
  rw [options_shift h hsym, push_reduce rfl hreduce, push_shift rfl, push_reduce rfl rfl, push_end]

theorem selector_shifts {sel : Option AttrSelector} (h : SelectorText w sel)
    (ht : w = [] → shifts [] t = false) :
    pushToks env [] (w ++ t :: ts) = pushToks env [.selector sel] (t :: ts) := by
  cases h with
  | absent => exact push_reduce (ht rfl) rfl
  | all =>
    simp only [List.cons_append, List.nil_append]
    rw [push_shift rfl, push_shift rfl, push_reduce rfl rfl]

theorem optionsText_head {a l o : Int} (h : OptionsText env w a l o) (t : QueryTok)
    (ts : List QueryTok) :
    ∃ t' ts', w ++ t :: ts = t' :: ts' ∧ (t' = .at_ ∨ t' = .limit ∨ t' = .offset ∨ t' = t) := by
  obtain ⟨wt, wl, wo, rfl, ht, hl, ho⟩ := h.parts
  obtain ⟨t', ts', hoffset, ht'⟩ := optionText_head ho t ts
  obtain ⟨t'', ts'', hlimit, ht''⟩ := optionText_head hl t' ts'
  obtain ⟨t₀, ts₀, hat, ht₀⟩ := optionText_head ht t'' ts''
  refine ⟨t₀, ts₀, by rw [List.append_assoc, List.append_assoc, hoffset, hlimit, hat], ?_⟩
  rcases ht₀ with rfl | rfl
  · exact .inl rfl
  · rcases ht'' with rfl | rfl
    · exact .inr (.inl rfl)
    · exact .inr (.inr ht')

theorem optionText_nil {α : Type} {key : QueryTok} {d a : α} {parse : List Char → Option α}
    (h : OptionText key d parse [] a) : a = d := by
  cases h
  rfl

theorem end_not_mem_option {α : Type} {key : QueryTok} {d a : α} {parse : List Char → Option α}
    (hkey : key ≠ .end_) (h : OptionText key d parse w a) : .end_ ∉ w := by
  cases h with
  | absent => exact List.not_mem_nil
  | given _ =>
    intro hmem
    rcases List.mem_pair.mp hmem with hmem | hmem
    · exact hkey hmem.symm
    · cases hmem

theorem end_not_mem_options {a l o : Int} (h : OptionsText env w a l o) : .end_ ∉ w := by
  obtain ⟨wt, wl, wo, rfl, ht, hl, ho⟩ := h.parts
  simp only [List.mem_append, not_or]
  exact ⟨⟨end_not_mem_option (by decide) ht, end_not_mem_option (by decide) hl⟩,
    end_not_mem_option (by decide) ho⟩

/-- What the grammar derives is read as it derives it, whatever follows the end. -/
theorem queryText_read {q : ParsedQuery} (h : QueryText env w q) :
    pushToks env [] (w ++ .end_ :: t :: ts) = ⟨some q, some .syntaxError⟩ := by
  cases h with
  | @bare ws w sel a l o hs hw =>
    by_cases hnone : ws = [] ∧ w = []
    · -- the end alone is taken for the whole line
      obtain ⟨rfl, rfl⟩ := hnone
      obtain ⟨wt, wl, wo, hparts, ht, hl, ho⟩ := hw.parts
      obtain ⟨rfl, rfl, rfl⟩ : wt = [] ∧ wl = [] ∧ wo = [] := by simpa using hparts.symm
      obtain rfl := optionText_nil ht
      obtain rfl := optionText_nil hl
      obtain rfl := optionText_nil ho
      cases hs
      rw [List.append_nil, List.nil_append, push_shift rfl, push_reduce rfl rfl, push_end]
    · obtain ⟨t', ts', hhead, ht'⟩ := optionsText_head hw .end_ (t :: ts)
      have hstart : ws = [] → shifts [] t' = false := by
        rintro rfl
        rcases ht' with rfl | rfl | rfl | rfl
        · rfl
        · rfl
        · rfl
        · cases w with
          | nil => exact absurd ⟨rfl, rfl⟩ hnone
          | cons t'' w =>
            exact absurd ((List.cons.inj hhead).1 ▸ List.mem_cons_self) (end_not_mem_options hw)
      rw [List.append_assoc, hhead, selector_shifts hs hstart, ← hhead, push_query hw rfl rfl]
  | @where_ ws wc w sel n a l o hs hc hw =>
    obtain ⟨t', ts', hhead, ht'⟩ := optionsText_head hw .end_ (t :: ts)
    have hnext : opensCond t' = false ∧ t' ≠ .boolAnd ∧ t' ≠ .boolOr := by
      rcases ht' with rfl | rfl | rfl | rfl <;> decide
    have hselector : pushToks env [] (ws ++ .where_ :: wc ++ w ++ .end_ :: t :: ts) =
        pushToks env [.tok .where_, .selector sel] (wc ++ t' :: ts') := by
      rw [List.append_assoc, List.append_assoc, List.cons_append, selector_shifts hs fun _ => rfl,
        push_shift rfl, hhead]
    have hcond : pushToks env [.tok .where_, .selector sel] (wc ++ t' :: ts') =
        pushToks env [.condOrEmpty n, .tok .where_, .selector sel] (t' :: ts') := by
      cases hc with
      | absent => exact push_reduce hnext.1 rfl
      | @given _ n hc =>
        have hstop : shifts [.cond n, .tok .where_, .selector sel] t' = false := by
          simp [shifts, hnext.2.1, hnext.2.2]
        rw [cond_shifts hc rfl fun _ => hnext.2.1, push_reduce hstop rfl]
    rw [hselector, hcond, ← hhead, push_query hw rfl rfl]
  | @cond wc w n a l o hc hw =>
    obtain ⟨t', ts', hhead, ht'⟩ := optionsText_head hw .end_ (t :: ts)
    have hnext : t' ≠ .boolAnd ∧ t' ≠ .boolOr := by
      rcases ht' with rfl | rfl | rfl | rfl <;> decide
    have hstop : shifts [.cond n] t' = false := by simp [shifts, hnext.1, hnext.2]
    rw [List.append_assoc, hhead, cond_shifts hc rfl fun _ => hnext.1, push_reduce hstop rfl, ← hhead,
      push_query hw rfl rfl]

end QueryParserLemmas

end Everarch
