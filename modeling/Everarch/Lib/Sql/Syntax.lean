import Mathlib.Data.List.Basic

/-!
# SQL text: tokens, precedence and syntax trees

The fragment of SQLite's language that filtering select statements need: text to
tokens (`lex`), bound parameters (`bindParams`) and tokens to a syntax tree
(`parseStatement`). Operators bind as SQLite documents it: `||`, then `/`, then `+`,
then `<`, `<=`, `>` and `>=`, then `=`, `in`, `is null` and `not null`, then `and`,
then `or`, all of them to the left.

* `Lexes`, `Lexes.append`: a text that starts and ends between tokens lexes to the
  same tokens wherever it stands.
* `Stop`, `parse_unit`: an operand is complete in front of a token that no operator
  starts with.
-/

namespace Everarch.Sql

/-! ## Values and tokens -/

/-- The storage classes of SQLite that appear here. -/
inductive Value where
  | null
  | int (i : Int)
  | text (s : String)
  | blob (b : List UInt8)
deriving DecidableEq, Repr

inductive BinOp where
  | concat
  | div
  | plus
  | lt
  | le
  | gt
  | ge
  | eq
  | and
  | or
deriving DecidableEq, Repr

inductive Keyword where
  | select
  | distinct
  | from_
  | inner
  | join
  | where_
  | not
  | in_
  | is
  | null
  | order
  | by_
  | desc
  | limit
  | offset
deriving DecidableEq, Repr

inductive Token where
  | ident (s : String)
  | quoted (s : String)
  | num (n : Nat)
  | param
  | value (v : Value)
  | lparen
  | rparen
  | comma
  | dot
  | op (o : BinOp)
  | kw (k : Keyword)
  | other (c : Char)
deriving DecidableEq, Repr

/-! ## The lexer -/

/-- What the lexer has read of a token that may go on. Characters of words and
quoted names are kept in reverse. -/
inductive Pending where
  | none
  | word (cs : List Char)
  | quote (cs : List Char)
  | less
  | greater
  | bar
deriving DecidableEq, Repr

/-- A complete word: a number, a keyword or a name. -/
def wordToken : List Char → Token
  | ['a', 'n', 'd'] => .op .and
  | ['o', 'r'] => .op .or
  | ['s', 'e', 'l', 'e', 'c', 't'] => .kw .select
  | ['d', 'i', 's', 't', 'i', 'n', 'c', 't'] => .kw .distinct
  | ['f', 'r', 'o', 'm'] => .kw .from_
  | ['i', 'n', 'n', 'e', 'r'] => .kw .inner
  | ['j', 'o', 'i', 'n'] => .kw .join
  | ['w', 'h', 'e', 'r', 'e'] => .kw .where_
  | ['n', 'o', 't'] => .kw .not
  | ['i', 'n'] => .kw .in_
  | ['i', 's'] => .kw .is
  | ['n', 'u', 'l', 'l'] => .kw .null
  | ['o', 'r', 'd', 'e', 'r'] => .kw .order
  | ['b', 'y'] => .kw .by_
  | ['d', 'e', 's', 'c'] => .kw .desc
  | ['l', 'i', 'm', 'i', 't'] => .kw .limit
  | ['o', 'f', 'f', 's', 'e', 't'] => .kw .offset
  | cs =>
    if cs.all Char.isDigit then .num (cs.foldl (fun n c => 10 * n + (c.toNat - 48)) 0)
    else .ident (String.ofList cs)

/-- The tokens of a pending token that does not go on. -/
def Pending.flush : Pending → List Token
  | .none => []
  | .word cs => [wordToken cs.reverse]
  | .quote _ => [.other '"']
  | .less => [.op .lt]
  | .greater => [.op .gt]
  | .bar => [.other '|']

/-- A character that starts a token or is one. -/
def startToken (c : Char) : List Token × Pending :=
  if c.isAlphanum || c = '_' then ([], .word [c])
  else match c with
    | ' ' => ([], .none)
    | '(' => ([.lparen], .none)
    | ')' => ([.rparen], .none)
    | ',' => ([.comma], .none)
    | '.' => ([.dot], .none)
    | '?' => ([.param], .none)
    | '=' => ([.op .eq], .none)
    | '+' => ([.op .plus], .none)
    | '/' => ([.op .div], .none)
    | '<' => ([], .less)
    | '>' => ([], .greater)
    | '|' => ([], .bar)
    | '"' => ([], .quote [])
    | c => ([.other c], .none)

/-- One character of text. -/
def lexStep (state : List Token × Pending) (c : Char) : List Token × Pending :=
  let (out, pending) := state
  let fresh : List Token × Pending :=
    (out ++ pending.flush ++ (startToken c).1, (startToken c).2)
  match pending with
  | .quote cs => if c = '"' then (out ++ [.quoted (String.ofList cs.reverse)], .none)
      else (out, .quote (c :: cs))
  | .word cs => if c.isAlphanum || c = '_' then (out, .word (c :: cs)) else fresh
  | .less => if c = '=' then (out ++ [.op .le], .none) else fresh
  | .greater => if c = '=' then (out ++ [.op .ge], .none) else fresh
  | .bar => if c = '|' then (out ++ [.op .concat], .none) else fresh
  | .none => fresh

/-- The tokens of a text. -/
def lex (text : String) : List Token :=
  let (out, pending) := text.toList.foldl lexStep ([], .none)
  out ++ pending.flush

/-- The text starts and ends between tokens. -/
def Lexes (text : String) (toks : List Token) : Prop :=
  text.toList.foldl lexStep ([], .none) = (toks, .none)

theorem lexStep_out (out out' : List Token) (pending : Pending) (c : Char) :
    lexStep (out ++ out', pending) c =
      (out ++ (lexStep (out', pending) c).1, (lexStep (out', pending) c).2) := by
  cases pending with
  | none => simp [lexStep]
  | word cs =>
    simp only [lexStep]
    split <;> simp
  | quote cs =>
    simp only [lexStep]
    split <;> simp
  | less =>
    simp only [lexStep]
    split <;> simp
  | greater =>
    simp only [lexStep]
    split <;> simp
  | bar =>
    simp only [lexStep]
    split <;> simp

theorem foldl_lexStep_out (cs : List Char) (out out' : List Token) (pending : Pending) :
    cs.foldl lexStep (out ++ out', pending) =
      (out ++ (cs.foldl lexStep (out', pending)).1, (cs.foldl lexStep (out', pending)).2) := by
  induction cs generalizing out' pending with
  | nil => rfl
  | cons c cs ih =>
    rw [List.foldl_cons, lexStep_out, ih]
    rfl

/-- Literals are checked character by character. -/
theorem lexes_ofList {cs : List Char} {toks : List Token}
    (h : cs.foldl lexStep ([], .none) = (toks, .none)) : Lexes (String.ofList cs) toks := by
  unfold Lexes
  rw [String.toList_ofList]
  exact h

theorem Lexes.append {a b : String} {ta tb : List Token} (ha : Lexes a ta) (hb : Lexes b tb) :
    Lexes (a ++ b) (ta ++ tb) := by
  unfold Lexes at *
  rw [String.toList_append, List.foldl_append, ha]
  have hout := foldl_lexStep_out b.toList ta [] .none
  rw [List.append_nil, hb] at hout
  exact hout

theorem Lexes.lex_eq {text : String} {toks : List Token} (h : Lexes text toks) :
    lex text = toks := by
  unfold lex
  rw [h]
  exact List.append_nil toks

/-! ## Bound parameters -/

/-- The tokens with the first parameters replaced by their values, counted from the
left. A value too many is an error, as it is for `sqlite3_bind_*`. -/
def bindParams : List Token → List Value → Option (List Token)
  | toks, [] => some toks
  | [], _ :: _ => none
  | t :: toks, v :: vs =>
    if t = .param then (bindParams toks vs).map (.value v :: ·)
    else (bindParams toks (v :: vs)).map (t :: ·)

/-- The values are those of exactly the parameters among the tokens. -/
def Binds (toks : List Token) (vs : List Value) (toks' : List Token) : Prop :=
  toks.count .param = vs.length ∧ bindParams toks vs = some toks'

theorem bindParams_skip {a : List Token} (h : Token.param ∉ a) (b : List Token)
    (vs : List Value) : bindParams (a ++ b) vs = (bindParams b vs).map (a ++ ·) := by
  induction a with
  | nil => simp
  | cons t a ih =>
    obtain ⟨ht, ha⟩ := not_or.mp (mt List.mem_cons.mpr h)
    cases vs with
    | nil => simp [bindParams]
    | cons v vs =>
      rw [List.cons_append, bindParams, if_neg (Ne.symm ht), ih ha, Option.map_map]
      rfl

theorem Binds.append {a b a' b' : List Token} {va vb : List Value} (ha : Binds a va a')
    (hb : Binds b vb b') : Binds (a ++ b) (va ++ vb) (a' ++ b') := by
  obtain ⟨hca, hba⟩ := ha
  obtain ⟨hcb, hbb⟩ := hb
  refine ⟨by rw [List.count_append, List.length_append, hca, hcb], ?_⟩
  induction a generalizing va a' with
  | nil =>
    obtain rfl : va = [] := List.eq_nil_of_length_eq_zero hca.symm
    obtain rfl : [] = a' := by simpa [bindParams] using hba
    exact hbb
  | cons t a ih =>
    cases va with
    | nil =>
      obtain rfl : t :: a = a' := by simpa [bindParams] using hba
      rw [List.nil_append, bindParams_skip (List.count_eq_zero.mp hca), hbb]
      rfl
    | cons v va =>
      by_cases ht : t = .param
      · subst ht
        rw [bindParams, if_pos rfl] at hba
        obtain ⟨a', ha', rfl⟩ := Option.map_eq_some_iff.mp hba
        have hca' : a.count .param = va.length := by simpa using hca
        rw [List.cons_append, List.cons_append, bindParams, if_pos rfl, ih hca' ha']
        rfl
      · rw [bindParams, if_neg ht] at hba
        obtain ⟨a', ha', rfl⟩ := Option.map_eq_some_iff.mp hba
        have hca' : a.count .param = (v :: va).length := by
          rw [← hca, List.count_cons_of_ne ht]
        rw [List.cons_append, List.cons_append, bindParams, if_neg ht]
        have := ih hca' ha'
        rw [List.cons_append] at this
        rw [this]
        rfl

/-! ## Syntax trees -/

/-- A column with the alias of its table, if one is given. -/
structure Column where
  table : Option String
  name : String
deriving DecidableEq, Repr

mutual

/-- Expressions. `quoted` is a name in double quotes. -/
inductive Expr where
  | value (v : Value)
  | column (c : Column)
  | quoted (s : String)
  | bin (op : BinOp) (l r : Expr)
  | isNull (negated : Bool) (e : Expr)
  | inSelect (negated : Bool) (e : Expr) (q : Select)
  | call (f : String) (args : Args)

/-- The arguments of a function call. -/
inductive Args where
  | one (e : Expr)
  | more (e : Expr) (args : Args)

/-- `select [distinct] column from table [alias] [inner join table [alias]] where cond`. -/
inductive Select where
  | mk (distinct : Bool) (column : Column) (tables : List (String × String)) (cond : Expr)

end

/-- A select statement with what may follow its condition. -/
structure Statement where
  query : Select
  orderBy : Option (Column × Bool)
  limit : Option Expr
  offset : Option Expr

/-! ## The parser -/

/-- A parser consumes the tokens of what it returns. -/
abbrev Parser (α : Type) := List Token → Option (α × List Token)

/-- Operators of one level, to the left. -/
def binLoop (ops : List BinOp) (sub : Parser Expr) : Nat → Expr → Parser Expr
  | 0, _, _ => none
  | n + 1, l, .op o :: toks =>
    if o ∈ ops then (sub toks).bind fun (r, toks) => binLoop ops sub n (.bin o l r) toks
    else some (l, .op o :: toks)
  | _ + 1, l, toks => some (l, toks)

/-- An operand and the operators of one level behind it. -/
def binLevel (ops : List BinOp) (sub : Parser Expr) (n : Nat) : Parser Expr := fun toks =>
  (sub toks).bind fun (l, toks) => binLoop ops sub n l toks

/-- The level of `=`, which has the tests for null and `in` too. -/
def eqLoop (sub : Parser Expr) (select : Parser Select) : Nat → Expr → Parser Expr
  | 0, _, _ => none
  | n + 1, l, .op .eq :: toks =>
    (sub toks).bind fun (r, toks) => eqLoop sub select n (.bin .eq l r) toks
  | n + 1, l, .kw .is :: .kw .null :: toks => eqLoop sub select n (.isNull false l) toks
  | n + 1, l, .kw .not :: .kw .null :: toks => eqLoop sub select n (.isNull true l) toks
  | n + 1, l, .kw .in_ :: .lparen :: toks =>
    (select toks).bind fun
      | (q, .rparen :: toks) => eqLoop sub select n (.inSelect false l q) toks
      | _ => none
  | n + 1, l, .kw .not :: .kw .in_ :: .lparen :: toks =>
    (select toks).bind fun
      | (q, .rparen :: toks) => eqLoop sub select n (.inSelect true l q) toks
      | _ => none
  | _ + 1, l, toks => some (l, toks)

/-- Arguments up to the closing parenthesis. -/
def parseArgs (expr : Parser Expr) : Nat → Parser Args
  | 0, _ => none
  | n + 1, toks =>
    (expr toks).bind fun
      | (e, .comma :: toks) => (parseArgs expr n toks).map fun (args, toks) => (.more e args, toks)
      | (e, .rparen :: toks) => some (.one e, toks)
      | _ => none

/-- Operands. A parameter without a value is null. -/
def primary (expr : Parser Expr) (n : Nat) : Parser Expr
  | .value v :: toks => some (.value v, toks)
  | .param :: toks => some (.value .null, toks)
  | .num k :: toks => some (.value (.int k), toks)
  | .quoted s :: toks => some (.quoted s, toks)
  | .ident f :: .lparen :: toks => (parseArgs expr n toks).map fun (args, toks) => (.call f args, toks)
  | .ident t :: .dot :: .ident c :: toks => some (.column ⟨some t, c⟩, toks)
  | .ident c :: toks => some (.column ⟨none, c⟩, toks)
  | .lparen :: toks =>
    (expr toks).bind fun
      | (e, .rparen :: toks) => some (e, toks)
      | _ => none
  | _ => none

/-- A column of a result or of an order. -/
def parseColumn : Parser Column
  | .ident t :: .dot :: .ident c :: toks => some (⟨some t, c⟩, toks)
  | .ident c :: toks => some (⟨none, c⟩, toks)
  | _ => none

/-- A table with its alias. -/
def parseTable : Parser (String × String)
  | .ident t :: .ident a :: toks => some ((t, a), toks)
  | .ident t :: toks => some ((t, t), toks)
  | _ => none

/-- The tables after `from`. -/
def parseTables : Parser (List (String × String)) := fun toks =>
  (parseTable toks).bind fun
    | (t, .kw .inner :: .kw .join :: toks) =>
      (parseTable toks).map fun (t', toks) => ([t, t'], toks)
    | (t, toks) => some ([t], toks)

/-- A select up to the end of its condition. -/
def parseSelect (expr : Parser Expr) : Parser Select := fun toks =>
  match toks with
  | .kw .select :: toks =>
    let (distinct, toks) := match toks with
      | .kw .distinct :: toks => (true, toks)
      | toks => (false, toks)
    (parseColumn toks).bind fun
      | (c, .kw .from_ :: toks) => (parseTables toks).bind fun
        | (tables, .kw .where_ :: toks) =>
          (expr toks).map fun (cond, toks) => (.mk distinct c tables cond, toks)
        | _ => none
      | _ => none
  | _ => none

/-- Everything that binds tighter than `and`. -/
def eqLevel (expr : Parser Expr) (n : Nat) : Parser Expr :=
  let concat := binLevel [.concat] (primary expr n) n
  let mul := binLevel [.div] concat n
  let add := binLevel [.plus] mul n
  let rel := binLevel [.lt, .le, .gt, .ge] add n
  fun toks => (rel toks).bind fun (l, toks) => eqLoop rel (parseSelect expr) n l toks

/-- Expressions by precedence. `n` bounds the nesting and the length of chains. -/
def parseExpr : Nat → Parser Expr
  | 0 => fun _ => none
  | n + 1 => binLevel [.or] (binLevel [.and] (eqLevel (parseExpr n) n) n) n

/-- What may follow the condition of a statement. -/
def parseTail (expr : Parser Expr) (query : Select) (toks : List Token) : Option Statement :=
  let order : Option (Option (Column × Bool) × List Token) := match toks with
    | .kw .order :: .kw .by_ :: toks => (parseColumn toks).map fun
      | (c, .kw .desc :: toks) => (some (c, true), toks)
      | (c, toks) => (some (c, false), toks)
    | toks => some (none, toks)
  let clause (k : Keyword) (toks : List Token) : Option (Option Expr × List Token) := match toks with
    | .kw k' :: toks => if k' = k then (expr toks).map fun (e, toks) => (some e, toks)
      else some (none, .kw k' :: toks)
    | toks => some (none, toks)
  order.bind fun (orderBy, toks) => (clause .limit toks).bind fun (limit, toks) =>
    (clause .offset toks).bind fun
      | (offset, []) => some ⟨query, orderBy, limit, offset⟩
      | _ => none

/-- A whole statement. -/
def parseStatement (n : Nat) (toks : List Token) : Option Statement :=
  (parseSelect (parseExpr n) toks).bind fun (query, toks) => parseTail (parseExpr n) query toks

/-- Prepares and binds: the statement of a text with its parameters bound. -/
def prepare (text : String) (params : List Value) : Option Statement :=
  (bindParams (lex text) params).bind fun toks => parseStatement (toks.length + 1) toks

/-! ## How conditions parse -/

/-- Tokens that end an operand of `and`. -/
inductive Stop : Token → Prop
  | rparen : Stop .rparen
  | and : Stop (.op .and)
  | or : Stop (.op .or)
  | order : Stop (.kw .order)

/-- The tokens are an operand of `and` wherever they stand. -/
def IsUnit (n : Nat) (toks : List Token) (e : Expr) : Prop :=
  ∀ t rest, Stop t → eqLevel (parseExpr n) n (toks ++ t :: rest) = some (e, t :: rest)

theorem binLoop_step {ops : List BinOp} {sub : Parser Expr} {o : BinOp} (ho : o ∈ ops) {n : Nat}
    {l r : Expr} {toks toks' : List Token} (h : sub toks = some (r, toks')) :
    binLoop ops sub (n + 1) l (.op o :: toks) = binLoop ops sub n (.bin o l r) toks' := by
  simp only [binLoop, if_pos ho, h, Option.bind_some]

theorem binLoop_stop {ops : List BinOp} {sub : Parser Expr} {n : Nat} {l : Expr} {t : Token}
    {toks : List Token} (h : ∀ o ∈ ops, t ≠ .op o) :
    binLoop ops sub (n + 1) l (t :: toks) = some (l, t :: toks) := by
  cases t with
  | op o =>
    have hno : o ∉ ops := fun ho => h o ho rfl
    simp only [binLoop, if_neg hno]
  | _ => rfl

theorem binLevel_eq {ops : List BinOp} {sub : Parser Expr} {n : Nat} {l : Expr}
    {toks toks' : List Token} (h : sub toks = some (l, toks')) :
    binLevel ops sub n toks = binLoop ops sub n l toks' := by
  simp only [binLevel, h, Option.bind_some]

theorem binLevel_stop (ops : List BinOp) {sub : Parser Expr} {n : Nat} {l : Expr} {t : Token}
    {toks toks' : List Token} (h : sub toks = some (l, t :: toks')) (ht : ∀ o ∈ ops, t ≠ .op o) :
    binLevel ops sub (n + 1) toks = some (l, t :: toks') :=
  (binLevel_eq h).trans (binLoop_stop ht)

theorem eqLevel_of_primary {expr : Parser Expr} {n : Nat} {toks rest : List Token} {e : Expr}
    {t : Token} (h : primary expr (n + 1) toks = some (e, t :: rest)) (ht : Stop t) :
    eqLevel expr (n + 1) toks = some (e, t :: rest) := by
  have hconcat := binLevel_stop [.concat] (n := n) h (by cases ht <;> decide)
  have hmul := binLevel_stop [.div] (n := n) hconcat (by cases ht <;> decide)
  have hadd := binLevel_stop [.plus] (n := n) hmul (by cases ht <;> decide)
  have hrel := binLevel_stop [.lt, .le, .gt, .ge] (n := n) hadd (by cases ht <;> decide)
  simp only [eqLevel, hrel, Option.bind_some]
  cases ht with
  | rparen => rfl
  | and => rfl
  | or => rfl
  | order => rfl

/-- An expression in parentheses is an operand of `and`. -/
theorem isUnit_paren {n : Nat} {toks : List Token} {e : Expr}
    (h : ∀ rest, parseExpr (n + 1) (toks ++ .rparen :: rest) = some (e, .rparen :: rest)) :
    IsUnit (n + 1) (.lparen :: (toks ++ [.rparen])) e := by
  intro t rest ht
  refine eqLevel_of_primary ?_ ht
  rw [List.cons_append, List.append_assoc]
  show ((parseExpr (n + 1) (toks ++ .rparen :: t :: rest)).bind _) = _
  rw [h]
  rfl

/-- Operands of `and` behind a first one. -/
def andTail (units : List (List Token × Expr)) : List Token :=
  units.flatMap fun u => .op .and :: u.1

/-- The conjunction of operands, to the left. -/
def conj (l : Expr) (units : List (List Token × Expr)) : Expr :=
  units.foldl (fun l u => .bin .and l u.2) l

theorem binLoop_units {n k : Nat} {units : List (List Token × Expr)}
    (h : ∀ u ∈ units, IsUnit n u.1 u.2) (hk : units.length < k) (l : Expr) {t : Token}
    (ht : Stop t) (hand : t ≠ .op .and) (rest : List Token) :
    binLoop [.and] (eqLevel (parseExpr n) n) k l (andTail units ++ t :: rest) =
      some (conj l units, t :: rest) := by
  induction units generalizing k l with
  | nil =>
    obtain ⟨k, rfl⟩ := Nat.exists_eq_succ_of_ne_zero (Nat.ne_of_gt hk)
    exact binLoop_stop (by simpa using hand)
  | cons u units ih =>
    obtain ⟨k, rfl⟩ := Nat.exists_eq_succ_of_ne_zero (Nat.ne_of_gt (Nat.zero_lt_of_lt hk))
    have hlt : units.length < k := by simpa using hk
    -- the operand `u` ends at the next `and` or at `t`
    have hu : eqLevel (parseExpr n) n (u.1 ++ (andTail units ++ t :: rest)) =
        some (u.2, andTail units ++ t :: rest) := by
      cases units with
      | nil => exact h u (by simp) t rest ht
      | cons w units => exact h u (by simp) (.op .and) _ .and
    have hcons : andTail (u :: units) ++ t :: rest =
        .op .and :: (u.1 ++ (andTail units ++ t :: rest)) := by
      simp [andTail]
    rw [hcons, binLoop_step (by simp) hu, ih (fun w hw => h w (List.mem_cons_of_mem u hw)) hlt]
    rfl

/-- A chain of `and` as an operand of `or`. -/
theorem andLevel_units {n : Nat} {u : List Token × Expr} {units : List (List Token × Expr)}
    (hu : IsUnit n u.1 u.2) (h : ∀ u ∈ units, IsUnit n u.1 u.2) (hn : units.length < n)
    {t : Token} (ht : Stop t) (hand : t ≠ .op .and) (rest : List Token) :
    binLevel [.and] (eqLevel (parseExpr n) n) n (u.1 ++ andTail units ++ t :: rest) =
      some (conj u.2 units, t :: rest) := by
  have hfirst : eqLevel (parseExpr n) n (u.1 ++ (andTail units ++ t :: rest)) =
      some (u.2, andTail units ++ t :: rest) := by
    cases units with
    | nil => exact hu t rest ht
    | cons w units => exact hu (.op .and) _ .and
  rw [List.append_assoc, binLevel_eq hfirst, binLoop_units h hn _ ht hand]

theorem parseExpr_units {n : Nat} (u : List Token × Expr) (units : List (List Token × Expr))
    (hu : IsUnit n u.1 u.2) (h : ∀ u ∈ units, IsUnit n u.1 u.2) (hn : units.length < n)
    {t : Token} (ht : Stop t) (hand : t ≠ .op .and) (hor : t ≠ .op .or) (rest : List Token) :
    parseExpr (n + 1) (u.1 ++ andTail units ++ t :: rest) =
      some (conj u.2 units, t :: rest) := by
  obtain ⟨k, rfl⟩ := Nat.exists_eq_succ_of_ne_zero (Nat.ne_of_gt (Nat.zero_lt_of_lt hn))
  exact binLevel_stop [.or] (andLevel_units hu h hn ht hand rest) (by simpa using hor)

/-- `or` binds weaker than a chain of `and` in front of it. -/
theorem parseExpr_units_or {n : Nat} (u : List Token × Expr)
    (units : List (List Token × Expr)) (v : List Token × Expr) (hu : IsUnit n u.1 u.2)
    (h : ∀ u ∈ units, IsUnit n u.1 u.2) (hv : IsUnit n v.1 v.2) (hn : units.length < n)
    (hn2 : 2 ≤ n) {t : Token} (ht : Stop t) (hand : t ≠ .op .and) (hor : t ≠ .op .or)
    (rest : List Token) :
    parseExpr (n + 1) (u.1 ++ andTail units ++ .op .or :: (v.1 ++ t :: rest)) =
      some (.bin .or (conj u.2 units) v.2, t :: rest) := by
  have hleft := andLevel_units hu h hn .or (by simp) (v.1 ++ t :: rest)
  have hnone : ∀ u ∈ ([] : List (List Token × Expr)), IsUnit n u.1 u.2 := nofun
  have hright := andLevel_units hv hnone (Nat.zero_lt_of_lt hn) ht hand rest
  obtain ⟨k, rfl⟩ := Nat.exists_eq_add_of_le' hn2
  rw [show andTail [] = [] from rfl, List.append_nil] at hright
  show binLevel [.or] _ _ _ = _
  rw [binLevel_eq hleft, binLoop_step (by simp) hright]
  exact binLoop_stop (by simpa using hor)

end Everarch.Sql
