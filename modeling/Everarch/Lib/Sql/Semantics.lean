import Everarch.Lib.Sql.Syntax
import Mathlib.Data.List.Dedup

/-!
# The meaning of select statements

Rows, scopes, three-valued logic and the scalar functions `lower`, `glob` and
`substr` as SQLite documents them, and the rows that a select returns. Arithmetic
and conditions are on integers, comparisons are between values of the storage
classes that the columns have.

`Value.IsTrue` is what a condition must be for its row to be selected. The lemmas
`isTrue_*` say when each kind of condition is true, `mem_evalSelect` says which values
a select returns.
-/

namespace Everarch.Sql

/-! ## Values -/

/-- Null is neither true nor false. -/
def Value.truth : Value → Option Bool
  | .int i => some (i ≠ 0)
  | _ => none

/-- Rows are selected where the condition is true. -/
def Value.IsTrue (v : Value) : Prop :=
  v.truth = some true

instance (v : Value) : Decidable v.IsTrue :=
  inferInstanceAs (Decidable (_ = _))

def ofTruth : Option Bool → Value
  | some true => .int 1
  | some false => .int 0
  | none => .null

/-- Integers come before text, text before blobs. -/
def Value.lt : Value → Value → Bool
  | .int i, .int j => i < j
  | .int _, .text _ => true
  | .int _, .blob _ => true
  | .text s, .text s' => s < s'
  | .text _, .blob _ => true
  | .blob b, .blob b' => b < b'
  | _, _ => false

/-- A comparison is null if one of its operands is. -/
def compareWith (test : Value → Value → Bool) (a b : Value) : Option Bool :=
  if a = .null ∨ b = .null then none else some (test a b)

def and3 : Option Bool → Option Bool → Option Bool
  | some false, _ => some false
  | _, some false => some false
  | some true, some true => some true
  | _, _ => none

def or3 : Option Bool → Option Bool → Option Bool
  | some true, _ => some true
  | _, some true => some true
  | some false, some false => some false
  | _, _ => none

def evalBin : BinOp → Value → Value → Value
  | .concat, .text s, .text s' => .text (s ++ s')
  | .concat, _, _ => .null
  | .div, .int i, .int j => if j = 0 then .null else .int (i.tdiv j)
  | .div, _, _ => .null
  | .plus, .int i, .int j => .int (i + j)
  | .plus, _, _ => .null
  | .lt, a, b => ofTruth (compareWith Value.lt a b)
  | .le, a, b => ofTruth (compareWith (fun a b => !Value.lt b a) a b)
  | .gt, a, b => ofTruth (compareWith (fun a b => Value.lt b a) a b)
  | .ge, a, b => ofTruth (compareWith (fun a b => !Value.lt a b) a b)
  | .eq, a, b => ofTruth (compareWith (fun a b => a = b) a b)
  | .and, a, b => ofTruth (and3 a.truth b.truth)
  | .or, a, b => ofTruth (or3 a.truth b.truth)

/-- `a in (vs)`. -/
def memValues (a : Value) (vs : List Value) : Option Bool :=
  if vs = [] then some false
  else if a = .null then none
  else if a ∈ vs then some true
  else if .null ∈ vs then none
  else some false

/-! ## Functions -/

/-- `lower`, which knows ASCII letters only. -/
def lower (s : String) : String :=
  String.ofList (s.toList.map Char.toLower)

/-- The set of a glob pattern after its opening bracket: whether the character is in
it, and the pattern behind the closing bracket. -/
def globSet (c : Char) (prior : Option Char) (seen : Bool) : List Char → Option (Bool × List Char)
  | [] => none
  | ']' :: p => some (seen, p)
  | '-' :: c2 :: p =>
    match prior, c2 with
    | some _, ']' => globSet c (some '-') (seen || c = '-') (']' :: p)
    | some a, c2 => globSet c none (seen || (a ≤ c && c ≤ c2)) p
    | none, c2 => globSet c (some '-') (seen || c = '-') (c2 :: p)
  | c2 :: p => globSet c (some c2) (seen || c = c2) p

/-- The match of one character against a set: `^` inverts it, a leading `]` is a
member. -/
def globClass (c : Char) : List Char → Option (Bool × List Char)
  | '^' :: ']' :: p => (globSet c none (c = ']') p).map fun (seen, p) => (!seen, p)
  | '^' :: p => (globSet c none false p).map fun (seen, p) => (!seen, p)
  | ']' :: p => globSet c none (c = ']') p
  | p => globSet c none false p

/-- `glob` with `n` bounding the length of the pattern. -/
def globMatch : Nat → List Char → List Char → Bool
  | 0, _, _ => false
  | _ + 1, [], s => s.isEmpty
  | n + 1, '*' :: p, s => s.tails.any (globMatch n p)
  | n + 1, '?' :: p, s => match s with
    | [] => false
    | _ :: s => globMatch n p s
  | n + 1, '[' :: p, s => match s with
    | [] => false
    | c :: s => match globClass c p with
      | some (true, p) => globMatch n p s
      | _ => false
  | n + 1, c :: p, s => match s with
    | [] => false
    | c' :: s => c = c' && globMatch n p s

/-- `glob(pattern, s)`. -/
def glob (pattern s : String) : Bool :=
  globMatch (pattern.length + 1) pattern.toList s.toList

/-- The part of a list that `substr(x, start, count)` takes. Positions count from
one, negative ones from the end. A start of zero is the position in front of the
first element and costs one of the count; a negative count takes what precedes. -/
def substrOf {α : Type} (x : List α) (start count : Int) : List α :=
  let len : Int := x.length
  let p2 := count.natAbs
  let (p1, p2) : Int × Int :=
    if start < 0 then
      if start + len < 0 then (0, max 0 (p2 + (start + len))) else (start + len, p2)
    else if 0 < start then (start - 1, p2)
    else (0, if 0 < p2 then p2 - 1 else p2)
  let (p1, p2) : Int × Int :=
    if count < 0 then if p1 - p2 < 0 then (0, p2 + (p1 - p2)) else (p1 - p2, p2) else (p1, p2)
  (x.drop p1.toNat).take p2.toNat

def callFunction (f : String) (args : List Value) : Value :=
  match f, args with
  | "lower", [.text s] => .text (lower s)
  | "glob", [.text p, .text s] => ofTruth (some (glob p s))
  | "substr", [.blob b, .int start, .int count] => .blob (substrOf b start count)
  | "substr", [.text s, .int start, .int count] =>
    .text (String.ofList (substrOf s.toList start count))
  | _, _ => .null

/-! ## Rows -/

structure Table where
  columns : List String
  rows : List (List Value)

/-- The tables by name. -/
abbrev Database := String → Option Table

/-- A row of a table in a query that calls the table `table`. -/
structure Frame where
  table : String
  columns : List String
  row : List Value

def Frame.get (f : Frame) (c : Column) : Option Value :=
  if c.table.all (· = f.table) then (f.columns.zip f.row).lookup c.name else none

/-- The value of a column: the innermost query that has it decides. -/
def lookupColumn (env : List (List Frame)) (c : Column) : Option Value :=
  env.findSome? fun scope => scope.findSome? fun f => f.get c

/-- The rows of a join without a condition. -/
def joinRows (db : Database) : List (String × String) → List (List Frame)
  | [] => [[]]
  | (name, table) :: tables =>
    match db name with
    | none => []
    | some t => t.rows.flatMap fun row => (joinRows db tables).map (⟨table, t.columns, row⟩ :: ·)

mutual

/-- The value of an expression. A quoted name that is no column is a text. -/
def eval (db : Database) (env : List (List Frame)) : Expr → Value
  | .value v => v
  | .column c => (lookupColumn env c).getD .null
  | .quoted s => (lookupColumn env ⟨none, s⟩).getD (.text s)
  | .bin op l r => evalBin op (eval db env l) (eval db env r)
  | .isNull negated e => ofTruth (some ((eval db env e = .null) != negated))
  | .inSelect negated e q =>
    ofTruth ((memValues (eval db env e) (evalSelect db env q)).map (· != negated))
  | .call f args => callFunction f (evalArgs db env args)

def evalArgs (db : Database) (env : List (List Frame)) : Args → List Value
  | .one e => [eval db env e]
  | .more e args => eval db env e :: evalArgs db env args

/-- The values of the selected column, in the order of the join. -/
def evalSelect (db : Database) (env : List (List Frame)) : Select → List Value
  | .mk distinct c tables cond =>
    let values := ((joinRows db tables).filter fun scope =>
      (eval db (scope :: env) cond).IsTrue).map fun scope =>
        (lookupColumn (scope :: env) c).getD .null
    if distinct then values.dedup else values

end

/-! ## When conditions are true -/

theorem mem_evalSelect {db : Database} {env : List (List Frame)} {distinct : Bool} {c : Column}
    {tables : List (String × String)} {cond : Expr} {v : Value} :
    v ∈ evalSelect db env (.mk distinct c tables cond) ↔
      ∃ scope ∈ joinRows db tables, (eval db (scope :: env) cond).IsTrue ∧
        (lookupColumn (scope :: env) c).getD .null = v := by
  unfold evalSelect
  split <;> simp [and_assoc]

theorem isTrue_ofTruth (b : Option Bool) : (ofTruth b).IsTrue ↔ b = some true := by
  cases b with
  | none => decide
  | some b => cases b <;> decide

theorem isTrue_and {a b : Value} : (evalBin .and a b).IsTrue ↔ a.IsTrue ∧ b.IsTrue := by
  unfold evalBin
  rw [isTrue_ofTruth]
  unfold Value.IsTrue
  cases a.truth with
  | none => cases b.truth with
    | none => decide
    | some y => cases y <;> decide
  | some x => cases b.truth with
    | none => cases x <;> decide
    | some y => cases x <;> cases y <;> decide

theorem isTrue_or {a b : Value} : (evalBin .or a b).IsTrue ↔ a.IsTrue ∨ b.IsTrue := by
  unfold evalBin
  rw [isTrue_ofTruth]
  unfold Value.IsTrue
  cases a.truth with
  | none => cases b.truth with
    | none => decide
    | some y => cases y <;> decide
  | some x => cases b.truth with
    | none => cases x <;> decide
    | some y => cases x <;> cases y <;> decide

theorem isTrue_conj {db : Database} {env : List (List Frame)} {l : Expr}
    {units : List (List Token × Expr)} :
    (eval db env (conj l units)).IsTrue ↔
      (eval db env l).IsTrue ∧ ∀ u ∈ units, (eval db env u.2).IsTrue := by
  induction units generalizing l with
  | nil => simp [conj]
  | cons u units ih =>
    have hcons : conj l (u :: units) = conj (.bin .and l u.2) units := rfl
    rw [hcons, ih, List.forall_mem_cons, ← and_assoc]
    exact and_congr isTrue_and Iff.rfl

theorem isTrue_eq {a b : Value} : (evalBin .eq a b).IsTrue ↔ a ≠ .null ∧ a = b := by
  simp only [evalBin, isTrue_ofTruth, compareWith]
  by_cases ha : a = .null
  · simp [ha]
  · by_cases hab : a = b
    · subst hab
      simp [ha]
    · simp [hab]

theorem isTrue_le {i j : Int} : (evalBin .le (.int i) (.int j)).IsTrue ↔ i ≤ j := by
  simp [evalBin, isTrue_ofTruth, compareWith, Value.lt]

theorem isTrue_gt {i j : Int} : (evalBin .gt (.int i) (.int j)).IsTrue ↔ j < i := by
  simp [evalBin, isTrue_ofTruth, compareWith, Value.lt]

theorem isTrue_isNull {db : Database} {env : List (List Frame)} {negated : Bool} {e : Expr} :
    (eval db env (.isNull negated e)).IsTrue ↔ (eval db env e = .null ↔ negated = false) := by
  conv_lhs => unfold eval
  rw [isTrue_ofTruth]
  cases negated with
  | false => simp
  | true => simp

theorem isTrue_in {db : Database} {env : List (List Frame)} {e : Expr} {q : Select} :
    (eval db env (.inSelect false e q)).IsTrue ↔
      eval db env e ≠ .null ∧ eval db env e ∈ evalSelect db env q := by
  conv_lhs => unfold eval
  rw [isTrue_ofTruth]
  unfold memValues
  split
  · next h => simp [h]
  · split
    · next h => simp [h]
    · next h =>
      split
      · next hmem => simp [h, hmem]
      · next hmem => split <;> simp [hmem]

theorem isTrue_not_in {db : Database} {env : List (List Frame)} {e : Expr} {q : Select}
    (he : eval db env e ≠ .null) (hq : .null ∉ evalSelect db env q) :
    (eval db env (.inSelect true e q)).IsTrue ↔ eval db env e ∉ evalSelect db env q := by
  conv_lhs => unfold eval
  rw [isTrue_ofTruth]
  unfold memValues
  rw [if_neg he, if_neg hq]
  split
  · next h => simp [h]
  · split
    · next hmem => simp [hmem]
    · next hmem => simp [hmem]

end Everarch.Sql
