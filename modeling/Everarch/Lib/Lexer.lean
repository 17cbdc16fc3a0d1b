import Mathlib.Data.List.Basic

/-!
# Scanners of longest matches

A scanner is a list of rules. At every position the rule with the longest match is
taken, the first of these where several match as far, and its action makes a token of
the matched text or skips it.

* `pick_eq`: the rule that is taken.
* `scan_match`, `scan_fuel`: a scan goes on behind the match, with any fuel that reaches.
-/

namespace Everarch.Lexer

variable {α τ : Type}

/-- A rule: how far it matches at the front of a text, and what its action makes of the
matched text. -/
structure Rule (α τ : Type) where
  longest : List α → Nat
  action : List α → Option τ

/-- The pattern that is a text. -/
def literal [BEq α] (s cs : List α) : Nat :=
  if s.isPrefixOf cs then s.length else 0

/-- The pattern of any number of characters of a class. -/
def many (p : α → Bool) (cs : List α) : Nat :=
  (cs.takeWhile p).length

/-- The pattern of a character of one class and any number of another. -/
def headTail (p q : α → Bool) : List α → Nat
  | [] => 0
  | c :: cs => if p c then (cs.takeWhile q).length + 1 else 0

/-- The length and the action of the longest match. -/
def pick : List (Rule α τ) → List α → Nat × (List α → Option τ)
  | [], _ => (0, fun _ => none)
  | r :: rs, cs => if (pick rs cs).1 ≤ r.longest cs then (r.longest cs, r.action) else pick rs cs

/-- The tokens of a text. A scan that no rule carries on has ended. -/
def scan (rules : List (Rule α τ)) : Nat → List α → List τ
  | 0, _ => []
  | fuel + 1, cs =>
    match pick rules cs with
    | (0, _) => []
    | (n + 1, action) => (action (cs.take (n + 1))).toList ++ scan rules fuel (cs.drop (n + 1))

variable {rules before after : List (Rule α τ)} {r : Rule α τ} {cs : List α}

theorem pick_le {n : Nat} (h : ∀ r ∈ rules, r.longest cs ≤ n) : (pick rules cs).1 ≤ n := by
  induction rules with
  | nil => exact Nat.zero_le n
  | cons r rs ih =>
    unfold pick
    split
    · exact h r List.mem_cons_self
    · exact ih fun r' hr' => h r' (List.mem_cons_of_mem r hr')

/-- No earlier rule matches as far, and no later rule matches farther. -/
theorem pick_eq (hbefore : ∀ r' ∈ before, r'.longest cs < r.longest cs)
    (hafter : ∀ r' ∈ after, r'.longest cs ≤ r.longest cs) :
    pick (before ++ r :: after) cs = (r.longest cs, r.action) := by
  induction before with
  | nil => exact if_pos (pick_le hafter)
  | cons r' before ih =>
    have hrest := ih fun r'' hr'' => hbefore r'' (List.mem_cons_of_mem r' hr'')
    rw [List.cons_append, pick, hrest]
    exact if_neg (Nat.not_le.mpr (hbefore r' List.mem_cons_self))

theorem scan_match {fuel n : Nat} {action : List α → Option τ} {m rest : List α}
    (hpick : pick rules (m ++ rest) = (n, action)) (hlen : m.length = n) (hpos : 0 < n) :
    scan rules (fuel + 1) (m ++ rest) = (action m).toList ++ scan rules fuel rest := by
  obtain ⟨k, rfl⟩ : ∃ k, n = k + 1 := ⟨n - 1, (Nat.sub_add_cancel hpos).symm⟩
  rw [scan, hpick]
  simp only [List.take_left' hlen, List.drop_left' hlen]

/-- Fuel beyond the length of the text does not matter. -/
theorem scan_fuel {fuel fuel' : Nat} (h : cs.length ≤ fuel) (h' : cs.length ≤ fuel')
    (hnil : (pick rules []).1 = 0) : scan rules fuel cs = scan rules fuel' cs := by
  have hend : ∀ fuel, scan rules fuel [] = [] := by
    intro fuel
    cases fuel with
    | zero => rfl
    | succ fuel => rw [scan, show pick rules [] = (0, (pick rules []).2) from Prod.ext hnil rfl]
  induction fuel generalizing cs fuel' with
  | zero => rw [List.length_eq_zero_iff.mp (Nat.le_zero.mp h), hend, hend]
  | succ fuel ih =>
    cases fuel' with
    | zero => rw [List.length_eq_zero_iff.mp (Nat.le_zero.mp h'), hend, hend]
    | succ fuel' =>
      rw [scan, scan]
      rcases pick rules cs with ⟨_ | n, action⟩
      · rfl
      · have hdrop : (cs.drop (n + 1)).length = cs.length - (n + 1) := List.length_drop
        dsimp only
        rw [@ih (cs.drop (n + 1)) fuel' (by omega) (by omega)]

theorem literal_append [BEq α] [LawfulBEq α] (s rest : List α) :
    literal s (s ++ rest) = s.length :=
  if_pos (List.isPrefixOf_iff_prefix.mpr ⟨rest, rfl⟩)

theorem literal_le [BEq α] (s cs : List α) : literal s cs ≤ s.length := by
  unfold literal
  split <;> omega

end Everarch.Lexer
