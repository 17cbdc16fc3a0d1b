import Mathlib.Data.List.Basic
import Mathlib.Logic.Function.Basic

/-!
# Lists in blocks

A list is kept in a chain of blocks, each with room for the same number of items. Item `i` is in
block `i / size` at place `i % size`.

* `BlockHolds.append`: an item is written into the last block;
* `BlockHolds.grow`: a new block, whatever its memory holds, changes nothing;
* `cursor_next`, `BlockHolds.head`: a cursor over the places of one block after the other finds the
  items in order.
-/

namespace Everarch

variable {α : Type}

/-- The item at a place of the chain. -/
def blockGet (size : Nat) (blocks : List (Nat → α)) (i : Nat) : Option α :=
  (blocks[i / size]?).map fun b => b (i % size)

/-- The chain holds the items of a list from its first place on. -/
def BlockHolds (size : Nat) (blocks : List (Nat → α)) (xs : List α) : Prop :=
  ∀ i x, xs[i]? = some x → blockGet size blocks i = some x

/-- The last block with an item written into it. -/
def writeLast (blocks : List (Nat → α)) (j : Nat) (x : α) : List (Nat → α) :=
  match blocks.getLast? with
  | none => []
  | some b => blocks.dropLast ++ [Function.update b j x]

/-- The blocks that are left to read and the place in the first of them, at item `i`. -/
def cursor (size : Nat) (blocks : List (Nat → α)) (i : Nat) : List (Nat → α) × Nat :=
  (blocks.drop (i / size), i % size)

section Writing

variable {size : Nat} {blocks : List (Nat → α)} {xs : List α}

theorem blockHolds_nil : BlockHolds size blocks ([] : List α) :=
  fun _ _ h => absurd h (by simp)

theorem writeLast_concat (blocks : List (Nat → α)) (b : Nat → α) (j : Nat) (x : α) :
    writeLast (blocks ++ [b]) j x = blocks ++ [Function.update b j x] := by
  unfold writeLast
  rw [List.getLast?_concat, List.dropLast_concat]

theorem length_writeLast (blocks : List (Nat → α)) (j : Nat) (x : α) :
    (writeLast blocks j x).length = blocks.length := by
  rcases List.eq_nil_or_concat blocks with rfl | ⟨bs, b, rfl⟩
  · rfl
  · rw [List.concat_eq_append, writeLast_concat, List.length_append, List.length_append]
    rfl

/-- A new block behind the others, whatever its memory holds. -/
theorem BlockHolds.grow (h : BlockHolds size blocks xs) (b : Nat → α) :
    BlockHolds size (blocks ++ [b]) xs := by
  intro i x hx
  obtain ⟨b', hb', rfl⟩ := Option.map_eq_some_iff.mp (h i x hx)
  have hlt : i / size < blocks.length := (List.getElem?_eq_some_iff.mp hb').1
  rw [blockGet, List.getElem?_append_left hlt, hb']
  rfl

/-- The next item goes to the last block. -/
theorem BlockHolds.append (h : BlockHolds size blocks xs)
    (hlast : xs.length / size + 1 = blocks.length) (x : α) :
    BlockHolds size (writeLast blocks (xs.length % size) x) (xs ++ [x]) := by
  rcases List.eq_nil_or_concat blocks with rfl | ⟨bs, b, rfl⟩
  · exact absurd hlast (Nat.succ_ne_zero _)
  rw [List.concat_eq_append] at h hlast ⊢
  rw [List.length_append, List.length_singleton] at hlast
  have hquot : xs.length / size = bs.length := Nat.succ.inj hlast
  rw [writeLast_concat]
  intro i y hy
  unfold blockGet
  by_cases hi : i < xs.length
  · rw [List.getElem?_append_left hi] at hy
    have hold := h i y hy
    unfold blockGet at hold
    have hle : i / size ≤ bs.length := hquot ▸ Nat.div_le_div_right (Nat.le_of_lt hi)
    rcases Nat.lt_or_eq_of_le hle with hlt | heq
    · rw [List.getElem?_append_left hlt] at hold ⊢
      exact hold
    · -- in the same block, but not at the same place
      have hne : i % size ≠ xs.length % size := by
        intro hmod
        refine Nat.ne_of_lt hi ?_
        rw [← Nat.div_add_mod i size, ← Nat.div_add_mod xs.length size, hmod, heq, hquot]
      rw [heq, List.getElem?_append_right (Nat.le_refl _), Nat.sub_self] at hold ⊢
      simpa [Function.update_of_ne hne] using hold
  · have hlen : i = xs.length := by
      have hle := (List.getElem?_eq_some_iff.mp hy).1
      rw [List.length_append, List.length_singleton] at hle
      omega
    subst hlen
    rw [List.getElem?_append_right (Nat.le_refl _), Nat.sub_self] at hy
    cases hy
    rw [hquot, List.getElem?_append_right (Nat.le_refl _), Nat.sub_self]
    simp

end Writing

section Reading

variable {size : Nat} {blocks : List (Nat → α)} {xs : List α}

/-- A cursor that reaches the end of its block goes on with the next one. -/
theorem cursor_next (hsize : 0 < size) (blocks : List (Nat → α)) (i : Nat) :
    cursor size blocks (i + 1) =
      if (cursor size blocks i).2 + 1 = size then ((cursor size blocks i).1.tail, 0)
      else ((cursor size blocks i).1, (cursor size blocks i).2 + 1) := by
  unfold cursor
  have hlt := Nat.mod_lt i hsize
  have hdiv := Nat.div_add_mod i size
  by_cases hend : i % size + 1 = size
  · have hi : i + 1 = size * (i / size + 1) := by
      rw [Nat.mul_add, Nat.mul_one]
      omega
    rw [if_pos hend, hi, Nat.mul_div_cancel_left _ hsize, Nat.mul_mod_right, List.tail_drop]
  · have hi : i + 1 = (i % size + 1) + size * (i / size) := by omega
    have hsmall : i % size + 1 < size := Nat.lt_of_le_of_ne hlt hend
    rw [if_neg hend, hi, Nat.add_mul_div_left _ _ hsize, Nat.add_mul_mod_self_left,
      Nat.mod_eq_of_lt hsmall, Nat.div_eq_of_lt hsmall, Nat.zero_add]

/-- The cursor at an item finds it. -/
theorem BlockHolds.head (h : BlockHolds size blocks xs) {i : Nat} {x : α} (hx : xs[i]? = some x) :
    ∃ b rest, (cursor size blocks i).1 = b :: rest ∧ b (cursor size blocks i).2 = x := by
  obtain ⟨b, hb, rfl⟩ := Option.map_eq_some_iff.mp (h i x hx)
  obtain ⟨hlt, rfl⟩ := List.getElem?_eq_some_iff.mp hb
  exact ⟨blocks[i / size], blocks.drop (i / size + 1), List.drop_eq_getElem_cons hlt, rfl⟩

end Reading

end Everarch
