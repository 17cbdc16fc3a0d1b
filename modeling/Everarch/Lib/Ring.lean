import Mathlib.Data.List.Range
import Mathlib.Tactic.Ring
import Mathlib.Logic.Function.Basic

/-!
# Ring buffers

Slots `0, …, n - 1` in a ring, an index to read from and an index to write to. The ring
is empty when they meet, so it holds at most `n - 1` items.

* `window_write`: what is written comes last.
* `window_read`: what is read came first.
* `window_fillFrom`, `window_drop`: the same for several items at once.
-/

namespace Everarch

variable {α : Type}

/-- The number of items between the two indices. -/
def ringCount (n reading writing : Nat) : Nat :=
  (writing + (n - reading)) % n

/-- The items in the order in which they are read. -/
def window (slots : Nat → α) (n reading writing : Nat) : List α :=
  (List.range (ringCount n reading writing)).map fun k => slots ((reading + k) % n)

/-- Items written into the slots from an index on. -/
def fillFrom (slots : Nat → α) (start : Nat) : List α → Nat → α
  | [] => slots
  | x :: xs => fillFrom (Function.update slots start x) (start + 1) xs

section Count

variable {n reading writing : Nat}

/-- The writer is as many slots ahead as there are items. -/
theorem ringCount_spec (hr : reading < n) (hw : writing < n) :
    ringCount n reading writing < n ∧ (reading + ringCount n reading writing) % n = writing := by
  have hn : 0 < n := Nat.lt_of_le_of_lt (Nat.zero_le _) hr
  refine ⟨Nat.mod_lt _ hn, ?_⟩
  have hsum : reading + (writing + (n - reading)) = writing + n := by omega
  rw [ringCount, Nat.add_mod_mod, hsum, Nat.add_mod_right, Nat.mod_eq_of_lt hw]

theorem ringCount_unique {k : Nat} (hr : reading < n) (hk : k < n)
    (h : (reading + k) % n = writing) : ringCount n reading writing = k := by
  have hsum : reading + k + (n - reading) = k + n := by omega
  rw [ringCount, ← h, Nat.mod_add_mod, hsum, Nat.add_mod_right, Nat.mod_eq_of_lt hk]

theorem ringCount_eq_zero (hr : reading < n) (hw : writing < n) :
    ringCount n reading writing = 0 ↔ writing = reading := by
  obtain ⟨-, hspec⟩ := ringCount_spec hr hw
  constructor
  · intro h
    rw [h, Nat.add_zero, Nat.mod_eq_of_lt hr] at hspec
    exact hspec.symm
  · rintro rfl
    exact ringCount_unique hr (Nat.lt_of_le_of_lt (Nat.zero_le _) hr) (Nat.mod_eq_of_lt hr)

/-- The slot behind the writer is the reader's exactly if one slot is left. -/
theorem ringCount_full (hr : reading < n) (hw : writing < n) :
    (writing + 1) % n = reading ↔ ringCount n reading writing + 1 = n := by
  obtain ⟨hlt, hspec⟩ := ringCount_spec hr hw
  have hnext : (reading + (ringCount n reading writing + 1)) % n = (writing + 1) % n := by
    rw [← Nat.add_assoc, ← Nat.mod_add_mod, hspec]
  rw [← hnext]
  constructor
  · intro h
    refine Nat.le_antisymm hlt (Nat.not_lt.mp fun hsmall => ?_)
    have hzero := ringCount_unique hr hsmall h
    rw [(ringCount_eq_zero hr hr).mpr rfl] at hzero
    exact absurd hzero.symm (Nat.succ_ne_zero _)
  · intro h
    rw [h, Nat.add_mod_right, Nat.mod_eq_of_lt hr]

end Count

section Window

variable {slots : Nat → α} {n reading writing : Nat}

@[simp] theorem length_window : (window slots n reading writing).length =
    ringCount n reading writing := by
  rw [window, List.length_map, List.length_range]

theorem window_empty (hr : reading < n) : window slots n reading reading = [] := by
  rw [← List.length_eq_zero_iff, length_window, (ringCount_eq_zero hr hr).mpr rfl]

/-- A write to the writer's slot comes last. -/
theorem window_write (hr : reading < n) (hw : writing < n) (hroom : (writing + 1) % n ≠ reading)
    (x : α) : window (Function.update slots writing x) n reading ((writing + 1) % n) =
      window slots n reading writing ++ [x] := by
  obtain ⟨hlt, hspec⟩ := ringCount_spec hr hw
  have hsmall : ringCount n reading writing + 1 < n :=
    Nat.lt_of_le_of_ne hlt (mt (ringCount_full hr hw).mpr hroom)
  have hcount : ringCount n reading ((writing + 1) % n) = ringCount n reading writing + 1 := by
    refine ringCount_unique hr hsmall ?_
    rw [← Nat.add_assoc, ← Nat.mod_add_mod, hspec]
  rw [window, window, hcount, List.range_succ, List.map_append]
  congr 1
  · refine List.map_congr_left fun k hk => Function.update_of_ne ?_ _ _
    -- the slots before the writer's are other slots
    intro heq
    have hkn : k < n := (List.mem_range.mp hk).trans hlt
    exact absurd (ringCount_unique hr hkn heq) (Nat.ne_of_gt (List.mem_range.mp hk))
  · rw [List.map_singleton, hspec, Function.update_self]

/-- The reader's slot holds the first item. -/
theorem window_read (hr : reading < n) (hw : writing < n) (hsome : writing ≠ reading) :
    window slots n reading writing = slots reading :: window slots n ((reading + 1) % n) writing := by
  have hn : 0 < n := Nat.lt_of_le_of_lt (Nat.zero_le _) hr
  obtain ⟨hlt, hspec⟩ := ringCount_spec hr hw
  obtain ⟨k, hk⟩ := Nat.exists_eq_succ_of_ne_zero (mt (ringCount_eq_zero hr hw).mp hsome)
  have hcount : ringCount n ((reading + 1) % n) writing = k := by
    refine ringCount_unique (Nat.mod_lt _ hn) (by omega) ?_
    rw [Nat.mod_add_mod, Nat.add_assoc, Nat.add_comm 1 k]
    rwa [hk] at hspec
  rw [window, window, hcount, hk, List.range_succ_eq_map, List.map_cons, List.map_map, Nat.add_zero,
    Nat.mod_eq_of_lt hr]
  congr 1
  refine List.map_congr_left fun j _ => ?_
  rw [Function.comp_apply, Nat.mod_add_mod, Nat.succ_eq_add_one, Nat.add_assoc, Nat.add_comm 1 j]

theorem ringCount_of_le (hle : reading ≤ writing) (hw : writing < n) :
    ringCount n reading writing = writing - reading := by
  refine ringCount_unique (Nat.lt_of_le_of_lt hle hw) (by omega) ?_
  rw [Nat.add_sub_cancel' hle, Nat.mod_eq_of_lt hw]

theorem ringCount_of_lt (hlt : writing < reading) (hr : reading < n) :
    ringCount n reading writing = writing + (n - reading) :=
  Nat.mod_eq_of_lt (by omega)

/-- Several items are written behind each other, at most up to the last slot. -/
theorem window_fillFrom (hr : reading < n) (hw : writing < n) (xs : List α)
    (hend : writing + xs.length ≤ n)
    (hroom : ringCount n reading writing + xs.length < n) :
    window (fillFrom slots writing xs) n reading ((writing + xs.length) % n) =
      window slots n reading writing ++ xs := by
  induction xs generalizing slots writing with
  | nil => rw [List.length_nil, Nat.add_zero, Nat.mod_eq_of_lt hw, List.append_nil, fillFrom]
  | cons x xs ih =>
    rw [List.length_cons] at hend hroom
    have hfree : (writing + 1) % n ≠ reading := fun h =>
      absurd ((ringCount_full hr hw).mp h) (by omega)
    have hfirst : window (Function.update slots writing x) n reading ((writing + 1) % n) =
        window slots n reading writing ++ [x] := window_write hr hw hfree x
    rw [fillFrom, List.length_cons, List.append_cons, ← hfirst]
    cases Nat.lt_or_ge (writing + 1) n with
    | inl hlt =>
      rw [Nat.mod_eq_of_lt hlt, Nat.add_comm xs.length 1, ← Nat.add_assoc]
      have hcount := congrArg List.length hfirst
      rw [length_window, List.length_append, length_window, List.length_singleton,
        Nat.mod_eq_of_lt hlt] at hcount
      exact ih hlt (by omega) (by omega)
    | inr hge =>
      -- the last slot: nothing can follow
      cases List.length_eq_zero_iff.mp (show xs.length = 0 by omega)
      rw [fillFrom, List.append_nil, List.length_nil, Nat.zero_add]

/-- Reading on drops what came first. -/
theorem window_drop (hr : reading < n) (hw : writing < n) (k : Nat)
    (hk : k ≤ ringCount n reading writing) :
    window slots n ((reading + k) % n) writing = (window slots n reading writing).drop k := by
  induction k with
  | zero => rw [Nat.add_zero, Nat.mod_eq_of_lt hr, List.drop_zero]
  | succ k ih =>
    have hprev := ih (Nat.le_of_succ_le hk)
    have hn : 0 < n := Nat.lt_of_le_of_lt (Nat.zero_le _) hr
    have hlen := congrArg List.length hprev
    rw [length_window, List.length_drop, length_window] at hlen
    have hsome : writing ≠ (reading + k) % n := fun h => by
      have hzero := (ringCount_eq_zero (Nat.mod_lt _ hn) hw).mpr h
      omega
    have hread : window slots n ((reading + k) % n) writing = slots ((reading + k) % n) ::
        window slots n (((reading + k) % n + 1) % n) writing :=
      window_read (Nat.mod_lt _ hn) hw hsome
    rw [hprev, Nat.mod_add_mod, Nat.add_assoc] at hread
    rw [← List.tail_drop, hread, List.tail_cons]

end Window

end Everarch
