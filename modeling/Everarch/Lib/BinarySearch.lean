import Mathlib.Data.List.Basic
import Mathlib.Order.Compare

/-!
# Binary search in a sorted list

`bsearch` halves an interval of positions as the C library does. `qsort` sorts a list
by the same comparison.

* `bsearchIn_eq_none`: nothing in the interval is equal to a key that is not found.
* `bsearch_isSome_iff`: what is found in a sorted list.
-/

namespace Everarch

section Search

variable {α : Type} [Ord α]

/-- Search from `lo` on, before `hi`. -/
def bsearchIn (key : α) (xs : List α) : Nat → Nat → Nat → Option α
  | 0, _, _ => none
  | fuel + 1, lo, hi =>
    if lo < hi then
      match xs[(lo + hi) / 2]? with
      | none => none
      | some x =>
        match compare key x with
        | .lt => bsearchIn key xs fuel lo ((lo + hi) / 2)
        | .gt => bsearchIn key xs fuel ((lo + hi) / 2 + 1) hi
        | .eq => some x
    else none

def bsearch (key : α) (xs : List α) : Option α :=
  bsearchIn key xs xs.length 0 xs.length

/-- The list in the order of the comparison. -/
def qsort (xs : List α) : List α :=
  xs.mergeSort fun x y => (compare x y).isLE

/-- Everything before an item is at most that item. -/
def Rising (xs : List α) : Prop :=
  xs.Pairwise fun x y => (compare x y).isLE = true

theorem mem_qsort {x : α} {xs : List α} : x ∈ qsort xs ↔ x ∈ xs :=
  List.mem_mergeSort

variable {key x : α} {xs : List α}

/-- What is found is equal to the key. -/
theorem bsearchIn_some {fuel lo hi : Nat} (h : bsearchIn key xs fuel lo hi = some x) :
    x ∈ xs ∧ compare key x = .eq := by
  induction fuel generalizing lo hi with
  | zero => cases h
  | succ fuel ih =>
    unfold bsearchIn at h
    split at h
    · cases hmid : xs[(lo + hi) / 2]? with
      | none => simp [hmid] at h
      | some y =>
        simp only [hmid] at h
        cases hcmp : compare key y with
        | lt => exact ih (by simpa only [hcmp] using h)
        | gt => exact ih (by simpa only [hcmp] using h)
        | eq =>
          obtain rfl := Option.some.inj (by simpa only [hcmp] using h)
          exact ⟨List.mem_of_getElem? hmid, hcmp⟩
    · cases h

variable [Std.TransOrd α]

theorem rising_qsort (xs : List α) : Rising (qsort xs) := by
  refine List.pairwise_mergeSort ?_ ?_ xs
  · exact fun x y z hxy hyz => Std.TransCmp.isLE_trans hxy hyz
  · intro x y
    have hswap : compare y x = (compare x y).swap := Std.OrientedCmp.eq_swap
    rw [hswap]
    cases compare x y <;> rfl

/-- A key that is not found is not equal to anything in the interval. -/
theorem bsearchIn_eq_none (hxs : Rising xs) {fuel lo hi : Nat} (hfuel : hi - lo ≤ fuel)
    (hhi : hi ≤ xs.length) (h : bsearchIn key xs fuel lo hi = none) {i : Nat} (hlo : lo ≤ i)
    (hlt : i < hi) (hx : xs[i]? = some x) : compare key x ≠ .eq := by
  induction fuel generalizing lo hi with
  | zero => omega
  | succ fuel ih =>
    have hmid : (lo + hi) / 2 < xs.length := by omega
    have hbefore : ∀ {j k : Nat} {y z : α}, xs[j]? = some y → xs[k]? = some z → j < k →
        (compare y z).isLE = true := by
      intro j k y z hj hk hjk
      obtain ⟨hj', rfl⟩ := List.getElem?_eq_some_iff.mp hj
      obtain ⟨hk', rfl⟩ := List.getElem?_eq_some_iff.mp hk
      exact List.pairwise_iff_getElem.mp hxs j k hj' hk' hjk
    unfold bsearchIn at h
    rw [if_pos (by omega), List.getElem?_eq_getElem hmid] at h
    dsimp only at h
    have hget := List.getElem?_eq_getElem hmid
    generalize xs[(lo + hi) / 2] = y at h hget
    cases hcmp : compare key y with
    | lt =>
      rw [hcmp] at h
      by_cases hi' : i < (lo + hi) / 2
      · exact ih (by omega) (by omega) h hlo hi'
      · intro heq
        rcases Nat.lt_or_eq_of_le (Nat.le_of_not_lt hi') with hlt' | rfl
        · have hle := hbefore hget hx hlt'
          have hlt'' := Std.TransCmp.lt_of_lt_of_isLE hcmp hle
          rw [heq] at hlt''
          cases hlt''
        · rw [hget] at hx
          obtain rfl := Option.some.inj hx
          rw [hcmp] at heq
          cases heq
    | gt =>
      rw [hcmp] at h
      by_cases hi' : (lo + hi) / 2 + 1 ≤ i
      · exact ih (by omega) hhi h hi' hlt
      · intro heq
        rcases Nat.lt_or_eq_of_le (Nat.le_of_lt_succ (Nat.lt_of_not_le hi')) with hlt' | rfl
        · have hle := hbefore hx hget hlt'
          have hle' : (compare key y).isLE = true := by
            rw [Std.TransCmp.congr_left heq]
            exact hle
          rw [hcmp] at hle'
          cases hle'
        · rw [hget] at hx
          obtain rfl := Option.some.inj hx
          rw [hcmp] at heq
          cases heq
    | eq =>
      rw [hcmp] at h
      cases h

/-- In a sorted list exactly what is there is found. -/
theorem bsearch_isSome_iff (hxs : Rising xs) :
    (bsearch key xs).isSome = true ↔ ∃ x ∈ xs, compare key x = .eq := by
  constructor
  · intro h
    obtain ⟨x, hx⟩ := Option.isSome_iff_exists.mp h
    exact ⟨x, bsearchIn_some hx⟩
  · rintro ⟨x, hx, heq⟩
    obtain ⟨i, hi, rfl⟩ := List.getElem_of_mem hx
    rw [Option.isSome_iff_ne_none]
    intro hnone
    exact bsearchIn_eq_none hxs (Nat.sub_le _ _) (Nat.le_refl _) hnone (Nat.zero_le i) hi
      (List.getElem?_eq_getElem hi) heq

end Search

end Everarch
