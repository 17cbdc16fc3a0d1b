import Mathlib.Logic.Function.Basic

/-!
# Owners

Things that are in use, each by one owner, and owners that have one thing each at most.

* `Owned.take`: an owner takes a thing that was not in use.
* `Owned.giveUp`: it gives its thing up.
* `Owned.pass`: it passes it to another owner.
-/

namespace Everarch

variable {α β : Type}

/-- A thing is in use if and only if it has an owner, which is its only one. -/
structure Owned (own : α → Option β) (used : β → Bool) : Prop where
  unique : ∀ a b x, own a = some x → own b = some x → a = b
  used_iff : ∀ x, used x = true ↔ ∃ a, own a = some x

namespace Owned

variable {own : α → Option β} {used : β → Bool} {a b : α} {x : β}

theorem not_owned (h : Owned own used) (hx : used x = false) (c : α) : own c ≠ some x := by
  intro hc
  have hused := (h.used_iff x).mpr ⟨c, hc⟩
  rw [hx] at hused
  cases hused

variable [DecidableEq α] [DecidableEq β]

theorem take (h : Owned own used) (ha : own a = none) (hx : used x = false) :
    Owned (Function.update own a (some x)) (Function.update used x true) where
  unique c d y hc hd := by
    by_cases hca : c = a
    · by_cases hda : d = a
      · rw [hca, hda]
      · rw [hca, Function.update_self] at hc
        rw [Function.update_of_ne hda] at hd
        cases hc
        exact absurd hd (h.not_owned hx d)
    · rw [Function.update_of_ne hca] at hc
      by_cases hda : d = a
      · rw [hda, Function.update_self] at hd
        cases hd
        exact absurd hc (h.not_owned hx c)
      · rw [Function.update_of_ne hda] at hd
        exact h.unique c d y hc hd
  used_iff y := by
    by_cases hy : y = x
    · rw [hy, Function.update_self]
      exact iff_of_true rfl ⟨a, Function.update_self ..⟩
    · rw [Function.update_of_ne hy, h.used_iff]
      constructor
      · rintro ⟨c, hc⟩
        have hca : c ≠ a := by
          rintro rfl
          rw [ha] at hc
          cases hc
        exact ⟨c, by rw [Function.update_of_ne hca, hc]⟩
      · rintro ⟨c, hc⟩
        by_cases hca : c = a
        · rw [hca, Function.update_self] at hc
          cases hc
          exact absurd rfl hy
        · rw [Function.update_of_ne hca] at hc
          exact ⟨c, hc⟩

theorem giveUp (h : Owned own used) (ha : own a = some x) :
    Owned (Function.update own a none) (Function.update used x false) where
  unique c d y hc hd := by
    have hother {e : α} (he : Function.update own a none e = some y) : own e = some y := by
      by_cases hea : e = a
      · rw [hea, Function.update_self] at he
        cases he
      · rwa [Function.update_of_ne hea] at he
    exact h.unique c d y (hother hc) (hother hd)
  used_iff y := by
    by_cases hy : y = x
    · rw [hy, Function.update_self]
      refine iff_of_false Bool.false_ne_true ?_
      rintro ⟨c, hc⟩
      by_cases hca : c = a
      · rw [hca, Function.update_self] at hc
        cases hc
      · rw [Function.update_of_ne hca] at hc
        exact hca (h.unique c a x hc ha)
    · rw [Function.update_of_ne hy, h.used_iff]
      refine exists_congr fun c => ?_
      by_cases hca : c = a
      · rw [hca, Function.update_self, ha]
        refine iff_of_false ?_ fun hnone => by cases hnone
        intro hsome
        exact hy (Option.some.inj hsome).symm
      · rw [Function.update_of_ne hca]

/-- To pass a thing on is to give it up and to take it. -/
theorem pass (h : Owned own used) (ha : own a = some x) (hb : own b = none) :
    Owned (Function.update (Function.update own a none) b (some x)) used := by
  have hba : b ≠ a := by
    rintro rfl
    rw [ha] at hb
    cases hb
  have hnext := (h.giveUp ha).take (a := b) (by rw [Function.update_of_ne hba, hb])
    (Function.update_self (f := used) (a := x) (v := false))
  rw [Function.update_idem] at hnext
  have hused : Function.update used x true = used := by
    rw [← (h.used_iff x).mpr ⟨a, ha⟩, Function.update_eq_self]
  rwa [hused] at hnext

end Owned

end Everarch
