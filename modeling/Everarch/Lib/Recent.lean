import Mathlib.Data.List.Basic
import Mathlib.Data.Nat.ModEq

/-!
# A ring that forgets

Slots that are filled in turn, the oldest item being overwritten by the newest.

* `Remembers.write`: what the slots hold after one more item.
* `Remembers.mem_iff`: they hold the last items.
-/

namespace Everarch

variable {α : Type}

/-- The slots after everything in the log was written, one slot after the other. -/
structure Remembers (log : List α) (slots : List (Option α)) : Prop where
  recent : ∀ {j x}, log.length ≤ j + slots.length → log[j]? = some x →
    slots[j % slots.length]? = some (some x)
  unused : ∀ {i : Nat}, log.length ≤ i → i < slots.length → slots[i]? = some none

theorem Remembers.empty (n : Nat) : Remembers ([] : List α) (List.replicate n none) where
  recent _ hx := by cases hx
  unused _ hi := by
    rw [List.length_replicate] at hi
    rw [List.getElem?_replicate, if_pos hi]

variable {log : List α} {slots : List (Option α)} {x : α}

/-- The next item goes into the slot that was written least recently. -/
theorem Remembers.write (h : Remembers log slots) (x : α) :
    Remembers (log ++ [x]) (slots.set (log.length % slots.length) (some x)) where
  recent {j y} hj hy := by
    rw [List.length_append, List.length_singleton, List.length_set] at hj
    rw [List.length_set]
    rcases Nat.lt_trichotomy j log.length with hlt | rfl | hgt
    · rw [List.getElem?_append_left hlt] at hy
      have hne : log.length % slots.length ≠ j % slots.length := by
        intro heq
        have hdvd : slots.length ∣ log.length - j := (Nat.modEq_iff_dvd' hlt.le).mp heq.symm
        have hle := Nat.le_of_dvd (Nat.sub_pos_of_lt hlt) hdvd
        omega
      rw [List.getElem?_set_ne hne]
      exact h.recent (by omega) hy
    · rw [List.getElem?_append_right (Nat.le_refl _), Nat.sub_self] at hy
      obtain rfl := Option.some.inj hy
      exact List.getElem?_set_self (Nat.mod_lt _ (by omega))
    · rw [List.getElem?_eq_none (by rw [List.length_append]; exact hgt)] at hy
      cases hy
  unused {i} hi hlt := by
    rw [List.length_append, List.length_singleton] at hi
    rw [List.length_set] at hlt
    rw [Nat.mod_eq_of_lt (by omega), List.getElem?_set_ne (by omega)]
    exact h.unused (by omega) hlt

/-- The slots hold what was written last. -/
theorem Remembers.mem_iff (h : Remembers log slots) :
    some x ∈ slots ↔ x ∈ log.drop (log.length - slots.length) := by
  constructor
  · intro hx
    obtain ⟨i, hi, hget⟩ := List.getElem_of_mem hx
    have hslot : slots[i]? = some (some x) := by rw [List.getElem?_eq_getElem hi, hget]
    rcases Nat.lt_or_ge i log.length with hlt | hge
    · -- The last place in the log that comes to this slot.
      have hdiv := Nat.div_add_mod (log.length - 1 - i) slots.length
      have hmod := Nat.mod_lt (log.length - 1 - i) (Nat.zero_lt_of_lt hi)
      generalize (log.length - 1 - i) / slots.length = q at hdiv
      generalize (log.length - 1 - i) % slots.length = r at hdiv hmod
      have hj : i + slots.length * q < log.length := by omega
      have hrecent := h.recent (by omega) (List.getElem?_eq_getElem hj)
      rw [Nat.add_mul_mod_self_left, Nat.mod_eq_of_lt hi, hslot] at hrecent
      rw [Option.some.inj (Option.some.inj hrecent)]
      refine List.mem_drop_iff_getElem.mpr ⟨i + slots.length * q - (log.length - slots.length), ?_, ?_⟩
      · omega
      · congr 1
        omega
    · rw [h.unused hge hi] at hslot
      cases hslot
  · intro hx
    obtain ⟨j, hj, rfl⟩ := List.mem_drop_iff_getElem.mp hx
    have hwindow : log.length ≤ log.length - slots.length + j + slots.length := by omega
    rw [Nat.add_comm] at hj
    exact List.mem_of_getElem? (h.recent hwindow (List.getElem?_eq_getElem hj))

end Everarch
