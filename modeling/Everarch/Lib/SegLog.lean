import Mathlib.Data.List.Induction

/-!
# Segmented logs

A log that is cut into segments of bounded size: an item goes to the current segment
if it has room for it, and otherwise to a new one. There is always a current segment.

* `push_items`: nothing is lost and the order is kept.
* `Fits.push`: no segment outgrows the bound.
* `Filled.push`: no segment is closed before it has an item.
* `push_grows`: segments only grow at their end.
-/

namespace Everarch

/-- A log of closed segments and the current one. -/
structure SegLog (α : Type) where
  closed : List (List α)
  current : List α

namespace SegLog

section

variable {α : Type} (size : List α → Nat) (room : Nat)

/-- The empty log. -/
def empty : SegLog α :=
  ⟨[], []⟩

/-- All segments, the current one last. -/
def segments (log : SegLog α) : List (List α) :=
  log.closed ++ [log.current]

/-- All items. -/
def items (log : SegLog α) : List α :=
  log.segments.flatten

/-- Starts a new segment. -/
def roll (log : SegLog α) : SegLog α :=
  ⟨log.segments, []⟩

/-- Adds an item to the current segment. -/
def add (log : SegLog α) (a : α) : SegLog α :=
  { log with current := log.current ++ [a] }

/-- Adds an item. -/
def push (log : SegLog α) (a : α) : SegLog α :=
  if size (log.current ++ [a]) ≤ room then log.add a else log.roll.add a

/-- No segment is bigger than the bound. -/
def Fits (log : SegLog α) : Prop :=
  ∀ s ∈ log.segments, size s ≤ room

/-- No closed segment is empty. -/
def Filled (log : SegLog α) : Prop :=
  ∀ s ∈ log.closed, s ≠ []

/-- Every segment of the one log starts the segment of the other. -/
def Grows (log log' : SegLog α) : Prop :=
  ∀ (i : Nat) s, log.segments[i]? = some s → ∃ s', log'.segments[i]? = some s' ∧ s <+: s'

end

variable {α : Type} {size : List α → Nat} {room : Nat}

@[simp] theorem length_segments (log : SegLog α) : log.segments.length = log.closed.length + 1 := by
  simp [segments]

@[simp] theorem getElem?_current (log : SegLog α) :
    log.segments[log.closed.length]? = some log.current := by
  simp [segments]

theorem current_mem_segments (log : SegLog α) : log.current ∈ log.segments := by
  simp [segments]

@[simp] theorem roll_items (log : SegLog α) : log.roll.items = log.items := by
  simp [roll, items, segments]

@[simp] theorem add_items (log : SegLog α) (a : α) : (log.add a).items = log.items ++ [a] := by
  simp [add, items, segments]

theorem subset_add_items (log : SegLog α) (a : α) : log.items ⊆ (log.add a).items := by
  rw [add_items]
  exact List.subset_append_left _ _

theorem push_items (log : SegLog α) (a : α) : (log.push size room a).items = log.items ++ [a] := by
  unfold push
  split
  · exact log.add_items a
  · rw [add_items, roll_items]

/-- A segment of a log after an addition is an old one or the grown current one. -/
theorem getElem?_add (log : SegLog α) (a : α) (i : Nat) :
    (log.add a).segments[i]? =
      if i = log.closed.length then some (log.current ++ [a]) else log.segments[i]? := by
  unfold add segments
  split
  · next h => simp [h]
  · next h =>
    rcases Nat.lt_or_gt_of_ne h with hlt | hgt
    · rw [List.getElem?_append_left hlt, List.getElem?_append_left hlt]
    · rw [List.getElem?_eq_none (by simp; omega), List.getElem?_eq_none (by simp; omega)]

theorem getElem?_roll (log : SegLog α) (i : Nat) :
    log.roll.segments[i]? =
      if i = log.closed.length + 1 then some [] else log.segments[i]? := by
  have hlen := log.length_segments
  show (log.segments ++ [[]])[i]? = _
  split
  · next h => rw [h, ← hlen]; simp
  · next h =>
    rcases Nat.lt_or_gt_of_ne h with hlt | hgt
    · rw [List.getElem?_append_left (by omega)]
    · rw [List.getElem?_eq_none (by simp; omega), List.getElem?_eq_none (by omega)]

theorem Grows.refl (log : SegLog α) : log.Grows log :=
  fun _ s h => ⟨s, h, List.prefix_refl s⟩

theorem Grows.trans {log log' log'' : SegLog α} (h : log.Grows log') (h' : log'.Grows log'') :
    log.Grows log'' := by
  intro i s hs
  obtain ⟨s', hs', hpre⟩ := h i s hs
  obtain ⟨s'', hs'', hpre'⟩ := h' i s' hs'
  exact ⟨s'', hs'', hpre.trans hpre'⟩

theorem add_grows (log : SegLog α) (a : α) : log.Grows (log.add a) := by
  intro i s hs
  rw [getElem?_add]
  split
  · next h =>
    rw [h, getElem?_current] at hs
    cases hs
    exact ⟨_, rfl, List.prefix_append _ _⟩
  · exact ⟨s, hs, List.prefix_refl s⟩

theorem roll_grows (log : SegLog α) : log.Grows log.roll := by
  intro i s hs
  rw [getElem?_roll]
  split
  · next h =>
    rw [List.getElem?_eq_none (by simp [h])] at hs
    cases hs
  · exact ⟨s, hs, List.prefix_refl s⟩

theorem push_grows (log : SegLog α) (a : α) : log.Grows (log.push size room a) := by
  unfold push
  split
  · exact log.add_grows a
  · exact log.roll_grows.trans (log.roll.add_grows a)

theorem Fits.add {log : SegLog α} (h : log.Fits size room) {a : α}
    (ha : size (log.current ++ [a]) ≤ room) : (log.add a).Fits size room := by
  intro s hs
  rcases List.mem_append.mp hs with hclosed | hcurrent
  · exact h s (List.mem_append_left _ hclosed)
  · rw [List.mem_singleton.mp hcurrent]
    exact ha

theorem Fits.roll {log : SegLog α} (h : log.Fits size room) (hnil : size [] ≤ room) :
    log.roll.Fits size room := by
  intro s hs
  rcases List.mem_append.mp hs with hclosed | hcurrent
  · exact h s hclosed
  · rw [List.mem_singleton.mp hcurrent]
    exact hnil

theorem Fits.push {log : SegLog α} (h : log.Fits size room) (hnil : size [] ≤ room) {a : α}
    (ha : size [a] ≤ room) : (log.push size room a).Fits size room := by
  unfold SegLog.push
  split
  · next hfits => exact h.add hfits
  · exact (h.roll hnil).add ha

theorem Filled.roll {log : SegLog α} (h : log.Filled) (hcurrent : log.current ≠ []) :
    log.roll.Filled := by
  intro s hs
  rcases List.mem_append.mp hs with hclosed | hlast
  · exact h s hclosed
  · rw [List.mem_singleton.mp hlast]
    exact hcurrent

theorem Filled.push {log : SegLog α} (h : log.Filled) {a : α} (ha : size [a] ≤ room) :
    (log.push size room a).Filled := by
  unfold SegLog.push
  split
  · exact h
  · next hfull =>
    -- an empty segment would have had room
    refine h.roll fun hempty => hfull ?_
    rw [hempty]
    exact ha

end SegLog

end Everarch
