import Mathlib.Data.List.Induction
import Everarch.Cli.Splitter

/-!
# The checksum of a window

rollsum.c computes the checksum of a window in three ways: from all of its bytes at once, byte by
byte, and from the checksum of the window before.

* `RollsumLemmas.foldl_rollin_shift`: what the start of a checksum adds to its end.
* `RollsumLemmas.updateLoop_eq`: the loop over sixteen bytes at a time.

Results: `rollsum_of_window`.
-/

namespace Everarch

namespace Rollsum

/-- `RollsumRollin`. -/
def rollin (rs : Rollsum) (in_ : UInt8) : Rollsum :=
  let s1 := rs.s1 + (in_.toUInt64 + 31)
  ⟨rs.count + 1, s1, rs.s2 + s1⟩

/-- `RollsumRollout`. -/
def rollout (rs : Rollsum) (out : UInt8) : Rollsum :=
  ⟨rs.count - 1, rs.s1 - (out.toUInt64 + 31), rs.s2 - rs.count * (out.toUInt64 + 31)⟩

/-- `DO1`. -/
def do1 (buf : Bytes) (i : Nat) (s : UInt64 × UInt64) : UInt64 × UInt64 :=
  let s1 := s.1 + (buf.getD i 0).toUInt64
  (s1, s.2 + s1)

/-- `DO2`. -/
def do2 (buf : Bytes) (i : Nat) (s : UInt64 × UInt64) : UInt64 × UInt64 :=
  do1 buf (i + 1) (do1 buf i s)

/-- `DO4`. -/
def do4 (buf : Bytes) (i : Nat) (s : UInt64 × UInt64) : UInt64 × UInt64 :=
  do2 buf (i + 2) (do2 buf i s)

/-- `DO8`. -/
def do8 (buf : Bytes) (i : Nat) (s : UInt64 × UInt64) : UInt64 × UInt64 :=
  do4 buf (i + 4) (do4 buf i s)

/-- `DO16`. -/
def do16 (buf : Bytes) (s : UInt64 × UInt64) : UInt64 × UInt64 :=
  do8 buf 8 (do8 buf 0 s)

/-- The loop over single bytes of `RollsumUpdate`. -/
def restLoop (s : UInt64 × UInt64) : Bytes → UInt64 × UInt64
  | [] => s
  | b :: buf => restLoop (s.1 + b.toUInt64, s.2 + (s.1 + b.toUInt64)) buf

/-- The two loops of `RollsumUpdate`. -/
def updateLoop (s : UInt64 × UInt64) (buf : Bytes) : UInt64 × UInt64 :=
  if 16 ≤ buf.length then updateLoop (do16 buf s) (buf.drop 16) else restLoop s buf
termination_by buf.length
decreasing_by
  rw [List.length_drop]
  omega

/-- `RollsumUpdate`. -/
def update (rs : Rollsum) (buf : Bytes) : Rollsum :=
  let len := UInt64.ofNat buf.length
  let s := updateLoop (rs.s1, rs.s2) buf
  ⟨rs.count + len, s.1 + len * 31, s.2 + len * (len + 1) / 2 * 31⟩

/-- The checksum of a window, byte by byte. -/
def ofWindow (window : Bytes) : Rollsum :=
  window.foldl rollin init

/-- The checksum with its window moved over the bytes. -/
def slide (rs : Rollsum) (window : Bytes) : Bytes → Rollsum
  | [] => rs
  | b :: bs => slide (rs.rotate (window.headD 0) b) (window.tail ++ [b]) bs

end Rollsum

namespace RollsumLemmas

open Rollsum

variable {buf window : Bytes} {s : UInt64 × UInt64} {rs : Rollsum}

/-- What the start of a checksum adds to its end. -/
theorem foldl_rollin_shift (c d s1 x s2 y : UInt64) (window : Bytes) :
    window.foldl rollin ⟨c + d, s1 + x, s2 + y⟩ =
      ⟨(window.foldl rollin ⟨c, s1, s2⟩).count + d, (window.foldl rollin ⟨c, s1, s2⟩).s1 + x,
        (window.foldl rollin ⟨c, s1, s2⟩).s2 + y + UInt64.ofNat window.length * x⟩ := by
  induction window generalizing c s1 s2 y with
  | nil => simp
  | cons b window ih =>
    have hstep : rollin ⟨c + d, s1 + x, s2 + y⟩ b =
        ⟨(c + 1) + d, (s1 + (b.toUInt64 + 31)) + x, (s2 + (s1 + (b.toUInt64 + 31))) + (y + x)⟩ := by
      rw [rollin, Rollsum.mk.injEq]
      grind
    rw [List.foldl_cons, hstep, ih, List.foldl_cons, rollin, Rollsum.mk.injEq, List.length_cons,
      UInt64.ofNat_add]
    refine ⟨rfl, rfl, ?_⟩
    grind

/-- A window with its first byte apart. -/
theorem ofWindow_cons (out : UInt8) (window : Bytes) :
    ofWindow (out :: window) = ⟨(ofWindow window).count + 1,
      (ofWindow window).s1 + (out.toUInt64 + 31),
      (ofWindow window).s2 + (UInt64.ofNat window.length + 1) * (out.toUInt64 + 31)⟩ := by
  have hshift := foldl_rollin_shift 0 1 0 (out.toUInt64 + 31) 0 (out.toUInt64 + 31) window
  rw [ofWindow, List.foldl_cons]
  have hstep : rollin init out = ⟨0 + 1, 0 + (out.toUInt64 + 31), 0 + (out.toUInt64 + 31)⟩ := by
    rw [rollin, init, Rollsum.mk.injEq]
    grind
  rw [hstep, hshift, Rollsum.mk.injEq]
  refine ⟨rfl, rfl, ?_⟩
  rw [show (⟨0, 0, 0⟩ : Rollsum) = init from rfl, ← ofWindow]
  grind

theorem count_ofWindow (window : Bytes) : (ofWindow window).count = UInt64.ofNat window.length := by
  induction window with
  | nil => rfl
  | cons b window ih =>
    rw [ofWindow_cons, ih, List.length_cons, UInt64.ofNat_add]
    rfl

theorem ofWindow_concat (window : Bytes) (b : UInt8) :
    ofWindow (window ++ [b]) = rollin (ofWindow window) b := by
  rw [ofWindow, List.foldl_append]
  rfl

/-- Rolling a byte out takes away what it had added. -/
theorem rollout_ofWindow (out : UInt8) (window : Bytes) :
    rollout (ofWindow (out :: window)) out = ofWindow window := by
  have hcount := count_ofWindow window
  rw [rollout, ofWindow_cons]
  generalize ofWindow window = rs at hcount ⊢
  obtain ⟨count, s1, s2⟩ := rs
  obtain rfl := hcount
  rw [Rollsum.mk.injEq]
  refine ⟨?_, ?_, ?_⟩
  · grind
  · grind
  · grind

theorem rotate_ofWindow (out : UInt8) (window : Bytes) (b : UInt8) :
    (ofWindow (out :: window)).rotate out b = ofWindow (window ++ [b]) := by
  have hcount := count_ofWindow window
  rw [ofWindow_concat, rotate, ofWindow_cons]
  generalize ofWindow window = rs at hcount ⊢
  obtain ⟨count, s1, s2⟩ := rs
  obtain rfl := hcount
  rw [rollin, Rollsum.mk.injEq]
  refine ⟨rfl, ?_, ?_⟩
  · grind
  · grind

theorem slide_ofWindow {window : Bytes} (hwindow : window ≠ []) (bs : Bytes) :
    slide (ofWindow window) window bs = ofWindow ((window ++ bs).drop bs.length) := by
  induction bs generalizing window with
  | nil => simp [slide]
  | cons b bs ih =>
    cases window with
    | nil => exact absurd rfl hwindow
    | cons out window =>
      rw [slide, List.headD_cons, rotate_ofWindow, List.tail_cons,
        ih (List.append_ne_nil_of_right_ne_nil _ (List.cons_ne_nil _ _))]
      simp

/-! ## All bytes at once -/

theorem restLoop_append (s : UInt64 × UInt64) (front back : Bytes) :
    restLoop s (front ++ back) = restLoop (restLoop s front) back := by
  induction front generalizing s with
  | nil => rfl
  | cons b front ih => exact ih _

/-- Sixteen bytes of a buffer. -/
theorem do16_eq (h : 16 ≤ buf.length) : do16 buf s = restLoop s (buf.take 16) := by
  match buf, h with
  | b0 :: b1 :: b2 :: b3 :: b4 :: b5 :: b6 :: b7 :: b8 :: b9 :: b10 :: b11 :: b12 :: b13 :: b14 ::
      b15 :: rest, _ => rfl

theorem updateLoop_eq (s : UInt64 × UInt64) (buf : Bytes) : updateLoop s buf = restLoop s buf := by
  fun_induction updateLoop s buf with
  | case1 s buf hlong ih =>
    rw [ih, do16_eq hlong, ← restLoop_append, List.take_append_drop]
  | case2 s buf hshort => rfl

/-- The product does not wrap around. -/
theorem half_product {n : Nat} (hn : n < 2 ^ 32) :
    UInt64.ofNat n * (UInt64.ofNat n + 1) / 2 = UInt64.ofNat (n * (n + 1) / 2) := by
  have hproduct : n * (n + 1) < 2 ^ 64 :=
    calc n * (n + 1) ≤ (2 ^ 32 - 1) * 2 ^ 32 :=
          Nat.mul_le_mul (Nat.le_sub_one_of_lt hn) hn
      _ < 2 ^ 64 := by decide
  have hadd : UInt64.ofNat n + 1 = UInt64.ofNat (n + 1) := (UInt64.ofNat_add n 1).symm
  rw [hadd, ← UInt64.ofNat_mul]
  refine UInt64.toNat_inj.mp ?_
  rw [UInt64.toNat_div, UInt64.toNat_ofNat_of_lt' hproduct,
    UInt64.toNat_ofNat_of_lt' (Nat.lt_of_le_of_lt (Nat.div_le_self _ _) hproduct)]
  rfl

/-- One number more. -/
theorem half_product_succ {n : Nat} (hn : n + 1 < 2 ^ 32) :
    UInt64.ofNat (n + 1) * (UInt64.ofNat (n + 1) + 1) / 2 =
      UInt64.ofNat n * (UInt64.ofNat n + 1) / 2 + UInt64.ofNat (n + 1) := by
  have hhalf : (n + 1) * (n + 1 + 1) / 2 = n * (n + 1) / 2 + (n + 1) := by
    rw [← Nat.add_mul_div_right _ _ (by decide : 0 < 2)]
    congr 1
    ring
  rw [half_product hn, half_product (Nat.lt_of_succ_lt hn), hhalf, UInt64.ofNat_add]

theorem foldl_rollin_eq (rs : Rollsum) (hlen : buf.length < 2 ^ 32) :
    buf.foldl rollin rs =
      ⟨rs.count + UInt64.ofNat buf.length,
        (restLoop (rs.s1, rs.s2) buf).1 + UInt64.ofNat buf.length * 31,
        (restLoop (rs.s1, rs.s2) buf).2 +
          UInt64.ofNat buf.length * (UInt64.ofNat buf.length + 1) / 2 * 31⟩ := by
  induction buf using List.reverseRecOn with
  | nil => simp [restLoop]
  | append_singleton buf b ih =>
    rw [List.length_append, List.length_singleton] at hlen
    rw [List.foldl_append, ih (Nat.lt_of_succ_lt hlen), List.length_append, List.length_singleton,
      half_product_succ hlen, restLoop_append, UInt64.ofNat_add]
    generalize UInt64.ofNat buf.length * (UInt64.ofNat buf.length + 1) / 2 = half
    rw [List.foldl_cons, List.foldl_nil, rollin, restLoop, restLoop, Rollsum.mk.injEq]
    refine ⟨?_, ?_, ?_⟩
    · grind
    · grind
    · grind

theorem update_eq (rs : Rollsum) (hlen : buf.length < 2 ^ 32) :
    rs.update buf = buf.foldl rollin rs := by
  rw [foldl_rollin_eq rs hlen, update, updateLoop_eq]

theorem foldl_update {parts : List Bytes} (hshort : ∀ part ∈ parts, part.length < 2 ^ 32)
    (rs : Rollsum) : parts.foldl update rs = parts.flatten.foldl rollin rs := by
  induction parts generalizing rs with
  | nil => rfl
  | cons part parts ih =>
    rw [List.foldl_cons, update_eq rs (hshort part List.mem_cons_self),
      ih fun p hp => hshort p (List.mem_cons_of_mem _ hp), List.flatten_cons, List.foldl_append]

end RollsumLemmas

open RollsumLemmas in
/-- A checksum that slides over any bytes is at each of them the one of the window there. Computed
from all bytes of the window at once, in whatever parts, it is the same as byte by byte, and a byte
that is rolled out leaves the one of the others. -/
theorem rollsum_of_window {parts : List Bytes} (hshort : ∀ part ∈ parts, part.length < 2 ^ 32)
    (hne : parts.flatten ≠ []) :
    (∀ bs, Rollsum.slide (parts.foldl Rollsum.update .init) parts.flatten bs =
      Rollsum.ofWindow ((parts.flatten ++ bs).drop bs.length)) ∧
    ∀ out rest, parts.flatten = out :: rest →
      (parts.foldl Rollsum.update .init).rollout out = Rollsum.ofWindow rest := by
  rw [foldl_update hshort, ← Rollsum.ofWindow]
  refine ⟨slide_ofWindow hne, fun out rest hwindow => ?_⟩
  rw [hwindow]
  exact rollout_ofWindow out rest

theorem rollsum_of_window_parts :
    (∀ part ∈ [[(1 : UInt8), 2], [3]], part.length < 2 ^ 32) ∧
    Rollsum.slide ([[1, 2], [3]].foldl Rollsum.update .init) [1, 2, 3] [4, 5] =
      Rollsum.ofWindow [3, 4, 5] := by
  have hshort : ∀ part ∈ [[(1 : UInt8), 2], [3]], part.length < 2 ^ 32 := by decide
  exact ⟨hshort, (rollsum_of_window hshort (by decide)).1 [4, 5]⟩

end Everarch
