import Everarch.Cli.Slices
import Mathlib.Data.Nat.ModEq

/-!
# Slices of files with a common tail

Files are sliced by a checksum so that what they have in common is stored once. The checksum
never forgets what has left its window (its `count` stays zero), so this module says when two
files that end alike are cut alike.

* `SharedTailLemmas.wantsSplitAt_tail`: the checksum inside of the common tail.
* `SharedTailLemmas.same_cuts`: the two scans run in step behind a common cut.

Results: `shared_tail_slices`.
-/

namespace Everarch

/-- The sum of bytes. -/
def byteSum (bs : Bytes) : Nat :=
  (bs.map UInt8.toNat).sum

/-- A slice begins at this place of the content, and not at its front. -/
def SliceStarts (content : Bytes) (p : Nat) : Prop :=
  CutsAt content (cutsUpTo content p).1 p

namespace SharedTailLemmas

open SlicesLemmas

variable {a b c : Bytes} {p q st : Nat} {tl : List Bytes}

theorem wantsSplitAt_tail (a : Bytes) (hwindow : splitWindowSize ≤ p + 1) (hp : p < c.length) :
    WantsSplitAt (a ++ c) (a.length + p) ↔
      (byteSum a * splitWindowSize + rollingSum (c.take (p + 1))) % 2 ^ 18 = 2 ^ 18 - 1 := by
  have hlen : splitWindowSize ≤ (c.take (p + 1)).length := by
    rw [List.length_take]
    exact le_min hwindow (Nat.le_trans hwindow hp)
  rw [WantsSplitAt, Nat.add_assoc, List.take_length_add_append, rollingSum_append hlen, byteSum]

/-- The bytes in front of the tail count with the factor 64 of the window, modulo 2¹⁸. -/
theorem modEq_sums : byteSum a ≡ byteSum b [MOD 2 ^ 12] ↔
    byteSum a * splitWindowSize ≡ byteSum b * splitWindowSize [MOD 2 ^ 18] := by
  have hpow : (2 : Nat) ^ 18 = 2 ^ 12 * splitWindowSize := rfl
  rw [hpow, Nat.ModEq.mul_right_cancel_iff' (by decide)]

theorem wantsSplitAt_same (hsum : byteSum a ≡ byteSum b [MOD 2 ^ 12])
    (hwindow : splitWindowSize ≤ p + 1) (hp : p < c.length) :
    WantsSplitAt (a ++ c) (a.length + p) ↔ WantsSplitAt (b ++ c) (b.length + p) := by
  rw [wantsSplitAt_tail a hwindow hp, wantsSplitAt_tail b hwindow hp,
    (modEq_sums.mp hsum).add_right (rollingSum (c.take (p + 1)))]

theorem wantsSplitAt_differ (hsum : ¬ byteSum a ≡ byteSum b [MOD 2 ^ 12])
    (hwindow : splitWindowSize ≤ p + 1) (hp : p < c.length)
    (ha : WantsSplitAt (a ++ c) (a.length + p)) : ¬ WantsSplitAt (b ++ c) (b.length + p) := by
  intro hb
  rw [wantsSplitAt_tail _ hwindow hp] at ha hb
  exact hsum (modEq_sums.mpr (Nat.ModEq.add_right_cancel' _ (ha.trans hb.symm)))

/-- The scan of `a ++ c` is at `p` of `c`, its slice began at `st` of `c`, and it has passed `tl`
since some slices `before`. -/
def TailScan (a c : Bytes) (p st : Nat) (before tl : List Bytes) : Prop :=
  cutsUpTo (a ++ c) (a.length + p) = (a.length + st, before ++ tl)

theorem cutsAt_tail : CutsAt (a ++ c) (a.length + st) (a.length + p) ↔
    minSliceSize < p - st ∧ (maxSliceSize ≤ p - st ∨ WantsSplitAt (a ++ c) (a.length + p)) := by
  rw [CutsAt, Nat.add_sub_add_left]

/-- One byte of the tail. -/
theorem tailScan_succ {before : List Bytes} (h : TailScan a c p st before tl) :
    TailScan a c (p + 1) (if CutsAt (a ++ c) (a.length + st) (a.length + p) then p else st) before
      (if CutsAt (a ++ c) (a.length + st) (a.length + p) then tl ++ [(c.drop st).take (p - st)]
        else tl) := by
  unfold TailScan at h ⊢
  rw [← Nat.add_assoc, cutsUpTo, h]
  dsimp only
  split_ifs
  · rw [List.append_assoc, List.drop_length_add_append, Nat.add_sub_add_left]
  · rfl

/-- Two scans run in step behind a common cut. -/
theorem same_cuts {sa sb : List Bytes} (hsum : byteSum a ≡ byteSum b [MOD 2 ^ 12])
    (hwindow : splitWindowSize ≤ p + 1) (ha : TailScan a c p st sa []) (hb : TailScan b c p st sb [])
    (n : Nat) (hn : p + n ≤ c.length) :
    ∃ st' tl, TailScan a c (p + n) st' sa tl ∧ TailScan b c (p + n) st' sb tl := by
  induction n with
  | zero => exact ⟨st, [], ha, hb⟩
  | succ n ih =>
    obtain ⟨st', tl, ha', hb'⟩ := ih (Nat.le_of_succ_le hn)
    have hwants := wantsSplitAt_same (c := c) hsum (p := p + n) (by omega) (by omega)
    have hcuts : CutsAt (a ++ c) (a.length + st') (a.length + (p + n)) ↔
        CutsAt (b ++ c) (b.length + st') (b.length + (p + n)) := by
      rw [cutsAt_tail, cutsAt_tail, hwants]
    have hb'' := tailScan_succ hb'
    simp only [← hcuts] at hb''
    exact ⟨_, _, tailScan_succ ha', hb''⟩

/-- A scan that has cut at `p` of the tail. -/
theorem tailScan_of_starts (h : SliceStarts (a ++ c) (a.length + p)) :
    ∃ before, TailScan a c (p + 1) p before [] := by
  refine ⟨(cutsUpTo (a ++ c) (a.length + (p + 1))).2, ?_⟩
  have hstart : (cutsUpTo (a ++ c) (a.length + (p + 1))).1 = a.length + p := by
    rw [← Nat.add_assoc, cutsUpTo]
    dsimp only
    have hcut : CutsAt (a ++ c) (cutsUpTo (a ++ c) (a.length + p)).1 (a.length + p) := h
    rw [if_pos hcut]
  rw [TailScan, List.append_nil]
  exact Prod.ext hstart rfl

theorem contentSlices_tail {before : List Bytes} (h : TailScan a c c.length st before tl) :
    contentSlices (a ++ c) = before ++ (tl ++ [c.drop st]) := by
  unfold TailScan at h
  rw [contentSlices, List.length_append, h]
  dsimp only
  rw [List.drop_length_add_append, List.append_assoc]

end SharedTailLemmas

open SharedTailLemmas SlicesLemmas in
/-- From 63 bytes into a common tail on it matters whether the sums of the bytes in front of the
tail agree modulo 4096. Where they do, two files that both begin a slice at one place have all
slices from there on in common. Where they do not, the checksum asks for a cut in at most one of
them at any place. -/
theorem shared_tail_slices (a b c : Bytes) (chunksA chunksB : List Nat) {maxRead : Nat}
    (hmaxa : (a ++ c).length < maxRead) (hmaxb : (b ++ c).length < maxRead) :
    (byteSum a ≡ byteSum b [MOD 2 ^ 12] → ∀ p, splitWindowSize ≤ p + 1 → p < c.length →
      SliceStarts (a ++ c) (a.length + p) → SliceStarts (b ++ c) (b.length + p) →
        ∃ sa sb tail, rollsumSplit keepSlice ⟨a ++ c, chunksA⟩ maxRead [] = (.end_, sa ++ tail) ∧
          rollsumSplit keepSlice ⟨b ++ c, chunksB⟩ maxRead [] = (.end_, sb ++ tail) ∧
          tail.flatten = c.drop p) ∧
      (¬ byteSum a ≡ byteSum b [MOD 2 ^ 12] → ∀ p, splitWindowSize ≤ p + 1 → p < c.length →
        ¬ (WantsSplitAt (a ++ c) (a.length + p) ∧ WantsSplitAt (b ++ c) (b.length + p))) := by
  refine ⟨fun hsum p hwindow hp ha hb => ?_, fun hsum p hwindow hp hboth =>
    wantsSplitAt_differ hsum hwindow hp hboth.1 hboth.2⟩
  rw [rollsumSplit_keepSlice ⟨a ++ c, chunksA⟩ hmaxa,
    rollsumSplit_keepSlice ⟨b ++ c, chunksB⟩ hmaxb]
  obtain ⟨sa, hsa⟩ := tailScan_of_starts ha
  obtain ⟨sb, hsb⟩ := tailScan_of_starts hb
  obtain ⟨st, tl, hsa', hsb'⟩ := same_cuts hsum (Nat.le_succ_of_le hwindow) hsa hsb
    (c.length - (p + 1)) (by omega)
  rw [Nat.add_sub_cancel' hp] at hsa' hsb'
  refine ⟨sa, sb, tl ++ [c.drop st], by rw [contentSlices_tail hsa'],
    by rw [contentSlices_tail hsb'], ?_⟩
  -- what is in front of the cut is the content in front of it
  have hcut : (cutsUpTo (a ++ c) (a.length + p + 1)) = (a.length + p, sa ++ []) := hsa
  have hfits : a.length + p + 1 ≤ (a ++ c).length := by
    rw [List.length_append]
    omega
  have hfront := (tiled_cutsUpTo hfits).flatten
  rw [hcut, List.append_nil] at hfront
  have hwhole : (contentSlices (a ++ c)).flatten = a ++ c := by
    rw [contentSlices]
    dsimp only
    rw [List.flatten_append, (tiled_cutsUpTo (Nat.le_refl _)).flatten, List.flatten_singleton,
      List.take_append_drop]
  rw [contentSlices_tail hsa', List.flatten_append, hfront, List.take_length_add_append,
    List.append_assoc] at hwhole
  have htail := List.append_cancel_left hwhole
  conv_rhs at htail => rw [← List.take_append_drop p c]
  exact List.append_cancel_left htail

/-- A tail of 64 bytes behind which the checksum asks for a cut if its first byte follows a 1. -/
def cutTail : Bytes :=
  List.replicate 18 255 ++ [159] ++ List.replicate 44 0 ++ [20]

/-- The byte in front of the tail was changed. -/
theorem shared_tail_slices_changed :
    WantsSplitAt ([1] ++ cutTail) 64 ∧ ¬ WantsSplitAt ([2] ++ cutTail) 64 := by
  have hwants : WantsSplitAt ([1] ++ cutTail) 64 := by decide +kernel
  have hnot := (@shared_tail_slices [1] [2] cutTail [] [7] 66 (by decide) (by decide)).2
    (by decide) 63 (by decide) (by decide)
  exact ⟨hwants, fun h => hnot ⟨hwants, h⟩⟩

end Everarch
