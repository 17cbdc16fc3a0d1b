import Everarch.Cli.Splitter
import Mathlib.Data.UInt

/-!
# The slices of a content

`evr_rollsum_split` cuts a file where the checksum of the last bytes says so. This module says
where that is in terms of the content alone, and shows that the loop cuts there, however the reads
fill its buffer.

* `rollingSum`: what the checksum of a content comes to.
* `contentSlices`: the slices of a content.
* `rollsumSplit_collects`: the loop passes these slices.
* `slices_of_content`: what is known about them.
* `first_slice_long_iff`: when the first of them is as long as files.c means it to be.
-/

namespace Everarch

/-! ## The checksum of a content -/

/-- `s2` of the checksum after some bytes: each byte was added to it once for every byte from it
on, as long as it was in the window. -/
def rollingSum : Bytes → Nat
  | [] => 0
  | b :: bs => b.toNat * min splitWindowSize (bs.length + 1) + rollingSum bs

/-- `s1` of the checksum after some bytes: the bytes in the window. -/
def windowSum : Bytes → Nat
  | [] => 0
  | b :: bs => (if bs.length < splitWindowSize then b.toNat else 0) + windowSum bs

/-- The byte that the next one drives out of the window. -/
def leaving (bs : Bytes) : UInt8 :=
  if splitWindowSize ≤ bs.length then bs.getD (bs.length - splitWindowSize) 0 else 0

/-- The checksum after the byte at `p` is one to split at. -/
def WantsSplitAt (content : Bytes) (p : Nat) : Prop :=
  rollingSum (content.take (p + 1)) % 2 ^ 18 = 2 ^ 18 - 1

instance decidableWantsSplitAt (content : Bytes) (p : Nat) : Decidable (WantsSplitAt content p) :=
  inferInstanceAs (Decidable (_ = _))

/-! ## Where a content is cut -/

/-- A slice that starts at `start` ends in front of `p`. -/
def CutsAt (content : Bytes) (start p : Nat) : Prop :=
  minSliceSize < p - start ∧ (maxSliceSize ≤ p - start ∨ WantsSplitAt content p)

instance decidableCutsAt (content : Bytes) (start p : Nat) : Decidable (CutsAt content start p) :=
  inferInstanceAs (Decidable (_ ∧ (_ ∨ _)))

/-- The start of the current slice and the slices in front of it, after so many bytes. -/
def cutsUpTo (content : Bytes) : Nat → Nat × List Bytes
  | 0 => (0, [])
  | p + 1 =>
    let (start, slices) := cutsUpTo content p
    if CutsAt content start p then (p, slices ++ [(content.drop start).take (p - start)])
    else (start, slices)

/-- The slices of a content. -/
def contentSlices (content : Bytes) : List Bytes :=
  let (start, slices) := cutsUpTo content content.length
  slices ++ [content.drop start]

/-- A callback of `evr_rollsum_split` that keeps the slices. -/
def keepSlice (slices : List Bytes) (mem : Bytes) (size : Nat) : Option (List Bytes) :=
  some (slices ++ [mem.take size])

/-- `min_first_slice_size`, which nothing in files.c uses. -/
def minFirstSliceSize : Nat := 256 * 2 ^ 10

/-- What the loop does to the checksum and its window. -/
def SplitScan.roll {σ : Type} (scan : SplitScan σ) (b : UInt8) : SplitScan σ :=
  { scan with
    rs := scan.rs.rotate (scan.window scan.windowPos) b
    window := Function.update scan.window scan.windowPos b
    windowPos := (scan.windowPos + 1) % splitWindowSize }

namespace SlicesLemmas

open SplitterLemmas

/-! ## Sums -/

section Sums

variable {bs : Bytes} {b : UInt8}

theorem windowSum_snoc (bs : Bytes) (b : UInt8) :
    windowSum (bs ++ [b]) + (leaving bs).toNat = windowSum bs + b.toNat := by
  induction bs with
  | nil => simp [windowSum, leaving, splitWindowSize]
  | cons a bs ih =>
    rw [List.cons_append, windowSum, windowSum, List.length_append, List.length_singleton]
    rcases Nat.lt_trichotomy (bs.length + 1) splitWindowSize with hlt | heq | hgt
    · have hout : leaving (a :: bs) = leaving bs := by
        rw [leaving, leaving, List.length_cons, if_neg (by omega), if_neg (by omega)]
      rw [hout, if_pos hlt, if_pos (by omega)]
      omega
    · have hout : leaving (a :: bs) = a := by
        rw [leaving, List.length_cons, if_pos (by omega), heq, Nat.sub_self]
        rfl
      have hout' : leaving bs = 0 := by rw [leaving, if_neg (by omega)]
      rw [hout', UInt8.toNat_zero, Nat.add_zero] at ih
      rw [hout, if_neg (by omega), if_pos (by omega), ih]
      omega
    · have hout : leaving (a :: bs) = leaving bs := by
        rw [leaving, leaving, List.length_cons, if_pos (by omega), if_pos (by omega),
          Nat.sub_add_comm (by omega), List.getD_cons_succ]
      rw [hout, if_neg (by omega), if_neg (by omega)]
      omega

theorem rollingSum_snoc (bs : Bytes) (b : UInt8) :
    rollingSum (bs ++ [b]) = rollingSum bs + windowSum (bs ++ [b]) := by
  induction bs with
  | nil =>
    show b.toNat * 1 + 0 = 0 + (b.toNat + 0)
    omega
  | cons a bs ih =>
    rw [List.cons_append, rollingSum, rollingSum, windowSum, ih, List.length_append,
      List.length_singleton]
    by_cases hlt : bs.length + 1 < splitWindowSize
    · rw [if_pos hlt, Nat.min_eq_right (by omega), Nat.min_eq_right (by omega), Nat.mul_add _ _ 1]
      omega
    · rw [if_neg hlt, Nat.min_eq_left (by omega), Nat.min_eq_left (by omega)]
      omega

theorem rollingSum_replicate_zero (n : Nat) (bs : Bytes) :
    rollingSum (List.replicate n 0 ++ bs) = rollingSum bs := by
  induction n with
  | zero => rfl
  | succ n ih =>
    rw [List.replicate_succ, List.cons_append, rollingSum, ih, UInt8.toNat_zero, Nat.zero_mul,
      Nat.zero_add]

/-- Bytes that have left the window. -/
theorem rollingSum_append {bs' : Bytes} (h : splitWindowSize ≤ bs'.length) (bs : Bytes) :
    rollingSum (bs ++ bs') = (bs.map UInt8.toNat).sum * splitWindowSize + rollingSum bs' := by
  induction bs with
  | nil => rw [List.nil_append, List.map_nil, List.sum_nil, Nat.zero_mul, Nat.zero_add]
  | cons b bs ih =>
    rw [List.cons_append, rollingSum, ih, List.length_append, Nat.min_eq_left (by omega),
      List.map_cons, List.sum_cons, Nat.add_mul]
    omega

end Sums

/-! ## The window -/

section Window

variable {σ : Type} {content : Bytes} {n : Nat} {scan : SplitScan σ}

/-- The checksum has been moved over the first `n` bytes. The slots of the window hold the last
bytes, from the oldest on, and zeros where there was none. -/
structure ChecksumAt {σ : Type} (content : Bytes) (n : Nat) (scan : SplitScan σ) : Prop where
  count : scan.rs.count = 0
  s1 : scan.rs.s1 = UInt64.ofNat (windowSum (content.take n))
  s2 : scan.rs.s2 = UInt64.ofNat (rollingSum (content.take n))
  windowPos : scan.windowPos = n % splitWindowSize
  window : ∀ k < splitWindowSize, scan.window ((n + k) % splitWindowSize) =
    if splitWindowSize ≤ n + k then content.getD (n + k - splitWindowSize) 0 else 0

/-- A slice that ends does not matter to the checksum. -/
theorem ChecksumAt.cut (h : ChecksumAt content n scan) (start : Nat) (ctx : σ) :
    ChecksumAt content n { scan with nextSliceStart := start, ctx := ctx } :=
  ⟨h.count, h.s1, h.s2, h.windowPos, h.window⟩

theorem leaving_eq (h : ChecksumAt content n scan) (hn : n ≤ content.length) :
    scan.window scan.windowPos = leaving (content.take n) := by
  have hslot := h.window 0 (by decide)
  rw [Nat.add_zero, ← h.windowPos] at hslot
  rw [hslot, leaving, List.length_take, Nat.min_eq_left hn]
  split_ifs with hle
  · rw [List.getD_eq_getElem?_getD, List.getD_eq_getElem?_getD, List.getElem?_take_of_lt]
    have hpos : 0 < splitWindowSize := by decide
    omega
  · rfl

theorem checksumAt_roll (h : ChecksumAt content n scan) (hn : n < content.length) :
    ChecksumAt content (n + 1) (scan.roll (content.getD n 0)) := by
  have htake : content.take (n + 1) = content.take n ++ [content.getD n 0] := by
    rw [List.take_add_one, List.getD_eq_getElem?_getD, List.getElem?_eq_getElem hn]
    rfl
  have hsum := congrArg UInt64.ofNat (windowSum_snoc (content.take n) (content.getD n 0))
  rw [← htake, UInt64.ofNat_add, UInt64.ofNat_add] at hsum
  have hout := leaving_eq h (Nat.le_of_lt hn)
  have hs1 : scan.rs.s1 + ((content.getD n 0).toUInt64 - (scan.window scan.windowPos).toUInt64) =
      UInt64.ofNat (windowSum (content.take (n + 1))) := by
    rw [h.s1, hout, ← UInt64.ofNat_uInt8ToNat, ← UInt64.ofNat_uInt8ToNat]
    grind
  refine ⟨h.count, hs1, ?_, ?_, ?_⟩
  · have hroll := congrArg UInt64.ofNat (rollingSum_snoc (content.take n) (content.getD n 0))
    rw [← htake, UInt64.ofNat_add, ← hs1] at hroll
    rw [hroll, ← h.s2]
    show scan.rs.s2 + (_ - scan.rs.count * _) = _
    rw [h.count, UInt64.zero_mul, UInt64.sub_zero]
  · show (scan.windowPos + 1) % splitWindowSize = _
    rw [h.windowPos, Nat.mod_add_mod]
  · intro k hk
    show Function.update scan.window scan.windowPos _ _ = _
    rw [h.windowPos]
    rcases Nat.lt_or_ge (k + 1) splitWindowSize with hlt | hge
    · have hne : (n + 1 + k) % splitWindowSize ≠ n % splitWindowSize := by
        unfold splitWindowSize at hlt ⊢
        omega
      rw [Function.update_of_ne hne, Nat.add_assoc n 1 k, Nat.add_comm 1 k]
      exact h.window (k + 1) hlt
    · -- the slot that was written
      have hlast : n + 1 + k = n + splitWindowSize := by omega
      rw [hlast, Nat.add_mod_right, Function.update_self, if_pos (Nat.le_add_left _ _),
        Nat.add_sub_cancel]

theorem wantSplit_iff (h : ChecksumAt content (n + 1) scan) :
    scan.rs.wantSplit = true ↔ WantsSplitAt content n := by
  rw [Rollsum.wantSplit, beq_iff_eq, h.s2, WantsSplitAt, ← UInt64.toNat_inj, UInt64.toNat_and,
    UInt64.toNat_ofNat']
  have hmask : (Rollsum.avgSliceSize - 1).toNat = 2 ^ 18 - 1 := by decide
  rw [hmask, Nat.and_two_pow_sub_one_eq_mod,
    Nat.mod_mod_of_dvd _ (Nat.pow_dvd_pow 2 (by decide : 18 ≤ 64))]

end Window

/-! ## The cuts of a content -/

section Cuts

variable {content : Bytes} {n : Nat}

theorem cutsUpTo_start_le (content : Bytes) (n : Nat) : (cutsUpTo content n).1 ≤ n := by
  induction n with
  | zero => exact Nat.le_refl _
  | succ n ih =>
    rw [cutsUpTo]
    dsimp only
    split_ifs
    · exact Nat.le_succ n
    · exact Nat.le_succ_of_le ih

/-- What was read later does not matter. -/
theorem cutsUpTo_append (hn : n ≤ content.length) (more : Bytes) :
    cutsUpTo (content ++ more) n = cutsUpTo content n := by
  induction n with
  | zero => rfl
  | succ n ih =>
    have hstart := cutsUpTo_start_le content n
    have hcuts : CutsAt (content ++ more) (cutsUpTo content n).1 n ↔
        CutsAt content (cutsUpTo content n).1 n := by
      rw [CutsAt, CutsAt, WantsSplitAt, WantsSplitAt, List.take_append_of_le_length hn]
    have hslice : ((content ++ more).drop (cutsUpTo content n).1).take
        (n - (cutsUpTo content n).1) =
          (content.drop (cutsUpTo content n).1).take (n - (cutsUpTo content n).1) := by
      rw [← List.drop_take, ← List.drop_take, List.take_append_of_le_length (Nat.le_of_lt hn)]
    rw [cutsUpTo, cutsUpTo, ih (Nat.le_of_succ_le hn)]
    dsimp only
    simp only [hcuts, hslice]

theorem checksumAt_append {σ : Type} {scan : SplitScan σ} (h : ChecksumAt content n scan)
    (hn : n ≤ content.length) (more : Bytes) : ChecksumAt (content ++ more) n scan := by
  refine ⟨h.count, ?_, ?_, h.windowPos, fun k hk => ?_⟩
  · rw [List.take_append_of_le_length hn]
    exact h.s1
  · rw [List.take_append_of_le_length hn]
    exact h.s2
  · rw [h.window k hk]
    split_ifs
    · rw [List.getD_eq_getElem?_getD, List.getD_eq_getElem?_getD,
        List.getElem?_append_left (by omega)]
    · rfl

/-- The slices in front of the current one make up what is in front of it, and are neither too
short nor too long. -/
structure Tiled (content : Bytes) (n start : Nat) (slices : List Bytes) : Prop where
  small : n - start ≤ maxSliceSize
  flatten : slices.flatten = content.take start
  sizes : ∀ s ∈ slices, minSliceSize < s.length ∧ s.length ≤ maxSliceSize

theorem tiled_cutsUpTo (hn : n ≤ content.length) :
    Tiled content n (cutsUpTo content n).1 (cutsUpTo content n).2 := by
  induction n with
  | zero => exact ⟨Nat.zero_le _, rfl, fun _ h => absurd h List.not_mem_nil⟩
  | succ n ih =>
    obtain ⟨hsmall, hflatten, hsizes⟩ := ih (Nat.le_of_succ_le hn)
    have hstart := cutsUpTo_start_le content n
    rw [cutsUpTo]
    generalize cutsUpTo content n = cuts at hsmall hflatten hsizes hstart ⊢
    obtain ⟨start, slices⟩ := cuts
    dsimp only at hsmall hflatten hsizes hstart ⊢
    split_ifs with hcut
    · have hlen : ((content.drop start).take (n - start)).length = n - start := by
        rw [List.length_take, List.length_drop, Nat.min_eq_left (by omega)]
      refine ⟨?_, ?_, ?_⟩
      · rw [Nat.add_sub_cancel_left]
        decide
      · rw [List.flatten_append, hflatten, List.flatten_singleton, ← List.take_add,
          Nat.add_sub_cancel' hstart]
      · intro s hs
        rcases List.mem_append.mp hs with hold | hnew
        · exact hsizes s hold
        · rw [List.mem_singleton.mp hnew, hlen]
          exact ⟨hcut.1, hsmall⟩
    · have hless : n - start < maxSliceSize := by
        refine Nat.lt_of_not_le fun hmax => hcut ⟨Nat.lt_of_lt_of_le ?_ hmax, .inl hmax⟩
        decide
      exact ⟨by dsimp only; omega, hflatten, hsizes⟩

theorem flatten_contentSlices (content : Bytes) : (contentSlices content).flatten = content := by
  have hflatten := (tiled_cutsUpTo (Nat.le_refl content.length)).flatten
  rw [contentSlices]
  dsimp only
  rw [List.flatten_append, hflatten, List.flatten_singleton, List.take_append_drop]

theorem length_le_of_mem_contentSlices {s : Bytes} (hs : s ∈ contentSlices content) :
    s.length ≤ maxSliceSize := by
  obtain ⟨hsmall, -, hsizes⟩ := tiled_cutsUpTo (Nat.le_refl content.length)
  rcases List.mem_append.mp hs with hold | hlast
  · exact (hsizes s hold).2
  · rw [List.mem_singleton.mp hlast, List.length_drop]
    exact hsmall

/-- The first slice ends at the first place to cut. -/
theorem first_cut (hn : n ≤ content.length) :
    cutsUpTo content n = (0, []) ∧ (∀ p < n, ¬ CutsAt content 0 p) ∨
      ∃ p < n, CutsAt content 0 p ∧ (∀ q < p, ¬ CutsAt content 0 q) ∧
        (cutsUpTo content n).2.head? = some (content.take p) := by
  induction n with
  | zero => exact .inl ⟨rfl, fun p hp => absurd hp (Nat.not_lt_zero p)⟩
  | succ n ih =>
    rcases ih (Nat.le_of_succ_le hn) with ⟨hnone, hbefore⟩ | ⟨p, hp, hcut, hbefore, hhead⟩
    · rw [cutsUpTo, hnone]
      dsimp only
      split_ifs with hcut
      · exact .inr ⟨n, Nat.lt_succ_self n, hcut, hbefore, rfl⟩
      · refine .inl ⟨rfl, fun p hp => ?_⟩
        rcases Nat.lt_succ_iff_lt_or_eq.mp hp with hlt | rfl
        · exact hbefore p hlt
        · exact hcut
    · refine .inr ⟨p, Nat.lt_succ_of_lt hp, hcut, hbefore, ?_⟩
      rw [cutsUpTo]
      dsimp only
      split_ifs
      · rw [List.head?_append, hhead, Option.some_or]
      · exact hhead

end Cuts

/-! ## The loop -/

section Loop

variable {σ : Type} {slice : σ → Bytes → Nat → Option σ} {Collects : List Bytes → σ → Prop}
  {given data : Bytes} {scan : SplitScan σ} {p : Nat}

/-- A callback that takes slices up to the largest one. `Collects slices ctx` says that it was given
these. -/
structure Collector (slice : σ → Bytes → Nat → Option σ) (Collects : List Bytes → σ → Prop) :
    Prop where
  takes : ∀ slices ctx mem size, Collects slices ctx → size ≤ mem.length → size ≤ maxSliceSize →
    ∃ ctx', slice ctx mem size = some ctx' ∧ Collects (slices ++ [mem.take size]) ctx'

/-- The scan is at `p` of the buffer, and has cut the content so far where it is to be cut. -/
structure SlicedAt (Collects : List Bytes → σ → Prop) (given data : Bytes) (scan : SplitScan σ)
    (p : Nat) : Prop where
  inside : p ≤ data.length
  start_le : scan.nextSliceStart ≤ p
  checksum : ChecksumAt (given ++ data) (given.length + p) scan
  cuts : ∃ slices, cutsUpTo (given ++ data) (given.length + p) =
    (given.length + scan.nextSliceStart, slices) ∧ Collects slices scan.ctx

theorem SlicedAt.small (h : SlicedAt Collects given data scan p) :
    p - scan.nextSliceStart ≤ maxSliceSize := by
  obtain ⟨slices, hcuts, -⟩ := h.cuts
  have hlen : given.length + p ≤ (given ++ data).length := by
    rw [List.length_append]
    exact Nat.add_le_add_left h.inside _
  have hsmall := (tiled_cutsUpTo hlen).small
  rwa [hcuts, Nat.add_sub_add_left] at hsmall

theorem scanByte_eq (slice : σ → Bytes → Nat → Option σ) (data : Bytes) (scan : SplitScan σ)
    (p : Nat) : scanByte slice data scan p =
      if minSliceSize < p - scan.nextSliceStart ∧ (maxSliceSize ≤ p - scan.nextSliceStart ∨
          (scan.roll (data.getD p 0)).rs.wantSplit = true) then
        (slice scan.ctx (data.drop scan.nextSliceStart) (p - scan.nextSliceStart)).map fun ctx =>
          { scan.roll (data.getD p 0) with nextSliceStart := p, ctx := ctx }
      else some (scan.roll (data.getD p 0)) := by
  unfold scanByte SplitScan.roll
  dsimp only
  split_ifs with hcut hsome
  · cases slice scan.ctx (data.drop scan.nextSliceStart) (p - scan.nextSliceStart) with
    | none => rfl
    | some ctx => rfl
  · exact absurd (Nat.lt_of_le_of_lt (Nat.zero_le _) hcut.1) hsome
  · rfl

theorem slicedAt_byte (hslice : Collector slice Collects)
    (h : SlicedAt Collects given data scan p) (hp : p < data.length) :
    ∃ scan', scanByte slice data scan p = some scan' ∧
      SlicedAt Collects given data scan' (p + 1) := by
  have hsmall := h.small
  obtain ⟨-, hstart, hchecksum, slices, hcuts, hcollects⟩ := h
  have hlen : given.length + p < (given ++ data).length := by
    rw [List.length_append]
    omega
  have hbyte : (given ++ data).getD (given.length + p) 0 = data.getD p 0 := by
    rw [List.getD_eq_getElem?_getD, List.getD_eq_getElem?_getD,
      List.getElem?_append_right (Nat.le_add_right _ _), Nat.add_sub_cancel_left]
  have hroll := checksumAt_roll hchecksum hlen
  rw [hbyte] at hroll
  have hsize : given.length + p - (given.length + scan.nextSliceStart) =
      p - scan.nextSliceStart := Nat.add_sub_add_left _ _ _
  have hslice' : (given ++ data).drop (given.length + scan.nextSliceStart) =
      data.drop scan.nextSliceStart := List.drop_length_add_append _
  simp only [scanByte_eq, wantSplit_iff hroll]
  have hnext : cutsUpTo (given ++ data) (given.length + (p + 1)) =
      if minSliceSize < p - scan.nextSliceStart ∧ (maxSliceSize ≤ p - scan.nextSliceStart ∨
          WantsSplitAt (given ++ data) (given.length + p)) then
        (given.length + p, slices ++
          [(data.drop scan.nextSliceStart).take (p - scan.nextSliceStart)])
      else (given.length + scan.nextSliceStart, slices) := by
    rw [← Nat.add_assoc, cutsUpTo, hcuts]
    dsimp only
    simp only [CutsAt, hslice', hsize]
  split_ifs at hnext ⊢ with hcut
  · have hmem : p - scan.nextSliceStart ≤ (data.drop scan.nextSliceStart).length := by
      rw [List.length_drop]
      omega
    obtain ⟨ctx', htaken, hcollects'⟩ := hslice.takes _ _ _ _ hcollects hmem hsmall
    rw [htaken]
    exact ⟨_, rfl, hp, Nat.le_succ p, hroll.cut _ _, _, hnext, hcollects'⟩
  · exact ⟨_, rfl, hp, Nat.le_succ_of_le hstart, hroll, _, hnext, hcollects⟩

theorem scanRule_collects (hslice : Collector slice Collects) :
    ScanRule slice (SlicedAt Collects) fun content ctx => Collects (contentSlices content) ctx where
  start_le _ _ _ _ h := h.start_le
  small _ _ _ _ h := h.small
  byte _ _ _ _ h hp := slicedAt_byte hslice h hp
  more given data more scan h := by
    have hlen : given.length + data.length ≤ (given ++ data).length := by rw [List.length_append]
    refine ⟨?_, h.start_le, ?_, ?_⟩
    · rw [List.length_append]
      exact Nat.le_add_right _ _
    · rw [← List.append_assoc]
      exact checksumAt_append h.checksum hlen more
    · rw [← List.append_assoc, cutsUpTo_append hlen]
      exact h.cuts
  slide given data scan h := by
    have hstart := h.start_le
    have hcontent : given ++ data.take scan.nextSliceStart ++ data.drop scan.nextSliceStart =
        given ++ data := by
      rw [List.append_assoc, List.take_append_drop]
    have hlen : (given ++ data.take scan.nextSliceStart).length =
        given.length + scan.nextSliceStart := by
      rw [List.length_append, List.length_take, Nat.min_eq_left hstart]
    have hpos : given.length + scan.nextSliceStart + (data.length - scan.nextSliceStart) =
        given.length + data.length := by omega
    refine ⟨?_, Nat.zero_le _, ?_, ?_⟩
    · rw [List.length_drop]
    · rw [hcontent, hlen, hpos]
      exact h.checksum.cut _ _
    · rw [hcontent, hlen, hpos, Nat.add_zero]
      exact h.cuts
  flush given data scan h := by
    obtain ⟨slices, hcuts, hcollects⟩ := h.cuts
    have hsmall : (data.drop scan.nextSliceStart).length ≤ maxSliceSize := by
      rw [List.length_drop]
      exact h.small
    obtain ⟨ctx', hflush, hcollects'⟩ :=
      hslice.takes _ _ (data.drop scan.nextSliceStart) _ hcollects (Nat.le_refl _) hsmall
    refine ⟨ctx', hflush, ?_⟩
    rw [contentSlices, List.length_append, hcuts]
    dsimp only
    rw [List.drop_length_add_append]
    rwa [List.take_length] at hcollects'

end Loop

end SlicesLemmas

open SlicesLemmas SplitterLemmas

/-- The loop passes the slices of the content, however its bytes are read. -/
theorem rollsumSplit_collects {σ : Type} {slice : σ → Bytes → Nat → Option σ}
    {Collects : List Bytes → σ → Prop} (hslice : Collector slice Collects) {ctx : σ}
    (hctx : Collects [] ctx) (f : SrcFile) {maxRead : Nat} (hmax : f.unread.length < maxRead) :
    ∃ ctx', rollsumSplit slice f maxRead ctx = (.end_, ctx') ∧
      Collects (contentSlices f.unread) ctx' := by
  have hchecksum : ChecksumAt [] 0 (⟨Rollsum.init, fun _ => 0, 0, 0, ctx⟩ : SplitScan σ) := by
    refine ⟨rfl, rfl, rfl, rfl, fun k hk => ?_⟩
    rw [if_neg (by omega)]
  have hstart : SlicedAt Collects [] [] ⟨Rollsum.init, fun _ => 0, 0, 0, ctx⟩ 0 :=
    ⟨Nat.le_refl _, Nat.le_refl _, hchecksum, [], rfl, hctx⟩
  have hsplit : ∃ ctx', rollsumSplit slice f maxRead ctx = (.end_, ctx') ∧
      Collects (contentSlices ([] ++ ([] ++ f.unread))) ctx' :=
    splitLoop_spec (scanRule_collects hslice) hstart (Nat.zero_le _) (by simpa using hmax)
      (Nat.lt_succ_self _)
  exact hsplit

theorem rollsumSplit_keepSlice (f : SrcFile) {maxRead : Nat} (hmax : f.unread.length < maxRead) :
    rollsumSplit keepSlice f maxRead [] = (.end_, contentSlices f.unread) := by
  have hkeeps : Collector keepSlice fun slices ctx => ctx = slices :=
    ⟨fun slices ctx mem size h _ _ => ⟨_, rfl, h ▸ rfl⟩⟩
  obtain ⟨slices, hsplit, rfl⟩ := rollsumSplit_collects hkeeps rfl f hmax
  exact hsplit

/-- With a `max_read` that is never met, the slices make up the content, have the sizes that they
are to have, and are the same ones however the bytes are read. -/
theorem slices_of_content (content : Bytes) (chunks chunks' : List Nat) {maxRead : Nat}
    (hmax : content.length < maxRead) :
    ∃ slices last, rollsumSplit keepSlice ⟨content, chunks⟩ maxRead [] =
        (.end_, slices ++ [last]) ∧
      rollsumSplit keepSlice ⟨content, chunks'⟩ maxRead [] = (.end_, slices ++ [last]) ∧
      (slices ++ [last]).flatten = content ∧
      (∀ s ∈ slices, minSliceSize < s.length ∧ s.length ≤ maxSliceSize) ∧
      last.length ≤ maxSliceSize := by
  obtain ⟨hsmall, hflatten, hsizes⟩ := tiled_cutsUpTo (Nat.le_refl content.length)
  refine ⟨(cutsUpTo content content.length).2,
    content.drop (cutsUpTo content content.length).1, ?_, ?_, ?_, hsizes, ?_⟩
  · exact rollsumSplit_keepSlice ⟨content, chunks⟩ hmax
  · exact rollsumSplit_keepSlice ⟨content, chunks'⟩ hmax
  · rw [List.flatten_append, hflatten, List.flatten_singleton, List.take_append_drop]
  · rwa [List.length_drop]

/-- A content that is too long for one slice. -/
theorem slices_of_zeros :
    ∃ slices last, rollsumSplit keepSlice ⟨List.replicate (maxSliceSize + 1) 0, [1, 1, 1]⟩
        (maxSliceSize + 2) [] = (.end_, slices ++ [last]) ∧
      rollsumSplit keepSlice ⟨List.replicate (maxSliceSize + 1) 0, [2]⟩ (maxSliceSize + 2) [] =
        (.end_, slices ++ [last]) ∧
      (slices ++ [last]).flatten = List.replicate (maxSliceSize + 1) 0 ∧ slices ≠ [] := by
  obtain ⟨slices, last, hsplit, hsplit', hflatten, -, hlast⟩ :=
    @slices_of_content (List.replicate (maxSliceSize + 1) 0) [1, 1, 1] [2] (maxSliceSize + 2)
      (by rw [List.length_replicate]; exact Nat.lt_succ_self _)
  refine ⟨slices, last, hsplit, hsplit', hflatten, ?_⟩
  rintro rfl
  rw [List.nil_append, List.flatten_singleton] at hflatten
  rw [hflatten, List.length_replicate] at hlast
  exact Nat.not_succ_le_self _ hlast

/-! ## The first slice -/

namespace SlicesLemmas

section First

variable {content : Bytes} {m : Nat}

theorem head_contentSlices (content : Bytes) :
    (contentSlices content).head? = some content ∧
        (∀ p < content.length, ¬ CutsAt content 0 p) ∨
      ∃ p < content.length, CutsAt content 0 p ∧ (∀ q < p, ¬ CutsAt content 0 q) ∧
        (contentSlices content).head? = some (content.take p) := by
  rcases first_cut (Nat.le_refl content.length) with ⟨hnone, hall⟩ | ⟨p, hp, hcut, hbefore, hhead⟩
  · refine .inl ⟨?_, hall⟩
    rw [contentSlices, hnone]
    rfl
  · refine .inr ⟨p, hp, hcut, hbefore, ?_⟩
    rw [contentSlices]
    dsimp only
    rw [List.head?_append, hhead, Option.some_or]

/-- The first slice has `m` bytes or more unless a cut is made in front of them. -/
theorem le_head_contentSlices (hm : m ≤ content.length) :
    (∃ first, (contentSlices content).head? = some first ∧ m ≤ first.length) ↔
      ∀ p < m, ¬ CutsAt content 0 p := by
  rcases head_contentSlices content with ⟨hhead, hall⟩ | ⟨p, hp, hcut, hbefore, hhead⟩
  · refine iff_of_true ⟨content, hhead, hm⟩ fun p hp => hall p (Nat.lt_of_lt_of_le hp hm)
  · have hlen : (content.take p).length = p := by
      rw [List.length_take, Nat.min_eq_left (Nat.le_of_lt hp)]
    constructor
    · rintro ⟨first, hfirst, hle⟩ q hq
      rw [hhead] at hfirst
      cases hfirst
      exact hbefore q (Nat.lt_of_lt_of_le hq (hlen ▸ hle))
    · intro hnone
      refine ⟨_, hhead, Nat.le_of_not_lt fun hlt => hnone p (hlen ▸ hlt) hcut⟩

end First

end SlicesLemmas

/-- The first slice of a content that is long enough is as long as it is meant to be if and only
if the checksum does not ask for a cut between the size any slice has and this one. -/
theorem first_slice_long_iff (f : SrcFile) {maxRead : Nat} (hmax : f.unread.length < maxRead)
    (hlong : minFirstSliceSize < f.unread.length) :
    (∃ first, (rollsumSplit keepSlice f maxRead []).2.head? = some first ∧
        minFirstSliceSize ≤ first.length) ↔
      ∀ p, minSliceSize < p → p < minFirstSliceSize → ¬ WantsSplitAt f.unread p := by
  rw [rollsumSplit_keepSlice f hmax, le_head_contentSlices (Nat.le_of_lt hlong)]
  constructor
  · intro hnone p hmin hp hwants
    exact hnone p hp ⟨hmin, .inr hwants⟩
  · rintro hnone p hp ⟨hmin, hcut⟩
    rcases hcut with hlarge | hwants
    · exact absurd (Nat.lt_of_le_of_lt hlarge hp) (by decide)
    · exact hnone p hmin hp hwants

theorem first_slice_long_of_zeros :
    ∃ first, (rollsumSplit keepSlice ⟨List.replicate 262145 0, []⟩ 262146 []).2.head? =
      some first ∧ minFirstSliceSize ≤ first.length := by
  refine (first_slice_long_iff ⟨List.replicate 262145 0, []⟩
    (by rw [List.length_replicate]; decide) (by rw [List.length_replicate]; decide)).mpr ?_
  intro p _ _ hwants
  have hsum := rollingSum_replicate_zero (min (p + 1) 262145) []
  rw [List.append_nil] at hsum
  rw [WantsSplitAt, List.take_replicate, hsum] at hwants
  exact absurd hwants (by decide)

/-- Some bytes at the start, and some at the first place where a slice may end. -/
def earlyContent : Bytes :=
  List.replicate 16 255 ++ (List.replicate 65518 0 ++ ([255, 0, 0, 3] ++ List.replicate 200000 0))

namespace SlicesLemmas

theorem length_earlyContent : earlyContent.length = 265538 := by
  rw [earlyContent, List.length_append, List.length_append, List.length_append,
    List.length_replicate, List.length_replicate, List.length_replicate]
  rfl

theorem earlyContent_wantsSplit : WantsSplitAt earlyContent 65537 := by
  have htake : earlyContent.take (65537 + 1) =
      List.replicate 16 255 ++ (List.replicate 65518 0 ++ [255, 0, 0, 3]) := by
    rw [earlyContent, ← List.append_assoc (List.replicate 65518 0), ← List.append_assoc]
    refine List.take_left' ?_
    rw [List.length_append, List.length_append, List.length_replicate, List.length_replicate]
    rfl
  have hlen : splitWindowSize ≤ (List.replicate 65518 (0 : UInt8) ++ [255, 0, 0, 3]).length := by
    rw [List.length_append, List.length_replicate]
    exact Nat.le_add_right_of_le (by decide)
  rw [WantsSplitAt, htake, rollingSum_append hlen, rollingSum_replicate_zero]
  decide

end SlicesLemmas

/-- A content whose first slice is shorter than it is meant to be. -/
theorem first_slice_short :
    minFirstSliceSize < earlyContent.length ∧
      ¬ ∃ first, (rollsumSplit keepSlice ⟨earlyContent, []⟩ (2 ^ 64 - 1) []).2.head? = some first ∧
        minFirstSliceSize ≤ first.length := by
  have hlong : minFirstSliceSize < earlyContent.length := by
    rw [length_earlyContent]
    decide
  have hmax : earlyContent.length < 2 ^ 64 - 1 := by
    rw [length_earlyContent]
    decide
  refine ⟨hlong, fun hfirst => ?_⟩
  rw [rollsumSplit_keepSlice ⟨earlyContent, []⟩ hmax] at hfirst
  dsimp only at hfirst
  have hnone := (le_head_contentSlices (Nat.le_of_lt hlong)).mp hfirst
  exact hnone 65537 (by decide) ⟨by decide, .inr earlyContent_wantsSplit⟩

end Everarch
