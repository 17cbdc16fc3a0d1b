import Everarch.Basic
import Everarch.Lib.Bytes
import Mathlib.Tactic.SplitIfs

/-!
# Splitting a file

`evr_rollsum_split` of files.c: a file is read into a buffer that grows and slides, and cut into
slices where a rolling checksum says so.

* `Rollsum`: the checksum of rollsum.h.
* `readFd`: `read_fd`, one read after the other.
* `rollsumSplit`: the loop, with a callback for each slice.

Result: `rollsum_split_spec`, what the callback is given in all.
-/

namespace Everarch

/-! ## The checksum -/

/-- `Rollsum`. Its parts are of the type `uint_fast16_t`, which has 64 bits. -/
structure Rollsum where
  count : UInt64
  s1 : UInt64
  s2 : UInt64

namespace Rollsum

/-- `RollsumInit`. -/
def init : Rollsum :=
  ⟨0, 0, 0⟩

/-- `RollsumRotate`. -/
def rotate (rs : Rollsum) (out in_ : UInt8) : Rollsum :=
  let s1 := rs.s1 + (in_.toUInt64 - out.toUInt64)
  { rs with s1 := s1, s2 := rs.s2 + (s1 - rs.count * (out.toUInt64 + 31)) }

/-- `avg_slice_size`. -/
def avgSliceSize : UInt64 := 0x40000

/-- `evr_want_split`. -/
def wantSplit (rs : Rollsum) : Bool :=
  (rs.s2 &&& (avgSliceSize - 1)) == avgSliceSize - 1

end Rollsum

/-- `evr_split_window_size`. -/
def splitWindowSize : Nat := 64

/-- `min_slice_size`. -/
def minSliceSize : Nat := 64 * 2 ^ 10

/-- `max_slice_size`. -/
def maxSliceSize : Nat := 10 * 2 ^ 20

/-! ## Reading -/

/-- A file that is read. Each call of `read` returns as many bytes as the next of `chunks` says. -/
structure SrcFile where
  unread : Bytes
  chunks : List Nat

/-- `read`: some bytes, at most `count`. None means the end of the file, or that `count` is zero. -/
def SrcFile.read (f : SrcFile) (count : Nat) : Bytes × SrcFile :=
  let nbytes := min count (max 1 (f.chunks.headD count))
  (f.unread.take nbytes, ⟨f.unread.drop nbytes, f.chunks.tail⟩)

/-- `struct dynamic_array`, with the bytes in use. -/
structure DynamicArray where
  data : Bytes
  sizeAllocated : Nat

/-- `grow_dynamic_array`. -/
def DynamicArray.grow (a : DynamicArray) : DynamicArray :=
  { a with sizeAllocated := a.sizeAllocated * 3 / 2 + 1 }

/-- What the loops do with an array that is full. -/
def DynamicArray.growIfFull (a : DynamicArray) : DynamicArray :=
  if a.sizeAllocated = a.data.length then a.grow else a

/-- The loop of `read_fd`. -/
def readFdLoop (maxSize : Nat) :
    Nat → Nat → DynamicArray → SrcFile → Res × DynamicArray × SrcFile
  | 0, _, buffer, f => (.error, buffer, f)
  | fuel + 1, totalRead, buffer, f =>
    let buffer := buffer.growIfFull
    let maxRead := min maxSize (buffer.sizeAllocated - buffer.data.length)
    let (data, f) := f.read maxRead
    if data.length = 0 then (.end_, buffer, f)
    else
      let buffer := { buffer with data := buffer.data ++ data }
      if totalRead + data.length = maxSize then (.ok, buffer, f)
      else readFdLoop maxSize fuel (totalRead + data.length) buffer f

/-- `read_fd`. Each round but the last reads one byte or more. -/
def readFd (buffer : DynamicArray) (f : SrcFile) (maxSize : Nat) : Res × DynamicArray × SrcFile :=
  readFdLoop maxSize (f.unread.length + 1) 0 buffer f

/-! ## The loop -/

/-- What the loop over the bytes of the buffer changes. `slice` gets the bytes from the start of
the slice on and its size. -/
structure SplitScan (σ : Type) where
  rs : Rollsum
  window : Nat → UInt8
  windowPos : Nat
  nextSliceStart : Nat
  ctx : σ

section Split

variable {σ : Type} (slice : σ → Bytes → Nat → Option σ)

/-- One round of the loop over the bytes of the buffer. -/
def scanByte (data : Bytes) (scan : SplitScan σ) (p : Nat) : Option (SplitScan σ) :=
  let b := data.getD p 0
  let scan := { scan with
    rs := scan.rs.rotate (scan.window scan.windowPos) b
    window := Function.update scan.window scan.windowPos b
    windowPos := (scan.windowPos + 1) % splitWindowSize }
  let sliceSize := p - scan.nextSliceStart
  if minSliceSize < sliceSize ∧ (maxSliceSize ≤ sliceSize ∨ scan.rs.wantSplit) then
    if 0 < sliceSize then
      match slice scan.ctx (data.drop scan.nextSliceStart) sliceSize with
      | none => none
      | some ctx => some { scan with nextSliceStart := p, ctx := ctx }
    else some scan
  else some scan

/-- The loop of `evr_rollsum_split`. -/
def splitLoop : Nat → Nat → DynamicArray → SplitScan σ → SrcFile → Res × σ
  | 0, _, _, scan, _ => (.error, scan.ctx)
  | fuel + 1, maxRead, buf, scan, f =>
    let buf := buf.growIfFull
    let splitTestStart := buf.data.length
    let wantRead := min maxRead buf.sizeAllocated - buf.data.length
    let (readRes, buf, f) := readFd buf f wantRead
    if readRes ≠ .ok ∧ readRes ≠ .end_ then (.error, scan.ctx)
    else
      match (List.range' splitTestStart (buf.data.length - splitTestStart)).foldlM
          (scanByte slice buf.data) { scan with nextSliceStart := 0 } with
      | none => (.error, scan.ctx)
      | some scan =>
        -- without a new slice this changes nothing
        let buf := { buf with data := buf.data.drop scan.nextSliceStart }
        let maxRead := maxRead - scan.nextSliceStart
        if readRes = .end_ ∨ buf.data.length = maxRead then
          match slice scan.ctx buf.data buf.data.length with
          | none => (.error, scan.ctx)
          | some ctx => (if readRes = .end_ then .end_ else .ok, ctx)
        else splitLoop fuel maxRead buf scan f

/-- `evr_rollsum_split`. Each round but the last reads one byte or more. -/
def rollsumSplit (f : SrcFile) (maxRead : Nat) (ctx : σ) : Res × σ :=
  splitLoop slice (f.unread.length + 1) maxRead ⟨[], 2 ^ 20⟩
    ⟨Rollsum.init, fun _ => 0, 0, 0, ctx⟩ f

end Split

namespace SplitterLemmas

/-! ## Reading -/

section Reading

variable {buffer : DynamicArray} {f : SrcFile}

theorem read_eq (f : SrcFile) (count : Nat) :
    (f.read count).1 ++ (f.read count).2.unread = f.unread :=
  List.take_append_drop _ _

theorem length_read_le (f : SrcFile) (count : Nat) : (f.read count).1.length ≤ count :=
  (List.length_take_le _ _).trans (Nat.min_le_left _ _)

theorem read_pos {count : Nat} (hcount : 0 < count) (hunread : f.unread ≠ []) :
    0 < (f.read count).1.length := by
  have hlen := List.length_pos_iff.mpr hunread
  show 0 < (f.unread.take _).length
  rw [List.length_take]
  omega

@[simp] theorem data_growIfFull (a : DynamicArray) : a.growIfFull.data = a.data := by
  unfold DynamicArray.growIfFull
  split_ifs
  · rfl
  · rfl

/-- There is room behind the bytes in use. -/
theorem growIfFull_room (h : buffer.data.length ≤ buffer.sizeAllocated) :
    buffer.data.length < buffer.growIfFull.sizeAllocated := by
  unfold DynamicArray.growIfFull
  split_ifs with hfull
  · show _ < buffer.sizeAllocated * 3 / 2 + 1
    omega
  · omega

/-- What was read stands behind what was there, and at the end of the file nothing is left. -/
structure ReadOn (buffer : DynamicArray) (f : SrcFile) (r : Res × DynamicArray × SrcFile) :
    Prop where
  data : ∃ more, r.2.1.data = buffer.data ++ more ∧ more ++ r.2.2.unread = f.unread
  fits : r.2.1.data.length ≤ r.2.1.sizeAllocated
  res : r.1 = .ok ∧ r.2.2.unread.length < f.unread.length ∨ r.1 = .end_ ∧ r.2.2.unread = []

theorem readFdLoop_spec {maxSize fuel totalRead : Nat} (hmax : 0 < maxSize)
    (hfits : buffer.data.length ≤ buffer.sizeAllocated) (hfuel : f.unread.length < fuel) :
    ReadOn buffer f (readFdLoop maxSize fuel totalRead buffer f) := by
  induction fuel generalizing totalRead buffer f with
  | zero => exact absurd hfuel (Nat.not_lt_zero _)
  | succ fuel ih =>
    have hroom := growIfFull_room hfits
    rw [readFdLoop]
    dsimp only
    rw [data_growIfFull]
    have hcount : 0 < min maxSize (buffer.growIfFull.sizeAllocated - buffer.data.length) :=
      Nat.lt_min.mpr ⟨hmax, Nat.sub_pos_of_lt hroom⟩
    have hle :=
      length_read_le f (min maxSize (buffer.growIfFull.sizeAllocated - buffer.data.length))
    have hsplit := read_eq f (min maxSize (buffer.growIfFull.sizeAllocated - buffer.data.length))
    have hpos := read_pos (f := f) hcount
    generalize f.read (min maxSize (buffer.growIfFull.sizeAllocated - buffer.data.length)) = r
      at hle hsplit hpos ⊢
    obtain ⟨data, f'⟩ := r
    dsimp only at hle hsplit hpos ⊢
    have hlen := congrArg List.length hsplit
    rw [List.length_append] at hlen
    split_ifs with hnone htotal
    · have hunread : f.unread = [] := by
        by_contra hne
        exact absurd hnone (Nat.ne_of_gt (hpos hne))
      have hnil : data = [] ∧ f'.unread = [] := List.append_eq_nil_iff.mp (hsplit.trans hunread)
      refine ⟨⟨[], ?_, ?_⟩, ?_, .inr ⟨rfl, hnil.2⟩⟩
      · rw [data_growIfFull, List.append_nil]
      · rw [hunread, hnil.2, List.append_nil]
      · rw [data_growIfFull]
        exact Nat.le_of_lt hroom
    · refine ⟨⟨data, rfl, hsplit⟩, ?_, .inl ⟨rfl, show f'.unread.length < _ by omega⟩⟩
      rw [List.length_append]
      show _ ≤ buffer.growIfFull.sizeAllocated
      omega
    · have hread : (buffer.data ++ data).length ≤ buffer.growIfFull.sizeAllocated := by
        rw [List.length_append]
        omega
      have hnext : ReadOn ⟨buffer.data ++ data, buffer.growIfFull.sizeAllocated⟩ f'
          (readFdLoop maxSize fuel (totalRead + data.length)
            ⟨buffer.data ++ data, buffer.growIfFull.sizeAllocated⟩ f') := ih hread (by omega)
      obtain ⟨⟨more, hmore, hrest⟩, hfits', hres⟩ := hnext
      refine ⟨⟨data ++ more, ?_, ?_⟩, hfits', ?_⟩
      · rw [hmore, List.append_assoc]
      · rw [List.append_assoc, hrest, hsplit]
      · exact hres.imp_left fun h => ⟨h.1, by omega⟩

end Reading

/-! ## Slices -/

section Slices

variable {σ : Type} {slice : σ → Bytes → Nat → Option σ}

/-- A callback that takes slices up to the largest one. `Given given ctx` says what it was given so
far. -/
structure Takes (slice : σ → Bytes → Nat → Option σ) (Given : Bytes → σ → Prop) : Prop where
  takes : ∀ given ctx mem size, Given given ctx → size ≤ mem.length → size ≤ maxSliceSize →
    ∃ ctx', slice ctx mem size = some ctx' ∧ Given (given ++ mem.take size) ctx'

variable {Given : Bytes → σ → Prop} {given data : Bytes} {scan : SplitScan σ} {p : Nat}

/-- The scan is at `p`, and what is in front of the current slice was given away. -/
structure ScanAt (Given : Bytes → σ → Prop) (given data : Bytes) (scan : SplitScan σ) (p : Nat) :
    Prop where
  start_le : scan.nextSliceStart ≤ p
  small : p - scan.nextSliceStart ≤ maxSliceSize
  given : Given (given ++ data.take scan.nextSliceStart) scan.ctx

theorem scanByte_spec (hslice : Takes slice Given) (h : ScanAt Given given data scan p)
    (hp : p < data.length) :
    ∃ scan', scanByte slice data scan p = some scan' ∧ ScanAt Given given data scan' (p + 1) := by
  obtain ⟨hstart, hsmall, hgiven⟩ := h
  unfold scanByte
  dsimp only
  split_ifs with hcut hsome
  · have hmem : p - scan.nextSliceStart ≤ (data.drop scan.nextSliceStart).length := by
      rw [List.length_drop]
      omega
    obtain ⟨ctx', htaken, hgiven'⟩ := hslice.takes _ _ _ _ hgiven hmem hsmall
    rw [htaken]
    refine ⟨_, rfl, Nat.le_succ p, ?_, ?_⟩
    · rw [Nat.add_sub_cancel_left]
      decide
    · have htake : data.take scan.nextSliceStart ++
          (data.drop scan.nextSliceStart).take (p - scan.nextSliceStart) = data.take p := by
        rw [← List.take_add, Nat.add_sub_cancel' hstart]
      rwa [List.append_assoc, htake] at hgiven'
  · exact absurd (Nat.lt_of_le_of_lt (Nat.zero_le _) hcut.1) hsome
  · have hless : p - scan.nextSliceStart < maxSliceSize := by
      refine Nat.lt_of_not_le fun hmax => hcut ⟨Nat.lt_of_lt_of_le ?_ hmax, .inl hmax⟩
      decide
    exact ⟨_, rfl, Nat.le_succ_of_le hstart, by dsimp only; omega, hgiven⟩

/-- What carries an invariant of the scan, `At given data scan p`, through the loop. `given` is what
was given away before the bytes of the buffer, and `Done` is what it comes to. -/
structure ScanRule (slice : σ → Bytes → Nat → Option σ)
    (At : Bytes → Bytes → SplitScan σ → Nat → Prop) (Done : Bytes → σ → Prop) : Prop where
  start_le : ∀ given data scan p, At given data scan p → scan.nextSliceStart ≤ p
  small : ∀ given data scan p, At given data scan p → p - scan.nextSliceStart ≤ maxSliceSize
  byte : ∀ given data scan p, At given data scan p → p < data.length →
    ∃ scan', scanByte slice data scan p = some scan' ∧ At given data scan' (p + 1)
  more : ∀ given data more scan, At given data scan data.length →
    At given (data ++ more) scan data.length
  slide : ∀ given data scan, At given data scan data.length →
    At (given ++ data.take scan.nextSliceStart) (data.drop scan.nextSliceStart)
      { scan with nextSliceStart := 0 } (data.length - scan.nextSliceStart)
  flush : ∀ given data scan, At given data scan data.length →
    ∃ ctx', slice scan.ctx (data.drop scan.nextSliceStart)
      (data.drop scan.nextSliceStart).length = some ctx' ∧ Done (given ++ data) ctx'

variable {At : Bytes → Bytes → SplitScan σ → Nat → Prop} {Done : Bytes → σ → Prop}

/-- The loop over the bytes that were read. -/
theorem scanBytes_spec (hrule : ScanRule slice At Done) (n : Nat) (h : At given data scan p)
    (hn : p + n ≤ data.length) :
    ∃ scan', (List.range' p n).foldlM (scanByte slice data) scan = some scan' ∧
      At given data scan' (p + n) := by
  induction n generalizing scan p with
  | zero => exact ⟨scan, rfl, h⟩
  | succ n ih =>
    obtain ⟨scan', hbyte, hat⟩ := hrule.byte _ _ _ _ h (by omega)
    obtain ⟨scan'', hrest, hat'⟩ := ih hat (by omega)
    refine ⟨scan'', ?_, ?_⟩
    · rw [List.range'_succ, List.foldlM_cons, hbyte]
      exact hrest
    · rwa [Nat.add_assoc, Nat.add_comm 1 n] at hat'

/-- The loop ends at the end of the file, and has given away all of it. -/
theorem splitLoop_spec (hrule : ScanRule slice At Done) {fuel maxRead : Nat} {buf : DynamicArray}
    {f : SrcFile} (hat : At given buf.data { scan with nextSliceStart := 0 } buf.data.length)
    (hfits : buf.data.length ≤ buf.sizeAllocated)
    (hmax : buf.data.length + f.unread.length < maxRead) (hfuel : f.unread.length < fuel) :
    ∃ ctx', splitLoop slice fuel maxRead buf scan f = (.end_, ctx') ∧
      Done (given ++ (buf.data ++ f.unread)) ctx' := by
  induction fuel generalizing given scan maxRead buf f with
  | zero => exact absurd hfuel (Nat.not_lt_zero _)
  | succ fuel ih =>
    have hroom := growIfFull_room hfits
    rw [splitLoop]
    dsimp only
    rw [data_growIfFull]
    have hwant : 0 < min maxRead buf.growIfFull.sizeAllocated - buf.data.length := by omega
    have hread : ReadOn buf.growIfFull f (readFd buf.growIfFull f
        (min maxRead buf.growIfFull.sizeAllocated - buf.data.length)) :=
      readFdLoop_spec hwant (by rw [data_growIfFull]; exact Nat.le_of_lt hroom) (Nat.lt_succ_self _)
    generalize readFd buf.growIfFull f
      (min maxRead buf.growIfFull.sizeAllocated - buf.data.length) = r at hread ⊢
    obtain ⟨res, buf', f'⟩ := r
    obtain ⟨⟨more, hdata, hmore⟩, hfits', hres⟩ := hread
    dsimp only at hdata hmore hfits' hres ⊢
    rw [data_growIfFull] at hdata
    have hall : buf'.data ++ f'.unread = buf.data ++ f.unread := by
      rw [hdata, List.append_assoc, hmore]
    have hlen := congrArg List.length hall
    have hlen' := congrArg List.length hdata
    rw [List.length_append, List.length_append] at hlen
    rw [List.length_append] at hlen'
    have hstart : At given buf'.data { scan with nextSliceStart := 0 } buf.data.length :=
      hdata ▸ hrule.more given buf.data more _ hat
    obtain ⟨scan', hscan, hat'⟩ :=
      scanBytes_spec hrule (buf'.data.length - buf.data.length) hstart (by omega)
    rw [Nat.add_sub_cancel' (by omega)] at hat'
    have hnext := hrule.start_le _ _ _ _ hat'
    rw [if_neg (by rcases hres with ⟨rfl, -⟩ | ⟨rfl, -⟩ <;> decide), hscan]
    dsimp only
    rcases hres with ⟨rfl, hless⟩ | ⟨rfl, hnone⟩
    · rw [if_neg (by rw [List.length_drop]; rintro (h | h); cases h; omega)]
      have hslid := hrule.slide _ _ _ hat'
      rw [← List.length_drop] at hslid
      have hagain : ∃ ctx', splitLoop slice fuel (maxRead - scan'.nextSliceStart)
          ⟨buf'.data.drop scan'.nextSliceStart, buf'.sizeAllocated⟩ scan' f' = (.end_, ctx') ∧
            Done (given ++ buf'.data.take scan'.nextSliceStart ++
              (buf'.data.drop scan'.nextSliceStart ++ f'.unread)) ctx' :=
        ih hslid (by rw [List.length_drop]; dsimp only; omega) (by rw [List.length_drop]; omega)
          (by omega)
      obtain ⟨ctx', hloop, hdone⟩ := hagain
      refine ⟨ctx', hloop, ?_⟩
      rw [List.append_assoc, ← List.append_assoc _ _ f'.unread, List.take_append_drop, hall]
        at hdone
      exact hdone
    · rw [if_pos (.inl rfl)]
      obtain ⟨ctx', hflush, hdone⟩ := hrule.flush _ _ _ hat'
      rw [hflush]
      refine ⟨ctx', rfl, ?_⟩
      rw [hnone, List.append_nil] at hall
      rwa [hall] at hdone

/-- What the callback was given so far is such an invariant. -/
theorem scanRule_takes (hslice : Takes slice Given) :
    ScanRule slice (ScanAt Given) Given where
  start_le _ _ _ _ h := h.start_le
  small _ _ _ _ h := h.small
  byte _ _ _ _ h hp := scanByte_spec hslice h hp
  more _ data more scan h := by
    refine ⟨h.start_le, h.small, ?_⟩
    rw [List.take_append_of_le_length h.start_le]
    exact h.given
  slide _ data scan h := by
    refine ⟨Nat.zero_le _, h.small, ?_⟩
    rw [List.take_zero, List.append_nil]
    exact h.given
  flush _ data scan h := by
    obtain ⟨ctx', hflush, hgiven⟩ := hslice.takes _ scan.ctx (data.drop scan.nextSliceStart) _
      h.given (Nat.le_refl _) (by rw [List.length_drop]; exact h.small)
    refine ⟨ctx', hflush, ?_⟩
    rwa [List.take_length, List.append_assoc, List.take_append_drop] at hgiven

end Slices

end SplitterLemmas

open SplitterLemmas

/-- A file of fewer bytes than may be read is given to the callback as a whole. -/
theorem rollsum_split_spec {σ : Type} {slice : σ → Bytes → Nat → Option σ}
    {Given : Bytes → σ → Prop} (hslice : Takes slice Given) {ctx : σ} (hctx : Given [] ctx)
    (f : SrcFile) {maxRead : Nat} (hmax : f.unread.length < maxRead) :
    ∃ ctx', rollsumSplit slice f maxRead ctx = (.end_, ctx') ∧ Given f.unread ctx' := by
  have hstart : ScanAt Given [] [] ⟨Rollsum.init, fun _ => 0, 0, 0, ctx⟩ 0 :=
    ⟨Nat.le_refl _, Nat.zero_le _, hctx⟩
  have h : ∃ ctx', rollsumSplit slice f maxRead ctx = (.end_, ctx') ∧
      Given ([] ++ ([] ++ f.unread)) ctx' :=
    splitLoop_spec (scanRule_takes hslice) hstart (Nat.zero_le _) (by simpa using hmax)
      (Nat.lt_succ_self _)
  exact h

end Everarch
