import Everarch.Cli.Splitter
import Mathlib.Logic.Function.Iterate
import Mathlib.Order.WellFounded

/-!
# Bounded reading

`read_fd` is to append `max_size` bytes and no more. Each of its reads may take `max_size` bytes
though, and not only those that are missing, so that it can step over the limit and then reads on
to the end of the file.

* `MeetsLimit`: the file is not longer than the limit, or the array is full at the limit, or the
  short reads add up to it.
* `NeverOver`: no read answers more than is missing.
* `reads_bounded_iff`: `read_fd` keeps to the limit exactly if `MeetsLimit`.
* `read_fd_oversteps`: an input where it does not.
-/

namespace Everarch

/-! ## When the limit is met -/

/-- The size of an array that was grown `n` times. -/
def DynamicArray.capacity (a : DynamicArray) : Nat → Nat
  | 0 => a.sizeAllocated
  | n + 1 => a.capacity n * 3 / 2 + 1

/-- The bytes that fill the array `n` times. One that is full is grown before the first read. -/
def DynamicArray.spaceUpTo (buffer : DynamicArray) : Nat → Nat
  | 0 => 0
  | n + 1 => buffer.growIfFull.capacity n - buffer.data.length

/-- The short reads that are left behind `n` bytes. The last one that is needed for these may
have less room than it would answer. -/
def chunksBehind : Nat → List Nat → List Nat
  | _, [] => []
  | n, c :: chunks =>
    if n = 0 then c :: chunks
    else if n ≤ max 1 c then chunks
    else chunksBehind (n - max 1 c) chunks

/-- The short reads that are left when the array has been filled `n` times. -/
def DynamicArray.chunksAt (buffer : DynamicArray) (chunks : List Nat) : Nat → List Nat
  | 0 => chunks
  | n + 1 =>
    chunksBehind (buffer.spaceUpTo (n + 1) - buffer.spaceUpTo n) (buffer.chunksAt chunks n)

/-- The first short reads are `n` bytes together. -/
def AddUpTo : Nat → List Nat → Prop
  | n, [] => n = 0
  | n, c :: chunks => n = 0 ∨ max 1 c ≤ n ∧ AddUpTo (n - max 1 c) chunks

/-- The file has no bytes behind the limit, or when the limit is within the space of an array
that was filled `n` times, then the short reads from there on add up to what is missing. The first
read of all asks for no more than the limit. -/
def MeetsLimit (buffer : DynamicArray) (f : SrcFile) (maxSize : Nat) : Prop :=
  f.unread.length ≤ maxSize ∨
    ∀ n, buffer.spaceUpTo n < maxSize → maxSize < buffer.spaceUpTo (n + 1) →
      AddUpTo (maxSize - buffer.spaceUpTo n) (buffer.chunksAt f.chunks n) ∨
        n = 0 ∧ maxSize ≤ f.chunks.headD maxSize

/-! ## The reads of the loop -/

/-- What `read_fd` knows in front of a read. -/
structure ReadState where
  totalRead : Nat
  buffer : DynamicArray
  file : SrcFile

/-- The bytes that the next read of `read_fd` asks for. -/
def ReadState.maxRead (s : ReadState) (maxSize : Nat) : Nat :=
  min maxSize (s.buffer.growIfFull.sizeAllocated - s.buffer.data.length)

/-- The bytes that the file answers to it. -/
def ReadState.answer (s : ReadState) (maxSize : Nat) : Bytes :=
  (s.file.read (s.maxRead maxSize)).1

/-- The state behind a read, whatever its answer is. -/
def ReadState.next (maxSize : Nat) (s : ReadState) : ReadState where
  totalRead := s.totalRead + (s.answer maxSize).length
  buffer := { s.buffer.growIfFull with data := s.buffer.data ++ s.answer maxSize }
  file := (s.file.read (s.maxRead maxSize)).2

/-- No read, in front of which bytes are missing, answers more than are missing. The proofs go
by this, `neverOver_iff_meetsLimit` says when it is so. -/
def NeverOver (maxSize : Nat) (s : ReadState) : Prop :=
  ∀ k, (((ReadState.next maxSize)^[k]) s).totalRead < maxSize →
    (((ReadState.next maxSize)^[k]) s).totalRead +
      ((((ReadState.next maxSize)^[k]) s).answer maxSize).length ≤ maxSize

/-- What `read_fd` is to do: it appends the next bytes, `max_size` of them at most, and tells
whether these were all. -/
def ReadsBounded (buffer : DynamicArray) (f : SrcFile) (maxSize : Nat) : Prop :=
  ∃ more, (readFd buffer f maxSize).2.1.data = buffer.data ++ more ∧
    more ++ (readFd buffer f maxSize).2.2.unread = f.unread ∧ more.length ≤ maxSize ∧
    ((readFd buffer f maxSize).1 = .ok ↔ more.length = maxSize) ∧
    ((readFd buffer f maxSize).1 = .end_ ↔ f.unread.length < maxSize)

namespace BoundedReadLemmas

open SplitterLemmas

section Step

variable {maxSize : Nat} {s : ReadState}

/-- One round of the loop. -/
theorem readFdLoop_next (maxSize fuel : Nat) (s : ReadState) :
    readFdLoop maxSize (fuel + 1) s.totalRead s.buffer s.file =
      if (s.answer maxSize).length = 0 then
        (.end_, s.buffer.growIfFull, (s.next maxSize).file)
      else if (s.next maxSize).totalRead = maxSize then
        (.ok, (s.next maxSize).buffer, (s.next maxSize).file)
      else readFdLoop maxSize fuel (s.next maxSize).totalRead (s.next maxSize).buffer
        (s.next maxSize).file := by
  rw [readFdLoop]
  dsimp only
  rw [data_growIfFull]
  rfl

theorem length_answer (maxSize : Nat) (s : ReadState) :
    (s.answer maxSize).length + (s.next maxSize).file.unread.length = s.file.unread.length := by
  rw [← List.length_append]
  exact congrArg List.length (read_eq s.file (s.maxRead maxSize))

theorem next_fits (hfits : s.buffer.data.length ≤ s.buffer.sizeAllocated) :
    (s.next maxSize).buffer.data.length ≤ (s.next maxSize).buffer.sizeAllocated := by
  have hroom := growIfFull_room hfits
  have hle : (s.answer maxSize).length ≤ s.maxRead maxSize := length_read_le _ _
  show (s.buffer.data ++ s.answer maxSize).length ≤ s.buffer.growIfFull.sizeAllocated
  rw [List.length_append]
  unfold ReadState.maxRead at hle
  omega

/-- Only at the end of the file nothing is read. -/
theorem answer_pos (hmax : 0 < maxSize) (hfits : s.buffer.data.length ≤ s.buffer.sizeAllocated)
    (hunread : s.file.unread ≠ []) : 0 < (s.answer maxSize).length := by
  have hroom := growIfFull_room hfits
  exact read_pos (Nat.lt_min.mpr ⟨hmax, Nat.sub_pos_of_lt hroom⟩) hunread

theorem neverOver_iff : NeverOver maxSize s ↔
    (s.totalRead < maxSize → (s.next maxSize).totalRead ≤ maxSize) ∧
      NeverOver maxSize (s.next maxSize) := by
  constructor
  · exact fun h => ⟨h 0, fun k => h (k + 1)⟩
  · rintro ⟨hfirst, hrest⟩ k
    cases k with
    | zero => exact hfirst
    | succ k => exact hrest k

theorem neverOver_of_le (hle : s.totalRead + s.file.unread.length ≤ maxSize) :
    NeverOver maxSize s := by
  intro k _
  have hlen : ∀ (k : Nat) (s : ReadState), ((ReadState.next maxSize)^[k] s).totalRead +
      ((ReadState.next maxSize)^[k] s).file.unread.length =
        s.totalRead + s.file.unread.length := by
    intro k
    induction k with
    | zero => exact fun s => rfl
    | succ k ih =>
      intro s
      have hnext := length_answer maxSize s
      rw [Function.iterate_succ_apply, ih]
      show s.totalRead + (s.answer maxSize).length + _ = _
      omega
  have hk := hlen k s
  have hanswer := length_answer maxSize ((ReadState.next maxSize)^[k] s)
  omega

/-- At the limit nothing is missing any more. -/
theorem neverOver_of_met (hmet : maxSize ≤ s.totalRead) : NeverOver maxSize s := by
  intro k hk
  have hle : ∀ k, maxSize ≤ ((ReadState.next maxSize)^[k] s).totalRead := by
    intro k
    induction k with
    | zero => exact hmet
    | succ k ihk =>
      rw [Function.iterate_succ_apply']
      exact ihk.trans (Nat.le_add_right _ _)
  exact absurd (hle k) (Nat.not_le.mpr hk)

/-- A read that does not step over the limit. -/
theorem neverOver_next (hle : s.totalRead + (s.answer maxSize).length ≤ maxSize) :
    NeverOver maxSize s ↔ NeverOver maxSize (s.next maxSize) :=
  neverOver_iff.trans (and_iff_right fun _ => hle)

/-- A read that steps over it. -/
theorem not_neverOver (hmissing : s.totalRead < maxSize)
    (hover : maxSize < s.totalRead + (s.answer maxSize).length) : ¬ NeverOver maxSize s :=
  fun h => absurd ((neverOver_iff.mp h).1 hmissing) (Nat.not_le.mpr hover)

theorem length_answer_eq (maxSize : Nat) (s : ReadState) : (s.answer maxSize).length =
    min (min (s.maxRead maxSize) (max 1 (s.file.chunks.headD (s.maxRead maxSize))))
      s.file.unread.length :=
  List.length_take

end Step

/-! ## The short reads -/

section Chunks

variable {maxSize : Nat} {s : ReadState}

theorem growIfFull_of_lt {a : DynamicArray} (h : a.data.length < a.sizeAllocated) :
    a.growIfFull = a :=
  if_neg (Nat.ne_of_gt h)

/-- `d` bytes of space behind those in use, of which all are asked for. -/
structure HasSpace (s : ReadState) (d : Nat) : Prop where
  pos : 0 < d
  space : s.buffer.data.length + d = s.buffer.growIfFull.sizeAllocated

theorem HasSpace.maxRead {d : Nat} (h : HasSpace s d) : s.maxRead maxSize = min maxSize d := by
  unfold ReadState.maxRead
  rw [← h.space, Nat.add_sub_cancel_left]

theorem length_next (s : ReadState) : (s.next maxSize).buffer.data.length =
    s.buffer.data.length + (s.answer maxSize).length :=
  List.length_append

/-- A read that does not fill the array does not make it grow. -/
theorem HasSpace.size_next {d : Nat} (h : HasSpace s d) (hless : (s.answer maxSize).length < d) :
    (s.next maxSize).buffer.growIfFull.sizeAllocated = s.buffer.growIfFull.sizeAllocated := by
  have hspace := h.space
  have hlen := @length_next maxSize s
  have hsize : (s.next maxSize).buffer.sizeAllocated = s.buffer.growIfFull.sizeAllocated := rfl
  rw [growIfFull_of_lt (by omega)]
  exact hsize

/-- The space that is left then. -/
theorem HasSpace.next {d : Nat} (h : HasSpace s d) (hless : (s.answer maxSize).length < d) :
    HasSpace (s.next maxSize) (d - (s.answer maxSize).length) := by
  have hspace := h.space
  have hlen := @length_next maxSize s
  refine ⟨Nat.sub_pos_of_lt hless, ?_⟩
  rw [h.size_next hless]
  omega

/-- The state when the space has been filled. -/
structure FilledTo (maxSize : Nat) (s : ReadState) (d : Nat) (s' : ReadState) : Prop where
  totalRead : s'.totalRead = s.totalRead + d
  used : s'.buffer.data.length = s.buffer.data.length + d
  size : s'.buffer.sizeAllocated = s.buffer.growIfFull.sizeAllocated
  chunks : s'.file.chunks = chunksBehind d s.file.chunks
  unread : s'.file.unread.length + d = s.file.unread.length
  neverOver : NeverOver maxSize s ↔ NeverOver maxSize s'

/-- The read that fills the array. -/
theorem filledTo_next {d : Nat} (hle : s.totalRead + d ≤ maxSize)
    (hanswer : (s.answer maxSize).length = d)
    (hchunks : s.file.chunks.tail = chunksBehind d s.file.chunks) :
    FilledTo maxSize s d (s.next maxSize) where
  totalRead := congrArg (s.totalRead + ·) hanswer
  used := by
    rw [← hanswer]
    exact length_next s
  size := rfl
  chunks := hchunks
  unread := by
    rw [← hanswer, Nat.add_comm]
    exact length_answer maxSize s
  neverOver := neverOver_next (hanswer.symm ▸ hle)

/-- An array that has no more space than is missing is filled before the limit is met. -/
theorem exists_filledTo {d : Nat} (h : HasSpace s d) (hle : s.totalRead + d ≤ maxSize)
    (hmore : maxSize < s.totalRead + s.file.unread.length) :
    ∃ s', FilledTo maxSize s d s' := by
  generalize hchunks : s.file.chunks = chunks
  induction chunks generalizing s d with
  | nil =>
    have hanswer := length_answer_eq maxSize s
    rw [h.maxRead, hchunks, List.headD_nil] at hanswer
    refine ⟨_, filledTo_next hle (by omega) ?_⟩
    rw [hchunks]
    rfl
  | cons c chunks ih =>
    have hpos := h.pos
    have hanswer := length_answer_eq maxSize s
    rw [h.maxRead, hchunks, List.headD_cons] at hanswer
    by_cases hlast : d ≤ max 1 c
    · refine ⟨_, filledTo_next hle (by omega) ?_⟩
      rw [hchunks, chunksBehind, if_neg (Nat.ne_of_gt hpos), if_pos hlast]
      rfl
    · have hgot : (s.answer maxSize).length = max 1 c := by omega
      have hless : (s.answer maxSize).length < d := by omega
      have hunread := length_answer maxSize s
      have hlen := @length_next maxSize s
      have htotal : (s.next maxSize).totalRead = s.totalRead + (s.answer maxSize).length := rfl
      have htail : (s.next maxSize).file.chunks = chunks := congrArg List.tail hchunks
      obtain ⟨s', hs'⟩ := ih (h.next hless) (by omega) (by omega) htail
      have htotal' := hs'.totalRead
      have hused' := hs'.used
      have hunread' := hs'.unread
      refine ⟨s', by omega, by omega, hs'.size.trans (h.size_next hless), ?_, by omega, ?_⟩
      · rw [hs'.chunks, htail, hchunks, chunksBehind, if_neg (Nat.ne_of_gt hpos), if_neg hlast,
          hgot]
      · exact (neverOver_next (by omega)).trans hs'.neverOver

/-- The next of the short reads answers no more than is missing. -/
theorem neverOver_cons {d c : Nat} {chunks : List Nat} (h : HasSpace s d)
    (hchunks : s.file.chunks = c :: chunks) (hle : s.totalRead + max 1 c ≤ maxSize)
    (hwithin : maxSize < s.totalRead + d)
    (hmore : maxSize < s.totalRead + s.file.unread.length)
    (hrest : ∀ s', HasSpace s' (d - max 1 c) → s'.totalRead = s.totalRead + max 1 c →
      s'.file.chunks = chunks →
      s'.file.unread.length + max 1 c = s.file.unread.length → s'.totalRead < maxSize →
      (NeverOver maxSize s' ↔ AddUpTo (maxSize - s'.totalRead) chunks)) :
    NeverOver maxSize s ↔ AddUpTo (maxSize - (s.totalRead + max 1 c)) chunks := by
  have hanswer := length_answer_eq maxSize s
  rw [h.maxRead, hchunks, List.headD_cons] at hanswer
  have hgot : (s.answer maxSize).length = max 1 c := by omega
  have htotal : (s.next maxSize).totalRead = s.totalRead + max 1 c :=
    congrArg (s.totalRead + ·) hgot
  rw [neverOver_next (by omega)]
  rcases Nat.eq_or_lt_of_le hle with hmet | hmissing
  · refine iff_of_true (neverOver_of_met (by omega)) ?_
    rw [hmet, Nat.sub_self]
    cases chunks with
    | nil => rfl
    | cons c' chunks => exact .inl rfl
  · have hunread := length_answer maxSize s
    have hspace : HasSpace (s.next maxSize) (d - (s.answer maxSize).length) :=
      h.next (by omega)
    rw [hgot] at hspace hunread
    rw [← htotal]
    exact hrest _ hspace htotal (congrArg List.tail hchunks) (by omega) (by omega)

/-- Within a space that reaches over the limit, once bytes have been read: a read may take more
than is missing. -/
theorem neverOver_iff_addUpTo {d : Nat} (h : HasSpace s d) (hstarted : 0 < s.totalRead)
    (hmissing : s.totalRead < maxSize) (hwithin : maxSize < s.totalRead + d)
    (hmore : maxSize < s.totalRead + s.file.unread.length) :
    NeverOver maxSize s ↔ AddUpTo (maxSize - s.totalRead) s.file.chunks := by
  generalize hchunks : s.file.chunks = chunks
  induction chunks generalizing s d with
  | nil =>
    have hanswer := length_answer_eq maxSize s
    rw [h.maxRead, hchunks, List.headD_nil] at hanswer
    exact iff_of_false (not_neverOver hmissing (by omega)) (Nat.sub_ne_zero_of_lt hmissing)
  | cons c chunks ih =>
    have hne : maxSize - s.totalRead ≠ 0 := Nat.sub_ne_zero_of_lt hmissing
    rw [AddUpTo, or_iff_right hne]
    by_cases hle : s.totalRead + max 1 c ≤ maxSize
    · rw [and_iff_right (by omega), Nat.sub_sub]
      exact neverOver_cons h hchunks hle hwithin hmore fun s' hspace htotal htail hunread hless =>
        ih hspace (by omega) hless (by omega) (by omega) htail
    · have hanswer := length_answer_eq maxSize s
      rw [h.maxRead, hchunks, List.headD_cons] at hanswer
      exact iff_of_false (not_neverOver hmissing (by omega)) fun hadd => absurd hadd.1 (by omega)

/-- At the start a read takes no more than the limit. -/
theorem neverOver_start {d : Nat} (h : HasSpace s d) (hstart : s.totalRead = 0)
    (hmax : 0 < maxSize) (hwithin : maxSize < d) (hmore : maxSize < s.file.unread.length) :
    NeverOver maxSize s ↔
      AddUpTo maxSize s.file.chunks ∨ maxSize ≤ s.file.chunks.headD maxSize := by
  have hanswer := length_answer_eq maxSize s
  rw [h.maxRead] at hanswer
  have hall (hgot : (s.answer maxSize).length = maxSize) : NeverOver maxSize s := by
    refine (neverOver_next (by omega)).mpr (neverOver_of_met ?_)
    show maxSize ≤ s.totalRead + (s.answer maxSize).length
    omega
  cases hchunks : s.file.chunks with
  | nil =>
    rw [hchunks, List.headD_nil] at hanswer
    exact iff_of_true (hall (by omega)) (.inr (Nat.le_refl _))
  | cons c chunks =>
    rw [hchunks, List.headD_cons] at hanswer
    rw [AddUpTo, or_iff_right (Nat.ne_of_gt hmax), List.headD_cons]
    by_cases hle : max 1 c ≤ maxSize
    · have hiff : NeverOver maxSize s ↔
          AddUpTo (maxSize - (s.totalRead + max 1 c)) chunks := by
        refine neverOver_cons h hchunks (by omega) (by omega) (by omega)
          fun s' hspace htotal htail hunread hless => ?_
        rw [← htail]
        exact neverOver_iff_addUpTo hspace (by omega) hless (by omega) (by omega)
      rw [hstart, Nat.zero_add] at hiff
      rw [and_iff_right hle, hiff]
      refine ⟨.inl, fun hadd => hadd.elim id fun hfull => ?_⟩
      rw [← hiff]
      exact hall (by omega)
    · exact iff_of_true (hall (by omega)) (.inr (by omega))

end Chunks

/-! ## The space -/

section Space

variable {buffer : DynamicArray} {f : SrcFile} {maxSize : Nat}

theorem capacity_le (a : DynamicArray) (n : Nat) : a.sizeAllocated ≤ a.capacity n := by
  induction n with
  | zero => exact Nat.le_refl _
  | succ n ih =>
    rw [DynamicArray.capacity]
    omega

theorem spaceUpTo_strictMono (hfits : buffer.data.length ≤ buffer.sizeAllocated) :
    StrictMono buffer.spaceUpTo := by
  have hroom := growIfFull_room hfits
  refine strictMono_nat_of_lt_succ fun n => ?_
  cases n with
  | zero => exact Nat.sub_pos_of_lt hroom
  | succ n =>
    have hle := capacity_le buffer.growIfFull n
    rw [DynamicArray.spaceUpTo, DynamicArray.spaceUpTo, DynamicArray.capacity]
    omega

/-- The space that the limit is in. -/
theorem exists_space (hfits : buffer.data.length ≤ buffer.sizeAllocated) (maxSize : Nat) :
    ∃ n, buffer.spaceUpTo n ≤ maxSize ∧ maxSize < buffer.spaceUpTo (n + 1) := by
  have hex : ∃ n, maxSize < buffer.spaceUpTo n :=
    ⟨maxSize + 1, StrictMono.le_apply (spaceUpTo_strictMono hfits)⟩
  have hspec := Nat.find_spec hex
  cases hn : Nat.find hex with
  | zero =>
    rw [hn] at hspec
    exact absurd hspec (Nat.not_lt_zero _)
  | succ n =>
    rw [hn] at hspec
    exact ⟨n, Nat.not_lt.mp (Nat.find_min hex (hn ▸ Nat.lt_add_one n)), hspec⟩

/-- The loop when it has filled the array `n` times. -/
structure Refilled (maxSize : Nat) (buffer : DynamicArray) (f : SrcFile) (n : Nat)
    (s : ReadState) : Prop where
  totalRead : s.totalRead = buffer.spaceUpTo n
  size : s.buffer.growIfFull.sizeAllocated = buffer.growIfFull.capacity n
  used : s.buffer.data.length = buffer.data.length + buffer.spaceUpTo n
  chunks : s.file.chunks = buffer.chunksAt f.chunks n
  unread : s.file.unread.length + buffer.spaceUpTo n = f.unread.length
  neverOver : NeverOver maxSize ⟨0, buffer, f⟩ ↔ NeverOver maxSize s

theorem hasSpace_of_refilled (hfits : buffer.data.length ≤ buffer.sizeAllocated) {n : Nat}
    {s : ReadState} (h : Refilled maxSize buffer f n s) :
    HasSpace s (buffer.spaceUpTo (n + 1) - buffer.spaceUpTo n) := by
  have hmono := spaceUpTo_strictMono hfits (Nat.lt_add_one n)
  have hsize := h.size
  have hused := h.used
  have hspace : buffer.spaceUpTo (n + 1) = buffer.growIfFull.capacity n - buffer.data.length := rfl
  exact ⟨Nat.sub_pos_of_lt hmono, by omega⟩

theorem exists_refilled (hfits : buffer.data.length ≤ buffer.sizeAllocated)
    (hmore : maxSize < f.unread.length) (n : Nat) (hle : buffer.spaceUpTo n ≤ maxSize) :
    ∃ s, Refilled maxSize buffer f n s := by
  induction n with
  | zero => exact ⟨⟨0, buffer, f⟩, rfl, rfl, rfl, rfl, rfl, Iff.rfl⟩
  | succ n ih =>
    have hmono := spaceUpTo_strictMono hfits (Nat.lt_add_one n)
    obtain ⟨s, hs⟩ := ih (by omega)
    have hspace := hasSpace_of_refilled hfits hs
    have htotal := hs.totalRead
    have hused := hs.used
    have hunread := hs.unread
    obtain ⟨s', hs'⟩ : ∃ s', FilledTo maxSize s _ s' :=
      exists_filledTo hspace (by omega) (by omega)
    have htotal' := hs'.totalRead
    have hused' := hs'.used
    have hunread' := hs'.unread
    have hsize' := hs'.size
    have hfull : s'.buffer.sizeAllocated = s'.buffer.data.length := by
      have h := hspace.space
      omega
    refine ⟨s', by omega, ?_, by omega, ?_, by omega, hs.neverOver.trans hs'.neverOver⟩
    · rw [DynamicArray.growIfFull, if_pos hfull, DynamicArray.grow, hsize', hs.size]
      rfl
    · rw [hs'.chunks, hs.chunks]
      rfl

/-- When no read steps over the limit. -/
theorem neverOver_iff_meetsLimit (hfits : buffer.data.length ≤ buffer.sizeAllocated)
    (hmax : 0 < maxSize) :
    NeverOver maxSize ⟨0, buffer, f⟩ ↔ MeetsLimit buffer f maxSize := by
  rcases Nat.lt_or_ge maxSize f.unread.length with hmore | hall
  · obtain ⟨n, hle, hlt⟩ := exists_space hfits maxSize
    obtain ⟨s, hs⟩ := exists_refilled hfits hmore n hle
    have hmono := (spaceUpTo_strictMono hfits).monotone
    -- it is the only space that the limit can be in
    have honly {n' : Nat} (hle' : buffer.spaceUpTo n' < maxSize)
        (hlt' : maxSize < buffer.spaceUpTo (n' + 1)) : n' = n := by
      rcases Nat.lt_trichotomy n' n with h | h | h
      · exact absurd (hlt'.trans_le ((hmono (Nat.succ_le_of_lt h)).trans hle)) (Nat.lt_irrefl _)
      · exact h
      · exact absurd (hlt.trans_le ((hmono (Nat.succ_le_of_lt h)).trans hle'.le))
          (Nat.lt_irrefl _)
    have htotal := hs.totalRead
    have hunread := hs.unread
    have hzero : buffer.spaceUpTo 0 = 0 := rfl
    rw [hs.neverOver, MeetsLimit, or_iff_right (Nat.not_le.mpr hmore)]
    rcases Nat.eq_or_lt_of_le hle with hmet | hmissing
    · refine iff_of_true (neverOver_of_met (by omega)) fun n' hle' hlt' => ?_
      rw [honly hle' hlt'] at hle'
      omega
    · have hspace := hasSpace_of_refilled hfits hs
      have hiff : NeverOver maxSize s ↔
          AddUpTo (maxSize - buffer.spaceUpTo n) (buffer.chunksAt f.chunks n) ∨
            n = 0 ∧ maxSize ≤ f.chunks.headD maxSize := by
        cases n with
        | zero =>
          rw [neverOver_start hspace htotal hmax (by omega) (by omega), hs.chunks, hzero,
            Nat.sub_zero, and_iff_right rfl]
          rfl
        | succ n =>
          have hpos := spaceUpTo_strictMono hfits (Nat.add_one_pos n)
          rw [neverOver_iff_addUpTo hspace (by omega) (by omega) (by omega) (by omega),
            htotal, hs.chunks, or_iff_left fun h => absurd h.1 (Nat.succ_ne_zero n)]
      rw [hiff]
      constructor
      · intro h n' hle' hlt'
        rwa [honly hle' hlt']
      · exact fun h => h n hmissing hlt
  · exact iff_of_true (neverOver_of_le (by dsimp only; omega)) (.inl hall)

end Space

section Loop

variable {maxSize fuel : Nat} {s : ReadState}

/-- Behind the limit it is never met. -/
theorem readFdLoop_over (hover : maxSize < s.totalRead) (hfuel : s.file.unread.length < fuel) :
    (readFdLoop maxSize fuel s.totalRead s.buffer s.file).1 = .end_ := by
  induction fuel generalizing s with
  | zero => exact absurd hfuel (Nat.not_lt_zero _)
  | succ fuel ih =>
    have hlen := length_answer maxSize s
    rw [readFdLoop_next]
    split_ifs with hnone htotal
    · rfl
    · have hle : s.totalRead ≤ (s.next maxSize).totalRead := Nat.le_add_right _ _
      omega
    · exact ih (Nat.lt_of_lt_of_le hover (Nat.le_add_right _ _)) (by omega)

/-- The bytes that were read until the loop ended. -/
def readInAll (s : ReadState) (r : Res × DynamicArray × SrcFile) : Nat :=
  s.totalRead + (s.file.unread.length - r.2.2.unread.length)

theorem readFdLoop_within (hmax : 0 < maxSize)
    (hfits : s.buffer.data.length ≤ s.buffer.sizeAllocated) (htotal : s.totalRead < maxSize)
    (hfuel : s.file.unread.length < fuel) (hnever : NeverOver maxSize s) :
    (readFdLoop maxSize fuel s.totalRead s.buffer s.file).1 = .ok ∧
        readInAll s (readFdLoop maxSize fuel s.totalRead s.buffer s.file) = maxSize ∨
      (readFdLoop maxSize fuel s.totalRead s.buffer s.file).1 = .end_ ∧
        s.totalRead + s.file.unread.length < maxSize := by
  induction fuel generalizing s with
  | zero => exact absurd hfuel (Nat.not_lt_zero _)
  | succ fuel ih =>
    have hlen := length_answer maxSize s
    have hnext : (s.next maxSize).totalRead = s.totalRead + (s.answer maxSize).length := rfl
    obtain ⟨hfirst, hrest⟩ := neverOver_iff.mp hnever
    rw [readFdLoop_next]
    split_ifs with hnone hmet
    · have hunread : s.file.unread = [] := by
        by_contra hne
        exact absurd hnone (Nat.ne_of_gt (answer_pos hmax hfits hne))
      rw [hunread]
      exact .inr ⟨rfl, htotal⟩
    · refine .inl ⟨rfl, ?_⟩
      unfold readInAll
      dsimp only
      omega
    · have hless : (s.next maxSize).totalRead < maxSize :=
        Nat.lt_of_le_of_ne (hfirst htotal) hmet
      refine (ih (next_fits hfits) hless (by omega) hrest).imp (fun h => ⟨h.1, ?_⟩)
        fun h => ⟨h.1, by omega⟩
      have hread : ReadOn (s.next maxSize).buffer (s.next maxSize).file (readFdLoop maxSize fuel
          (s.next maxSize).totalRead (s.next maxSize).buffer (s.next maxSize).file) :=
        readFdLoop_spec hmax (next_fits hfits) (by omega)
      obtain ⟨more, -, hmore⟩ := hread.data
      have hcount := congrArg List.length hmore
      rw [List.length_append] at hcount
      have hall := h.2
      unfold readInAll at hall ⊢
      omega

theorem readFdLoop_of_over (hfuel : s.file.unread.length < fuel)
    (hover : ¬ NeverOver maxSize s) :
    (readFdLoop maxSize fuel s.totalRead s.buffer s.file).1 = .end_ := by
  induction fuel generalizing s with
  | zero => exact absurd hfuel (Nat.not_lt_zero _)
  | succ fuel ih =>
    have hlen := length_answer maxSize s
    have hnext : (s.next maxSize).totalRead = s.totalRead + (s.answer maxSize).length := rfl
    rw [readFdLoop_next]
    split_ifs with hnone hmet
    · rfl
    · -- the limit was met, so that nothing can step over it
      exact absurd (neverOver_iff.mpr ⟨fun _ => Nat.le_of_eq hmet,
        neverOver_of_met (Nat.le_of_eq hmet.symm)⟩) hover
    · rcases Nat.lt_or_ge maxSize (s.next maxSize).totalRead with hgt | hle
      · exact readFdLoop_over hgt (by omega)
      · have hrest : ¬ NeverOver maxSize (s.next maxSize) :=
          fun h => hover (neverOver_iff.mpr ⟨fun _ => hle, h⟩)
        exact ih (by omega) hrest

end Loop

theorem readsBounded_of_neverOver {buffer : DynamicArray} {f : SrcFile} {maxSize : Nat}
    (hmax : 0 < maxSize) (hfits : buffer.data.length ≤ buffer.sizeAllocated)
    (hnever : NeverOver maxSize ⟨0, buffer, f⟩) : ReadsBounded buffer f maxSize := by
  have hread : ReadOn buffer f (readFd buffer f maxSize) :=
    readFdLoop_spec hmax hfits (Nat.lt_succ_self _)
  obtain ⟨⟨more, hdata, hmore⟩, -, hres⟩ := hread
  have hlen := congrArg List.length hmore
  rw [List.length_append] at hlen
  have hwithin : (readFd buffer f maxSize).1 = .ok ∧
        readInAll ⟨0, buffer, f⟩ (readFd buffer f maxSize) = maxSize ∨
      (readFd buffer f maxSize).1 = .end_ ∧ 0 + f.unread.length < maxSize :=
    @readFdLoop_within _ _ ⟨0, buffer, f⟩ hmax hfits hmax (Nat.lt_succ_self _) hnever
  refine ⟨more, hdata, hmore, ?_⟩
  rcases hwithin with ⟨hok, hall⟩ | ⟨hend, hless⟩
  · unfold readInAll at hall
    dsimp only at hall
    have hcount : more.length = maxSize := by omega
    rw [hok]
    refine ⟨Nat.le_of_eq hcount, iff_of_true rfl hcount, iff_of_false Res.noConfusion ?_⟩
    omega
  · rw [hend]
    refine ⟨by omega, iff_of_false Res.noConfusion (by omega), iff_of_true rfl (by omega)⟩

/-- With a limit that is the space of the array only a shorter file is read to its end. -/
theorem readFd_space {buffer : DynamicArray} (f : SrcFile) {maxSize : Nat} (hmax : 0 < maxSize)
    (hspace : buffer.data.length + maxSize = buffer.sizeAllocated) :
    ((readFd buffer f maxSize).1 = .end_ ↔ f.unread.length < maxSize) ∧
      ((readFd buffer f maxSize).1 = .end_ →
        (readFd buffer f maxSize).2.1.data = buffer.data ++ f.unread) := by
  have hfits : buffer.data.length ≤ buffer.sizeAllocated := by omega
  have hfirst : buffer.spaceUpTo 1 = maxSize := by
    rw [DynamicArray.spaceUpTo, DynamicArray.capacity, growIfFull_of_lt (by omega)]
    omega
  have hmeets : MeetsLimit buffer f maxSize := by
    refine .inr fun n hless hmore => ?_
    have hmono := (spaceUpTo_strictMono hfits).monotone
    cases n with
    | zero => exact absurd (hfirst ▸ hmore) (Nat.lt_irrefl _)
    | succ n =>
      have hle := hmono (Nat.succ_le_succ (Nat.zero_le n))
      rw [hfirst] at hle
      exact absurd hless (Nat.not_lt.mpr hle)
  obtain ⟨-, -, -, -, -, hend⟩ :=
    readsBounded_of_neverOver hmax hfits ((neverOver_iff_meetsLimit hfits hmax).mpr hmeets)
  refine ⟨hend, fun hended => ?_⟩
  have hread : ReadOn buffer f (readFd buffer f maxSize) :=
    readFdLoop_spec hmax hfits (Nat.lt_succ_self _)
  obtain ⟨⟨more, hdata, hmore⟩, -, ⟨hok, -⟩ | ⟨-, hnone⟩⟩ := hread
  · rw [hok] at hended
    cases hended
  · rw [hnone, List.append_nil] at hmore
    rw [hdata, hmore]

end BoundedReadLemmas

open BoundedReadLemmas SplitterLemmas

/-- `read_fd` keeps to its limit if and only if the file has nothing behind it, or the array is
full there, or the short reads meet it. -/
theorem reads_bounded_iff {buffer : DynamicArray} (f : SrcFile) {maxSize : Nat}
    (hmax : 0 < maxSize) (hfits : buffer.data.length ≤ buffer.sizeAllocated) :
    ReadsBounded buffer f maxSize ↔ MeetsLimit buffer f maxSize := by
  rw [← neverOver_iff_meetsLimit hfits hmax]
  refine ⟨?_, readsBounded_of_neverOver hmax hfits⟩
  rintro ⟨more, -, hmore, hle, -, hend⟩
  by_contra hover
  have hended : (readFd buffer f maxSize).1 = .end_ :=
    @readFdLoop_of_over _ _ ⟨0, buffer, f⟩ (Nat.lt_succ_self _) hover
  have hless := hend.mp hended
  exact hover (neverOver_of_le (by dsimp only; omega))

/-- Two reads of two bytes meet the limit of four. -/
theorem reads_bounded_of_two_reads :
    ReadsBounded ⟨[], 10⟩ ⟨[1, 2, 3, 4, 5, 6, 7, 8], [2, 2]⟩ 4 := by
  refine (reads_bounded_iff ⟨[1, 2, 3, 4, 5, 6, 7, 8], [2, 2]⟩ (by decide) (by decide)).mpr
    (.inr fun n hless _ => ?_)
  cases n with
  | zero => exact .inl (.inr ⟨by decide, .inr ⟨by decide, rfl⟩⟩)
  | succ n =>
    have hle := capacity_le ⟨[], 10⟩ n
    rw [DynamicArray.spaceUpTo] at hless
    exact absurd (Nat.lt_of_le_of_lt hle hless) (by decide)

/-- Three bytes and then four more where four are asked for: all of the file is appended. -/
theorem read_fd_oversteps :
    (readFd ⟨[], 10⟩ ⟨[1, 2, 3, 4, 5, 6, 7, 8], [3, 4]⟩ 4).1 = .end_ ∧
      (readFd ⟨[], 10⟩ ⟨[1, 2, 3, 4, 5, 6, 7, 8], [3, 4]⟩ 4).2.1.data = [1, 2, 3, 4, 5, 6, 7, 8] ∧
      ¬ ReadsBounded ⟨[], 10⟩ ⟨[1, 2, 3, 4, 5, 6, 7, 8], [3, 4]⟩ 4 := by
  refine ⟨rfl, rfl, ?_⟩
  rintro ⟨more, hdata, -, hle, -⟩
  cases (show [1, 2, 3, 4, 5, 6, 7, 8] = more from hdata)
  exact absurd hle (by decide)

end Everarch
