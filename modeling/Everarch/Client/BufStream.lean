import Everarch.Client.BufRead
import Everarch.Lib.Run
import Mathlib.Data.Nat.Find

/-!
# The buffer as a stream

Runs of calls on a `struct evr_buf_read`: reads that get any number of bytes, peeks at bytes that
are ready and pops of these.

* `buf_read_faithful`: what is popped and what is ready is the input, in its order.
* `read_until_iff`: when `evr_buf_read_read_until` tells a line that is too long from the end of
  the file.
* `read_until_misreads`: a line where it does not.
-/

namespace Everarch

/-- A call on the buffer. `read nbytes` is one of `evr_buf_read_read` where `f->read` answers
`nbytes` bytes, as far as these were asked for and wait. `evr_buf_read_read_until` makes such
calls. -/
inductive BufOp
  | read (nbytes : Nat)
  | peek (offset : Nat)
  | pop (bytes : Nat)

/-- A buffer and what was popped from it. -/
structure BufRun where
  reader : BufRead
  popped : List Char

/-- `evr_buf_read_read` with such an answer. Without a byte nothing changes. -/
def BufRead.readAnswer (b : BufRead) (nbytes : Nat) : BufRead :=
  if nbytes = 0 then b else { b with chunks := [nbytes] }.readRead.2

namespace BufRun

/-- A new buffer in front of an input. -/
def start (bufSizeExp : Nat) (input : List Char) : BufRun :=
  ⟨createBufRead bufSizeExp input [], []⟩

/-- What a call does. -/
def step (s : BufRun) : BufOp → BufRun
  | .read nbytes => { s with reader := s.reader.readAnswer nbytes }
  | .peek _ => s
  | .pop bytes =>
    let (data, reader) := s.reader.pop bytes
    ⟨reader, s.popped ++ data⟩

/-- Only bytes that are ready may be peeked at and popped. -/
def Allowed (s : BufRun) : BufOp → Prop
  | .read _ => True
  | .peek offset => offset < s.reader.bytesReady
  | .pop bytes => bytes ≤ s.reader.bytesReady

instance decidableAllowed (s : BufRun) : (op : BufOp) → Decidable (s.Allowed op)
  | .read _ => isTrue trivial
  | .peek offset => inferInstanceAs (Decidable (offset < s.reader.bytesReady))
  | .pop bytes => inferInstanceAs (Decidable (bytes ≤ s.reader.bytesReady))

/-- What the buffer has to be to its user. -/
structure Faithful (bufSizeExp : Nat) (input : List Char) (s : BufRun) : Prop where
  popped : s.popped <+: input
  ready : ∀ k < s.reader.bytesReady, input[s.popped.length + k]? = some (s.reader.peek k)
  kept : ∀ nbytes, ∀ k < s.reader.bytesReady,
    k < (s.reader.readAnswer nbytes).bytesReady ∧
      (s.reader.readAnswer nbytes).peek k = s.reader.peek k
  size : s.reader.bufSize = 2 ^ bufSizeExp
  read_lt : s.reader.readI < s.reader.bufSize
  write_lt : s.reader.writeI < s.reader.bufSize

end BufRun

namespace BufStreamLemmas

open BufRead BufRun

section Run

variable {b : BufRead} {bufSizeExp : Nat} {input : List Char} {s : BufRun}

theorem readAnswer_spec (hb : b.Valid) (nbytes : Nat) :
    (b.readAnswer nbytes).Valid ∧ (b.readAnswer nbytes).bufSize = b.bufSize ∧
      (b.readAnswer nbytes).stream = b.stream ∧ b.held <+: (b.readAnswer nbytes).held := by
  unfold BufRead.readAnswer
  split_ifs
  · exact ⟨hb, rfl, rfl, List.prefix_refl _⟩
  · exact readRead_spec (b := { b with chunks := [nbytes] }) ⟨hb.read_lt, hb.write_lt⟩

/-- What was popped, what is held and what waits make up the input. -/
structure Streams (bufSizeExp : Nat) (input : List Char) (s : BufRun) : Prop where
  valid : s.reader.Valid
  size : s.reader.bufSize = 2 ^ bufSizeExp
  stream : s.popped ++ s.reader.stream = input

theorem streams_start (bufSizeExp : Nat) (input : List Char) :
    Streams bufSizeExp input (start bufSizeExp input) :=
  ⟨valid_create _ _ _, rfl, stream_create _ _ _⟩

theorem streams_step (h : Streams bufSizeExp input s) {op : BufOp} (hop : s.Allowed op) :
    Streams bufSizeExp input (s.step op) := by
  obtain ⟨hvalid, hsize, hstream⟩ := h
  cases op with
  | read nbytes =>
    obtain ⟨hvalid', hsize', hstream', -⟩ := readAnswer_spec hvalid nbytes
    exact ⟨hvalid', hsize'.trans hsize, (congrArg (s.popped ++ ·) hstream').trans hstream⟩
  | peek offset => exact ⟨hvalid, hsize, hstream⟩
  | pop bytes =>
    obtain ⟨hdata, hheld, hvalid'⟩ := pop_spec hvalid hop
    refine ⟨hvalid', hsize, ?_⟩
    show s.popped ++ (s.reader.pop bytes).1 ++ ((s.reader.pop bytes).2.held ++ _) = input
    rw [hdata, hheld, List.append_assoc, ← List.append_assoc (s.reader.held.take bytes),
      List.take_append_drop]
    exact hstream

theorem streams_run {ops : List BufOp}
    (h : Along BufRun.step BufRun.Allowed (start bufSizeExp input) ops) :
    Streams bufSizeExp input (exec BufRun.step (start bufSizeExp input) ops) :=
  h.invariant (Streams bufSizeExp input) (streams_start bufSizeExp input)
    fun _ _ hs hop => streams_step hs hop

theorem faithful_of_streams (h : Streams bufSizeExp input s) : Faithful bufSizeExp input s := by
  obtain ⟨hvalid, hsize, hstream⟩ := h
  refine ⟨⟨_, hstream⟩, fun k hk => ?_, fun nbytes k hk => ?_, hsize, hvalid.read_lt,
    hvalid.write_lt⟩
  · rw [← hstream, List.getElem?_append_right (Nat.le_add_right _ _), Nat.add_sub_cancel_left,
      BufRead.stream, List.getElem?_append_left (length_held s.reader ▸ hk), getElem?_held hk]
  · obtain ⟨-, -, -, hpre⟩ := readAnswer_spec hvalid nbytes
    have hlen := hpre.length_le
    rw [length_held, length_held] at hlen
    have hk' := Nat.lt_of_lt_of_le hk hlen
    refine ⟨hk', Option.some.inj ?_⟩
    obtain ⟨more, hmore⟩ := hpre
    rw [← getElem?_held hk', ← getElem?_held hk, ← hmore,
      List.getElem?_append_left (length_held s.reader ▸ hk)]

end Run

end BufStreamLemmas

open BufStreamLemmas

/-- Whatever the calls are, the bytes come out as they came in. -/
theorem buf_read_faithful (bufSizeExp : Nat) (input : List Char) {ops : List BufOp}
    (h : Along BufRun.step BufRun.Allowed (BufRun.start bufSizeExp input) ops) :
    BufRun.Faithful bufSizeExp input
      (exec BufRun.step (BufRun.start bufSizeExp input) ops) :=
  faithful_of_streams (streams_run h)

theorem buf_read_faithful_wrapped :
    BufRun.Faithful 1 ['a', 'b', 'c'] (exec BufRun.step (BufRun.start 1 ['a', 'b', 'c'])
      [.read 5, .peek 0, .pop 1, .read 1, .pop 1]) :=
  buf_read_faithful 1 ['a', 'b', 'c'] (by decide)

/-! ## Reading until a sentinel -/

/-- The first sentinel of what can still be read is at `d`. -/
def BufRead.FirstAt (b : BufRead) (sentinel : Char) (d : Nat) : Prop :=
  b.stream[d]? = some sentinel ∧ ∀ k < d, b.stream[k]? ≠ some sentinel

/-- What `evr_buf_read_read_until` is to answer. The buffer holds `bufSize - 1` bytes, so that the
file has not ended as long as more are left. -/
structure BufRead.ReadsUntil (b : BufRead) (sentinel : Char) : Prop where
  found : ∀ d, b.FirstAt sentinel d → d + 1 < b.bufSize →
    ∃ b', b.readUntil sentinel = .ok (d, b')
  ended : b.readUntil sentinel = .error .end_ →
    sentinel ∉ b.stream ∧ b.stream.length < b.bufSize
  exceeded : (∀ d, b.FirstAt sentinel d → b.bufSize ≤ d + 1) → b.bufSize ≤ b.stream.length →
    b.readUntil sentinel = .error .error

namespace BufStreamLemmas

open BufRead BufRun

section Until

variable {b b' : BufRead} {sentinel : Char} {d : Nat}

theorem firstAt_unique {d' : Nat} (h : b.FirstAt sentinel d) (h' : b.FirstAt sentinel d') :
    d = d' := by
  rcases Nat.lt_trichotomy d d' with hlt | heq | hgt
  · exact absurd h.1 (h'.2 d hlt)
  · exact heq
  · exact absurd h'.1 (h.2 d' hgt)

theorem exists_firstAt (h : sentinel ∈ b.stream) :
    ∃ d, b.FirstAt sentinel d ∧ d < b.stream.length := by
  have hsome : ∃ k, b.stream[k]? = some sentinel := List.mem_iff_getElem?.mp h
  exact ⟨Nat.find hsome, ⟨Nat.find_spec hsome, fun k hk => Nat.find_min hsome hk⟩,
    (List.getElem?_eq_some_iff.mp (Nat.find_spec hsome)).1⟩

theorem readUntil_found (hb : b.Valid) (h : b.FirstAt sentinel d) (hfit : d + 1 < b.bufSize) :
    ∃ b', b.readUntil sentinel = .ok (d, b') := by
  obtain ⟨hlt, hat⟩ := List.getElem?_eq_some_iff.mp h.1
  have hstream : b.stream = b.stream.take d ++ sentinel :: b.stream.drop (d + 1) := by
    rw [← hat, ← List.drop_eq_getElem_cons, List.take_append_drop]
  have hshort : (b.stream.take d).length + 1 < b.bufSize :=
    Nat.lt_of_le_of_lt (Nat.succ_le_succ (List.length_take_le _ _)) hfit
  obtain ⟨⟨offset, b'⟩, hread⟩ :=
    readUntilLoop_complete hb (passed_zero b sentinel) hstream hshort (Nat.lt_succ_self _)
  obtain ⟨-, -, hsame, hfound, hbefore⟩ := readUntilLoop_sound hb (passed_zero b sentinel) hread
  obtain ⟨hheld, -⟩ := List.getElem?_eq_some_iff.mp hfound
  have hoffset : b.FirstAt sentinel offset := by
    rw [FirstAt, ← hsame, BufRead.stream]
    refine ⟨by rwa [List.getElem?_append_left hheld], fun k hk => ?_⟩
    rw [List.getElem?_append_left (hk.trans hheld)]
    exact hbefore k hk
  cases firstAt_unique h hoffset
  exact ⟨b', hread⟩

theorem readRead_readI (b : BufRead) : b.readRead.2.readI = b.readI := by
  unfold readRead
  split_ifs
  · rfl
  · dsimp only
    split_ifs
    · rfl
    · rfl

/-- A full buffer asks for no byte, and only one that starts at the first slot is seen to be
full. -/
theorem readRead_full (hb : b.Valid) (hfull : b.bytesReady + 1 = b.bufSize) :
    b.readRead.1 = if b.readI = 0 then -1 else 0 := by
  obtain ⟨-, hroom, -⟩ := rsize_room hb
  have hzero : b.rsize = 0 := by omega
  have hr := hb.read_lt
  have hw := hb.write_lt
  have hstart : b.readI ≤ b.writeI ↔ b.readI = 0 := by
    unfold bytesReady at hfull
    constructor
    · intro hle
      rw [ringCount_of_le hle hw] at hfull
      omega
    · intro h
      rw [h]
      exact Nat.zero_le _
  unfold readRead
  by_cases h : b.readI = 0
  · rw [if_pos ⟨hstart.mpr h, hzero⟩, if_pos h]
  · rw [if_neg (fun hguard => h (hstart.mp hguard.1)), if_neg h]
    dsimp only
    have hnone : (b.fileRead b.rsize).1.length = 0 :=
      Nat.le_zero.mp (hzero ▸ length_fileRead_le b b.rsize)
    rw [if_pos hnone]

/-- At the end of the file a read gets nothing. -/
theorem readRead_ended (hb : b.Valid) (hroom : b.bytesReady + 1 < b.bufSize)
    (hunread : b.unread = []) : b.readRead.1 = 0 := by
  obtain ⟨-, -, hpos⟩ := rsize_room hb
  have hnone : (b.fileRead b.rsize).1.length = 0 := by
    show (b.unread.take _).length = 0
    rw [hunread, List.take_nil]
    rfl
  unfold readRead
  rw [if_neg (fun h => absurd h.2 (Nat.ne_of_gt (hpos hroom)))]
  dsimp only
  rw [if_pos hnone]

/-- Without a sentinel that fits, the answer depends on where the buffer starts. -/
theorem readUntilLoop_missed {fuel i : Nat} (hb : b.Valid) (hpassed : b.Passed sentinel i)
    (hmiss : ∀ k, k + 1 < b.bufSize → b.stream[k]? ≠ some sentinel)
    (hfuel : b.unread.length < fuel) :
    readUntilLoop sentinel fuel i b =
      .error (if b.readI = 0 ∧ b.bufSize ≤ b.stream.length + 1 then .error else .end_) := by
  induction fuel generalizing i b with
  | zero => exact absurd hfuel (Nat.not_lt_zero _)
  | succ fuel ih =>
    have hcount : b.bytesReady < b.bufSize := (ringCount_spec hb.read_lt hb.write_lt).1
    have hlen : b.stream.length = b.bytesReady + b.unread.length := by
      rw [BufRead.stream, List.length_append, length_held]
    rw [readUntilLoop]
    split
    · next found hfound =>
      obtain ⟨hsentinel, hmem, -⟩ := List.find?_range'_eq_some.mp hfound
      have hbounds := List.mem_range'_1.mp hmem
      have hready : found < b.bytesReady := by omega
      refine absurd ?_ (hmiss found (by omega))
      rw [BufRead.stream, List.getElem?_append_left (length_held b ▸ hready), getElem?_held hready,
        eq_of_beq hsentinel]
    · next hnone =>
      dsimp only
      rcases Nat.lt_or_ge (b.bytesReady + 1) b.bufSize with hroom | hfull
      · by_cases hunread : b.unread = []
        · have hshort : ¬ (b.readI = 0 ∧ b.bufSize ≤ b.stream.length + 1) := by
            rw [hlen, hunread]
            rintro ⟨-, hle⟩
            exact absurd hle (Nat.not_le.mpr hroom)
          rw [readRead_ended hb hroom hunread, if_pos rfl, if_neg hshort]
        · obtain ⟨hpos, hless⟩ := readRead_pos hb (length_held b ▸ hroom) hunread
          obtain ⟨hvalid, hsize, hsame, -⟩ := readRead_spec hb
          rw [if_neg (Int.ne_of_gt hpos), if_neg (Int.not_lt.mpr (Int.le_of_lt hpos)),
            ih hvalid (passed_readRead hb hpassed hnone).2
              (by rw [hsize, hsame]; exact hmiss) (by omega), readRead_readI, hsize, hsame]
      · have hlast : b.bytesReady + 1 = b.bufSize := by omega
        have hlong : b.bufSize ≤ b.stream.length + 1 := by omega
        rw [readRead_full hb hlast]
        by_cases h : b.readI = 0
        · rw [if_pos h, if_neg (by decide), if_pos (by decide), if_pos ⟨h, hlong⟩]
        · rw [if_neg h, if_pos rfl, if_neg (fun hguard => h hguard.1)]

/-- The answer is the right one unless the bytes of a long line are not at the start of the
buffer. -/
theorem readsUntil_iff (hb : b.Valid) :
    b.ReadsUntil sentinel ↔ b.readI = 0 ∨ b.stream.length < b.bufSize ∨
      ∃ d, b.FirstAt sentinel d ∧ d + 1 < b.bufSize := by
  by_cases hfits : ∃ d, b.FirstAt sentinel d ∧ d + 1 < b.bufSize
  · obtain ⟨d, hfirst, hfit⟩ := hfits
    obtain ⟨b', hread⟩ := readUntil_found hb hfirst hfit
    refine iff_of_true ⟨fun d' hd' hfit' => readUntil_found hb hd' hfit', ?_, ?_⟩
      (.inr (.inr ⟨d, hfirst, hfit⟩))
    · intro hend
      rw [hread] at hend
      cases hend
    · intro hmiss
      exact absurd hfit (Nat.not_lt.mpr (hmiss d hfirst))
  · have hmiss : ∀ k, k + 1 < b.bufSize → b.stream[k]? ≠ some sentinel := by
      intro k hk hat
      have hsome : ∃ k, b.stream[k]? = some sentinel := ⟨k, hat⟩
      have hle : Nat.find hsome ≤ k := Nat.find_min' hsome hat
      exact hfits ⟨Nat.find hsome, ⟨Nat.find_spec hsome, fun j hj => Nat.find_min hsome hj⟩,
        Nat.lt_of_le_of_lt (Nat.succ_le_succ hle) hk⟩
    have hread : b.readUntil sentinel =
        .error (if b.readI = 0 ∧ b.bufSize ≤ b.stream.length + 1 then .error else .end_) :=
      readUntilLoop_missed hb (passed_zero b sentinel) hmiss (Nat.lt_succ_self _)
    have hnone : ∀ d, b.FirstAt sentinel d → b.bufSize ≤ d + 1 :=
      fun d hd => Nat.not_lt.mp fun hfit => hfits ⟨d, hd, hfit⟩
    constructor
    · rintro ⟨-, hended, -⟩
      by_cases hstart : b.readI = 0
      · exact .inl hstart
      · rw [hread, if_neg (fun hguard => hstart hguard.1)] at hended
        exact .inr (.inl (hended rfl).2)
    · intro hcond
      refine ⟨fun d hd hfit => absurd ⟨d, hd, hfit⟩ hfits, fun hend => ?_, fun _ hlong => ?_⟩
      · have hshort : b.stream.length < b.bufSize := by
          rcases hcond with hstart | hshort | hfound
          · rw [hread] at hend
            split_ifs at hend with hguard
            · cases hend
            · have hlt : ¬ b.bufSize ≤ b.stream.length + 1 := fun hle => hguard ⟨hstart, hle⟩
              omega
          · exact hshort
          · exact absurd hfound hfits
        refine ⟨fun hmem => ?_, hshort⟩
        obtain ⟨d, hd, hlt⟩ := exists_firstAt hmem
        have hle := hnone d hd
        omega
      · rcases hcond with hstart | hshort | hfound
        · rw [hread, if_pos ⟨hstart, by omega⟩]
        · omega
        · exact absurd hfound hfits

end Until

end BufStreamLemmas

/-- In a state that calls can reach, `evr_buf_read_read_until` answers as it should if and only if
the buffer starts at its first slot, or the file ends before the buffer is full, or the sentinel
comes in time. -/
theorem read_until_iff (bufSizeExp : Nat) (input : List Char) {ops : List BufOp}
    (h : Along BufRun.step BufRun.Allowed (BufRun.start bufSizeExp input) ops)
    (chunks : List Nat) (sentinel : Char) :
    let b : BufRead :=
      { (exec BufRun.step (BufRun.start bufSizeExp input) ops).reader with chunks := chunks }
    b.ReadsUntil sentinel ↔ b.readI = 0 ∨ b.stream.length < b.bufSize ∨
      ∃ d, b.FirstAt sentinel d ∧ d + 1 < b.bufSize :=
  have hvalid := (streams_run h).valid
  readsUntil_iff ⟨hvalid.read_lt, hvalid.write_lt⟩

theorem read_until_iff_new :
    let b : BufRead :=
      { (exec BufRun.step (BufRun.start 2 ['a', 'b', '\n'])
        [.read 1, .pop 1]).reader with chunks := [1] }
    b.readI ≠ 0 ∧ b.ReadsUntil '\n' :=
  have hops : Along BufRun.step BufRun.Allowed (BufRun.start 2 ['a', 'b', '\n'])
      [.read 1, .pop 1] := by decide
  ⟨by decide, (read_until_iff 2 ['a', 'b', '\n'] hops [1] '\n').mpr (.inr (.inl (by decide)))⟩

/-- A line of five bytes behind a byte that was popped, in a buffer of four: the full buffer looks
like the end of the file. -/
theorem read_until_misreads :
    let b := (exec BufRun.step (BufRun.start 2 ['a', 'b', 'c', 'd', 'e', 'f', '\n'])
      [.read 1, .pop 1]).reader
    b.readUntil '\n' = .error .end_ ∧ '\n' ∈ b.stream ∧ ¬ b.ReadsUntil '\n' := by
  have hend : (exec BufRun.step (BufRun.start 2 ['a', 'b', 'c', 'd', 'e', 'f', '\n'])
      [.read 1, .pop 1]).reader.readUntil '\n' = .error .end_ := rfl
  have hmem : '\n' ∈ (exec BufRun.step (BufRun.start 2 ['a', 'b', 'c', 'd', 'e', 'f', '\n'])
      [.read 1, .pop 1]).reader.stream := by decide
  exact ⟨hend, hmem, fun hreads => absurd hmem (hreads.ended hend).1⟩

end Everarch
