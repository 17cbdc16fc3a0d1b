import Everarch.Basic
import Everarch.Lib.Ring

/-!
# Buffered reading

`struct evr_buf_read` of files.c: a ring buffer between a connection and a reader of lines.

* `readLine_sound`: a line that is read comes next in what is sent, and fits into the buffer.
* `readLine_complete`: a line that fits is read, however its bytes arrive.
-/

namespace Everarch

/-- `struct evr_buf_read` with its connection. The size of the buffer is a power of two in the
source, so that its masks are remainders here. `unread` is what the peer has sent and nobody has
read, and each call of the connection's `read` returns as many bytes as the next of `chunks`
says. -/
structure BufRead where
  bufSize : Nat
  readI : Nat
  writeI : Nat
  buf : Nat → Char
  unread : List Char
  chunks : List Nat

/-- `evr_create_buf_read`. What the slots hold before they are written is never read. -/
def createBufRead (bufSizeExp : Nat) (unread : List Char) (chunks : List Nat) : BufRead :=
  ⟨2 ^ bufSizeExp, 0, 0, fun _ => '\x00', unread, chunks⟩

namespace BufRead

/-- `evr_buf_read_bytes_ready`. -/
def bytesReady (b : BufRead) : Nat :=
  ringCount b.bufSize b.readI b.writeI

/-- `evr_buf_read_peek`. -/
def peek (b : BufRead) (offset : Nat) : Char :=
  b.buf ((b.readI + offset) % b.bufSize)

/-- `f->read`: some bytes of those that wait, at most `count`. None means that the connection has
ended, or that `count` is zero. -/
def fileRead (b : BufRead) (count : Nat) : List Char × BufRead :=
  let nbytes := min count (max 1 (b.chunks.headD count))
  (b.unread.take nbytes, { b with unread := b.unread.drop nbytes, chunks := b.chunks.tail })

/-- `rsize` of `evr_buf_read_read`. -/
def rsize (b : BufRead) : Nat :=
  if b.readI ≤ b.writeI then
    if b.readI = 0 then b.bufSize - b.writeI - 1 else b.bufSize - b.writeI
  else b.readI - b.writeI - 1

/-- `evr_buf_read_read`. -/
def readRead (b : BufRead) : Int × BufRead :=
  if b.readI ≤ b.writeI ∧ b.rsize = 0 then (-1, b)
  else
    let (data, b') := b.fileRead b.rsize
    if data.length = 0 then (0, b')
    else
      (data.length, { b' with
        buf := fillFrom b.buf b.writeI data
        writeI := (b.writeI + data.length) % b.bufSize })

/-- The loop of `evr_buf_read_read_until`, which has looked at `i` bytes. -/
def readUntilLoop (sentinel : Char) : Nat → Nat → BufRead → Except Res (Nat × BufRead)
  | 0, _, _ => .error .error
  | fuel + 1, i, b =>
    match (List.range' i (b.bytesReady - i)).find? fun k => b.peek k == sentinel with
    | some offset => .ok (offset, b)
    | none =>
      let (bytesRead, b') := b.readRead
      if bytesRead = 0 then .error .end_
      else if bytesRead < 0 then .error .error
      else readUntilLoop sentinel fuel (max i b.bytesReady) b'

/-- `evr_buf_read_read_until`. Each round but the last reads one byte or more. -/
def readUntil (b : BufRead) (sentinel : Char) : Except Res (Nat × BufRead) :=
  readUntilLoop sentinel (b.unread.length + 1) 0 b

/-- `evr_buf_read_pop`. -/
def pop (b : BufRead) (bytes : Nat) : List Char × BufRead :=
  ((List.range bytes).map b.peek, { b with readI := (b.readI + bytes) % b.bufSize })

/-- The two calls by which a line is read, with its newline. -/
def readLine (b : BufRead) : Except Res (List Char × BufRead) :=
  match b.readUntil '\n' with
  | .error e => .error e
  | .ok (nlOffset, b') => .ok (b'.pop (nlOffset + 1))

/-- The bytes in the buffer. -/
def held (b : BufRead) : List Char :=
  window b.buf b.bufSize b.readI b.writeI

/-- All bytes that can still be read. -/
def stream (b : BufRead) : List Char :=
  b.held ++ b.unread

/-- The indices are those of slots. -/
structure Valid (b : BufRead) : Prop where
  read_lt : b.readI < b.bufSize
  write_lt : b.writeI < b.bufSize

theorem valid_create (bufSizeExp : Nat) (unread : List Char) (chunks : List Nat) :
    (createBufRead bufSizeExp unread chunks).Valid :=
  ⟨Nat.two_pow_pos _, Nat.two_pow_pos _⟩

theorem stream_create (bufSizeExp : Nat) (unread : List Char) (chunks : List Nat) :
    (createBufRead bufSizeExp unread chunks).stream = unread := by
  show window (fun _ => '\x00') (2 ^ bufSizeExp) 0 0 ++ unread = unread
  rw [window_empty (Nat.two_pow_pos _), List.nil_append]

/-! ## One call of read -/

section Calls

variable {b b' : BufRead}

theorem length_held (b : BufRead) : b.held.length = b.bytesReady :=
  length_window

theorem getElem?_held {k : Nat} (hk : k < b.bytesReady) : b.held[k]? = some (b.peek k) := by
  have hrange : (List.range (ringCount b.bufSize b.readI b.writeI))[k]? = some k :=
    List.getElem?_range hk
  rw [held, window, List.getElem?_map, hrange]
  rfl

/-- What `evr_buf_read_read` may read fits behind what is held, and before the end of the slots. -/
theorem rsize_room (hb : b.Valid) :
    b.writeI + b.rsize ≤ b.bufSize ∧ (b.bytesReady + b.rsize < b.bufSize) ∧
      (b.bytesReady + 1 < b.bufSize → 0 < b.rsize) := by
  have hr := hb.read_lt
  have hw := hb.write_lt
  unfold rsize bytesReady
  cases Nat.lt_or_ge b.writeI b.readI with
  | inl hlt =>
    rw [if_neg (Nat.not_le.mpr hlt), ringCount_of_lt hlt hr]
    omega
  | inr hle =>
    rw [if_pos hle, ringCount_of_le hle hw]
    split_ifs
    · omega
    · omega

theorem fileRead_eq (b : BufRead) (count : Nat) :
    (b.fileRead count).1 ++ (b.fileRead count).2.unread = b.unread :=
  List.take_append_drop _ _

theorem length_fileRead_le (b : BufRead) (count : Nat) : (b.fileRead count).1.length ≤ count :=
  (List.length_take_le _ _).trans (Nat.min_le_left _ _)

theorem fileRead_pos {count : Nat} (hcount : 0 < count) (hunread : b.unread ≠ []) :
    0 < (b.fileRead count).1.length := by
  have hlen := List.length_pos_iff.mpr hunread
  show 0 < (b.unread.take _).length
  rw [List.length_take]
  omega

/-- A call of read adds to what is held, and loses nothing. -/
theorem readRead_spec (hb : b.Valid) :
    b.readRead.2.Valid ∧ b.readRead.2.bufSize = b.bufSize ∧ b.readRead.2.stream = b.stream ∧
      b.held <+: b.readRead.2.held := by
  obtain ⟨hend, hroom, -⟩ := rsize_room hb
  have hle := length_fileRead_le b b.rsize
  have hsplit := fileRead_eq b b.rsize
  unfold readRead
  split_ifs with hfull
  · exact ⟨hb, rfl, rfl, List.prefix_refl _⟩
  · dsimp only
    split_ifs with hnone
    · refine ⟨⟨hb.read_lt, hb.write_lt⟩, rfl, ?_, List.prefix_refl _⟩
      show b.held ++ (b.fileRead b.rsize).2.unread = b.held ++ b.unread
      rw [← hsplit, List.length_eq_zero_iff.mp hnone, List.nil_append]
    · have hheld : window (fillFrom b.buf b.writeI (b.fileRead b.rsize).1) b.bufSize b.readI
          ((b.writeI + (b.fileRead b.rsize).1.length) % b.bufSize) =
            b.held ++ (b.fileRead b.rsize).1 :=
        window_fillFrom hb.read_lt hb.write_lt (b.fileRead b.rsize).1 (by omega)
          (Nat.lt_of_le_of_lt (Nat.add_le_add_left hle _) hroom)
      refine ⟨⟨hb.read_lt, Nat.mod_lt _ (Nat.lt_of_le_of_lt (Nat.zero_le _) hb.read_lt)⟩, rfl, ?_,
        ?_⟩
      · refine (congrArg (· ++ (b.fileRead b.rsize).2.unread) hheld).trans ?_
        rw [List.append_assoc, hsplit]
        rfl
      · exact ⟨(b.fileRead b.rsize).1, hheld.symm⟩

/-- With room in the buffer and bytes that wait, some are read. -/
theorem readRead_pos (hb : b.Valid) (hroom : b.held.length + 1 < b.bufSize)
    (hunread : b.unread ≠ []) :
    0 < b.readRead.1 ∧ b.readRead.2.unread.length < b.unread.length := by
  obtain ⟨-, -, hpos⟩ := rsize_room hb
  have hsize := hpos (length_held b ▸ hroom)
  have hdata := fileRead_pos hsize hunread
  have hlen := congrArg List.length (fileRead_eq b b.rsize)
  rw [List.length_append] at hlen
  unfold readRead
  rw [if_neg (fun h => absurd h.2 (Nat.ne_of_gt hsize))]
  dsimp only
  rw [if_neg (Nat.ne_of_gt hdata)]
  exact ⟨Int.natCast_pos.mpr hdata, show (b.fileRead b.rsize).2.unread.length < _ by omega⟩

end Calls

/-! ## Lines -/

section Lines

variable {b b' : BufRead}

/-- The first `i` bytes have been looked at, and none is the sentinel. -/
def Passed (b : BufRead) (sentinel : Char) (i : Nat) : Prop :=
  i ≤ b.bytesReady ∧ ∀ k < i, b.held[k]? ≠ some sentinel

/-- A round that finds nothing has passed all that was held. -/
theorem passed_readRead {sentinel : Char} {i : Nat} (hb : b.Valid) (hpassed : b.Passed sentinel i)
    (hnone : ((List.range' i (b.bytesReady - i)).find? fun k => b.peek k == sentinel) = none) :
    (∀ k < b.bytesReady, b.held[k]? ≠ some sentinel) ∧
      b.readRead.2.Passed sentinel (max i b.bytesReady) := by
  obtain ⟨hi, hbefore⟩ := hpassed
  obtain ⟨-, -, -, hpre⟩ := readRead_spec hb
  have hall : ∀ k < b.bytesReady, b.held[k]? ≠ some sentinel := by
    intro k hk heq
    cases Nat.lt_or_ge k i with
    | inl hlt => exact hbefore k hlt heq
    | inr hge =>
      have hne := List.find?_range'_eq_none.mp hnone k hge (by omega)
      rw [getElem?_held hk] at heq
      rw [Option.some.inj heq, beq_self_eq_true] at hne
      cases hne
  have hlen := hpre.length_le
  rw [length_held, length_held] at hlen
  rw [Nat.max_eq_right hi]
  refine ⟨hall, hlen, fun k hk => ?_⟩
  obtain ⟨more, hmore⟩ := hpre
  rw [← hmore, List.getElem?_append_left (length_held b ▸ hk)]
  exact hall k hk

/-- The sentinel that is found is the first one. -/
theorem readUntilLoop_sound {sentinel : Char} {fuel i offset : Nat} (hb : b.Valid)
    (hpassed : b.Passed sentinel i) (h : readUntilLoop sentinel fuel i b = .ok (offset, b')) :
    b'.Valid ∧ b'.bufSize = b.bufSize ∧ b'.stream = b.stream ∧
      b'.held[offset]? = some sentinel ∧ ∀ k < offset, b'.held[k]? ≠ some sentinel := by
  induction fuel generalizing i b with
  | zero => cases h
  | succ fuel ih =>
    rw [readUntilLoop] at h
    split at h
    · rename_i found hfound
      cases h
      obtain ⟨hsentinel, hmem, hfirst⟩ := List.find?_range'_eq_some.mp hfound
      have hready : offset < b'.bytesReady := by
        have hbounds := List.mem_range'_1.mp hmem
        omega
      refine ⟨hb, rfl, rfl, ?_, fun k hk => ?_⟩
      · rw [getElem?_held hready, eq_of_beq hsentinel]
      · cases Nat.lt_or_ge k i with
        | inl hlt => exact hpassed.2 k hlt
        | inr hge =>
          rw [getElem?_held (hk.trans hready)]
          have hne := hfirst k hge hk
          intro heq
          rw [Option.some.inj heq, beq_self_eq_true] at hne
          cases hne
    · rename_i hnone
      obtain ⟨hvalid, hsize, hstream, -⟩ := readRead_spec hb
      dsimp only at h
      split_ifs at h
      obtain ⟨hvalid', hsize', hstream', hat, hbefore⟩ :=
        ih hvalid (passed_readRead hb hpassed hnone).2 h
      exact ⟨hvalid', hsize'.trans hsize, hstream'.trans hstream, hat, hbefore⟩

/-- A sentinel that the buffer has room for is found. -/
theorem readUntilLoop_complete {sentinel : Char} {text rest : List Char} {fuel i : Nat}
    (hb : b.Valid) (hpassed : b.Passed sentinel i)
    (hstream : b.stream = text ++ sentinel :: rest) (hfit : text.length + 1 < b.bufSize)
    (hfuel : b.unread.length < fuel) :
    ∃ found, readUntilLoop sentinel fuel i b = .ok found := by
  induction fuel generalizing i b with
  | zero => exact absurd hfuel (Nat.not_lt_zero _)
  | succ fuel ih =>
    rw [readUntilLoop]
    split
    · exact ⟨_, rfl⟩
    · rename_i hnone
      obtain ⟨hvalid, hsize, hsame, -⟩ := readRead_spec hb
      obtain ⟨hall, hpassed'⟩ := passed_readRead hb hpassed hnone
      have hsmall : b.held.length ≤ text.length := by
        refine Nat.not_lt.mp fun hlt => hall _ (length_held b ▸ hlt) ?_
        rw [← List.getElem?_append_left hlt]
        show b.stream[_]? = _
        rw [hstream, List.getElem?_append_right (Nat.le_refl _), Nat.sub_self,
          List.getElem?_cons_zero]
      have hunread : b.unread ≠ [] := fun hnil => by
        have hlen := congrArg List.length hstream
        rw [stream, hnil, List.append_nil, List.length_append, List.length_cons] at hlen
        omega
      obtain ⟨hpos, hless⟩ := readRead_pos hb (by omega) hunread
      dsimp only
      rw [if_neg (Int.ne_of_gt hpos), if_neg (Int.not_lt.mpr (Int.le_of_lt hpos))]
      exact ih hvalid hpassed' (hsame.trans hstream) (hsize ▸ hfit) (by omega)

theorem passed_zero (b : BufRead) (sentinel : Char) : b.Passed sentinel 0 :=
  ⟨Nat.zero_le _, fun k hk => absurd hk (Nat.not_lt_zero k)⟩

/-- What is popped came first. -/
theorem pop_spec (hb : b.Valid) {n : Nat} (hn : n ≤ b.bytesReady) :
    (b.pop n).1 = b.held.take n ∧ (b.pop n).2.held = b.held.drop n ∧ (b.pop n).2.Valid := by
  refine ⟨?_, window_drop hb.read_lt hb.write_lt n hn, ?_, hb.write_lt⟩
  · show (List.range n).map b.peek = ((List.range (ringCount _ _ _)).map _).take n
    have hmin : min n (ringCount b.bufSize b.readI b.writeI) = n := Nat.min_eq_left hn
    rw [← List.map_take, List.take_range, hmin]
    rfl
  · exact Nat.mod_lt _ (Nat.lt_of_le_of_lt (Nat.zero_le _) hb.read_lt)

/-- A line that is read is the next that was sent. -/
theorem readLine_sound {line : List Char} (hb : b.Valid) (h : b.readLine = .ok (line, b')) :
    b'.Valid ∧ b'.bufSize = b.bufSize ∧ b.stream = line ++ b'.stream ∧ line.length < b.bufSize ∧
      ∃ text, line = text ++ ['\n'] ∧ '\n' ∉ text := by
  unfold readLine at h
  split at h
  · cases h
  · rename_i nlOffset before hread
    obtain ⟨hvalid, hsize, hstream, hat, hbefore⟩ := readUntilLoop_sound hb (passed_zero b _) hread
    obtain ⟨hlt, hnl⟩ := List.getElem?_eq_some_iff.mp hat
    have hready : nlOffset + 1 ≤ before.bytesReady := length_held before ▸ hlt
    obtain ⟨hline, hrest, hvalid'⟩ := pop_spec hvalid hready
    have hsplit : before.held.take (nlOffset + 1) = before.held.take nlOffset ++ ['\n'] := by
      rw [List.take_add_one, hat]
      rfl
    have hpop := Except.ok.inj h
    rw [hpop] at hline hrest hvalid'
    dsimp only at hline hrest hvalid'
    have hunread : b'.unread = before.unread := congrArg (·.2.unread) hpop.symm
    have hsize' : b'.bufSize = before.bufSize := congrArg (·.2.bufSize) hpop.symm
    refine ⟨hvalid', hsize'.trans hsize, ?_, ?_, before.held.take nlOffset, hline.trans hsplit,
      fun hmem => ?_⟩
    · rw [← hstream, hline, stream, stream, hrest, hunread, ← List.append_assoc,
        List.take_append_drop]
    · have hcount := (ringCount_spec hvalid.read_lt hvalid.write_lt).1
      rw [hline, List.length_take, ← hsize]
      exact Nat.lt_of_le_of_lt (Nat.min_le_left _ _) (Nat.lt_of_le_of_lt hready hcount)
    · obtain ⟨k, hk, hnl'⟩ := List.mem_take_iff_getElem.mp hmem
      refine hbefore k (Nat.lt_of_lt_of_le hk (Nat.min_le_left _ _)) ?_
      rw [List.getElem?_eq_getElem (Nat.lt_of_lt_of_le hk (Nat.min_le_right _ _)), hnl']

/-- A text ends at its first newline. -/
theorem text_unique {text text' rest rest' : List Char} (htext : '\n' ∉ text)
    (htext' : '\n' ∉ text') (h : text ++ '\n' :: rest = text' ++ '\n' :: rest') :
    text = text' ∧ rest = rest' := by
  have htake : ∀ (text rest : List Char), '\n' ∉ text →
      (text ++ '\n' :: rest).takeWhile (· ≠ '\n') = text := by
    intro text rest hnl
    rw [List.takeWhile_append_of_pos fun c hc => decide_eq_true (ne_of_mem_of_not_mem hc hnl),
      List.takeWhile_cons_of_neg (by decide), List.append_nil]
  have heq : text = text' := by rw [← htake text rest htext, h, htake text' rest' htext']
  subst heq
  exact ⟨rfl, (List.cons.inj (List.append_cancel_left h)).2⟩

/-- A line that fits is read. -/
theorem readLine_complete {text rest : List Char} (hb : b.Valid)
    (hstream : b.stream = text ++ '\n' :: rest) (htext : '\n' ∉ text)
    (hfit : text.length + 1 < b.bufSize) :
    ∃ b', b.readLine = .ok (text ++ ['\n'], b') ∧ b'.Valid ∧ b'.bufSize = b.bufSize ∧
      b'.stream = rest := by
  obtain ⟨⟨nlOffset, before⟩, hfound⟩ :=
    readUntilLoop_complete hb (passed_zero b _) hstream hfit (Nat.lt_succ_self _)
  have hline : b.readLine = .ok (before.pop (nlOffset + 1)) := by
    unfold readLine readUntil
    rw [hfound]
  obtain ⟨hvalid, hsize, hread, -, text', htext', hnl⟩ := readLine_sound hb hline
  rw [hstream, htext', List.append_assoc, List.singleton_append] at hread
  obtain ⟨rfl, hrest⟩ := text_unique htext hnl hread
  exact ⟨_, hline.trans (congrArg _ (Prod.ext htext' rfl)), hvalid, hsize, hrest.symm⟩

end Lines

end BufRead

end Everarch
