import Mathlib.Data.List.GetD
import Everarch.Glacier.Append
import Everarch.Server.Connection

/-!
# Commands in the received bytes

What a worker has received is a sequence of whole commands and the part of the one it
reads, however the bytes arrive. A blob it queues is the body of a put command, with its
hash.

* `FramingLemmas.proceeds_receive`: what a piece of bytes does to a connection.
* `FramingLemmas.framed_receive`: a piece of bytes keeps this.
-/

namespace Everarch

/-- A command as it is sent. -/
structure Command where
  type : UInt8
  body : Bytes
  fits : body.length < 2 ^ 32

/-- The serialized header. -/
def CmdHeader.bytes (cmd : CmdHeader) : Bytes :=
  cmd.type :: beBytes 4 cmd.bodySize

/-- The serialized command. -/
def Command.bytes (cmd : Command) : Bytes :=
  CmdHeader.bytes ⟨cmd.type, cmd.body.length⟩ ++ cmd.body

/-- Commands behind each other. -/
def frames (cmds : List Command) : Bytes :=
  (cmds.map Command.bytes).flatten

/-- The body of a put command. -/
def putBody (key : BlobRef) (flags : UInt8) (body : Bytes) : Bytes :=
  key.toList ++ flags :: body

/-- Behind whole commands, a put command of the body for the key was received. -/
def PutReceived (received : Bytes) (key : BlobRef) (body : Bytes) : Prop :=
  ∃ (before : List Command) (cmd : Command) (flags : UInt8) (rest : Bytes),
    cmd.type = cmdTypePutBlob ∧ cmd.body = putBody key flags body ∧
      received = frames before ++ cmd.bytes ++ rest

/-- What a call of `read_n` and those before it have read of the current command. -/
def Reading.consumed (r : Reading) (buf : Bytes) : Bytes :=
  match r with
  | .header => buf
  | .unknown cmd | .getKey cmd | .putKey cmd _ | .statKey cmd | .filter cmd | .configure cmd =>
    cmd.bytes ++ buf
  | .putFlags cmd _ key => cmd.bytes ++ (key.toList ++ buf)
  | .putChunk cmd u => cmd.bytes ++ putBody u.key u.flags u.hashed

/-- The upload while a chunk is read. -/
structure Upload.Fills (u : Upload) (remaining : Nat) (buf : Bytes) : Prop where
  pos : 0 < u.remaining
  hashed : u.hashed = u.chunks.flatten ++ buf
  chunk : buf.length + remaining = u.chunkReadSize
  size : u.chunks.flatten.length + u.remaining = u.blobSize

/-- The upload between two chunks. -/
structure Upload.Filled (u : Upload) : Prop where
  size : u.hashed.length + u.remaining = u.blobSize
  hashed : u.hashed = u.chunks.flatten.take u.hashed.length
  full : 0 < u.remaining → u.hashed = u.chunks.flatten

/-- The sizes in a call of `read_n` add up to that of the command. -/
def Reading.Sized (r : Reading) (remaining : Nat) (buf : Bytes) : Prop :=
  match r with
  | .header => buf.length + remaining = cmdHeaderSize
  | .unknown cmd | .getKey cmd | .statKey cmd | .filter cmd | .configure cmd =>
    cmd.bodySize < 2 ^ 32 ∧ buf.length + remaining = cmd.bodySize
  | .putKey cmd blobSize =>
    cmd.type = cmdTypePutBlob ∧ cmd.bodySize < 2 ^ 32 ∧ cmd.bodySize = blobRefSize + 1 + blobSize ∧
      buf.length + remaining = blobRefSize
  | .putFlags cmd blobSize _ =>
    cmd.type = cmdTypePutBlob ∧ cmd.bodySize < 2 ^ 32 ∧ cmd.bodySize = blobRefSize + 1 + blobSize ∧
      buf.length + remaining = 1
  | .putChunk cmd u =>
    cmd.type = cmdTypePutBlob ∧ cmd.bodySize < 2 ^ 32 ∧ cmd.bodySize = blobRefSize + 1 + u.blobSize ∧
      u.Fills remaining buf

/-- The received bytes are whole commands and what the worker has read of the next. -/
def Framed (hash : Bytes → BlobRef) (c : Connection) : Prop :=
  match c.worker with
  | .reading r remaining buf =>
    r.Sized remaining buf ∧ ∃ cmds, c.received = frames cmds ++ r.consumed buf
  | .queueTask blob =>
    PutReceived c.received blob.key blob.body ∧ hash blob.body = blob.key ∧
      ∃ cmds, c.received = frames cmds
  | .ended _ => True
  | _ => ∃ cmds, c.received = frames cmds

namespace FramingLemmas

/-! ## Serialized commands -/

theorem frames_append (cmds cmds' : List Command) :
    frames (cmds ++ cmds') = frames cmds ++ frames cmds' := by
  rw [frames, List.map_append, List.flatten_append]
  rfl

theorem frames_singleton (cmd : Command) : frames [cmd] = cmd.bytes :=
  List.append_nil _

theorem bytes_parseCmdHeader {buf : Bytes} (h : buf.length = cmdHeaderSize) :
    (parseCmdHeader buf).bytes = buf := by
  cases buf with
  | nil => cases h
  | cons b bs =>
    have hlen : bs.length = 4 := Nat.succ.inj h
    have hread : readAt (b :: bs) 1 4 = bs := by
      rw [readAt, List.drop_one, List.tail_cons, List.take_of_length_le (Nat.le_of_eq hlen)]
    have hbytes := beBytes_ofBeBytes bs
    rw [hlen] at hbytes
    rw [parseCmdHeader, CmdHeader.bytes, hread, hbytes]
    rfl

theorem bodySize_parseCmdHeader_lt (buf : Bytes) : (parseCmdHeader buf).bodySize < 2 ^ 32 := by
  have hle : (readAt buf 1 4).length ≤ 4 := List.length_take_le _ _
  have hpow : 256 ^ (readAt buf 1 4).length ≤ 256 ^ 4 := Nat.pow_le_pow_right (by decide) hle
  have hlt : ofBeBytes (readAt buf 1 4) < 256 ^ 4 := Nat.lt_of_lt_of_le (ofBeBytes_lt _) hpow
  have hpow' : (2 : Nat) ^ 32 = 256 ^ 4 := by norm_num
  rw [hpow']
  exact hlt

theorem toList_blobRefOf {buf : Bytes} (h : buf.length = blobRefSize) :
    (blobRefOf buf).toList = buf := by
  rw [blobRefOf, Vector.toList_ofFn]
  refine List.ext_getElem ?_ fun i hi hi' => ?_
  · rw [List.length_ofFn, h]
  · rw [List.getElem_ofFn, List.getD_eq_getElem _ _ hi']

theorem length_putBody (key : BlobRef) (flags : UInt8) (body : Bytes) :
    (putBody key flags body).length = blobRefSize + 1 + body.length := by
  rw [putBody, List.length_append, Vector.length_toList, List.length_cons]
  omega

/-- A command that has been read as a whole. -/
theorem whole_command {cmd : CmdHeader} {body : Bytes} (hlt : cmd.bodySize < 2 ^ 32)
    (hsize : body.length = cmd.bodySize) :
    ∃ whole : Command, whole.type = cmd.type ∧ whole.body = body ∧
      cmd.bytes ++ body = whole.bytes := by
  obtain ⟨type, bodySize⟩ := cmd
  subst hsize
  exact ⟨⟨type, body, hlt⟩, rfl, rfl, rfl⟩

theorem frames_concat {received consumed : Bytes} {cmds : List Command} {cmd : Command}
    (hreceived : received = frames cmds ++ consumed) (hcmd : consumed = cmd.bytes) :
    received = frames (cmds ++ [cmd]) := by
  rw [hreceived, hcmd, frames_append, frames_singleton]

theorem putReceived_append {received : Bytes} {key : BlobRef} {body : Bytes}
    (h : PutReceived received key body) (more : Bytes) : PutReceived (received ++ more) key body := by
  obtain ⟨before, cmd, flags, rest, htype, hbody, rfl⟩ := h
  exact ⟨before, cmd, flags, rest ++ more, htype, hbody, List.append_assoc _ _ _⟩

/-! ## Chunks -/

theorem filled_start (key : BlobRef) (flags : UInt8) (blobSize : Nat) :
    (Upload.start key flags blobSize).Filled where
  size := Nat.zero_add _
  hashed := rfl
  full _ := rfl

theorem fills_of_filled {u : Upload} (h : u.Filled) (hpos : u.remaining ≠ 0) :
    u.Fills u.chunkReadSize [] where
  pos := Nat.pos_of_ne_zero hpos
  hashed := by rw [List.append_nil, h.full (Nat.pos_of_ne_zero hpos)]
  chunk := Nat.zero_add _
  size := by rw [← h.full (Nat.pos_of_ne_zero hpos), h.size]

theorem fills_write {u : Upload} {remaining : Nat} {buf data : Bytes} (h : u.Fills remaining buf)
    (hle : data.length ≤ remaining) :
    (u.write data).Fills (remaining - data.length) (buf ++ data) where
  pos := h.pos
  hashed := by rw [Upload.write, h.hashed, List.append_assoc]
  chunk := by
    rw [List.length_append, Nat.add_assoc, Nat.add_sub_cancel' hle]
    exact h.chunk
  size := h.size

theorem take_chunkOf {buf : Bytes} (h : buf.length ≤ chunkSize) :
    (Upload.chunkOf buf).take buf.length = buf := by
  rw [Upload.chunkOf, List.take_take, Nat.min_eq_left h, List.take_left]

/-- The chunk is complete: only the last one is not full. -/
theorem filled_addChunk {u : Upload} {buf : Bytes} (h : u.Fills 0 buf) :
    (u.addChunk buf).Filled := by
  have hchunk : buf.length = min u.remaining chunkSize := h.chunk
  have hsmall : buf.length ≤ chunkSize := hchunk ▸ Nat.min_le_right _ _
  have hflat : (u.addChunk buf).chunks.flatten = u.chunks.flatten ++ Upload.chunkOf buf := by
    rw [Upload.addChunk, List.flatten_append, List.flatten_singleton]
  have hhashed : (u.addChunk buf).hashed = u.chunks.flatten ++ buf := h.hashed
  refine ⟨?_, ?_, fun hpos => ?_⟩
  · have hle : buf.length ≤ u.remaining := hchunk ▸ Nat.min_le_left _ _
    have hrest : (u.addChunk buf).remaining = u.remaining - buf.length := by
      rw [hchunk]
      rfl
    rw [hhashed, hrest, List.length_append, Nat.add_assoc, Nat.add_sub_cancel' hle]
    exact h.size
  · rw [hhashed, hflat, List.length_append, List.take_length_add_append, take_chunkOf hsmall]
  · have hrest : 0 < u.remaining - min u.remaining chunkSize := hpos
    have hfull : buf.length = chunkSize := by omega
    have hsame := take_chunkOf hsmall
    rw [hfull, List.take_of_length_le (Nat.le_of_eq (Upload.length_chunkOf _))] at hsame
    rw [hhashed, hflat, hsame]

/-- The blob of a complete upload has the bytes that were hashed. -/
theorem body_blob {u : Upload} (h : u.Filled) (hzero : u.remaining = 0)
    (syncStrategy : SyncStrategy) : (u.blob syncStrategy hzero).body = u.hashed := by
  have hsize : u.hashed.length = u.blobSize := by rw [← h.size, hzero, Nat.add_zero]
  rw [WritingBlob.body_eq, h.hashed, hsize]
  rfl

/-! ## Calls of read_n -/

section Receive

variable {hash : Bytes → BlobRef} {running : Bool} {c : Connection} {cmds : List Command}

/-- What a worker does once it has read `consumed` of a command. -/
inductive Proceeds (hash : Bytes → BlobRef) (running : Bool) (c : Connection) (consumed : Bytes) :
    Connection → Prop
  | refused (res : Res) : Proceeds hash running c consumed (c.goto (.ended res))
  | reads {r : Reading} {remaining : Nat} {buf : Bytes} (hsized : r.Sized remaining buf)
      (hconsumed : r.consumed buf = consumed) :
      Proceeds hash running c consumed (c.goto (.reading r remaining buf))
  | uploaded {cmd : Command} {flags : UInt8} {blob : WritingBlob} (hcmd : consumed = cmd.bytes)
      (htype : cmd.type = cmdTypePutBlob) (hbody : cmd.body = putBody blob.key flags blob.body)
      (hhash : hash blob.body = blob.key) :
      Proceeds hash running c consumed (c.goto (.queueTask blob))
  | finds {cmd : Command} (hcmd : consumed = cmd.bytes) (key : BlobRef) :
      Proceeds hash running c consumed (c.goto (.findBlob key))
  | stats {cmd : Command} (hcmd : consumed = cmd.bytes) (key : BlobRef) :
      Proceeds hash running c consumed (c.goto (.statBlob key))
  | watches {cmd : Command} (hcmd : consumed = cmd.bytes) (f : BlobFilter) :
      Proceeds hash running c consumed (c.answer .watching (.addWatcher f))
  | answers {cmd : Command} {reply : Reply} (hcmd : consumed = cmd.bytes)
      (hreply : reply = .unknownRequest ∨ reply = .configured) (syncStrategy : SyncStrategy) :
      Proceeds hash running c consumed
        (({ c with syncStrategy := syncStrategy } : Connection).answer reply
          (Connection.nextCommand running))

/-- The sizes and the consumed bytes after a piece of data. -/
theorem sized_sideEffect {r : Reading} {remaining : Nat} {buf data : Bytes}
    (h : r.Sized remaining buf) (hle : data.length ≤ remaining) :
    (r.sideEffect data).Sized (remaining - data.length) (buf ++ data) ∧
      (r.sideEffect data).consumed (buf ++ data) = r.consumed buf ++ data := by
  have hlen : (buf ++ data).length + (remaining - data.length) = buf.length + remaining := by
    rw [List.length_append, Nat.add_assoc, Nat.add_sub_cancel' hle]
  cases r with
  | header => exact ⟨hlen.trans h, rfl⟩
  | unknown | getKey | statKey | filter | configure =>
    exact ⟨⟨h.1, hlen.trans h.2⟩, (List.append_assoc _ _ _).symm⟩
  | putKey => exact ⟨⟨h.1, h.2.1, h.2.2.1, hlen.trans h.2.2.2⟩, (List.append_assoc _ _ _).symm⟩
  | putFlags =>
    refine ⟨⟨h.1, h.2.1, h.2.2.1, hlen.trans h.2.2.2⟩, ?_⟩
    simp only [Reading.sideEffect, Reading.consumed, List.append_assoc]
  | putChunk cmd u =>
    refine ⟨⟨h.1, h.2.1, h.2.2.1, fills_write h.2.2.2 hle⟩, ?_⟩
    simp only [Reading.sideEffect, Reading.consumed, Upload.write, putBody, List.append_assoc,
      List.cons_append]

/-- A body without flags has a huge size, which is refused. -/
theorem putBlobSize_eq {bodySize : Nat} (hge : blobRefSize ≤ bodySize) (hlt : bodySize < 2 ^ 32)
    (hsmall : putBlobSize bodySize ≤ maxBlobDataSize) :
    bodySize = blobRefSize + 1 + putBlobSize bodySize := by
  unfold putBlobSize maxBlobDataSize at *
  unfold blobRefSize at *
  omega

theorem proceeds_startCommand {cmd : CmdHeader} (hlt : cmd.bodySize < 2 ^ 32) :
    Proceeds hash running c cmd.bytes (c.startCommand running cmd) := by
  have hread {r : Reading} {remaining : Nat} (hconsumed : r.consumed [] = cmd.bytes ++ [])
      (hsized : r.Sized remaining []) :
      Proceeds hash running c cmd.bytes (c.goto (.reading r remaining [])) :=
    .reads hsized (hconsumed.trans (List.append_nil _))
  unfold Connection.startCommand
  split
  · split
    · exact .refused _
    · next hsize => exact hread rfl ⟨hlt, (not_not.mp hsize).symm⟩
  · split
    · next htype =>
      split
      · exact .refused _
      · next hge =>
        split
        · exact .refused _
        · next hsmall =>
          have hsize := putBlobSize_eq (Nat.not_lt.mp hge) hlt (Nat.not_lt.mp hsmall)
          exact hread rfl ⟨htype, hlt, hsize, Nat.zero_add _⟩
    · split
      · split
        · exact .refused _
        · next hsize => exact hread rfl ⟨hlt, (not_not.mp hsize).symm⟩
      · split
        · split
          · exact .refused _
          · next hsize => exact hread rfl ⟨hlt, (not_not.mp hsize).symm⟩
        · split
          · split
            · exact .refused _
            · exact hread rfl ⟨hlt, Nat.zero_add _⟩
          · split
            · next hzero =>
              obtain ⟨whole, -, -, hwhole⟩ := @whole_command cmd [] hlt hzero.symm
              rw [List.append_nil] at hwhole
              exact .answers hwhole (.inl rfl) c.syncStrategy
            · exact hread rfl ⟨hlt, Nat.zero_add _⟩

theorem proceeds_nextChunk {cmd : CmdHeader} {u : Upload} (h : u.Filled)
    (htype : cmd.type = cmdTypePutBlob) (hlt : cmd.bodySize < 2 ^ 32)
    (hsize : cmd.bodySize = blobRefSize + 1 + u.blobSize) :
    Proceeds hash running c (cmd.bytes ++ putBody u.key u.flags u.hashed)
      (c.nextChunk hash cmd u) := by
  unfold Connection.nextChunk
  split
  · next hzero =>
    split
    · exact .refused _
    · next hhash =>
      have hlen : (putBody u.key u.flags u.hashed).length = cmd.bodySize := by
        have hfilled := h.size
        rw [hzero, Nat.add_zero] at hfilled
        rw [length_putBody, hsize, hfilled]
      obtain ⟨whole, hwtype, hwbody, hwhole⟩ := whole_command hlt hlen
      have hblob := body_blob h hzero c.syncStrategy
      have hbody : whole.body = putBody u.key u.flags (u.blob c.syncStrategy hzero).body := by
        rw [hwbody, hblob]
      refine .uploaded hwhole (hwtype.trans htype) hbody ?_
      rw [hblob]
      exact not_not.mp hhash
  · next hpos => exact .reads ⟨htype, hlt, hsize, fills_of_filled h hpos⟩ rfl

/-- The end of a call of `read_n`. -/
theorem proceeds_completed {r : Reading} {buf : Bytes} (h : r.Sized 0 buf) :
    Proceeds hash running c (r.consumed buf) (c.completed hash running buf r) := by
  cases r with
  | header =>
    have hheader : Reading.header.consumed buf = (parseCmdHeader buf).bytes :=
      (bytes_parseCmdHeader h).symm
    rw [hheader]
    exact proceeds_startCommand (bodySize_parseCmdHeader_lt buf)
  | unknown cmd =>
    obtain ⟨whole, -, -, hwhole⟩ := whole_command h.1 h.2
    exact .answers hwhole (.inl rfl) c.syncStrategy
  | configure cmd =>
    obtain ⟨whole, -, -, hwhole⟩ := whole_command h.1 h.2
    exact .answers hwhole (.inr rfl) (parseSyncStrategy buf)
  | getKey cmd =>
    obtain ⟨whole, -, -, hwhole⟩ := whole_command h.1 h.2
    exact .finds hwhole (blobRefOf buf)
  | statKey cmd =>
    obtain ⟨whole, -, -, hwhole⟩ := whole_command h.1 h.2
    exact .stats hwhole (blobRefOf buf)
  | filter cmd =>
    obtain ⟨whole, -, -, hwhole⟩ := whole_command h.1 h.2
    exact .watches hwhole (parseBlobFilter buf)
  | putKey cmd blobSize =>
    obtain ⟨htype, hlt, hsize, hlen⟩ := h
    refine .reads ⟨htype, hlt, hsize, rfl⟩ ?_
    show cmd.bytes ++ ((blobRefOf buf).toList ++ []) = cmd.bytes ++ buf
    rw [List.append_nil, toList_blobRefOf hlen]
  | putFlags cmd blobSize key =>
    obtain ⟨htype, hlt, hsize, hlen⟩ := h
    obtain ⟨flags, rfl⟩ := List.length_eq_one_iff.mp hlen
    exact proceeds_nextChunk (filled_start key flags blobSize) htype hlt hsize
  | putChunk cmd u =>
    obtain ⟨htype, hlt, hsize, hfills⟩ := h
    exact proceeds_nextChunk (filled_addChunk hfills) htype hlt hsize

theorem Reading.limit_le (r : Reading) (remaining : Nat) : r.limit remaining ≤ remaining := by
  cases r with
  | unknown => exact Nat.min_le_right _ _
  | _ => exact Nat.le_refl _

/-- A piece of bytes is not taken, or it is read behind what was read of the command. -/
theorem proceeds_receive (hash : Bytes → BlobRef) (running : Bool) (c : Connection)
    (data : Bytes) :
    c.receive hash running data = c ∨ ∃ r remaining buf, c.worker = .reading r remaining buf ∧
      (r.Sized remaining buf →
        Proceeds hash running { c with received := c.received ++ data } (r.consumed buf ++ data)
          (c.receive hash running data)) := by
  unfold Connection.receive
  split
  · next r remaining buf hworker =>
    split
    · exact .inl rfl
    · next hdata =>
      refine .inr ⟨r, remaining, buf, hworker, fun hsized => ?_⟩
      have hle : data.length ≤ remaining :=
        Nat.le_trans (Nat.not_lt.mp fun hlt => hdata (.inr hlt)) (Reading.limit_le r remaining)
      obtain ⟨hsized', hconsumed⟩ := sized_sideEffect hsized hle
      rw [← hconsumed]
      simp only
      split
      · exact .reads hsized' rfl
      · next hge =>
        have hzero : remaining - data.length = 0 := Nat.sub_eq_zero_of_le (Nat.not_lt.mp hge)
        rw [hzero] at hsized'
        exact proceeds_completed hsized'
  · exact .inl rfl

/-! ## Frames -/

/-- The worker goes on to the next command. -/
theorem framed_nextCommand (hworker : c.worker = Connection.nextCommand running)
    (hreceived : c.received = frames cmds) : Framed hash c := by
  unfold Framed
  rw [hworker]
  cases running with
  | false => trivial
  | true => exact ⟨rfl, cmds, by rw [hreceived]; exact (List.append_nil _).symm⟩

theorem framed_proceeds {consumed : Bytes} {c' : Connection}
    (h : Proceeds hash running c consumed c') (hreceived : c.received = frames cmds ++ consumed) :
    Framed hash c' := by
  cases h with
  | refused => trivial
  | reads hsized hconsumed => exact ⟨hsized, cmds, hconsumed ▸ hreceived⟩
  | uploaded hcmd htype hbody hhash =>
    refine ⟨⟨cmds, _, _, [], htype, hbody, ?_⟩, hhash, _, frames_concat hreceived hcmd⟩
    rw [List.append_nil, ← hcmd]
    exact hreceived
  | finds hcmd | stats hcmd | watches hcmd => exact ⟨_, frames_concat hreceived hcmd⟩
  | answers hcmd => exact framed_nextCommand rfl (frames_concat hreceived hcmd)

/-- A piece of bytes keeps the frames. -/
theorem framed_receive (h : Framed hash c) (data : Bytes) :
    Framed hash (c.receive hash running data) := by
  rcases proceeds_receive hash running c data with
    hsame | ⟨r, remaining, buf, hworker, hproceeds⟩
  · rw [hsame]
    exact h
  · rw [Framed, hworker] at h
    obtain ⟨hsized, cmds, hreceived⟩ := h
    have hreceived' : c.received ++ data = frames cmds ++ (r.consumed buf ++ data) := by
      rw [hreceived, List.append_assoc]
    exact framed_proceeds (hproceeds hsized) hreceived'

end Receive

end FramingLemmas

end Everarch
