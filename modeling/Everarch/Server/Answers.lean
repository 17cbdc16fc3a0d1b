import Everarch.Server.Watchers
import Everarch.Server.Framing

/-!
# One response header for each command

What a connection has received is a sequence of whole commands and a part of the next one, as
in `Everarch.Server.Framing`. Here the response headers that it has sent are counted as well: it
sends one for each command that it has handled, and then reads the next header or ends.

* `AnswersLemmas.counted_step`: a step of the server keeps the count.
* `AnswersLemmas.frames_prefix`: the commands in a stream of bytes are determined.

Result: `commands_framed`.
-/

namespace Everarch

/-- A reply that starts with a response header. The blobs of a watch follow on its header. -/
def Reply.isHeader : Reply → Bool
  | .modified _ => false
  | _ => true

/-- The response headers of all replies that are complete. -/
def Connection.headers (c : Connection) : Nat :=
  (c.replies.filter Reply.isHeader).length

/-- The response headers that were sent. That of a blob is sent before its data. -/
def Connection.headersSent (c : Connection) : Nat :=
  match c.worker with
  | .sendBlob .. => c.headers + 1
  | _ => c.headers

/-- The received bytes, and a header for each command up to the one that is handled. -/
def Counted (c : Connection) : Prop :=
  match c.worker with
  | .reading r remaining buf =>
    r.Sized remaining buf ∧ ∃ cmds, c.received = frames cmds ++ r.consumed buf ∧
      c.headers = cmds.length
  | .ended _ => ∃ cmds rest, c.received = frames cmds ++ rest ∧ c.headers ≤ cmds.length
  | .addWatcher _ | .listBlobs _ _ | .sendList _ _ | .takeBlob _ | .waitFill _ =>
    ∃ cmds, c.received = frames cmds ∧ c.headers = cmds.length
  | _ => ∃ cmds, c.received = frames cmds ∧ c.headers + 1 = cmds.length

namespace AnswersLemmas

open FramingLemmas WatchersLemmas

/-! ## Bytes that arrive -/

section Receive

variable {hash : Bytes → BlobRef} {running : Bool} {c : Connection} {cmds : List Command}

theorem headers_answer {r : Reply} (hr : r.isHeader = true) (w : Worker) :
    (c.answer r w).headers = c.headers + 1 := by
  unfold Connection.answer Connection.headers
  rw [List.filter_append, List.length_append, List.filter_cons_of_pos hr]
  rfl

theorem headers_modified (blob : ModifiedBlob) (w : Worker) :
    (c.answer (.modified blob) w).headers = c.headers := by
  unfold Connection.answer Connection.headers
  rw [List.filter_append, List.length_append]
  rfl

/-- All that a connection has received, whatever its worker does. -/
theorem counted_le (h : Counted c) :
    ∃ cmds rest, c.received = frames cmds ++ rest ∧ c.headers ≤ cmds.length := by
  unfold Counted at h
  split at h
  · obtain ⟨-, cmds, hreceived, hheaders⟩ := h
    exact ⟨cmds, _, hreceived, Nat.le_of_eq hheaders⟩
  · exact h
  all_goals
    obtain ⟨cmds, hreceived, hheaders⟩ := h
    refine ⟨cmds, [], ?_, ?_⟩
    · rw [hreceived, List.append_nil]
    · omega

theorem counted_ended (h : Counted c) (res : Res) : Counted (c.goto (.ended res)) := by
  obtain ⟨cmds, rest, hreceived, hheaders⟩ := counted_le h
  exact ⟨cmds, rest, hreceived, hheaders⟩

/-- The command is answered, and the worker goes on to the next one. -/
theorem counted_next {r : Reply} (hr : r.isHeader = true) (hreceived : c.received = frames cmds)
    (hheaders : c.headers + 1 = cmds.length) :
    Counted (c.answer r (Connection.nextCommand running)) := by
  have hcount : (c.answer r (Connection.nextCommand running)).headers = cmds.length := by
    rw [headers_answer hr, hheaders]
  cases running with
  | false => exact ⟨cmds, [], by rw [List.append_nil]; exact hreceived, Nat.le_of_eq hcount⟩
  | true => exact ⟨rfl, cmds, by rw [← List.append_nil (frames cmds)] at hreceived; exact hreceived, hcount⟩

theorem counted_proceeds {consumed : Bytes} {c' : Connection}
    (h : Proceeds hash running c consumed c') (hreceived : c.received = frames cmds ++ consumed)
    (hheaders : c.headers = cmds.length) : Counted c' := by
  have hcount (cmd : Command) : c.headers + 1 = (cmds ++ [cmd]).length := by
    rw [List.length_append, hheaders]
    rfl
  cases h with
  | refused => exact ⟨cmds, consumed, hreceived, Nat.le_of_eq hheaders⟩
  | reads hsized hconsumed => exact ⟨hsized, cmds, hconsumed ▸ hreceived, hheaders⟩
  | uploaded hcmd | finds hcmd | stats hcmd =>
    exact ⟨_, frames_concat hreceived hcmd, hcount _⟩
  | watches hcmd =>
    exact ⟨_, frames_concat hreceived hcmd, (headers_answer rfl _).trans (hcount _)⟩
  | @answers _ reply hcmd hreply syncStrategy =>
    have hheader : reply.isHeader = true := by
      rcases hreply with rfl | rfl
      · rfl
      · rfl
    exact @counted_next running { c with syncStrategy := syncStrategy } _ reply hheader
      (frames_concat hreceived hcmd) (hcount _)

theorem counted_receive (h : Counted c) (data : Bytes) : Counted (c.receive hash running data) := by
  rcases proceeds_receive hash running c data with
    hsame | ⟨r, remaining, buf, hworker, hproceeds⟩
  · rw [hsame]
    exact h
  · rw [Counted, hworker] at h
    obtain ⟨hsized, cmds, hreceived, hheaders⟩ := h
    have hreceived' : c.received ++ data = frames cmds ++ (r.consumed buf ++ data) := by
      rw [hreceived, List.append_assoc]
    exact counted_proceeds (hproceeds hsized) hreceived' hheaders

end Receive

/-! ## Steps of the server -/

section Step

variable {env : StorageEnv} {s : Server} {i : Nat}

theorem counted_endWatch (h : Counted (s.connection i)) (slot : Option Nat) (res : Res) :
    Counted ((s.endWatch i slot res).connection i) := by
  cases slot with
  | none =>
    unfold Server.endWatch
    rw [Server.setConnection_self]
    exact counted_ended h res
  | some slot =>
    unfold Server.endWatch
    dsimp only
    rw [Server.setConnection_self]
    exact counted_ended h res

theorem counted_sendTaken {slot : Nat} {o : Observer}
    (h : ∃ cmds, (s.connection i).received = frames cmds ∧
      (s.connection i).headers = cmds.length) :
    Counted ((s.sendTaken i slot o).connection i) := by
  obtain ⟨cmds, hreceived, hheaders⟩ := h
  unfold Server.sendTaken
  dsimp only
  rw [Server.setConnection_self]
  exact ⟨cmds, hreceived, (headers_modified _ _).trans hheaders⟩

theorem counted_answers {c : Connection} {w : Worker} {r : Reply} (h : Counted c)
    (hw : c.worker = w) (hanswers : s.Answers w r) (running : Bool) :
    Counted (c.answer r (Connection.nextCommand running)) := by
  rw [Counted, hw] at h
  cases hanswers with
  | _ =>
    obtain ⟨cmds, hreceived, hheaders⟩ := h
    exact counted_next rfl hreceived hheaders

theorem counted_moves {c : Connection} {n : Nat} {w w' : Worker} (h : Counted c)
    (hw : c.worker = w) (hmoves : s.Moves env n w w') : Counted (c.goto w') := by
  cases hmoves with
  | notOpened | notQueued | notStored | notWatching => exact counted_ended h _
  | _ =>
    rw [Counted, hw] at h
    exact h

theorem counted_turn (h : Counted (s.connection i)) (n : Nat) :
    Counted ((s.turn env i n).connection i) := by
  have hset : ∀ {c}, Counted c → Counted ((s.setConnection i c).connection i) := fun hc => by
    rw [Server.setConnection_self]
    exact hc
  have hturned := s.turned env i n
  generalize s.turn env i n = s' at hturned ⊢
  cases hturned with
  | idle => exact h
  | answered hw hanswers => exact hset (counted_answers h hw hanswers s.running)
  | moved hw hmoves => exact hset (counted_moves h hw hmoves)
  | queued hw =>
    rw [Counted, hw] at h
    exact hset (c := (s.connection i).goto .waitForTask) h
  | @watching f slot _ hw =>
    rw [Counted, hw] at h
    exact hset (c := (s.connection i).goto (.listBlobs f (some slot))) h
  | @reported slot blob blobs hw =>
    rw [Counted, hw] at h
    obtain ⟨cmds, hreceived, hheaders⟩ := h
    exact hset (c := (s.connection i).answer (.modified blob) (.sendList slot blobs))
      ⟨cmds, hreceived, (headers_modified blob _).trans hheaders⟩
  | ended => exact counted_endWatch h _ _
  | took hw =>
    refine counted_sendTaken ?_
    rcases hw with hw | hw
    · rw [Counted, hw] at h
      exact h
    · rw [Counted, hw] at h
      exact h

theorem counted_hangUp (h : Counted (s.connection i)) : Counted ((s.hangUp i).connection i) := by
  have hend := fun res => counted_ended h res
  have hendWatch := fun slot res => @counted_endWatch s i h slot res
  unfold Server.hangUp
  dsimp only
  split
  · rw [Server.setConnection_self]
    exact hend _
  · exact h
  · exact h
  · exact h
  · exact hendWatch _ _
  · exact hendWatch _ _
  · exact hendWatch _ _
  · exact hendWatch _ _
  · rw [Server.setConnection_self]
    exact hend _

theorem counted_unlockDone (h : Counted (s.connection i)) (res : Res) :
    Counted ((s.unlockDone i res).connection i) := by
  unfold Server.unlockDone
  split
  · next hw =>
    rw [Counted, hw] at h
    rw [Server.setConnection_self]
    exact h
  · exact h

/-- A step of the server keeps the count of every connection. -/
theorem counted_step (h : Counted (s.connection i)) (e : ServerEvent) :
    Counted ((s.step env e).connection i) := by
  unfold Server.step
  split
  · exact h
  · cases e with
    | receive j data =>
      by_cases hj : i = j
      · rw [← hj]
        dsimp only
        rw [Server.setConnection_self]
        exact counted_receive h data
      · dsimp only
        rw [Server.setConnection_of_ne s hj]
        exact h
    | hangUp j =>
      by_cases hj : i = j
      · exact hj ▸ counted_hangUp h
      · dsimp only
        rw [hangUp_connection_of_ne hj]
        exact h
    | turn j n =>
      by_cases hj : i = j
      · exact hj ▸ counted_turn h n
      · dsimp only
        rw [turn_connection_of_ne hj]
        exact h
    | takeTask now =>
      dsimp only
      rw [(takeTask_connection env s now).1]
      exact h
    | persist =>
      dsimp only
      unfold Server.persist
      split
      · exact h
      · exact h
      · split
        · exact h
        · exact h
        · exact h
      · next task lastModified res hp =>
        by_cases hj : i = task.owner
        · exact hj ▸ counted_unlockDone h res
        · dsimp only
          rw [unlockDone_connection_of_ne hj]
          exact h
      · exact h
    | shutdown => exact h
    | stopPersister => exact h

theorem counted_run (env : StorageEnv) (events : List ServerEvent) (i : Nat) :
    Counted ((exec (Server.step env) .start events).connection i) := by
  induction events using List.reverseRecOn with
  | nil => exact ⟨rfl, [], rfl, rfl⟩
  | append_singleton events e ih =>
    rw [exec_append_singleton]
    exact counted_step ih e

end Step

/-! ## The commands in a stream -/

theorem command_ext {cmd cmd' : Command} (htype : cmd.type = cmd'.type)
    (hbody : cmd.body = cmd'.body) : cmd = cmd' := by
  obtain ⟨type, body, fits⟩ := cmd
  obtain ⟨type', body', fits'⟩ := cmd'
  cases htype
  cases hbody
  rfl

/-- The header says where a command ends. -/
theorem bytes_inj {cmd cmd' : Command} {rest rest' : Bytes}
    (h : cmd.bytes ++ rest = cmd'.bytes ++ rest') : cmd = cmd' ∧ rest = rest' := by
  unfold Command.bytes CmdHeader.bytes at h
  rw [List.cons_append, List.cons_append, List.cons_append, List.cons_append] at h
  obtain ⟨htype, htail⟩ := List.cons.inj h
  rw [List.append_assoc, List.append_assoc] at htail
  obtain ⟨hsize, hrest⟩ := List.append_inj htail
    (by rw [length_beBytes, length_beBytes])
  have hlen : cmd.body.length = cmd'.body.length := by
    have hfits : cmd.body.length < 256 ^ 4 := cmd.fits
    have hfits' : cmd'.body.length < 256 ^ 4 := cmd'.fits
    rw [← ofBeBytes_beBytes hfits, hsize, ofBeBytes_beBytes hfits']
  obtain ⟨hbody, hrest⟩ := List.append_inj hrest hlen
  exact ⟨command_ext htype hbody, hrest⟩

theorem frames_cons (cmd : Command) (cmds : List Command) :
    frames (cmd :: cmds) = cmd.bytes ++ frames cmds := by
  unfold frames
  rw [List.map_cons, List.flatten_cons]

/-- The commands that a stream starts with are determined. -/
theorem frames_prefix {cmds sent : List Command} {rest : Bytes}
    (h : frames cmds ++ rest <+: frames sent) : cmds <+: sent := by
  induction cmds generalizing sent with
  | nil => exact List.nil_prefix
  | cons cmd cmds ih =>
    obtain ⟨more, hmore⟩ := h
    rw [frames_cons, List.append_assoc, List.append_assoc] at hmore
    cases sent with
    | nil => cases hmore
    | cons cmd' sent =>
      rw [frames_cons] at hmore
      obtain ⟨rfl, hrest⟩ := bytes_inj hmore
      refine List.cons_prefix_cons.mpr ⟨rfl, ih ⟨more, ?_⟩⟩
      rw [List.append_assoc]
      exact hrest

end AnswersLemmas

/-- What a connection has received is a sequence of whole commands and a rest. The commands are
those that the client has framed, and at most one response header was sent for each of them.
While the worker reads a header, the rest is what it has read of it, and each command was
answered with exactly one response header. -/
def FramesKept (c : Connection) : Prop :=
  ∃ cmds rest, c.received = frames cmds ++ rest ∧ c.headersSent ≤ cmds.length ∧
    (∀ sent, c.received <+: frames sent → cmds <+: sent) ∧
    ∀ remaining buf, c.worker = .reading .header remaining buf →
      rest = buf ∧ buf.length + remaining = cmdHeaderSize ∧ c.headersSent = cmds.length

namespace AnswersLemmas

/-- A worker that does not read a header. -/
theorem framesKept_of_le {c : Connection} {cmds : List Command} {rest : Bytes}
    (hreceived : c.received = frames cmds ++ rest) (hheaders : c.headersSent ≤ cmds.length)
    (hw : ∀ remaining buf, c.worker ≠ .reading .header remaining buf) : FramesKept c :=
  ⟨cmds, rest, hreceived, hheaders, fun _ hpre => frames_prefix (hreceived ▸ hpre),
    fun remaining buf heq => absurd heq (hw remaining buf)⟩

theorem headersSent_le (c : Connection) : c.headersSent ≤ c.headers + 1 := by
  unfold Connection.headersSent
  split
  · exact Nat.le_refl _
  · exact Nat.le_succ _

theorem headersSent_eq {c : Connection}
    (hw : ∀ key flags bucket offset remaining data,
      c.worker ≠ .sendBlob key flags bucket offset remaining data) :
    c.headersSent = c.headers := by
  unfold Connection.headersSent
  split
  · next hsend => exact absurd hsend (hw _ _ _ _ _ _)
  · rfl

theorem framesKept_watching {c : Connection}
    (hw : (∃ f, c.worker = .addWatcher f) ∨ (∃ f slot, c.worker = .listBlobs f slot) ∨
      (∃ slot blobs, c.worker = .sendList slot blobs) ∨ (∃ slot, c.worker = .takeBlob slot) ∨
      ∃ slot, c.worker = .waitFill slot)
    (h : ∃ cmds, c.received = frames cmds ∧ c.headers = cmds.length) : FramesKept c := by
  obtain ⟨cmds, hreceived, hheaders⟩ := h
  rw [← List.append_nil (frames cmds)] at hreceived
  have hother : (∀ key flags bucket offset remaining data,
      c.worker ≠ .sendBlob key flags bucket offset remaining data) ∧
      ∀ remaining buf, c.worker ≠ .reading .header remaining buf := by
    rcases hw with ⟨f, hw⟩ | ⟨f, slot, hw⟩ | ⟨slot, blobs, hw⟩ | ⟨slot, hw⟩ | ⟨slot, hw⟩
    all_goals
      rw [hw]
      exact ⟨fun _ _ _ _ _ _ => Worker.noConfusion, fun _ _ => Worker.noConfusion⟩
  refine framesKept_of_le hreceived ?_ hother.2
  rw [headersSent_eq hother.1, hheaders]

theorem framesKept_of_counted {c : Connection} (h : Counted c) : FramesKept c := by
  unfold Counted at h
  split at h
  · next r remaining buf hw =>
    obtain ⟨hsized, cmds, hreceived, hheaders⟩ := h
    have hsent : c.headersSent = cmds.length := by
      rw [headersSent_eq (by rw [hw]; exact fun _ _ _ _ _ _ => Worker.noConfusion), hheaders]
    refine ⟨cmds, _, hreceived, Nat.le_of_eq hsent,
      fun _ hpre => frames_prefix (hreceived ▸ hpre), ?_⟩
    intro remaining' buf' heq
    cases hw.symm.trans heq
    exact ⟨rfl, hsized, hsent⟩
  · next res hw =>
    obtain ⟨cmds, rest, hreceived, hheaders⟩ := h
    refine framesKept_of_le hreceived ?_ (by rw [hw]; exact fun _ _ => Worker.noConfusion)
    rw [headersSent_eq (by rw [hw]; exact fun _ _ _ _ _ _ => Worker.noConfusion)]
    exact hheaders
  · next f hw => exact framesKept_watching (.inl ⟨f, hw⟩) h
  · next f slot hw => exact framesKept_watching (.inr (.inl ⟨f, slot, hw⟩)) h
  · next slot blobs hw => exact framesKept_watching (.inr (.inr (.inl ⟨slot, blobs, hw⟩))) h
  · next slot hw => exact framesKept_watching (.inr (.inr (.inr (.inl ⟨slot, hw⟩)))) h
  · next slot hw => exact framesKept_watching (.inr (.inr (.inr (.inr ⟨slot, hw⟩)))) h
  · next hreading _ _ _ _ _ _ =>
    obtain ⟨cmds, hreceived, hheaders⟩ := h
    rw [← List.append_nil (frames cmds)] at hreceived
    exact framesKept_of_le hreceived (hheaders ▸ headersSent_le c) fun remaining buf heq =>
      hreading _ _ _ heq

end AnswersLemmas

open AnswersLemmas

/-- However the steps of the server and the pieces of its clients' bytes come, every connection
keeps its frames. -/
theorem commands_framed (env : StorageEnv) (events : List ServerEvent) (i : Nat) :
    FramesKept ((exec (Server.step env) .start events).connection i) :=
  framesKept_of_counted (counted_run env events i)

end Everarch
