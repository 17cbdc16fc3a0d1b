import Everarch.Client.Get
import Everarch.Glacier.Append
import Everarch.Lib.Run

/-!
# Getting a file

`evr_cli_get_file` after it has found the slices of the file claim, with
`evr_pipe_cmd_get_resp_blob` and `pipe_n`, one read of the connection or write of the output at
a time.

`evr_end` stands for two things. From `pipe_n` it means that the output was closed by its
reader. From the read of the flags in `evr_pipe_cmd_get_resp_blob` it means that the storage
has closed the connection. The loop takes both for the end of the file.

* `GetFileLemmas.tracked_step`: what has been written in every state of every run.

Result: `get_file_complete_iff`.
-/

namespace Everarch

/-! ## The loop -/

/-- Where the loop is in the current slice. `header` and `flags` are calls of `read_n`, with
what was read. `piping` is `pipe_n` before a read, with the size still to be read and what was
written to the hash, `writing` its `write_n` with the bytes that are left. -/
inductive GetFileAt where
  | requesting
  | header (buf : Bytes)
  | flags (bodySize : Nat)
  | piping (remaining : Nat) (hashed : Bytes)
  | writing (remaining : Nat) (hashed buf : Bytes)
  | ended (res : Res)
deriving DecidableEq

/-- The slice elements from the current one on, with none for a ref that is missing or cannot
be parsed, and what was written to the output. `closed` says that a write found the output
closed. `verified` has the contents whose hash has matched; it is no part of the process. -/
structure GetFile where
  slices : List (Option BlobRef)
  place : GetFileAt
  written : Bytes
  closed : Bool
  verified : List Bytes
deriving DecidableEq

/-- What the calls of the loop return. `read` without bytes is the end of the connection. -/
inductive GetFileEvent where
  | requested
  | read (data : Bytes)
  | output (n : Nat)
  | outputClosed
  | fails

namespace GetFile

def goto (s : GetFile) (place : GetFileAt) : GetFile :=
  { s with place := place }

/-- The head of the loop. -/
def next (s : GetFile) : GetFile :=
  match s.slices with
  | [] => s.goto (.ended .ok)
  | none :: _ => s.goto (.ended .error)
  | some _ :: _ => s.goto .requesting

/-- The loop before the first slice. -/
def start (slices : List (Option BlobRef)) : GetFile :=
  (⟨slices, .ended .error, [], false, []⟩ : GetFile).next

/-- `evr_blob_ref_hd_match`, and the next slice. -/
def compare (hash : Bytes → BlobRef) (s : GetFile) (hashed : Bytes) : GetFile :=
  match s.slices with
  | some ref :: slices =>
    if hash hashed = ref then
      ({ s with slices := slices, verified := s.verified ++ [hashed] } : GetFile).next
    else s.goto (.ended .error)
  | _ => s.goto (.ended .error)

/-- The head of the loop of `pipe_n`. -/
def pipe (hash : Bytes → BlobRef) (s : GetFile) (remaining : Nat) (hashed : Bytes) : GetFile :=
  if remaining = 0 then s.compare hash hashed else s.goto (.piping remaining hashed)

/-- The header is complete. -/
def withHeader (s : GetFile) (resp : RespHeader) : GetFile :=
  if resp.statusCode ≠ statusCodeOk then s.goto (.ended .error)
  else if resp.bodySize < 1 then s.goto (.ended .error)
  else s.goto (.flags resp.bodySize)

/-- A read of the storage connection that returns the bytes. -/
def read (hash : Bytes → BlobRef) (s : GetFile) (data : Bytes) : GetFile :=
  match s.place with
  | .header buf =>
    if respHeaderSize < (buf ++ data).length then s
    else if data = [] then s.goto (.ended .error)
    else if (buf ++ data).length = respHeaderSize then s.withHeader (parseRespHeader (buf ++ data))
    else s.goto (.header (buf ++ data))
  | .flags bodySize =>
    if 1 < data.length then s
    -- evr_end of read_n ends the loop
    else if data = [] then s.goto (.ended .ok)
    else s.pipe hash (bodySize - 1) []
  | .piping remaining hashed =>
    if min remaining 4096 < data.length then s
    else if data = [] then s.goto (.ended .error)
    else s.goto (.writing (remaining - data.length) (hashed ++ data) data)
  | _ => s

/-- One step. An event that is not possible in a state leaves it as it is. -/
def step (hash : Bytes → BlobRef) (s : GetFile) : GetFileEvent → GetFile
  | .requested =>
    match s.place with
    | .requesting => s.goto (.header [])
    | _ => s
  | .read data => s.read hash data
  | .output n =>
    match s.place with
    | .writing remaining hashed buf =>
      if n = 0 ∨ buf.length < n then s
      else
        let s := { s with written := s.written ++ buf.take n }
        if buf.length = n then s.pipe hash remaining hashed
        else s.goto (.writing remaining hashed (buf.drop n))
    | _ => s
  | .outputClosed =>
    match s.place with
    | .writing _ _ _ => ({ s with closed := true } : GetFile).goto (.ended .ok)
    | _ => s
  | .fails =>
    match s.place with
    | .ended _ => s
    | _ => s.goto (.ended .error)

variable (hash : Bytes → BlobRef) (slices : List (Option BlobRef))

/-- Ok means that all slices were verified and written, or that the output was closed. -/
def Complete (s : GetFile) : Prop :=
  s.place = .ended .ok →
    s.closed = true ∨
      s.verified.map (fun content => some (hash content)) = slices ∧
        s.written = s.verified.flatten

/-- The storage closes the connection behind a response header. -/
def CutBehindHeader (s : GetFile) : GetFileEvent → Prop
  | .read data => data = [] ∧ ∃ bodySize, s.place = .flags bodySize
  | _ => False

end GetFile

namespace GetFileLemmas

open GetFile

variable {hash : Bytes → BlobRef} {slices : List (Option BlobRef)} {s : GetFile}

/-- The slices in front of the current one were verified and written, and so was the part
`part` of the current one. -/
structure Progress (hash : Bytes → BlobRef) (slices : List (Option BlobRef)) (s : GetFile)
    (part : Bytes) : Prop where
  slices_eq : slices = s.verified.map (fun content => some (hash content)) ++ s.slices
  written : s.written = s.verified.flatten ++ part
  current : ∃ ref rest, s.slices = some ref :: rest
  closed : s.closed = false

theorem Progress.goto {part : Bytes} (h : Progress hash slices s part) (place : GetFileAt) :
    Progress hash slices (s.goto place) part :=
  ⟨h.slices_eq, h.written, h.current, h.closed⟩

/-- What has been written, which holds in every run. -/
def Tracked (hash : Bytes → BlobRef) (slices : List (Option BlobRef)) (s : GetFile) : Prop :=
  match s.place with
  | .requesting | .header _ | .flags _ => Progress hash slices s []
  | .piping _ hashed => Progress hash slices s hashed
  | .writing _ hashed buf => ∃ part, part ++ buf = hashed ∧ Progress hash slices s part
  | .ended _ => True

/-! ## Steps -/

/-- The head of the loop. -/
theorem next_spec (hslices : slices = s.verified.map (fun content => some (hash content)) ++ s.slices)
    (hwritten : s.written = s.verified.flatten) (hclosed : s.closed = false) :
    Tracked hash slices s.next ∧ s.next.Complete hash slices := by
  unfold GetFile.next
  split
  · next hnil =>
    refine ⟨trivial, fun _ => .inr ⟨?_, hwritten⟩⟩
    rw [hslices, hnil, List.append_nil]
    rfl
  · exact ⟨trivial, fun hok => by cases hok⟩
  · next ref rest hcons =>
    refine ⟨⟨hslices, ?_, ⟨ref, rest, hcons⟩, hclosed⟩, fun hok => by cases hok⟩
    rw [List.append_nil]
    exact hwritten

/-- The content of the current slice has been written. -/
theorem compare_spec {hashed : Bytes} (h : Progress hash slices s hashed) :
    Tracked hash slices (s.compare hash hashed) ∧ (s.compare hash hashed).Complete hash slices := by
  obtain ⟨hslices, hwritten, ⟨ref, rest, hcurrent⟩, hclosed⟩ := h
  unfold GetFile.compare
  rw [hcurrent]
  dsimp only
  split
  · next hmatch =>
    refine next_spec ?_ ?_ hclosed
    · rw [hslices, hcurrent, List.map_append, List.append_assoc, ← hmatch]
      rfl
    · rw [hwritten, List.flatten_append, List.flatten_singleton]
  · exact ⟨trivial, fun hok => by cases hok⟩

theorem pipe_spec {hashed : Bytes} (h : Progress hash slices s hashed) (remaining : Nat) :
    Tracked hash slices (s.pipe hash remaining hashed) ∧
      (s.pipe hash remaining hashed).Complete hash slices := by
  unfold GetFile.pipe
  split
  · exact compare_spec h
  · exact ⟨h.goto _, fun hok => by cases hok⟩

theorem withHeader_spec (h : Progress hash slices s []) (resp : RespHeader) :
    Tracked hash slices (s.withHeader resp) ∧ (s.withHeader resp).Complete hash slices := by
  unfold GetFile.withHeader
  split
  · exact ⟨trivial, fun hok => by cases hok⟩
  · split
    · exact ⟨trivial, fun hok => by cases hok⟩
    · exact ⟨h.goto _, fun hok => by cases hok⟩

theorem read_spec (h : Tracked hash slices s) (hcomplete : s.Complete hash slices)
    {data : Bytes} (hcut : ¬s.CutBehindHeader (.read data)) :
    Tracked hash slices (s.read hash data) ∧ (s.read hash data).Complete hash slices := by
  have hsame := And.intro h hcomplete
  unfold GetFile.read
  split
  · next buf hplace =>
    rw [Tracked, hplace] at h
    split
    · exact hsame
    · split
      · exact ⟨trivial, fun hok => by cases hok⟩
      · split
        · exact withHeader_spec h _
        · exact ⟨Progress.goto h _, fun hok => by cases hok⟩
  · next bodySize hplace =>
    rw [Tracked, hplace] at h
    split
    · exact hsame
    · split
      · next hnil => exact absurd ⟨hnil, bodySize, hplace⟩ hcut
      · exact pipe_spec h _
  · next remaining hashed hplace =>
    rw [Tracked, hplace] at h
    split
    · exact hsame
    · split
      · exact ⟨trivial, fun hok => by cases hok⟩
      · exact ⟨⟨hashed, rfl, Progress.goto h _⟩, fun hok => by cases hok⟩
  · exact hsame

/-- Every step but the one cut. -/
theorem step_spec (h : Tracked hash slices s) (hcomplete : s.Complete hash slices)
    {e : GetFileEvent} (hcut : ¬s.CutBehindHeader e) :
    Tracked hash slices (s.step hash e) ∧ (s.step hash e).Complete hash slices := by
  have hsame := And.intro h hcomplete
  unfold GetFile.step
  cases e with
  | requested =>
    dsimp only
    split
    · next hplace =>
      rw [Tracked, hplace] at h
      exact ⟨Progress.goto h _, fun hok => by cases hok⟩
    · exact hsame
  | read data => exact read_spec h hcomplete hcut
  | output n =>
    dsimp only
    split
    · next remaining hashed buf hplace =>
      rw [Tracked, hplace] at h
      obtain ⟨part, hpart, hslices, hwritten, hcurrent, hclosed⟩ := h
      have hnext : Progress hash slices { s with written := s.written ++ buf.take n }
          (part ++ buf.take n) :=
        ⟨hslices, by rw [hwritten, List.append_assoc], hcurrent, hclosed⟩
      split
      · exact hsame
      · split
        · next hall =>
          have htake : buf.take n = buf := List.take_of_length_le (Nat.le_of_eq hall)
          rw [htake, hpart] at hnext
          rw [htake]
          exact pipe_spec hnext remaining
        · refine ⟨⟨part ++ buf.take n, ?_, hnext.goto _⟩, fun hok => by cases hok⟩
          rw [List.append_assoc, List.take_append_drop, hpart]
    · exact hsame
  | outputClosed =>
    dsimp only
    split
    · exact ⟨trivial, fun _ => .inl rfl⟩
    · exact hsame
  | fails =>
    dsimp only
    split
    · exact hsame
    · exact ⟨trivial, fun hok => by cases hok⟩

/-- The cut ends the loop with ok, and the current slice is missing. -/
theorem step_cut (h : Tracked hash slices s) {e : GetFileEvent} (hcut : s.CutBehindHeader e) :
    Tracked hash slices (s.step hash e) ∧ ¬(s.step hash e).Complete hash slices := by
  cases e with
  | read data =>
    obtain ⟨rfl, bodySize, hplace⟩ := hcut
    rw [Tracked, hplace] at h
    obtain ⟨hslices, -, ⟨ref, rest, hcurrent⟩, hclosed⟩ := h
    have hended : s.step hash (.read []) = s.goto (.ended .ok) := by
      unfold GetFile.step GetFile.read
      simp only [hplace, List.length_nil]
      rfl
    rw [hended]
    refine ⟨trivial, fun hcomplete => ?_⟩
    rcases hcomplete rfl with hyes | ⟨hall, -⟩
    · rw [GetFile.goto, hclosed] at hyes
      cases hyes
    · have hlen := congrArg List.length (hall.trans hslices)
      rw [List.length_append, hcurrent, List.length_cons] at hlen
      exact absurd hlen (Nat.ne_of_lt (Nat.lt_add_of_pos_right (Nat.succ_pos _)))
  | _ => exact hcut.elim

theorem tracked_step (h : Tracked hash slices s ∧ s.Complete hash slices) (e : GetFileEvent) :
    (Tracked hash slices (s.step hash e) ∧ (s.step hash e).Complete hash slices) ↔
      ¬s.CutBehindHeader e := by
  constructor
  · intro hnext hcut
    exact (step_cut h.1 hcut).2 hnext.2
  · exact step_spec h.1 h.2

theorem tracked_start (hash : Bytes → BlobRef) (slices : List (Option BlobRef)) :
    Tracked hash slices (.start slices) ∧ (GetFile.start slices).Complete hash slices :=
  next_spec rfl rfl rfl

end GetFileLemmas

open GetFileLemmas

/-- In every state of a run, ok means that the contents of all slices were verified and written
or that the output was closed by its reader, if and only if the storage does not close the
connection right behind a response header. -/
theorem get_file_complete_iff (hash : Bytes → BlobRef) (slices : List (Option BlobRef))
    (events : List GetFileEvent) :
    (∀ before, before <+: events →
      (exec (GetFile.step hash) (.start slices) before).Complete hash slices) ↔
    Along (GetFile.step hash) (fun s e => ¬s.CutBehindHeader e) (.start slices) events := by
  rw [← invariant_iff_along (fun s => Tracked hash slices s ∧ s.Complete hash slices)
    (tracked_start hash slices) fun before e _ h => by
      rw [exec_append_singleton]
      exact tracked_step h e]
  refine ⟨fun h => ?_, fun h before hpre => (h before hpre).2⟩
  intro before hpre
  induction before using List.reverseRecOn with
  | nil => exact tracked_start hash slices
  | append_singleton before e ih =>
    have hbefore := ih ((List.prefix_append _ _).trans hpre)
    refine ⟨?_, h _ hpre⟩
    rw [exec_append_singleton]
    by_cases hcut : GetFile.CutBehindHeader (exec (GetFile.step hash) (.start slices) before) e
    · exact (step_cut hbefore.1 hcut).1
    · exact (step_spec hbefore.1 hbefore.2 hcut).1

/-- A file with the blob "x" as its slice, whose response is cut. -/
def cutResponse : List GetFileEvent :=
  [.requested, .read (formatRespHeader ⟨statusCodeOk, 2⟩), .read []]

/-- The command succeeds without any output. -/
theorem cut_response_truncates :
    (exec (GetFile.step sampleHash) (.start [some letterBlob.key]) cutResponse).written = [] ∧
      ¬(exec (GetFile.step sampleHash) (.start [some letterBlob.key]) cutResponse).Complete
        sampleHash [some letterBlob.key] := by
  refine ⟨by decide +kernel, fun h => ?_⟩
  rcases h (by decide +kernel) with hclosed | ⟨hall, -⟩
  · exact absurd hclosed (by decide +kernel)
  · exact absurd hall (by decide +kernel)

end Everarch
