import Everarch.Client.Get
import Everarch.Glacier.Append

/-!
# The cache of attr factories

`evr_ensure_attr_factory_exe_ready` and `evr_write_blob_to_file`. The first takes any file at
the path of an executable for the executable. The second creates the file before it connects
to the storage, writes what it receives while it is received, and leaves the file behind if
anything fails. The next call then returns ok.

* `FactoryCache.step`: calls for one factory and what happens in them, one system call at a
  time.
* `FactoryLemmas.inv_step_iff`: what a step makes of a cache that is in order.

Result: `factory_cache_iff`.
-/

namespace Everarch

/-! ## Calls -/

/-- Where a call is that has created the file. `piping` is `pipe_n` before a read, with the
size still to be read and what was written to the hash, `writing` its `write_n` with the bytes
that are left. In `closing` the hash has matched. -/
inductive FactoryCall where
  | idle
  | connecting
  | waitHeader
  | readFlags (bodySize : Nat)
  | piping (remaining : Nat) (hashed : Bytes)
  | writing (remaining : Nat) (hashed buf : Bytes)
  | matching (hashed : Bytes)
  | closing
deriving DecidableEq

/-- The file at `exe_path`, and what the last call returned if it did. -/
structure FactoryCache where
  file : Option Bytes
  call : FactoryCall
  returned : Option Res

/-- What happens next. `fails` is the failure of the system call or the function the call is
in, which is `stat` or `creat` for a new call. `stops` is the end of the process. -/
inductive FactoryEvent where
  | ensure
  | requested
  | header (resp : RespHeader)
  | flags
  | read (data : Bytes)
  | write (n : Nat)
  | compare
  | closed
  | fails
  | stops

namespace FactoryCache

/-- Nothing was cached yet. -/
def start : FactoryCache :=
  ⟨none, .idle, none⟩

def goto (s : FactoryCache) (call : FactoryCall) : FactoryCache :=
  { s with call := call }

/-- The call returns. -/
def endCall (s : FactoryCache) (res : Res) : FactoryCache :=
  { s with call := .idle, returned := some res }

/-- The head of the loop of `pipe_n`. -/
def pipe (s : FactoryCache) (remaining : Nat) (hashed : Bytes) : FactoryCache :=
  if remaining = 0 then s.goto (.matching hashed) else s.goto (.piping remaining hashed)

/-- `evr_write_blob_to_file` goes on with a response. `evr_req_cmd_get_blob` has compared the
size with the same limit before. -/
def accepts (resp : RespHeader) : Prop :=
  resp.bodySize ≤ maxBlobDataSize ∧ resp.statusCode = statusCodeOk

instance (resp : RespHeader) : Decidable (accepts resp) :=
  inferInstanceAs (Decidable (_ ∧ _))

/-- The size of the buffer of `pipe_n`. -/
def pipeBufferSize : Nat := 4096

/-- One step of the calls for a factory. An event that is not possible in a state leaves it as
it is. A response that is refused for its status is an error here. The log call for it lacks an
argument, so that the process may also crash there, and that is `stops`. -/
def step (hash : Bytes → BlobRef) (attrFactory : BlobRef) (s : FactoryCache) :
    FactoryEvent → FactoryCache
  | .ensure =>
    match s.call with
    | .idle =>
      match s.file with
      | some _ => s.endCall .ok
      -- creat
      | none => ⟨some [], .connecting, none⟩
    | _ => s
  | .requested =>
    match s.call with
    | .connecting => s.goto .waitHeader
    | _ => s
  | .header resp =>
    match s.call with
    | .waitHeader => if accepts resp then s.goto (.readFlags resp.bodySize) else s.endCall .error
    | _ => s
  | .flags =>
    match s.call with
    | .readFlags bodySize => s.pipe (respBlobSize bodySize) []
    | _ => s
  | .read data =>
    match s.call with
    | .piping remaining hashed =>
      if data = [] ∨ min remaining pipeBufferSize < data.length then s
      else s.goto (.writing (remaining - data.length) (hashed ++ data) data)
    | _ => s
  | .write n =>
    match s.call with
    | .writing remaining hashed buf =>
      if n = 0 ∨ buf.length < n then s
      else
        let s := { s with file := s.file.map (· ++ buf.take n) }
        if buf.length = n then s.pipe remaining hashed
        else s.goto (.writing remaining hashed (buf.drop n))
    | _ => s
  | .compare =>
    match s.call with
    | .matching hashed => if hash hashed = attrFactory then s.goto .closing else s.endCall .error
    | _ => s
  | .closed =>
    match s.call with
    | .closing => s.endCall .ok
    | _ => s
  | .fails => s.endCall .error
  | .stops => ⟨s.file, .idle, none⟩

variable (hash : Bytes → BlobRef) (attrFactory : BlobRef)

/-- The file is the executable. -/
def Exact (s : FactoryCache) : Prop :=
  ∃ content, s.file = some content ∧ hash content = attrFactory

/-- A call that returned ok has left the executable. -/
def Right (s : FactoryCache) : Prop :=
  s.returned = some .ok → s.Exact hash attrFactory

/-- The step ends a call that has created the file, without the hash. -/
def Abandons (s : FactoryCache) : FactoryEvent → Prop
  | .header resp => s.call = .waitHeader ∧ ¬accepts resp
  | .compare => ∃ hashed, s.call = .matching hashed ∧ hash hashed ≠ attrFactory
  | .fails | .stops => s.call ≠ .idle
  | _ => False

end FactoryCache

namespace FactoryLemmas

open FactoryCache

variable {hash : Bytes → BlobRef} {attrFactory : BlobRef} {s : FactoryCache}

/-! ## What is in the file -/

/-- A call knows what it has written. This holds in every run. -/
def Tracked (hash : Bytes → BlobRef) (attrFactory : BlobRef) (s : FactoryCache) : Prop :=
  match s.call with
  | .idle => True
  | .connecting | .waitHeader | .readFlags _ => s.returned = none ∧ s.file = some []
  | .piping _ hashed | .matching hashed => s.returned = none ∧ s.file = some hashed
  | .writing _ hashed buf =>
    s.returned = none ∧ ∃ written, s.file = some written ∧ written ++ buf = hashed
  | .closing => s.returned = none ∧ s.Exact hash attrFactory

/-- A file that the next call finds is the executable. -/
def Usable (hash : Bytes → BlobRef) (attrFactory : BlobRef) (s : FactoryCache) : Prop :=
  s.call = .idle → s.file = none ∨ s.Exact hash attrFactory

theorem tracked_pipe {remaining : Nat} {hashed : Bytes} (hreturned : s.returned = none)
    (hfile : s.file = some hashed) : Tracked hash attrFactory (s.pipe remaining hashed) := by
  unfold pipe
  split
  · exact ⟨hreturned, hfile⟩
  · exact ⟨hreturned, hfile⟩

theorem tracked_step (h : Tracked hash attrFactory s) (e : FactoryEvent) :
    Tracked hash attrFactory (s.step hash attrFactory e) := by
  unfold FactoryCache.step
  cases e with
  | ensure =>
    dsimp only
    split
    · split
      · trivial
      · exact ⟨rfl, rfl⟩
    · exact h
  | requested =>
    dsimp only
    split
    · next hcall =>
      rw [Tracked, hcall] at h
      exact h
    · exact h
  | header resp =>
    dsimp only
    split
    · next hcall =>
      rw [Tracked, hcall] at h
      split
      · exact h
      · trivial
    · exact h
  | flags =>
    dsimp only
    split
    · next hcall =>
      rw [Tracked, hcall] at h
      exact tracked_pipe h.1 h.2
    · exact h
  | read data =>
    dsimp only
    split
    · next hcall =>
      rw [Tracked, hcall] at h
      split
      · rwa [Tracked, hcall]
      · exact ⟨h.1, _, h.2, rfl⟩
    · exact h
  | write n =>
    dsimp only
    split
    · next hashed buf hcall =>
      rw [Tracked, hcall] at h
      obtain ⟨hreturned, written, hfile, hwritten⟩ := h
      split
      · rw [Tracked, hcall]
        exact ⟨hreturned, written, hfile, hwritten⟩
      · have hnext : s.file.map (· ++ buf.take n) = some (written ++ buf.take n) := by
          rw [hfile, Option.map_some]
        split
        · next hall =>
          refine tracked_pipe hreturned (hnext.trans ?_)
          rw [← hall, List.take_length, hwritten]
        · refine ⟨hreturned, _, hnext, ?_⟩
          rw [List.append_assoc, List.take_append_drop, hwritten]
    · exact h
  | compare =>
    dsimp only
    split
    · next hashed hcall =>
      rw [Tracked, hcall] at h
      split
      · next hmatch => exact ⟨h.1, hashed, h.2, hmatch⟩
      · trivial
    · exact h
  | closed =>
    dsimp only
    split
    · trivial
    · exact h
  | fails => trivial
  | stops => trivial

theorem tracked_run (events : List FactoryEvent) :
    Tracked hash attrFactory (exec (step hash attrFactory) .start events) := by
  induction events using List.reverseRecOn with
  | nil => trivial
  | append_singleton events e ih =>
    rw [exec_append_singleton]
    exact tracked_step ih e

/-- A call that is under way has created the file and has not returned. -/
theorem underway (h : Tracked hash attrFactory s) (hcall : s.call ≠ .idle) :
    s.returned = none ∧ ∃ content, s.file = some content := by
  unfold Tracked at h
  split at h
  · next hidle => exact absurd hidle hcall
  · exact ⟨h.1, _, h.2⟩
  · exact ⟨h.1, _, h.2⟩
  · exact ⟨h.1, _, h.2⟩
  · exact ⟨h.1, _, h.2⟩
  · exact ⟨h.1, _, h.2⟩
  · exact ⟨h.1, _, h.2.choose_spec.1⟩
  · exact ⟨h.1, _, h.2.choose_spec.1⟩

/-! ## Calls that are given up -/

theorem error_ne_ok : some Res.error ≠ some Res.ok := by decide

theorem none_ne_ok : none ≠ some Res.ok := by decide

/-- A call that is given up leaves the file as it is. -/
theorem step_of_abandons {e : FactoryEvent} (h : s.Abandons hash attrFactory e) :
    s.call ≠ .idle ∧ (s.step hash attrFactory e).call = .idle ∧
      (s.step hash attrFactory e).file = s.file ∧
      (s.step hash attrFactory e).returned ≠ some .ok := by
  cases e with
  | header resp =>
    obtain ⟨hcall, hrefused⟩ := h
    unfold FactoryCache.step
    simp only [hcall, if_neg hrefused]
    exact ⟨FactoryCall.noConfusion, rfl, rfl, error_ne_ok⟩
  | compare =>
    obtain ⟨hashed, hcall, hne⟩ := h
    unfold FactoryCache.step
    simp only [hcall, if_neg hne]
    exact ⟨FactoryCall.noConfusion, rfl, rfl, error_ne_ok⟩
  | fails => exact ⟨h, rfl, rfl, error_ne_ok⟩
  | stops => exact ⟨h, rfl, rfl, none_ne_ok⟩
  | _ => exact h.elim

theorem inv_of_underway (hcall : s.call ≠ .idle) (hreturned : s.returned = none) :
    Usable hash attrFactory s ∧ s.Right hash attrFactory := by
  refine ⟨fun hidle => absurd hidle hcall, fun hok => ?_⟩
  rw [hreturned] at hok
  cases hok

theorem call_pipe (s : FactoryCache) (remaining : Nat) (hashed : Bytes) :
    (s.pipe remaining hashed).call ≠ .idle := by
  unfold pipe
  split
  · exact FactoryCall.noConfusion
  · exact FactoryCall.noConfusion

theorem returned_pipe (s : FactoryCache) (remaining : Nat) (hashed : Bytes) :
    (s.pipe remaining hashed).returned = s.returned := by
  unfold pipe
  split
  · rfl
  · rfl

/-- Every other step keeps a cache in order. -/
theorem inv_of_not_abandons (h : Tracked hash attrFactory s) (husable : Usable hash attrFactory s)
    (hright : s.Right hash attrFactory) {e : FactoryEvent} (hnot : ¬s.Abandons hash attrFactory e) :
    Usable hash attrFactory (s.step hash attrFactory e) ∧
      (s.step hash attrFactory e).Right hash attrFactory := by
  have hnone : s.call ≠ .idle → s.returned = none := fun hcall => (underway h hcall).1
  unfold FactoryCache.step
  cases e with
  | ensure =>
    dsimp only
    split
    · next hidle =>
      split
      · next content hfile =>
        have hexact : s.Exact hash attrFactory := by
          rcases husable hidle with hnofile | hexact
          · rw [hfile] at hnofile
            cases hnofile
          · exact hexact
        exact ⟨fun _ => .inr hexact, fun _ => hexact⟩
      · exact inv_of_underway FactoryCall.noConfusion rfl
    · exact ⟨husable, hright⟩
  | requested =>
    dsimp only
    split
    · next hcall => exact inv_of_underway FactoryCall.noConfusion (hnone (by rw [hcall]; decide))
    · exact ⟨husable, hright⟩
  | header resp =>
    dsimp only
    split
    · next hcall =>
      rw [if_pos (not_not.mp fun hrefused => hnot ⟨hcall, hrefused⟩)]
      exact inv_of_underway FactoryCall.noConfusion (hnone (by rw [hcall]; decide))
    · exact ⟨husable, hright⟩
  | flags =>
    dsimp only
    split
    · next hcall =>
      refine inv_of_underway (call_pipe _ _ _) ?_
      rw [returned_pipe, hnone (by rw [hcall]; exact FactoryCall.noConfusion)]
    · exact ⟨husable, hright⟩
  | read data =>
    dsimp only
    split
    · next hcall =>
      split
      · exact ⟨husable, hright⟩
      · exact inv_of_underway FactoryCall.noConfusion
          (hnone (by rw [hcall]; exact FactoryCall.noConfusion))
    · exact ⟨husable, hright⟩
  | write n =>
    dsimp only
    split
    · next hcall =>
      have hreturned := hnone (by rw [hcall]; exact FactoryCall.noConfusion)
      split
      · exact ⟨husable, hright⟩
      · split
        · exact inv_of_underway (call_pipe _ _ _) ((returned_pipe ..).trans hreturned)
        · exact inv_of_underway FactoryCall.noConfusion hreturned
    · exact ⟨husable, hright⟩
  | compare =>
    dsimp only
    split
    · next hashed hcall =>
      rw [if_pos (not_not.mp fun hne => hnot ⟨hashed, hcall, hne⟩)]
      exact inv_of_underway FactoryCall.noConfusion
        (hnone (by rw [hcall]; exact FactoryCall.noConfusion))
    · exact ⟨husable, hright⟩
  | closed =>
    dsimp only
    split
    · next hcall =>
      rw [Tracked, hcall] at h
      exact ⟨fun _ => .inr h.2, fun _ => h.2⟩
    · exact ⟨husable, hright⟩
  | fails => exact ⟨fun _ => husable (not_not.mp hnot), fun hok => absurd hok error_ne_ok⟩
  | stops => exact ⟨fun _ => husable (not_not.mp hnot), fun hok => absurd hok none_ne_ok⟩

theorem inv_step_iff (h : Tracked hash attrFactory s) (husable : Usable hash attrFactory s)
    (hright : s.Right hash attrFactory) (e : FactoryEvent) :
    (Usable hash attrFactory (s.step hash attrFactory e) ∧
      (s.step hash attrFactory e).Right hash attrFactory) ↔
      (s.Abandons hash attrFactory e → s.Exact hash attrFactory) := by
  by_cases habandons : s.Abandons hash attrFactory e
  · obtain ⟨hcall, hidle, hfile, hreturned⟩ := step_of_abandons habandons
    obtain ⟨-, content, hcontent⟩ := underway h hcall
    have hexact : (s.step hash attrFactory e).Exact hash attrFactory ↔ s.Exact hash attrFactory := by
      unfold FactoryCache.Exact
      rw [hfile]
    constructor
    · intro hinv _
      rcases hinv.1 hidle with hnone | hsome
      · rw [hfile, hcontent] at hnone
        cases hnone
      · exact hexact.mp hsome
    · intro hkept
      exact ⟨fun _ => .inr (hexact.mpr (hkept habandons)), fun hok => absurd hok hreturned⟩
  · exact iff_of_true (inv_of_not_abandons h husable hright habandons)
      fun hab => absurd hab habandons

end FactoryLemmas

open FactoryCache FactoryLemmas

/-- Whenever a call returns ok, the next one included, the file is the executable, if and only
if no call is given up after it has created the file and before the whole executable is in it. -/
theorem factory_cache_iff (hash : Bytes → BlobRef) (attrFactory : BlobRef)
    (events : List FactoryEvent) :
    (∀ before, before <+: events →
      (exec (step hash attrFactory) .start before).Right hash attrFactory ∧
      (exec (step hash attrFactory) .start (before ++ [.ensure])).Right hash attrFactory) ↔
    Along (step hash attrFactory)
      (fun s e => s.Abandons hash attrFactory e → s.Exact hash attrFactory) .start events := by
  have hrun := @invariant_iff_along _ _ (step hash attrFactory)
    (fun s e => s.Abandons hash attrFactory e → s.Exact hash attrFactory) .start events
    (fun s => Usable hash attrFactory s ∧ s.Right hash attrFactory)
    ⟨fun _ => .inl rfl, fun hok => absurd hok none_ne_ok⟩ fun before e _ hinv => by
      rw [exec_append_singleton]
      exact inv_step_iff (tracked_run before) hinv.1 hinv.2 e
  rw [← hrun]
  constructor
  · intro h before hpre
    obtain ⟨hright, hnext⟩ := h before hpre
    refine ⟨fun hidle => ?_, hright⟩
    rw [exec_append_singleton] at hnext
    generalize exec (step hash attrFactory) .start before = s at hidle hnext
    rcases hfile : s.file with _ | content
    · exact .inl rfl
    · have hok : s.step hash attrFactory .ensure = s.endCall .ok := by
        unfold FactoryCache.step
        simp only [hidle, hfile]
      rw [hok] at hnext
      exact .inr (hnext rfl)
  · intro h before hpre
    obtain ⟨husable, hright⟩ := h before hpre
    refine ⟨hright, ?_⟩
    rw [exec_append_singleton]
    exact (inv_of_not_abandons (e := .ensure) (tracked_run before) husable hright fun hab => hab).2

/-- The storage cannot be reached once. The next call returns ok, and the executable is empty. -/
theorem empty_factory_cached :
    (exec (step sampleHash letterBlob.key) .start [.ensure, .fails, .ensure]).returned = some .ok ∧
      (exec (step sampleHash letterBlob.key) .start [.ensure, .fails, .ensure]).file = some [] ∧
      sampleHash [] ≠ letterBlob.key := by
  decide +kernel

end Everarch
