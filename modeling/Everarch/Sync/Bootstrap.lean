import Everarch.AttrIndex.ClaimSet
import Everarch.Sync.Specs

/-!
# Building an index

`evr_bootstrap_db` of evr-attr-index.c, one step of its code at a time, so that the running
flag can be cleared between any two of them.

* `IndexStore.indexClaimSet`: `evr_index_claim_set`.
* `Bootstrap.step`: a step of the bootstrap, or the flag is cleared.
* `built_iff_running_at_head`: when an index is marked as built although it is not.
-/

namespace Everarch

/-! ## The state of an index -/

/-- `evr_attr_index_stage_initial` and `evr_attr_index_stage_built`. -/
def stageInitial : Int := 0
def stageBuilt : Int := 1

/-- The database of an index with the values of its `state` table. -/
structure IndexStore where
  index : IndexState
  stage : Int
  lastIndexedClaimTs : Int

/-- `evr_index_claim_set`. The content of the blob is what `evr_fetch_signed_xml` returns. -/
def IndexStore.indexClaimSet (env : ClaimSetEnv) (s : IndexStore) (b : WatchBody)
    (fetched : Except Res XmlDoc) : Res × IndexStore :=
  match fetched with
  | .error .userDataInvalid => (.ok, s)
  | .error _ => (.error, s)
  | .ok doc =>
    match mergeAttrIndexClaimSet env b.key doc false s.index with
    | (.ok, index) =>
      (.ok, { s with index := index, lastIndexedClaimTs := toInt64 b.lastModified.toNat })
    | (.userDataInvalid, index) => (.ok, { s with index := index })
    | (.noReturn, index) => (.noReturn, { s with index := index })
    | (_, index) => (.error, { s with index := index })

/-! ## The bootstrap -/

/-- Where `evr_bootstrap_db` is. -/
inductive BootstrapPc where
  | openDb
  | request
  | head
  | wait
  | check (waited : Res)
  | read
  | index (b : WatchBody)
  | eob (b : WatchBody)
  | done (res : Res)
deriving DecidableEq

/-- The database and the flag. `received` and `processed` have the bodies that were read
and those for which `evr_index_claim_set` returned `evr_ok`; they are no part of the
process. -/
structure Bootstrap where
  store : IndexStore
  pc : BootstrapPc
  running : Bool
  received : List WatchBody
  processed : List WatchBody

/-- The flag is cleared, or the next step with what comes from outside. -/
inductive BootstrapEvent where
  | clear
  | opened (ok : Bool)
  | requested (res : Res)
  | waited (res : Res)
  | read (b : Option WatchBody)
  | fetched (now : Int) (content : Except Res XmlDoc)
  | step

namespace Bootstrap

def start (store : IndexStore) : Bootstrap := ⟨store, .openDb, true, [], []⟩

def goto (s : Bootstrap) (pc : BootstrapPc) : Bootstrap := { s with pc := pc }

/-- The code behind the loop. -/
def leaveLoop (s : Bootstrap) : Bootstrap :=
  { s with store := { s.store with stage := stageBuilt }, pc := .done .ok }

/-- One step of `evr_bootstrap_db`. An event that is not possible in a state leaves it as
it is. -/
def step (env : ClaimSetEnv) (s : Bootstrap) (e : BootstrapEvent) : Bootstrap :=
  match s.pc, e with
  | _, .clear => { s with running := false }
  | .openDb, .opened ok =>
    if !ok then s.goto (.done .error)
    else if stageBuilt ≤ s.store.stage then s.goto (.done .ok)
    else s.goto .request
  | .request, .requested res =>
    match res with
    | .ok => s.goto .head
    | .userDataInvalid => s.goto (.done .userDataInvalid)
    | _ => s.goto (.done .error)
  -- while(running)
  | .head, .step => if s.running then s.goto .wait else s.leaveLoop
  | .wait, .waited res =>
    if res ≠ .ok ∧ res ≠ .end_ then s.goto (.done .error) else s.goto (.check res)
  -- if(!running)
  | .check waited, .step =>
    if !s.running then s.goto (.done .ok)
    else if waited = .end_ then s.goto .head
    else s.goto .read
  | .read, .read b =>
    match b with
    | none => s.goto (.done .error)
    | some b => { s with pc := .index b, received := s.received ++ [b] }
  | .index b, .fetched now content =>
    match s.store.indexClaimSet { env with now := now } b content with
    | (.ok, store) => { s with store := store, pc := .eob b, processed := s.processed ++ [b] }
    | (res, store) => { s with store := store, pc := .done res }
  | .eob b, .step => if b.eob then s.leaveLoop else s.goto .head
  | _, _ => s

end Bootstrap

/-- All bodies up to the first one with the end-of-batch flag have been processed. -/
def Bootstrap.Complete (s : Bootstrap) : Prop :=
  s.processed = s.received ∧ ∃ bodies b, s.processed = bodies ++ [b] ∧ b.eob = true ∧
    ∀ b' ∈ bodies, b'.eob = false

/-- The stage is as it was, or the index is built. -/
def Bootstrap.StageSound (stage : Int) (s : Bootstrap) : Prop :=
  s.store.stage = stage ∨ s.store.stage = stageBuilt ∧ s.Complete

/-- The flag is set when the head of the loop looks at it. -/
def RunningAtHead (s : Bootstrap) (e : BootstrapEvent) : Prop :=
  s.pc = .head → e = .step → s.running = true

instance (s : Bootstrap) (e : BootstrapEvent) : Decidable (RunningAtHead s e) :=
  match e with
  | .step => decidable_of_iff (s.pc = .head → s.running = true)
      ⟨fun h hpc _ => h hpc, fun h hpc => h hpc rfl⟩
  | .clear | .opened _ | .requested _ | .waited _ | .read _ | .fetched _ _ =>
    isTrue fun _ he => nomatch he

namespace BootstrapLemmas

variable {env : ClaimSetEnv} {stage : Int} {s : Bootstrap}

theorem stage_indexClaimSet (env : ClaimSetEnv) (s : IndexStore) (b : WatchBody)
    (fetched : Except Res XmlDoc) : (s.indexClaimSet env b fetched).2.stage = s.stage := by
  unfold IndexStore.indexClaimSet
  repeat' split
  all_goals rfl

/-- The bootstrap has not left its loop, and the bodies so far are not the last ones. -/
structure InLoop (stage : Int) (store : IndexStore) (processed : List WatchBody) : Prop where
  unbuilt : stage < stageBuilt
  same : store.stage = stage
  more : ∀ b ∈ processed, b.eob = false

/-- What holds at each place of the code. -/
def SoundAt (stage : Int) (s : Bootstrap) : Prop :=
  match s.pc with
  | .openDb => s.store.stage = stage ∧ s.processed = [] ∧ s.received = []
  | .request | .head | .wait | .check _ | .read =>
    InLoop stage s.store s.processed ∧ s.processed = s.received
  | .index b => InLoop stage s.store s.processed ∧ s.received = s.processed ++ [b]
  | .eob b => ∃ bodies, InLoop stage s.store bodies ∧ s.processed = bodies ++ [b] ∧
      s.processed = s.received
  | .done _ => s.StageSound stage

theorem stageSound_of_soundAt (h : SoundAt stage s) : s.StageSound stage := by
  unfold SoundAt at h
  split at h
  · exact .inl h.1
  · exact .inl h.1.same
  · exact .inl h.1.same
  · exact .inl h.1.same
  · exact .inl h.1.same
  · exact .inl h.1.same
  · exact .inl h.1.same
  · obtain ⟨bodies, hloop, -⟩ := h
    exact .inl hloop.same
  · exact h

theorem soundAt_start (store : IndexStore) : SoundAt store.stage (.start store) :=
  ⟨rfl, rfl, rfl⟩

/-- One step of a run in which the head of the loop does not see the cleared flag. -/
theorem soundAt_step (h : SoundAt stage s) {e : BootstrapEvent} (hrun : RunningAtHead s e) :
    SoundAt stage (s.step env e) := by
  have hsound := stageSound_of_soundAt h
  have hdone (res : Res) : SoundAt stage (s.goto (.done res)) := hsound
  unfold Bootstrap.step
  split
  · exact h
  · next hpc =>
    rw [SoundAt, hpc] at h
    obtain ⟨hsame, hprocessed, hreceived⟩ := h
    split
    · exact hdone _
    · split
      · exact hdone _
      · next hunbuilt =>
        refine ⟨⟨hsame ▸ Int.not_le.mp hunbuilt, hsame, fun b hb => ?_⟩,
          hprocessed.trans hreceived.symm⟩
        rw [show (s.goto .request).processed = [] from hprocessed] at hb
        exact absurd hb List.not_mem_nil
  · next hpc =>
    rw [SoundAt, hpc] at h
    split
    · exact h
    · exact hdone _
    · exact hdone _
  · next hpc =>
    rw [SoundAt, hpc] at h
    rw [if_pos (hrun hpc rfl)]
    exact h
  · next hpc =>
    rw [SoundAt, hpc] at h
    split
    · exact hdone _
    · exact h
  · next hpc =>
    rw [SoundAt, hpc] at h
    split
    · exact hdone _
    · split
      · exact h
      · exact h
  · next hpc =>
    rw [SoundAt, hpc] at h
    split
    · exact hdone _
    · next b => exact ⟨h.1, congrArg (· ++ [b]) h.2.symm⟩
  · next b now content hpc =>
    rw [SoundAt, hpc] at h
    obtain ⟨hloop, hreceived⟩ := h
    have hstage := stage_indexClaimSet { env with now := now } s.store b content
    split
    · next store heq =>
      rw [heq] at hstage
      exact ⟨s.processed, ⟨hloop.unbuilt, hstage.trans hloop.same, hloop.more⟩, rfl, hreceived.symm⟩
    · next res store _ heq =>
      rw [heq] at hstage
      exact .inl (hstage.trans hloop.same)
  · next b hpc =>
    rw [SoundAt, hpc] at h
    obtain ⟨bodies, hloop, hprocessed, hreceived⟩ := h
    split
    · next heob => exact .inr ⟨rfl, hreceived, bodies, b, hprocessed, heob, hloop.more⟩
    · next heob =>
      refine ⟨⟨hloop.unbuilt, hloop.same, fun b' hb' => ?_⟩, hreceived⟩
      rcases List.mem_append.mp (hprocessed ▸ hb') with hold | hlast
      · exact hloop.more b' hold
      · rw [List.mem_singleton.mp hlast]
        exact Bool.not_eq_true _ ▸ heob
  · exact h

/-- The head of the loop sees the cleared flag. -/
theorem not_stageSound_step (h : SoundAt stage s) (hpc : s.pc = .head) (hstop : s.running = false) :
    ¬ (s.step env .step).StageSound stage := by
  rw [SoundAt, hpc] at h
  obtain ⟨hloop, -⟩ := h
  have hstep : s.step env .step = s.leaveLoop := by
    simp only [Bootstrap.step, hpc, hstop, Bool.false_eq_true, if_false]
  rw [hstep]
  rintro (hsame | ⟨-, -, bodies, b, hprocessed, heob, -⟩)
  · exact absurd hsame (Int.ne_of_gt hloop.unbuilt)
  · have hmem : b ∈ s.processed := by
      rw [show s.processed = bodies ++ [b] from hprocessed]
      exact List.mem_append_right _ (List.mem_singleton.mpr rfl)
    rw [hloop.more b hmem] at heob
    cases heob

end BootstrapLemmas

open BootstrapLemmas

/-- In every state of a run the stage is as it was at its start, or it is that of a built
index and every body up to the first one with the end-of-batch flag has been processed, if
and only if the head of the loop never sees the cleared flag. -/
theorem built_iff_running_at_head (env : ClaimSetEnv) (store : IndexStore)
    (events : List BootstrapEvent) :
    (∀ before, before <+: events →
      (exec (Bootstrap.step env) (.start store) before).StageSound store.stage) ↔
      Along (Bootstrap.step env) RunningAtHead (.start store) events := by
  have hsound {events : List BootstrapEvent}
      (h : Along (Bootstrap.step env) RunningAtHead (.start store) events) :
      SoundAt store.stage (exec (Bootstrap.step env) (.start store) events) :=
    h.invariant (SoundAt store.stage) (soundAt_start store) fun s e hs hrun => soundAt_step hs hrun
  constructor
  · intro h
    induction events using List.reverseRecOn with
    | nil => trivial
    | append_singleton events e ih =>
      have hbefore := ih fun before hpre => h before (hpre.trans (List.prefix_append _ _))
      refine along_append_singleton.mpr ⟨hbefore, ?_⟩
      rintro hpc rfl
      have hlast := h _ (List.prefix_refl _)
      rw [exec_append_singleton] at hlast
      exact Bool.not_eq_false _ ▸ fun hstop => not_stageSound_step (hsound hbefore) hpc hstop hlast
  · rintro h before ⟨after, rfl⟩
    exact stageSound_of_soundAt (hsound (along_append.mp h).1)

/-- A bootstrap that is interrupted while it waits for data leaves the stage as it was. -/
example : Along (Bootstrap.step sampleEnv) RunningAtHead
    (.start ⟨⟨setupAttrIndexDb [], none⟩, stageInitial, 0⟩)
    [.opened true, .requested .ok, .step, .clear, .waited .end_, .step] := by
  decide

/-- The first of several listed bodies. -/
def firstBody : WatchBody := ⟨Vector.replicate _ 1, 7, 0⟩

/-- The flag is cleared while the first body is indexed, whose content is invalid. -/
def interruptedBootstrap : List BootstrapEvent :=
  [.opened true, .requested .ok, .step, .waited .ok, .step, .read (some firstBody), .clear,
    .fetched 0 (.error .userDataInvalid), .step, .step]

/-- The index is marked as built although its first body is not the last of the batch. -/
theorem interrupted_bootstrap_built :
    ¬ ∀ before, before <+: interruptedBootstrap →
      (exec (Bootstrap.step sampleEnv)
        (.start ⟨⟨setupAttrIndexDb [], none⟩, stageInitial, 0⟩) before).StageSound stageInitial := by
  intro h
  rcases h _ (List.prefix_refl _) with hsame | ⟨-, -, bodies, b, hprocessed, heob, -⟩
  · exact absurd hsame (by decide)
  · have hone : [firstBody] = bodies ++ [b] := hprocessed
    have hlast : firstBody = b := by simpa using congrArg List.getLast? hone
    rw [← hlast] at heob
    cases heob

end Everarch
