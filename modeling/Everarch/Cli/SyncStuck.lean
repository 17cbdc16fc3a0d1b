import Everarch.Cli.SyncComplete

/-!
# Workers that give up

A worker that gives up on a blob ends and tells nobody. The comparing loop finds out when it
joins the workers, which it does after it has handed over all items. Without a worker it
fills the slot once more and waits for it to be emptied.

* `SyncRun.Spares`: the last worker does not give up while more than one item is left.
* `SyncLemmas.served_step`: as long as more is left, there is a worker.

Result: `sync_not_stuck`.
-/

namespace Everarch

/-- The call ends the worker. -/
def SyncWorker.givesUp (w : SyncWorker) (o : Outcome) : Bool :=
  match w.pc, o with
  | .trying _ _ .configure, .fails => true
  | .trying _ tries _, .fails => maxTries ≤ tries + 1
  | .trying _ _ _, .closeFails => w.cSrc || w.cDst
  | _, _ => false

/-- The number of items that the loop hands over if it gets that far. -/
def SyncCfg.toCopy (cfg : SyncCfg) (src dst : Content) (srcCut dstCut : Cut) : Nat :=
  (difference (cfg.received src srcCut) (cfg.received dst dstCut)).length +
    if cfg.twoWay then
      (difference (cfg.received dst dstCut) (cfg.received src srcCut)).length
    else 0

namespace SyncRun

/-- The loop waits for the slot to be emptied and no worker is left that could do it. -/
def Stuck (s : SyncRun) : Prop :=
  PipeLemmas.awaits (s.pipe.ho.pc 0) = some .available ∧ s.pipe.ho.occupied = true ∧ s.AllEnded

instance (s : SyncRun) : Decidable s.Stuck :=
  inferInstanceAs (Decidable (_ ∧ _))

/-- A worker gives up only if another one is left or at most one item is in the handover or
still to be handed over. -/
def Spares (toCopy : Nat) (s : SyncRun) : SyncEvent → Prop
  | .work i o => (s.worker i).givesUp o = true →
      (∃ j, j ≠ 0 ∧ j ≠ i ∧ s.endedWith j = none) ∨ toCopy ≤ s.pipe.read.length + 1
  | _ => True

instance (toCopy : Nat) (s : SyncRun) : ∀ e, Decidable (s.Spares toCopy e)
  | .work _ _ => inferInstanceAs (Decidable (_ → _))
  | .pass _ | .selectFails | .ho _ | .write | .resume | .read _ | .begin _ | .quit _ _
  | .store _ _ | .join _ => inferInstanceAs (Decidable True)

end SyncRun

namespace SyncLemmas

open HandoverLemmas PipeLemmas CompareLemmas

variable {cfg : SyncCfg} {src dst : Content} {srcCut dstCut : Cut} {s : SyncRun}

/-! ## The handover -/

theorem read_mono (p : Pipe syncThrdCount SyncItem) (e : PipeEvent syncThrdCount SyncItem) :
    p.read.length ≤ (p.step e).read.length := by
  cases e with
  | ho e => exact Nat.le_of_eq (congrArg _ (ho_keeps p e).2.symm)
  | write x =>
    simp only [Pipe.step]
    split
    · exact Nat.le_refl _
    · exact Nat.le_refl _
  | read i =>
    simp only [Pipe.step]
    split
    · rw [List.length_append]
      exact Nat.le_add_right ..
    · exact Nat.le_refl _

/-- A handover that is finished stays so. -/
theorem finish_kept {p : Pipe syncThrdCount SyncItem} (h : PipeOk p)
    (hfinish : p.ho.state = .finish) (e : PipeEvent syncThrdCount SyncItem) :
    (p.step e).ho.state = .finish := by
  have hcalled := (h.finish (by rw [hfinish]; exact HandoverState.noConfusion)).2.1
  cases e with
  | ho e =>
    simp only [Pipe.step]
    split
    · rcases step_cases p.ho e with hsame | hmove
      · exact (congrArg (·.state) hsame).trans hfinish
      · rcases state_of_move hmove with ⟨hstate, -⟩ | ⟨_, -, hidle, -⟩
        · exact hstate.trans hfinish
        · exact absurd hidle hcalled
    · exact hfinish
  | write x =>
    simp only [Pipe.step]
    split
    · exact hfinish
    · exact hfinish
  | read i =>
    simp only [Pipe.step]
    split
    · exact hfinish
    · exact hfinish

theorem pipe_pass (s : SyncRun) (ready : Bool × Bool) :
    (s.pass cfg ready).pipe = s.pipe ∧ (s.pass cfg ready).worker = s.worker := by
  unfold SyncRun.pass
  split
  · dsimp only
    split
    · exact ⟨rfl, rfl⟩
    · exact ⟨rfl, rfl⟩
    · exact ⟨rfl, rfl⟩
    · exact ⟨rfl, rfl⟩
  · exact ⟨rfl, rfl⟩

theorem pipe_workAt (s : SyncRun) (i : Fin (syncThrdCount + 1)) (o : Outcome) :
    (s.workAt i o).pipe = s.pipe := by
  unfold SyncRun.workAt
  split
  · dsimp only
    split
    · rfl
    · rfl
  · rfl

theorem keeps_store (s : SyncRun) (item : SyncItem) (row : BlobPosition) :
    (s.store item row).pipe = s.pipe ∧ (s.store item row).worker = s.worker := by
  unfold SyncRun.store
  split
  · split
    · exact ⟨rfl, rfl⟩
    · exact ⟨rfl, rfl⟩
  · exact ⟨rfl, rfl⟩

/-- The handover changes by its own steps only. -/
theorem pipe_step (cfg : SyncCfg) (s : SyncRun) (e : SyncEvent) :
    (s.step cfg e).pipe = s.pipe ∨ ∃ e', (s.step cfg e).pipe = s.pipe.step e' := by
  cases e with
  | pass ready =>
    simp only [SyncRun.step]
    split
    · exact .inl (pipe_pass s ready).1
    · exact .inl rfl
  | ho e =>
    simp only [SyncRun.step]
    split
    · exact .inr ⟨.ho e, rfl⟩
    · exact .inl rfl
  | write =>
    simp only [SyncRun.step]
    split
    · next item _ =>
      split
      · exact .inr ⟨.write item, rfl⟩
      · exact .inl rfl
    · exact .inl rfl
  | read i =>
    simp only [SyncRun.step]
    split
    · exact .inr ⟨.read i, rfl⟩
    · exact .inl rfl
  | begin i =>
    simp only [SyncRun.step]
    split
    · split
      · exact .inl rfl
      · exact .inl rfl
    · exact .inl rfl
  | work i o => exact .inl (pipe_workAt s i o)
  | store item row => exact .inl (keeps_store s item row).1
  | selectFails | resume | quit i closed | join closed =>
    simp only [SyncRun.step]
    split
    · exact .inl rfl
    · exact .inl rfl

/-! ## Workers that end -/

theorem givesUp_of_work {w : SyncWorker} {found : Option Int} {stored : Bool} {o : Outcome}
    {res : Res} (hlive : ∀ res, w.pc ≠ .ended res) (h : (w.work found stored o).pc = .ended res) :
    w.givesUp o = true := by
  unfold SyncWorker.work at h
  cases hpc : w.pc with
  | waiting =>
    rw [hpc] at h
    cases hpc.symm.trans h
  | got item =>
    rw [hpc] at h
    cases hpc.symm.trans h
  | ended res => exact absurd hpc (hlive res)
  | trying item tries stage =>
    have hstays : w.pc ≠ .ended res := hlive res
    unfold SyncWorker.givesUp
    rw [hpc] at h ⊢
    cases o with
    | ok =>
      cases stage with
      | readFlags =>
        cases found with
        | none => exact absurd h hstays
        | some flags => cases h
      | readResp =>
        cases stored with
        | true => cases h
        | false => exact absurd h hstays
      | _ => cases h
    | fails =>
      have hretry (h : (SyncWorker.retry item tries).pc = .ended res) :
          decide (maxTries ≤ tries + 1) = true := by
        unfold SyncWorker.retry at h
        dsimp only at h
        split at h
        · cases h
        · next hmax => exact decide_eq_true (Nat.le_of_not_lt hmax)
      cases stage with
      | configure => rfl
      | _ => exact hretry h
    | closeFails =>
      dsimp only at h ⊢
      split at h
      · next hopen =>
        cases stage with
        | _ => exact Bool.or_eq_true_iff.mpr hopen
      · exact absurd h hstays

/-- A worker ends by giving up, or after it was told the end. -/
theorem ended_step {e : SyncEvent} {j : Fin (syncThrdCount + 1)} (hbefore : s.endedWith j = none)
    (hafter : (s.step cfg e).endedWith j ≠ none) :
    (∃ o, e = .work j o ∧ (s.worker j).givesUp o = true) ∨ s.pipe.ho.pc j = .ended := by
  have hlive : ∀ res, (s.worker j).pc ≠ .ended res := by
    intro res hpc
    rw [endedWith_eq_some.mpr hpc] at hbefore
    cases hbefore
  -- nothing happens to a worker that is as it was
  have hsame {s' : SyncRun} (hw : s'.worker j = s.worker j) (h' : s'.endedWith j ≠ none) :
      False := by
    unfold SyncRun.endedWith at h'
    rw [hw] at h'
    exact h' hbefore
  have hset {i : Fin (syncThrdCount + 1)} {w : SyncWorker} (hw : ∀ res, w.pc ≠ .ended res)
      (h' : (s.setWorker i w).endedWith j ≠ none) : False := by
    by_cases hji : j = i
    · subst hji
      obtain ⟨res, hres⟩ := Option.ne_none_iff_exists'.mp h'
      rw [endedWith_eq_some, setWorker_self] at hres
      exact hw res hres
    · exact hsame (setWorker_of_ne hji w) h'
  cases e with
  | pass ready =>
    simp only [SyncRun.step] at hafter
    split at hafter
    · exact (hsame (congrFun (pipe_pass s ready).2 j) hafter).elim
    · exact absurd hbefore hafter
  | write =>
    simp only [SyncRun.step] at hafter
    split at hafter
    · split at hafter
      · exact absurd hbefore hafter
      · exact absurd hbefore hafter
    · exact absurd hbefore hafter
  | read i =>
    simp only [SyncRun.step] at hafter
    split at hafter
    · exact (hset (fun _ => WorkerPc.noConfusion) hafter).elim
    · exact absurd hbefore hafter
  | begin i =>
    simp only [SyncRun.step] at hafter
    split at hafter
    · split at hafter
      · exact (hset (fun _ => WorkerPc.noConfusion) hafter).elim
      · exact absurd hbefore hafter
    · exact absurd hbefore hafter
  | work i o =>
    simp only [SyncRun.step, SyncRun.workAt] at hafter
    split at hafter
    · next item tries stage hpc =>
      have hafter' : (s.setWorker i ((s.worker i).work (s.found item) (s.Stored item) o)).endedWith
          j ≠ none := by
        split at hafter
        · exact hafter
        · exact hafter
      by_cases hji : j = i
      · subst hji
        obtain ⟨res, hres⟩ := Option.ne_none_iff_exists'.mp hafter'
        rw [endedWith_eq_some, setWorker_self] at hres
        exact .inl ⟨o, rfl, givesUp_of_work hlive hres⟩
      · exact (hsame (setWorker_of_ne hji _) hafter').elim
    · exact absurd hbefore hafter
  | quit i closed =>
    simp only [SyncRun.step] at hafter
    split at hafter
    · next hquit =>
      by_cases hji : j = i
      · exact .inr (hji ▸ hquit.2.2)
      · exact (hsame (setWorker_of_ne hji _) hafter).elim
    · exact absurd hbefore hafter
  | store item row => exact (hsame (congrFun (keeps_store s item row).2 j) hafter).elim
  | selectFails | ho e | resume | join closed =>
    simp only [SyncRun.step] at hafter
    split at hafter
    · exact absurd hbefore hafter
    · exact absurd hbefore hafter

/-! ## The invariant -/

/-- As long as more than one item is left, there is a worker. -/
def Served (toCopy : Nat) (s : SyncRun) : Prop :=
  s.AllEnded → s.pipe.ho.state = .finish ∨ toCopy ≤ s.pipe.read.length + 1

theorem served_step {toCopy : Nat} (h : SyncOk cfg src dst srcCut dstCut s) (hs : Served toCopy s)
    {e : SyncEvent} (hspares : s.Spares toCopy e) : Served toCopy (s.step cfg e) := by
  intro hended
  have hread : s.pipe.read.length ≤ (s.step cfg e).pipe.read.length := by
    rcases pipe_step cfg s e with hsame | ⟨e', hstep⟩
    · rw [hsame]
    · rw [hstep]
      exact read_mono s.pipe e'
  have hfinish (hfinish : s.pipe.ho.state = .finish) :
      (s.step cfg e).pipe.ho.state = .finish := by
    rcases pipe_step cfg s e with hsame | ⟨e', hstep⟩
    · rw [hsame]
      exact hfinish
    · rw [hstep]
      exact finish_kept h.pipe hfinish e'
  have hleft (hle : toCopy ≤ s.pipe.read.length + 1) :
      toCopy ≤ (s.step cfg e).pipe.read.length + 1 :=
    hle.trans (Nat.add_le_add_right hread 1)
  by_cases hbefore : s.AllEnded
  · exact (hs hbefore).imp hfinish hleft
  · -- a worker ends by this step
    unfold SyncRun.AllEnded at hbefore
    push Not at hbefore
    obtain ⟨j, hj, hlive⟩ := hbefore
    rcases ended_step hlive (hended j hj) with ⟨o, rfl, hgives⟩ | hpc
    · rcases hspares hgives with ⟨k, hk, hkj, hklive⟩ | hle
      · rcases ended_step hklive (hended k hk) with ⟨_, hsame, -⟩ | hpc
        · cases hsame
          exact absurd rfl hkj
        · exact .inl (hfinish (h.pipe.ended k hk hpc).1)
      · exact .inr (hleft hle)
    · exact .inl (hfinish (h.pipe.ended j hj hpc).1)

theorem length_handed (handed : List SyncItem) :
    handed.length = (handedTo .srcToDst handed).length + (handedTo .dstToSrc handed).length := by
  induction handed with
  | nil => rfl
  | cons item handed ih =>
    obtain ⟨dir, ref⟩ := item
    rw [← List.singleton_append, handedTo_append, handedTo_append]
    simp only [List.length_append, ih]
    cases dir with
    | srcToDst =>
      show 1 + _ = 1 + _ + (0 + _)
      omega
    | dstToSrc =>
      show 1 + _ = 0 + _ + (1 + _)
      omega

theorem length_handed_le (h : SyncOk cfg src dst srcCut dstCut s) :
    s.handed.length ≤ cfg.toCopy src dst srcCut dstCut := by
  obtain ⟨srcRest, dstRest, -, -, hkept⟩ := h.streams
  have htoDst := congrArg List.length hkept.split.toDst
  have htoSrc := congrArg List.length hkept.split.toSrc
  rw [List.length_append] at htoDst htoSrc
  rw [length_handed]
  refine Nat.add_le_add (Nat.le.intro htoDst) ((Nat.le.intro htoSrc).trans_eq ?_)
  split
  · rfl
  · rfl

theorem not_stuck (h : SyncOk cfg src dst srcCut dstCut s)
    (hs : Served (cfg.toCopy src dst srcCut dstCut) s) : ¬s.Stuck := by
  rintro ⟨hawaits, hocc, hended⟩
  have hhands : s.loop.hands = true := h.awaiting (by rw [hawaits]; exact Option.some_ne_none _)
  have hrun : s.pipe.ho.state ≠ .finish := by
    intro hfinish
    rw [(h.pipe.finish (by rw [hfinish]; exact HandoverState.noConfusion)).2.2] at hawaits
    cases hawaits
  -- a worker that has ended does not access the slot
  have htouched : s.pipe.touched = false := by
    rw [← Bool.not_eq_true]
    intro htouched
    obtain ⟨i, hi⟩ := h.pipe.touched htouched
    have hproper : i ≠ 0 := by
      intro hzero
      rw [(h.pipe.inside i hi).mp hzero] at hocc
      cases hocc
    obtain ⟨res, hres⟩ := Option.ne_none_iff_exists'.mp (hended i hproper)
    have hplaced := h.placed i hproper
    rw [endedWith_eq_some.mp hres, hi] at hplaced
    cases res with
    | ok => cases hplaced
    | _ =>
      rcases hplaced with hplaced | hplaced
      · cases hplaced
      · cases hplaced
  have hwritten : s.pipe.written.length = s.pipe.read.length + 1 := by
    have hitems := h.pipe.items
    rw [unread, hocc, htouched, if_neg Bool.noConfusion] at hitems
    rw [hitems]
    exact List.length_append
  have hhanded : s.handed.length = s.pipe.written.length + 1 := by
    rw [h.hands, List.length_append]
    cases hloop : s.loop with
    | hand item => rfl
    | _ =>
      rw [hloop] at hhands
      cases hhands
  have hle := length_handed_le h
  have hserved := (hs hended).resolve_left hrun
  omega

end SyncLemmas

open SyncLemmas

/-- In every run in which the last worker does not give up while more than one item is left, the
comparing loop never waits for a slot that nobody will empty. -/
theorem sync_not_stuck (cfg : SyncCfg) (src dst : Content) (srcCut dstCut : Cut)
    (events : List SyncEvent)
    (hspares : Along (SyncRun.step cfg)
      (fun s e => s.Spares (cfg.toCopy src dst srcCut dstCut) e)
      (.start cfg src dst srcCut dstCut) events) :
    ∀ before, before <+: events →
      ¬(exec (SyncRun.step cfg) (.start cfg src dst srcCut dstCut) before).Stuck := by
  rintro before ⟨after, rfl⟩
  have hbefore := (along_append.mp hspares).1
  refine not_stuck (syncOk_run cfg src dst srcCut dstCut before) ?_
  have hinv := hbefore.invariant (fun s => SyncOk cfg src dst srcCut dstCut s ∧
    Served (cfg.toCopy src dst srcCut dstCut) s) ⟨syncOk_start cfg src dst srcCut dstCut, ?_⟩
    fun s e hs hspares => ⟨syncOk_step hs.1 e, served_step hs.1 hs.2 hspares⟩
  · exact hinv.2
  · exact fun hended => absurd rfl (hended 1 (by decide))

/-- A worker fails with its item three times. -/
def giveUp (i : Fin 5) : List SyncEvent :=
  takeItem i ++ List.replicate 3 (.work i .fails)

set_option maxRecDepth 10000 in
/-- Two workers give up and the others are left. -/
theorem sync_not_stuck_two :
    ¬(exec (SyncRun.step ⟨false, 0⟩) (.start ⟨false, 0⟩ (flatContent [1, 2, 3, 4] (by decide))
        (flatContent [] (by decide)) ⟨200, false⟩ ⟨0, false⟩)
        (handOver ++ giveUp 1 ++ handOver ++ giveUp 2 ++ handOver)).Stuck :=
  sync_not_stuck _ _ _ _ _ _ (by decide) _ (List.prefix_refl _)

/-- All workers have given up, the loop fills the slot and comes to wait for it. -/
def allGiveUp : List SyncEvent :=
  handOver ++ giveUp 1 ++ handOver ++ giveUp 2 ++ handOver ++ giveUp 3 ++ handOver ++ giveUp 4 ++
    handOver ++ [.pass (true, true), .ho (.call 0 .available), .ho (.lock 0), .ho (.test 0),
      .ho (.sleep 0)]

set_option maxRecDepth 10000 in
theorem sync_stuck :
    (exec (SyncRun.step ⟨false, 0⟩)
      (.start ⟨false, 0⟩ (flatContent [1, 2, 3, 4, 5, 6] (by decide)) (flatContent [] (by decide))
        ⟨300, false⟩ ⟨0, false⟩) allGiveUp).Stuck := by
  decide

end Everarch
