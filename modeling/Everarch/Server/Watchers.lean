import Everarch.Server.Storage

/-!
# The slots of watches

Every live watch owns the slot of its queue, so that nobody but the persister and its own
worker touches the queue.

* `WatchersLemmas.slotsOwned_step`: one step of the server keeps this.
* `WatchersLemmas.watch_frame`: what the steps of others do to a live watch.
-/

namespace Everarch

/-- The slot of a live watch. -/
def Worker.slot : Worker → Option Nat
  | .listBlobs _ slot => slot
  | .sendList slot _ => slot
  | .takeBlob slot => some slot
  | .waitFill slot => some slot
  | _ => none

/-- The slot of the watch of a connection. -/
def Server.slot (s : Server) (i : Nat) : Option Nat :=
  (s.connection i).worker.slot

/-- Slots of watches are taken, and no two watches have the same. -/
structure SlotsOwned (s : Server) : Prop where
  taken : ∀ i k, s.slot i = some k → ∃ o, s.watchers[k]? = some (some o)
  unique : ∀ i j k, s.slot i = some k → s.slot j = some k → i = j

/-- What a worker can do to the slots. -/
inductive SlotStep (i : Nat) (s s' : Server) : Prop
  | same (hslot : s'.slot i = s.slot i) (hwatchers : s'.watchers = s.watchers)
  | ended (k : Nat) (hold : s.slot i = some k) (hnew : s'.slot i = none)
      (hwatchers : s'.watchers = s.watchers.set k none)
  | changed (k : Nat) (o : Observer) (hold : s.slot i = some k) (hnew : s'.slot i = some k)
      (hwatchers : s'.watchers = s.watchers.set k (some o))
  | added (k : Nat) (o : Observer) (hold : s.slot i = none) (hnew : s'.slot i = some k)
      (hfree : s.watchers[k]? = some none) (hwatchers : s'.watchers = s.watchers.set k (some o))

/-- A step of the worker of a connection or of its socket. -/
def ServerEvent.Of (i : Nat) : ServerEvent → Prop
  | .receive j _ | .hangUp j | .turn j _ => j = i
  | _ => False

namespace WatchersLemmas

open NotifyLemmas

/-! ## Steps of a worker -/

section Worker

variable {env : StorageEnv} {s : Server} {i : Nat}

theorem slot_setConnection (s : Server) (i : Nat) (c : Connection) :
    (s.setConnection i c).slot i = c.worker.slot := by
  rw [Server.slot, Server.setConnection_self]

theorem slotStep_setConnection {c : Connection} (h : c.worker.slot = s.slot i) :
    SlotStep i s (s.setConnection i c) :=
  .same ((slot_setConnection s i c).trans h) rfl

theorem slotStep_refl : SlotStep i s s := .same rfl rfl

theorem slot_nextCommand (running : Bool) : (Connection.nextCommand running).slot = none := by
  cases running with
  | false => rfl
  | true => rfl

theorem slotStep_endWatch {slot : Option Nat} (h : s.slot i = slot) (res : Res) :
    SlotStep i s (s.endWatch i slot res) := by
  cases slot with
  | none => exact slotStep_setConnection h.symm
  | some k => exact .ended k h (slot_setConnection _ _ _) rfl

theorem slotStep_sendTaken {k : Nat} (h : s.slot i = some k) (o : Observer) :
    SlotStep i s (s.sendTaken i k o) :=
  .changed k _ h (slot_setConnection _ _ _) rfl

theorem slot_answers {w : Worker} {r : Reply} (h : s.Answers w r) : w.slot = none := by
  cases h with
  | _ => rfl

theorem slot_moves {n : Nat} {w w' : Worker} (h : s.Moves env n w w') : w'.slot = w.slot := by
  cases h with
  | _ => rfl

theorem slot_endsWatch {w : Worker} {slot : Option Nat} (h : Server.EndsWatch w slot) :
    w.slot = slot := by
  cases h with
  | _ => rfl

theorem slotStep_turn (n : Nat) : SlotStep i s (s.turn env i n) := by
  have hslot : ∀ {w}, (s.connection i).worker = w → s.slot i = w.slot := congrArg Worker.slot
  have hturned := s.turned env i n
  generalize s.turn env i n = s' at hturned ⊢
  cases hturned with
  | idle => exact slotStep_refl
  | answered hw hanswers =>
    refine slotStep_setConnection ((slot_nextCommand _).trans ?_)
    rw [hslot hw, slot_answers hanswers]
  | moved hw hmoves => exact slotStep_setConnection ((slot_moves hmoves).trans (hslot hw).symm)
  | queued hw => exact .same ((slot_setConnection _ _ _).trans (hslot hw).symm) rfl
  | watching hw hregister =>
    obtain ⟨hfree, hset, -⟩ := notifyRegister_spec hregister
    exact .added _ _ (hslot hw) (slot_setConnection _ _ _) hfree hset
  | reported hw => exact slotStep_setConnection (hslot hw).symm
  | ended hw hends => exact slotStep_endWatch ((hslot hw).trans (slot_endsWatch hends)) _
  | took hw =>
    refine slotStep_sendTaken ?_ _
    rcases hw with hw | hw
    · exact hslot hw
    · exact hslot hw

theorem slotStep_hangUp : SlotStep i s (s.hangUp i) := by
  have hslot : s.slot i = (s.connection i).worker.slot := rfl
  unfold Server.hangUp
  simp only
  split
  case h_1 hw => exact slotStep_setConnection (by rw [hslot, hw]; rfl)
  case h_5 hw => exact slotStep_endWatch (by rw [hslot, hw]; rfl) _
  case h_6 hw => exact slotStep_endWatch (by rw [hslot, hw]; rfl) _
  case h_7 hw => exact slotStep_endWatch (by rw [hslot, hw]; rfl) _
  case h_8 hw => exact slotStep_endWatch (by rw [hslot, hw]; rfl) _
  case h_9 hreading hqueue hwait hended hlist hsend htake hfill =>
    refine slotStep_setConnection (Eq.trans ?_ hslot.symm)
    cases hw : (s.connection i).worker with
    | listBlobs f slot => exact absurd hw (hlist f slot)
    | sendList slot blobs => exact absurd hw (hsend slot blobs)
    | takeBlob slot => exact absurd hw (htake slot)
    | waitFill slot => exact absurd hw (hfill slot)
    | _ => rfl
  all_goals exact slotStep_refl

theorem slot_startCommand (running : Bool) (c : Connection) (cmd : CmdHeader) :
    (c.startCommand running cmd).worker.slot = none := by
  unfold Connection.startCommand
  repeat' split
  all_goals first | rfl | exact slot_nextCommand running

theorem slot_completed (hash : Bytes → BlobRef) (running : Bool) (c : Connection) (buf : Bytes)
    (r : Reading) : (c.completed hash running buf r).worker.slot = none := by
  have hchunk (cmd : CmdHeader) (u : Upload) : (c.nextChunk hash cmd u).worker.slot = none := by
    unfold Connection.nextChunk
    repeat' split
    all_goals rfl
  cases r with
  | header => exact slot_startCommand running c _
  | unknown | configure => exact slot_nextCommand running
  | putFlags | putChunk => exact hchunk _ _
  | _ => rfl

theorem slot_receive (hash : Bytes → BlobRef) (running : Bool) (c : Connection) (data : Bytes) :
    (c.receive hash running data).worker.slot = c.worker.slot := by
  unfold Connection.receive
  split
  · next r remaining buf hw =>
    rw [hw]
    split
    · rw [hw]
    · simp only
      split
      · rfl
      · exact slot_completed hash running _ _ _
  · rfl

/-! ## Other connections -/

variable {j : Nat}

theorem endWatch_connection_of_ne (h : j ≠ i) (slot : Option Nat) (res : Res) :
    (s.endWatch i slot res).connection j = s.connection j := by
  cases slot with
  | none => exact Server.setConnection_of_ne s h _
  | some k => exact Server.setConnection_of_ne s h _

theorem turn_connection_of_ne (h : j ≠ i) (n : Nat) :
    (s.turn env i n).connection j = s.connection j := by
  have hturned := s.turned env i n
  generalize s.turn env i n = s' at hturned ⊢
  cases hturned with
  | idle => rfl
  | ended => exact endWatch_connection_of_ne h _ _
  | _ => exact Server.setConnection_of_ne s h _

theorem hangUp_connection_of_ne (h : j ≠ i) : (s.hangUp i).connection j = s.connection j := by
  unfold Server.hangUp
  simp only
  repeat' split
  all_goals first
    | rfl
    | exact Server.setConnection_of_ne s h _
    | exact endWatch_connection_of_ne h _ _

/-- A worker that touches its own slot only. -/
theorem slotsOwned_of_slotStep {s' : Server} (h : SlotsOwned s)
    (hothers : ∀ j, j ≠ i → s'.connection j = s.connection j) (hstep : SlotStep i s s') :
    SlotsOwned s' := by
  have hsame {j : Nat} (hj : j ≠ i) : s'.slot j = s.slot j := by
    rw [Server.slot, hothers j hj, Server.slot]
  cases hstep with
  | same hslot hwatchers =>
    have hall (j : Nat) : s'.slot j = s.slot j := by
      by_cases hj : j = i
      · rw [hj, hslot]
      · exact hsame hj
    refine ⟨fun j k hk => ?_, fun j j' k hk hk' => ?_⟩
    · rw [hwatchers]
      exact h.taken j k (hall j ▸ hk)
    · exact h.unique j j' k (hall j ▸ hk) (hall j' ▸ hk')
  | ended k hold hnew hwatchers =>
    have hne {j k' : Nat} (hk' : s'.slot j = some k') : j ≠ i := by
      rintro rfl
      rw [hnew] at hk'
      cases hk'
    refine ⟨fun j k' hk' => ?_, fun j j' k' hk hk' => ?_⟩
    · have hj := hsame (hne hk') ▸ hk'
      have hother : k ≠ k' := by
        rintro rfl
        exact hne hk' (h.unique j i k hj hold)
      rw [hwatchers, List.getElem?_set_ne hother]
      exact h.taken j k' hj
    · exact h.unique j j' k' (hsame (hne hk) ▸ hk) (hsame (hne hk') ▸ hk')
  | changed k o hold hnew hwatchers =>
    have hall (j : Nat) : s'.slot j = s.slot j := by
      by_cases hj : j = i
      · rw [hj, hnew, hold]
      · exact hsame hj
    refine ⟨fun j k' hk' => ?_, fun j j' k' hk hk' => ?_⟩
    · obtain ⟨o', ho'⟩ := h.taken j k' (hall j ▸ hk')
      rw [hwatchers, List.getElem?_set]
      split
      · next heq =>
        subst heq
        rw [if_pos (List.getElem?_eq_some_iff.mp ho').1]
        exact ⟨o, rfl⟩
      · exact ⟨o', ho'⟩
    · exact h.unique j j' k' (hall j ▸ hk) (hall j' ▸ hk')
  | added k o hold hnew hfree hwatchers =>
    have hlt : k < s.watchers.length := (List.getElem?_eq_some_iff.mp hfree).1
    have hother {j k' : Nat} (hj : j ≠ i) (hk' : s'.slot j = some k') :
        k ≠ k' ∧ ∃ o', s.watchers[k']? = some (some o') := by
      obtain ⟨o', ho'⟩ := h.taken j k' (hsame hj ▸ hk')
      refine ⟨?_, o', ho'⟩
      rintro rfl
      rw [hfree] at ho'
      cases ho'
    refine ⟨fun j k' hk' => ?_, fun j j' k' hk hk' => ?_⟩
    · by_cases hj : j = i
      · rw [hj, hnew] at hk'
        cases hk'
        rw [hwatchers, List.getElem?_set_self hlt]
        exact ⟨o, rfl⟩
      · obtain ⟨hne, ho'⟩ := hother hj hk'
        rw [hwatchers, List.getElem?_set_ne hne]
        exact ho'
    · by_cases hj : j = i
      · by_cases hj' : j' = i
        · rw [hj, hj']
        · rw [hj, hnew] at hk
          exact absurd (Option.some.inj hk) (hother hj' hk').1
      · by_cases hj' : j' = i
        · rw [hj', hnew] at hk'
          exact absurd (Option.some.inj hk') (hother hj hk).1
        · exact h.unique j j' k' (hsame hj ▸ hk) (hsame hj' ▸ hk')

/-- A worker leaves the slots of others alone. -/
theorem slotStep_watchers_of_ne {s' : Server} (h : SlotsOwned s) (hji : j ≠ i) {k : Nat}
    (hk : s.slot j = some k) (hstep : SlotStep i s s') : s'.watchers[k]? = s.watchers[k]? := by
  cases hstep with
  | same hslot hwatchers => rw [hwatchers]
  | ended k' hold hnew hwatchers =>
    have hne : k' ≠ k := by
      rintro rfl
      exact hji (h.unique j i k' hk hold)
    rw [hwatchers, List.getElem?_set_ne hne]
  | changed k' o hold hnew hwatchers =>
    have hne : k' ≠ k := by
      rintro rfl
      exact hji (h.unique j i k' hk hold)
    rw [hwatchers, List.getElem?_set_ne hne]
  | added k' o hold hnew hfree hwatchers =>
    have hne : k' ≠ k := by
      rintro rfl
      obtain ⟨o', ho'⟩ := h.taken j k' hk
      rw [hfree] at ho'
      cases ho'
    rw [hwatchers, List.getElem?_set_ne hne]

end Worker

/-! ## Steps of the server -/

section Step

variable {env : StorageEnv} {s : Server}

theorem unlockDone_connection_of_ne {i j : Nat} (h : j ≠ i) (res : Res) :
    (s.unlockDone i res).connection j = s.connection j := by
  unfold Server.unlockDone
  split
  · exact Server.setConnection_of_ne s h _
  · rfl

theorem slotStep_unlockDone (i : Nat) (res : Res) : SlotStep i s (s.unlockDone i res) := by
  unfold Server.unlockDone
  split
  · next hw => exact slotStep_setConnection (by rw [Server.slot, hw]; rfl)
  · exact slotStep_refl

/-- Nothing but slots and queues matters. -/
theorem slotsOwned_congr {s' : Server} (h : SlotsOwned s) (hconnection : s'.connection = s.connection)
    (hwatchers : s'.watchers = s.watchers) : SlotsOwned s' := by
  obtain ⟨htaken, hunique⟩ := h
  unfold Server.slot at htaken hunique
  constructor
  · unfold Server.slot
    rw [hconnection, hwatchers]
    exact htaken
  · unfold Server.slot
    rw [hconnection]
    exact hunique

theorem slotsOwned_persist (h : SlotsOwned s) : SlotsOwned s.persist := by
  unfold Server.persist
  split
  · exact h
  · exact slotsOwned_congr h rfl rfl
  · split
    · exact slotsOwned_congr h rfl rfl
    · exact slotsOwned_congr h rfl rfl
    · exact slotsOwned_congr h rfl rfl
  · next task lastModified res hp =>
    have hnext : SlotsOwned (s.unlockDone task.owner res) := slotsOwned_of_slotStep h
      (fun j hj => unlockDone_connection_of_ne hj res) (slotStep_unlockDone task.owner res)
    exact slotsOwned_congr hnext rfl rfl
  · next blob hp =>
    refine ⟨fun i k hk => ?_, h.unique⟩
    obtain ⟨o, ho⟩ := h.taken i k hk
    exact ⟨_, getElem?_notifySend ho blob⟩

theorem slotsOwned_takeTask (h : SlotsOwned s) (now : UInt64) : SlotsOwned (s.takeTask env now) := by
  unfold Server.takeTask
  repeat' split
  all_goals first | exact h | exact slotsOwned_congr h rfl rfl

/-- One step of the server. -/
theorem slotsOwned_step (h : SlotsOwned s) (e : ServerEvent) : SlotsOwned (s.step env e) := by
  unfold Server.step
  split
  · exact h
  · cases e with
    | receive i data =>
      exact slotsOwned_of_slotStep h (fun j hj => Server.setConnection_of_ne s hj _)
        (slotStep_setConnection (slot_receive _ _ _ data))
    | hangUp i =>
      exact slotsOwned_of_slotStep h (fun j hj => hangUp_connection_of_ne hj) slotStep_hangUp
    | turn i n =>
      exact slotsOwned_of_slotStep h (fun j hj => turn_connection_of_ne hj n) (slotStep_turn n)
    | takeTask now => exact slotsOwned_takeTask h now
    | persist => exact slotsOwned_persist h
    | shutdown => exact slotsOwned_congr h rfl rfl
    | stopPersister => exact slotsOwned_congr h rfl rfl

theorem slotsOwned_start : SlotsOwned .start := by
  have hnone (i : Nat) : Server.start.slot i = none := slot_nextCommand true
  constructor
  · intro i k hk
    rw [hnone] at hk
    cases hk
  · intro i j k hk
    rw [hnone] at hk
    cases hk

theorem takeTask_connection (env : StorageEnv) (s : Server) (now : UInt64) :
    (s.takeTask env now).connection = s.connection ∧
      (s.takeTask env now).watchers = s.watchers := by
  unfold Server.takeTask
  repeat' split
  all_goals exact ⟨rfl, rfl⟩

/-- The steps of others leave a connection alone unless it waits for the persister. -/
theorem connection_frame (env : StorageEnv) {i : Nat} (hw : (s.connection i).worker ≠ .waitForTask)
    {e : ServerEvent} (he : ¬ e.Of i) : (s.step env e).connection i = s.connection i := by
  unfold Server.step
  split
  · rfl
  · cases e with
    | receive j data => exact Server.setConnection_of_ne s (Ne.symm he) _
    | hangUp j => exact hangUp_connection_of_ne (Ne.symm he)
    | turn j n => exact turn_connection_of_ne (Ne.symm he) n
    | takeTask now => exact congrFun (takeTask_connection env s now).1 i
    | persist =>
      simp only [Server.persist]
      split
      · rfl
      · rfl
      · split
        · rfl
        · rfl
        · rfl
      · next task lastModified res hp =>
        simp only [Server.unlockDone]
        split
        · next hwait =>
          have hne : i ≠ task.owner := by
            rintro rfl
            exact hw hwait
          exact Server.setConnection_of_ne s hne _
        · rfl
      · rfl
    | shutdown => rfl
    | stopPersister => rfl

/-- What a step that is not one of a live watch does to its queue. -/
theorem watch_frame (env : StorageEnv) (h : SlotsOwned s) {i k : Nat} (hk : s.slot i = some k)
    {o : Observer} (ho : s.watchers[k]? = some (some o)) {e : ServerEvent} (he : ¬ e.Of i) :
    (s.step env e).watchers[k]? = some (some o) ∨
      ∃ blob, e = .persist ∧ s.persister = .notifying blob ∧
        (s.step env e).watchers[k]? = some (some (o.notify blob).2) := by
  unfold Server.step
  split
  · exact .inl ho
  · cases e with
    | receive j data => exact .inl ho
    | hangUp j =>
      exact .inl ((slotStep_watchers_of_ne h (Ne.symm he) hk slotStep_hangUp).trans ho)
    | turn j n =>
      exact .inl ((slotStep_watchers_of_ne h (Ne.symm he) hk (slotStep_turn n)).trans ho)
    | takeTask now => exact .inl ((takeTask_connection env s now).2 ▸ ho)
    | persist =>
      simp only [Server.persist]
      split
      · exact .inl ho
      · exact .inl ho
      · split
        · exact .inl ho
        · exact .inl ho
        · exact .inl ho
      · next task lastModified res hp =>
        simp only [Server.unlockDone]
        split
        · exact .inl ho
        · exact .inl ho
      · next blob hp => exact .inr ⟨blob, trivial, hp, getElem?_notifySend ho blob⟩
    | shutdown => exact .inl ho
    | stopPersister => exact .inl ho

end Step

end WatchersLemmas

end Everarch
