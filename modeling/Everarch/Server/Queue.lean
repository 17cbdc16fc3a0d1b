import Everarch.Basic
import Everarch.Lib.Ring

/-!
# Queues and observers

queue.c and notify.c: the ring of a queue, which remembers that it overflowed, and the
observers to whose queues `evr_notify_send` puts a message.

* `Queue.pending_put`: a put comes last, or the queue overflows.
* `Queue.pending_next`: a take takes the first.
* `NotifyLemmas.getElem?_notifySend`: what a message does to the queue of an observer.
-/

namespace Everarch

/-! ## Queues -/

/-- `struct evr_queue`. Its length is a power of two, its items are not initialised. -/
structure Queue (α : Type) where
  status : Res
  writing : Nat
  reading : Nat
  itemsLenExp : Nat
  items : Nat → α
  status_known : status = .ok ∨ status = .temporaryOccupied
  writing_lt : writing < 2 ^ itemsLenExp
  reading_lt : reading < 2 ^ itemsLenExp

namespace Queue

variable {α : Type}

/-- `items_len`. -/
def itemsLen (q : Queue α) : Nat :=
  2 ^ q.itemsLenExp

/-- The index behind `i`. -/
def step (q : Queue α) (i : Nat) : Nat :=
  (i + 1) &&& (q.itemsLen - 1)

theorem step_eq (q : Queue α) (i : Nat) : q.step i = (i + 1) % q.itemsLen :=
  Nat.and_two_pow_sub_one_eq_mod _ _

theorem step_lt (q : Queue α) (i : Nat) : q.step i < 2 ^ q.itemsLenExp := by
  rw [step_eq]
  exact Nat.mod_lt _ (Nat.two_pow_pos _)

/-- `evr_create_queue`. -/
def create [Inhabited α] (itemsLenExp : Nat) : Queue α where
  status := .ok
  writing := 0
  reading := 0
  itemsLenExp := itemsLenExp
  items := fun _ => default
  status_known := .inl rfl
  writing_lt := Nat.two_pow_pos _
  reading_lt := Nat.two_pow_pos _

/-- `evr_queue_put`. -/
def put (q : Queue α) (entry : α) : Res × Queue α :=
  if q.status = .temporaryOccupied then (.temporaryOccupied, q)
  else if q.status ≠ .ok then (.error, q)
  else if q.step q.writing = q.reading then
    (.temporaryOccupied, { q with status := .temporaryOccupied, status_known := .inr rfl })
  else
    (.ok, { q with
      items := Function.update q.items q.writing entry
      writing := q.step q.writing
      writing_lt := q.step_lt _ })

/-- There is nothing to take. -/
def isEmpty (q : Queue α) : Bool :=
  q.writing = q.reading

/-- What `evr_queue_take` does when there is an entry. -/
def next (q : Queue α) : α × Queue α :=
  (q.items q.reading, { q with reading := q.step q.reading, reading_lt := q.step_lt _ })

/-- The entries to be taken in their order. -/
def pending (q : Queue α) : List α :=
  window q.items q.itemsLen q.reading q.writing

@[simp] theorem create_status [Inhabited α] (itemsLenExp : Nat) :
    (create itemsLenExp : Queue α).status = .ok := rfl

theorem pending_create [Inhabited α] (itemsLenExp : Nat) :
    (create itemsLenExp : Queue α).pending = [] :=
  window_empty (create itemsLenExp : Queue α).reading_lt

theorem isEmpty_iff (q : Queue α) : q.isEmpty = true ↔ q.pending = [] := by
  rw [← List.length_eq_zero_iff, pending, length_window,
    ringCount_eq_zero (n := q.itemsLen) q.reading_lt q.writing_lt, isEmpty, decide_eq_true_iff]

/-- A put comes last unless the queue is full, which it remembers. -/
theorem pending_put (q : Queue α) (entry : α) :
    (q.put entry).2.status = .temporaryOccupied ∧ (q.put entry).2.pending = q.pending ∨
      q.status = .ok ∧ (q.put entry).2.status = .ok ∧
        (q.put entry).2.pending = q.pending ++ [entry] := by
  unfold put
  split
  · next h => exact .inl ⟨h, rfl⟩
  · next hocc =>
    have hok : q.status = .ok := q.status_known.resolve_right hocc
    rw [if_neg (not_not_intro hok)]
    split
    · exact .inl ⟨rfl, rfl⟩
    · next hroom =>
      refine .inr ⟨hok, hok, ?_⟩
      rw [step_eq] at hroom
      unfold pending
      simp only [step_eq]
      exact window_write q.reading_lt q.writing_lt hroom entry

/-- A queue that overflowed stays so. -/
theorem put_of_occupied {q : Queue α} (h : q.status = .temporaryOccupied) (entry : α) :
    (q.put entry).2 = q := by
  rw [put, if_pos h]

theorem put_res (q : Queue α) (entry : α) :
    (q.put entry).1 = .ok ∨ (q.put entry).1 = .temporaryOccupied := by
  unfold put
  split
  · exact .inr rfl
  · next hocc =>
    rw [if_neg (not_not_intro (q.status_known.resolve_right hocc))]
    split
    · exact .inr rfl
    · exact .inl rfl

/-- A take takes the first entry. -/
theorem pending_next {q : Queue α} (h : q.isEmpty = false) :
    q.pending = q.next.1 :: q.next.2.pending := by
  have hne : q.writing ≠ q.reading := of_decide_eq_false h
  unfold pending next
  simp only [step_eq]
  exact window_read q.reading_lt q.writing_lt hne

end Queue

/-! ## Observers -/

/-- `struct evr_modified_blob`. -/
structure ModifiedBlob where
  key : BlobRef
  lastModified : Nat
  flags : Int
deriving DecidableEq, Inhabited

/-- `struct evr_blob_filter`. -/
structure BlobFilter where
  sortOrder : UInt8
  flagsFilter : UInt8
  lastModifiedAfter : Nat
deriving DecidableEq

/-- All bits of the filter are set. Only the low byte of the flags matters. -/
def BlobFilter.passes (f : BlobFilter) (flags : Int) : Bool :=
  f.flagsFilter &&& UInt8.ofInt flags = f.flagsFilter

/-- `struct evr_observer`. -/
structure Observer where
  filter : BlobFilter
  messages : Queue ModifiedBlob

/-- The slots of `struct evr_notify_ctx`. -/
abbrev Observers := List (Option Observer)

/-- The `msgs_len_exp` of the persister's watchers. -/
def msgsLenExp : Nat := 8

/-- `evr_create_notify_ctx(32, 8, …)`. -/
def createNotifyCtx : Observers :=
  List.replicate 32 none

/-- `evr_notify_register`: the first free slot. -/
def notifyRegister (obs : Observers) (f : BlobFilter) : Option (Nat × Observers) :=
  let slot := obs.findIdx Option.isNone
  if slot < obs.length then some (slot, obs.set slot (some ⟨f, .create msgsLenExp⟩)) else none

/-- `evr_notify_unregister`. The slot stands for the queue. -/
def notifyUnregister (obs : Observers) (slot : Nat) : Observers :=
  obs.set slot none

/-- What `evr_notify_send` does to an observer. -/
def Observer.notify (o : Observer) (entry : ModifiedBlob) : Res × Observer :=
  -- evr_persister_watch_filter
  if o.filter.passes entry.flags then
    let r := o.messages.put entry
    (r.1, { o with messages := r.2 })
  else (.ok, o)

/-- `evr_notify_send` with `evr_persister_watch_filter`. -/
def notifySend (obs : Observers) (entry : ModifiedBlob) : Res × Observers :=
  (if obs.all fun o => o.all fun o =>
      (o.notify entry).1 = .ok || (o.notify entry).1 = .temporaryOccupied then .ok else .error,
    obs.map (Option.map fun o => (o.notify entry).2))

namespace NotifyLemmas

theorem notify_filter (o : Observer) (entry : ModifiedBlob) :
    (o.notify entry).2.filter = o.filter := by
  unfold Observer.notify
  split
  · rfl
  · rfl

theorem notify_res (o : Observer) (entry : ModifiedBlob) :
    (o.notify entry).1 = .ok ∨ (o.notify entry).1 = .temporaryOccupied := by
  unfold Observer.notify
  split
  · exact o.messages.put_res entry
  · exact .inl rfl

theorem notifySend_ok (obs : Observers) (entry : ModifiedBlob) :
    (notifySend obs entry).1 = .ok := by
  refine if_pos (List.all_eq_true.mpr fun o _ => ?_)
  cases o with
  | none => rfl
  | some o =>
    rw [Option.all_some, Bool.or_eq_true, decide_eq_true_iff, decide_eq_true_iff]
    exact notify_res o entry

theorem getElem?_notifySend {obs : Observers} {slot : Nat} {o : Observer}
    (h : obs[slot]? = some (some o)) (entry : ModifiedBlob) :
    (notifySend obs entry).2[slot]? = some (some (o.notify entry).2) := by
  rw [notifySend, List.getElem?_map, h]
  rfl

/-- A new observer takes a slot that was free. -/
theorem notifyRegister_spec {obs obs' : Observers} {f : BlobFilter} {slot : Nat}
    (h : notifyRegister obs f = some (slot, obs')) :
    obs[slot]? = some none ∧ obs' = obs.set slot (some ⟨f, .create msgsLenExp⟩) ∧
      slot < obs.length := by
  unfold notifyRegister at h
  simp only at h
  split at h
  · next hlt =>
    cases h
    have hfree := List.findIdx_getElem (w := hlt)
    rw [Option.isNone_iff_eq_none] at hfree
    exact ⟨List.getElem?_eq_some_iff.mpr ⟨hlt, hfree⟩, rfl, hlt⟩
  · cases h

end NotifyLemmas

end Everarch
