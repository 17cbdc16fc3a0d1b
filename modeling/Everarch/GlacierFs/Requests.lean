import Everarch.GlacierFs.Inodes

/-!
# Concurrent requests of evr-glacier-fs

Requests whose steps interleave in any order, while the clock runs. A step is what a request
does while it has the mutex, or a reading of the clock that happens outside of it.

Three things go wrong. `evr_acquire_inode` does not lock a slot that is new for the ref. The
lock is one flag for all requests, so the first unlock ends it for all. And a request may use a
time that it has read before it waited for the mutex, which shortens the lifetime that another
one has promised.

Result: `held_inodes_stable`.
-/

namespace Everarch

/-! ## Requests -/

/-- Where a request is. `looking` has read the clock in `evr_lookup_inode` and waits for the
mutex, `fetching` is in `evr_stat_file`, `unlocking` has read the clock in `evr_unlock_inode`.
What a request has obtained is the index of the slot, its ref and the time. -/
inductive FsWork where
  | idle
  | looking (ino : Nat) (lock : Bool) (t : Nat)
  | fetching (i : Nat) (ref : ClaimRef) (obtained : Nat)
  | holding (i : Nat) (ref : ClaimRef) (obtained : Nat)
  | unlocking (i : Nat) (ref : ClaimRef) (obtained t : Nat)
deriving DecidableEq

/-- The slot that a request has obtained and has not unlocked. -/
def FsWork.holds : FsWork → Option (Nat × ClaimRef × Nat)
  | .fetching i ref obtained | .holding i ref obtained | .unlocking i ref obtained _ =>
    some (i, ref, obtained)
  | _ => none

/-- The process with the clock. `promised` has for each slot the ref of the last unlock and the
end of the lifetime that its reply promised; it is no part of the process. -/
structure GlacierFs where
  now : Nat
  inodes : FsInodes
  request : Nat → FsWork
  promised : Nat → Option (ClaimRef × Nat)

/-- What happens next. `acquire` is a lookup whose `evr_stat_file` returned ok, `beginLookup` a
getattr, or an open, which does not lock. -/
inductive FsEvent where
  | tick (n : Nat)
  | acquire (r : Nat) (ref : ClaimRef)
  | beginLookup (r ino : Nat) (lock : Bool)
  | lookup (r : Nat)
  | stat (r : Nat) (res : Res)
  | beginUnlock (r : Nat)
  | unlock (r : Nat)

namespace GlacierFs

def start : GlacierFs :=
  ⟨0, emptyInodes, fun _ => .idle, fun _ => none⟩

def goto (s : GlacierFs) (r : Nat) (w : FsWork) : GlacierFs :=
  { s with request := Function.update s.request r w }

theorem request_goto_self (s : GlacierFs) (r : Nat) (w : FsWork) : (s.goto r w).request r = w :=
  Function.update_self ..

theorem request_goto_of_ne (s : GlacierFs) {r r' : Nat} (h : r' ≠ r) (w : FsWork) :
    (s.goto r w).request r' = s.request r' :=
  Function.update_of_ne h ..

/-- One step. An event that is not possible in a state leaves it as it is. -/
def step (s : GlacierFs) : FsEvent → GlacierFs
  | .tick n => { s with now := s.now + n }
  | .acquire r ref =>
    match s.request r with
    | .idle =>
      match acquireInode s.inodes ref true s.now with
      | none => s
      | some (ino, inodes) =>
        { s with inodes := inodes }.goto r (.holding (ino - inoDyn) ref s.now)
    | _ => s
  | .beginLookup r ino lock =>
    match s.request r with
    | .idle => s.goto r (.looking ino lock s.now)
    | _ => s
  | .lookup r =>
    match s.request r with
    | .looking ino lock t =>
      match lookupInode s.inodes ino lock t with
      | none => s.goto r .idle
      | some (ref, inodes) =>
        { s with inodes := inodes }.goto r
          (if lock then .fetching (ino - inoDyn) ref s.now else .idle)
    | _ => s
  | .stat r res =>
    match s.request r with
    | .fetching i ref obtained =>
      if res ≠ .ok then s.goto r .idle else s.goto r (.holding i ref obtained)
    | _ => s
  | .beginUnlock r =>
    match s.request r with
    | .holding i ref obtained => s.goto r (.unlocking i ref obtained s.now)
    | _ => s
  | .unlock r =>
    match s.request r with
    | .unlocking i ref _ t =>
      { s with
        inodes := unlockInode s.inodes (i + inoDyn) t
        promised := Function.update s.promised i (some (ref, s.now + inodeLifetime)) }.goto r .idle
    | _ => s

/-- The slots of the requests in progress, and those whose lifetime has not passed, have the
refs that they had. -/
def Stable (s : GlacierFs) : Prop :=
  (∀ r i ref obtained, (s.request r).holds = some (i, ref, obtained) → (s.inodes i).ref = ref) ∧
    ∀ i ref until_, s.promised i = some (ref, until_) → s.now ≤ until_ → (s.inodes i).ref = ref

/-- When a slot may be given away, every request that has a slot without its lock obtained it
at most a lifetime ago. Times are used before they are older than the overlap. -/
def Timely (s : GlacierFs) : FsEvent → Prop
  | .acquire _ _ => ∀ r i ref obtained, (s.request r).holds = some (i, ref, obtained) →
      (s.inodes i).locked = false → s.now ≤ obtained + inodeLifetime
  | .lookup r => ∀ ino lock t, s.request r = .looking ino lock t →
      s.now ≤ t + inodeLifetimeOverlap
  | .unlock r => ∀ i ref obtained t, s.request r = .unlocking i ref obtained t →
      s.now ≤ t + inodeLifetimeOverlap
  | _ => True

end GlacierFs

namespace RequestLemmas

open GlacierFs InodeLemmas

/-- Every slot that a request has obtained or whose lifetime has not passed has its ref, and its
timeout is not before the end of the lifetime. -/
structure RequestsOk (s : GlacierFs) : Prop where
  held : ∀ r i ref obtained, (s.request r).holds = some (i, ref, obtained) →
    (s.inodes i).ref = ref ∧ obtained + inodeLifetime ≤ (s.inodes i).timeout ∧ obtained ≤ s.now
  promised : ∀ i ref until_, s.promised i = some (ref, until_) →
    until_ ≤ s.now + inodeLifetime ∧
      (s.now ≤ until_ → (s.inodes i).ref = ref ∧ until_ ≤ (s.inodes i).timeout)

variable {s : GlacierFs}

/-- A request goes on. -/
theorem requestsOk_goto (h : RequestsOk s) {r : Nat} {w : FsWork}
    (hw : ∀ i ref obtained, w.holds = some (i, ref, obtained) →
      (s.inodes i).ref = ref ∧ obtained + inodeLifetime ≤ (s.inodes i).timeout ∧
        obtained ≤ s.now) : RequestsOk (s.goto r w) where
  held r' i ref obtained hholds := by
    by_cases heq : r' = r
    · rw [heq, request_goto_self] at hholds
      exact hw i ref obtained hholds
    · rw [request_goto_of_ne s heq] at hholds
      exact h.held r' i ref obtained hholds
  promised := h.promised

theorem requestsOk_idle (h : RequestsOk s) (r : Nat) : RequestsOk (s.goto r .idle) :=
  requestsOk_goto h fun _ _ _ hholds => by cases hholds

/-- A slot gets a later timeout. -/
theorem requestsOk_extend (h : RequestsOk s) {i : Nat} {ind : FsInode}
    (href : ind.ref = (s.inodes i).ref) (htimeout : s.now + inodeLifetime ≤ ind.timeout) :
    RequestsOk { s with inodes := Function.update s.inodes i ind } where
  held r j ref obtained hholds := by
    obtain ⟨hheld, hlife, hnow⟩ := h.held r j ref obtained hholds
    dsimp only
    by_cases heq : j = i
    · rw [heq] at hheld ⊢
      rw [Function.update_self]
      exact ⟨href.trans hheld, (Nat.add_le_add_right hnow _).trans htimeout, hnow⟩
    · rw [Function.update_of_ne heq]
      exact ⟨hheld, hlife, hnow⟩
  promised j ref until_ hpromised := by
    obtain ⟨hlate, hkept⟩ := h.promised j ref until_ hpromised
    refine ⟨hlate, fun hnow => ?_⟩
    obtain ⟨hheld, hlife⟩ := hkept hnow
    dsimp only
    by_cases heq : j = i
    · rw [heq] at hheld ⊢
      rw [Function.update_self]
      exact ⟨href.trans hheld, hlate.trans htimeout⟩
    · rw [Function.update_of_ne heq]
      exact ⟨hheld, hlife⟩

/-- A free slot gets another ref. -/
theorem requestsOk_assign (h : RequestsOk s) {i : Nat} {ind : FsInode}
    (hfree : (s.inodes i).Free s.now)
    (htimely : ∀ r i ref obtained, (s.request r).holds = some (i, ref, obtained) →
      (s.inodes i).locked = false → s.now ≤ obtained + inodeLifetime) :
    RequestsOk { s with inodes := Function.update s.inodes i ind } where
  held r j ref obtained hholds := by
    obtain ⟨hheld, hlife, hnow⟩ := h.held r j ref obtained hholds
    have hne : j ≠ i := by
      rintro rfl
      have hle := (htimely r j ref obtained hholds hfree.1).trans hlife
      exact Nat.lt_irrefl _ (Nat.lt_of_le_of_lt hle hfree.2)
    dsimp only
    rw [Function.update_of_ne hne]
    exact ⟨hheld, hlife, hnow⟩
  promised j ref until_ hpromised := by
    obtain ⟨hlate, hkept⟩ := h.promised j ref until_ hpromised
    refine ⟨hlate, fun hnow => ?_⟩
    obtain ⟨hheld, hlife⟩ := hkept hnow
    have hne : j ≠ i := by
      rintro rfl
      exact Nat.lt_irrefl _ (Nat.lt_of_le_of_lt (hnow.trans hlife) hfree.2)
    dsimp only
    rw [Function.update_of_ne hne]
    exact ⟨hheld, hlife⟩

/-- A reply promises the lifetime. -/
theorem requestsOk_promise (h : RequestsOk s) {i : Nat} {ref : ClaimRef}
    (href : (s.inodes i).ref = ref) (htimeout : s.now + inodeLifetime ≤ (s.inodes i).timeout) :
    RequestsOk { s with
      promised := Function.update s.promised i (some (ref, s.now + inodeLifetime)) } where
  held := h.held
  promised j ref' until_ hpromised := by
    dsimp only at hpromised
    by_cases heq : j = i
    · rw [heq, Function.update_self] at hpromised
      cases hpromised
      rw [heq]
      exact ⟨Nat.le_refl _, fun _ => ⟨href, htimeout⟩⟩
    · rw [Function.update_of_ne heq] at hpromised
      exact h.promised j ref' until_ hpromised

/-- A time that is not too old gives a late timeout. -/
theorem timeout_late {now t : Nat} (h : now ≤ t + inodeLifetimeOverlap) :
    now + inodeLifetime ≤ t + inodeLifetime + inodeLifetimeOverlap := by
  rw [Nat.add_right_comm]
  exact Nat.add_le_add_right h _

theorem requestsOk_start : RequestsOk .start where
  held _ _ _ _ hholds := by cases hholds
  promised _ _ _ hpromised := by cases hpromised

/-- A request obtains the slot that it has changed. -/
theorem requestsOk_obtain {i : Nat} {ind : FsInode}
    (h : RequestsOk { s with inodes := Function.update s.inodes i ind })
    (hlate : s.now + inodeLifetime ≤ ind.timeout) (r : Nat) {w : FsWork}
    (hw : w.holds = some (i, ind.ref, s.now)) :
    RequestsOk ({ s with inodes := Function.update s.inodes i ind }.goto r w) := by
  refine requestsOk_goto h fun j ref obtained hholds => ?_
  rw [hw] at hholds
  cases hholds
  dsimp only
  rw [Function.update_self]
  exact ⟨rfl, hlate, Nat.le_refl _⟩

theorem requestsOk_tick (h : RequestsOk s) (n : Nat) : RequestsOk (s.step (.tick n)) := by
  unfold GlacierFs.step
  refine ⟨fun r i ref obtained hholds => ?_, fun i ref until_ hpromised => ?_⟩
  · obtain ⟨hheld, hlife, hnow⟩ := h.held r i ref obtained hholds
    exact ⟨hheld, hlife, Nat.le_add_right_of_le hnow⟩
  · obtain ⟨hlate, hkept⟩ := h.promised i ref until_ hpromised
    refine ⟨?_, fun hnow => hkept (Nat.le_of_add_right_le hnow)⟩
    exact hlate.trans (Nat.add_le_add_right (Nat.le_add_right _ _) _)

theorem requestsOk_acquire (h : RequestsOk s) {r : Nat} {ref : ClaimRef}
    (htimely : s.Timely (.acquire r ref)) : RequestsOk (s.step (.acquire r ref)) := by
  unfold GlacierFs.step
  dsimp only
  split
  · split
    · exact h
    · next ino inodes hacquired =>
      obtain ⟨i, -, rfl, hcase⟩ := acquireInode_spec hacquired
      rw [Nat.add_sub_cancel]
      have hlate := timeout_late (Nat.le_add_right s.now inodeLifetimeOverlap)
      rcases hcase with ⟨-, rfl, rfl⟩ | ⟨hfree, rfl⟩
      · have hnext := @requestsOk_extend _ h i ((s.inodes i).extend s.now true) rfl hlate
        exact requestsOk_obtain hnext hlate r rfl
      · exact requestsOk_obtain (requestsOk_assign h hfree htimely) hlate r rfl
  · exact h

theorem requestsOk_lookup (h : RequestsOk s) {r : Nat} (htimely : s.Timely (.lookup r)) :
    RequestsOk (s.step (.lookup r)) := by
  unfold GlacierFs.step
  dsimp only
  split
  · next ino lock t hlooking =>
    split
    · exact requestsOk_idle h r
    · next ref inodes hlookup =>
      obtain ⟨-, -, -, rfl, rfl⟩ := lookupInode_spec hlookup
      have hlate := timeout_late (htimely ino lock t hlooking)
      have hnext := @requestsOk_extend _ h (ino - inoDyn)
        ((s.inodes (ino - inoDyn)).extend t lock) rfl hlate
      split
      · exact requestsOk_obtain hnext hlate r rfl
      · exact requestsOk_idle hnext r
  · exact h

theorem requestsOk_unlock (h : RequestsOk s) {r : Nat} (htimely : s.Timely (.unlock r)) :
    RequestsOk (s.step (.unlock r)) := by
  unfold GlacierFs.step
  dsimp only
  split
  · next i ref obtained t hunlocking =>
    have hlate := timeout_late (htimely i ref obtained t hunlocking)
    have hheld := (h.held r i ref obtained (by rw [hunlocking]; rfl)).1
    have hnext := @requestsOk_extend _ h i
      { s.inodes i with timeout := t + inodeLifetime + inodeLifetimeOverlap, locked := false }
      rfl hlate
    have hunlocked : unlockInode s.inodes (i + inoDyn) t = Function.update s.inodes i
        { s.inodes i with
          timeout := t + inodeLifetime + inodeLifetimeOverlap, locked := false } := by
      unfold unlockInode
      rw [Nat.add_sub_cancel]
    rw [hunlocked]
    exact requestsOk_idle (requestsOk_promise hnext
      (by dsimp only; rw [Function.update_self]; exact hheld)
      (by dsimp only; rw [Function.update_self]; exact hlate)) r
  · exact h

theorem requestsOk_step (h : RequestsOk s) {e : FsEvent} (htimely : s.Timely e) :
    RequestsOk (s.step e) := by
  cases e with
  | tick n => exact requestsOk_tick h n
  | acquire r ref => exact requestsOk_acquire h htimely
  | beginLookup r ino lock =>
    unfold GlacierFs.step
    dsimp only
    split
    · exact requestsOk_goto h fun _ _ _ hholds => by cases hholds
    · exact h
  | lookup r => exact requestsOk_lookup h htimely
  | stat r res =>
    unfold GlacierFs.step
    dsimp only
    split
    · next i ref obtained hfetching =>
      split
      · exact requestsOk_idle h r
      · exact requestsOk_goto h fun j ref' obtained' hholds =>
          h.held r j ref' obtained' (by rw [hfetching]; exact hholds)
    · exact h
  | beginUnlock r =>
    unfold GlacierFs.step
    dsimp only
    split
    · next i ref obtained hholding =>
      exact requestsOk_goto h fun j ref' obtained' hholds =>
        h.held r j ref' obtained' (by rw [hholding]; exact hholds)
    · exact h
  | unlock r => exact requestsOk_unlock h htimely

theorem request_tick (s : GlacierFs) (n : Nat) : (GlacierFs.step s (.tick n)).request = s.request :=
  rfl

theorem request_acquire_of_ne (s : GlacierFs) {r r' : Nat} (h : r' ≠ r) (ref : ClaimRef) :
    (GlacierFs.step s (.acquire r ref)).request r' = s.request r' := by
  unfold GlacierFs.step
  dsimp only
  split
  · split
    · rfl
    · exact request_goto_of_ne _ h _
  · rfl

end RequestLemmas

open RequestLemmas

/-- In every run whose requests are in time, no slot of a request in progress and no slot whose
promised lifetime has not passed changes its ref. -/
theorem held_inodes_stable (events : List FsEvent)
    (h : Along GlacierFs.step GlacierFs.Timely .start events) (before : List FsEvent)
    (hpre : before <+: events) : (exec GlacierFs.step .start before).Stable := by
  obtain ⟨after, rfl⟩ := hpre
  have hok : RequestsOk (exec GlacierFs.step .start before) :=
    (along_append.mp h).1.invariant RequestsOk requestsOk_start
      fun _ _ hok htimely => requestsOk_step hok htimely
  refine ⟨fun r i ref obtained hholds => (hok.held r i ref obtained hholds).1, ?_⟩
  intro i ref until_ hpromised hnow
  exact ((hok.promised i ref until_ hpromised).2 hnow).1

/-- A lookup of a file that takes seven seconds, a lookup of another one in the meantime. -/
def slowLookup : List FsEvent :=
  [.tick 10000, .acquire 0 (Vector.replicate claimRefSize 1), .tick 7000,
    .acquire 1 (Vector.replicate claimRefSize 2)]

/-- Two lookups of which the second begins before the first has its unlock. -/
def quickLookups : List FsEvent :=
  [.tick 10000, .acquire 0 (Vector.replicate claimRefSize 1), .tick 1000,
    .acquire 1 (Vector.replicate claimRefSize 2), .tick 1000, .beginUnlock 0]

theorem held_inodes_stable_quick :
    (exec GlacierFs.step .start (quickLookups ++ [.unlock 0])).Stable := by
  have hfirst : (GlacierFs.step (GlacierFs.step .start (.tick 10000))
      (.acquire 0 (Vector.replicate claimRefSize 1))).request 0 =
        .holding 0 (Vector.replicate claimRefSize 1) 10000 := by decide +kernel
  have hlater : (GlacierFs.step (GlacierFs.step (GlacierFs.step .start (.tick 10000))
      (.acquire 0 (Vector.replicate claimRefSize 1))) (.tick 1000)).now = 11000 := by decide +kernel
  have hwork : (exec GlacierFs.step .start quickLookups).request 0 =
      .unlocking 0 (Vector.replicate claimRefSize 1) 10000 12000 := by decide +kernel
  have hnow : (exec GlacierFs.step .start quickLookups).now = 12000 := by decide +kernel
  refine held_inodes_stable _ (along_append_singleton.mpr ⟨?_, ?_⟩) _ (List.prefix_refl _)
  · refine ⟨trivial, ?_, trivial, ?_, trivial, trivial, trivial⟩
    · intro r i ref obtained hholds
      cases hholds
    · intro r i ref obtained hholds _
      rw [hlater]
      rw [request_tick] at hholds
      by_cases hr : r = 0
      · rw [hr, hfirst, FsWork.holds, Option.some.injEq, Prod.mk.injEq, Prod.mk.injEq] at hholds
        rw [← hholds.2.2]
        unfold inodeLifetime
        omega
      · rw [request_acquire_of_ne _ hr] at hholds
        cases hholds
  · intro i ref obtained t hunlocking
    rw [hwork] at hunlocking
    cases hunlocking
    rw [hnow]
    exact Nat.le_add_right ..

/-- The first lookup has its slot given to the other file before it unlocks it. -/
theorem slow_lookup_loses_slot : ¬(exec GlacierFs.step .start slowLookup).Stable := by
  intro h
  have href := h.1 0 0 (Vector.replicate claimRefSize 1) 10000 (by decide +kernel)
  have hother : ((exec GlacierFs.step .start slowLookup).inodes 0).ref =
      Vector.replicate claimRefSize 2 := by decide +kernel
  rw [hother] at href
  exact absurd href (by decide +kernel)

end Everarch
