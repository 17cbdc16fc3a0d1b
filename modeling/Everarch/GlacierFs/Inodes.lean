import Everarch.Basic
import Everarch.Lib.Run
import Mathlib.Logic.Function.Basic

/-!
# The inodes of evr-glacier-fs

`evr_inodes` of evr-glacier-fs.c: a table of claim refs with a timeout and a lock each, and the
requests that look numbers up or ask for new ones, one after the other.

* `lookupInode`, `acquireInode`, `unlockInode`: the three operations, each with the time that
  `evr_now` returns.
* `FsRequest.run`: a request from its start to its end.

A getattr locks the inode before it fetches the claim. It does not unlock it if that fails.

Result: `no_slot_locked_iff`.
-/

namespace Everarch

/-! ## The table -/

/-- `struct evr_inode`. -/
structure FsInode where
  ref : ClaimRef
  locked : Bool
  timeout : Nat

/-- `evr_inode_lifetime`. -/
def inodeLifetime : Nat := 3000

/-- `evr_inode_lifetime_overlap`. -/
def inodeLifetimeOverlap : Nat := 3000

/-- `static_len(evr_inodes)`. -/
def inodesLen : Nat := 512

/-- `evr_glacier_fs_ino_dyn`. -/
def inoDyn : Nat := 3

/-- `evr_inodes`. -/
abbrev FsInodes := Nat → FsInode

/-- The table after `memset`. -/
def emptyInodes : FsInodes :=
  fun _ => ⟨Vector.replicate claimRefSize 0, false, 0⟩

namespace FsInode

/-- The slot can be given to another ref at `t`. -/
def Free (ind : FsInode) (t : Nat) : Prop :=
  ind.locked = false ∧ ind.timeout < t

instance (ind : FsInode) (t : Nat) : Decidable (ind.Free t) :=
  inferInstanceAs (Decidable (_ ∧ _))

/-- The new timeout, and the lock unless the caller did not ask for it. -/
def extend (ind : FsInode) (t : Nat) (lock : Bool) : FsInode :=
  ⟨ind.ref, ind.locked || lock, t + inodeLifetime + inodeLifetimeOverlap⟩

end FsInode

/-- `evr_lookup_inode`, none if it does not return ok. -/
def lookupInode (inodes : FsInodes) (ino : Nat) (lock : Bool) (t : Nat) :
    Option (ClaimRef × FsInodes) :=
  let i := ino - inoDyn
  if ino < inoDyn ∨ inodesLen ≤ i then none
  else if (inodes i).Free t then none
  else some ((inodes i).ref, Function.update inodes i ((inodes i).extend t lock))

/-- How the loop of `evr_acquire_inode` ends. -/
inductive Acquired where
  | found (i : Nat)
  | available (i : Nat)
  | occupied

/-- The loop of `evr_acquire_inode` with `available_ind`. -/
def acquireLoop (inodes : FsInodes) (ref : ClaimRef) (t : Nat) :
    Option Nat → List Nat → Acquired
  | none, [] => .occupied
  | some i, [] => .available i
  | availableInd, i :: is =>
    if (inodes i).Free t then acquireLoop inodes ref t (availableInd.or (some i)) is
    else if (inodes i).ref = ref then .found i
    else acquireLoop inodes ref t availableInd is

/-- `evr_acquire_inode`, none for `evr_temporary_occupied`. A slot that is new for the ref is not
locked. -/
def acquireInode (inodes : FsInodes) (ref : ClaimRef) (lock : Bool) (t : Nat) :
    Option (Nat × FsInodes) :=
  match acquireLoop inodes ref t none (List.range inodesLen) with
  | .found i => some (i + inoDyn, Function.update inodes i ((inodes i).extend t lock))
  | .available i =>
    some (i + inoDyn, Function.update inodes i
      ⟨ref, (inodes i).locked, t + inodeLifetime + inodeLifetimeOverlap⟩)
  | .occupied => none

/-- `evr_unlock_inode`. -/
def unlockInode (inodes : FsInodes) (ino t : Nat) : FsInodes :=
  let i := ino - inoDyn
  Function.update inodes i
    { inodes i with timeout := t + inodeLifetime + inodeLifetimeOverlap, locked := false }

/-! ## Requests one after the other -/

/-- A request with the times of its calls of `evr_now` and the result of `evr_stat_file`. -/
inductive FsRequest where
  | lookup (ref : ClaimRef) (stat : Res) (acquired unlocked : Nat)
  | getattr (ino : Nat) (stat : Res) (lookedUp unlocked : Nat)

/-- `evr_glacier_fs_lookup_file` and `evr_glacier_fs_getattr` up to their end. -/
def FsRequest.run (inodes : FsInodes) : FsRequest → FsInodes
  | .lookup ref stat acquired unlocked =>
    if stat ≠ .ok then inodes
    else
      match acquireInode inodes ref true acquired with
      | none => inodes
      | some (ino, inodes) => unlockInode inodes ino unlocked
  | .getattr ino stat lookedUp unlocked =>
    -- the directories
    if ino = 1 ∨ ino = 2 then inodes
    else
      match lookupInode inodes ino true lookedUp with
      | none => inodes
      | some (_, inodes) => if stat ≠ .ok then inodes else unlockInode inodes ino unlocked

/-- A getattr finds its inode and then fails. -/
def FsRequest.Leaks (inodes : FsInodes) : FsRequest → Prop
  | .lookup .. => False
  | .getattr ino stat lookedUp _ =>
    inoDyn ≤ ino ∧ ino - inoDyn < inodesLen ∧ ¬(inodes (ino - inoDyn)).Free lookedUp ∧ stat ≠ .ok

namespace InodeLemmas

variable {inodes : FsInodes}

theorem acquireLoop_cons (ref : ClaimRef) (t : Nat) (availableInd : Option Nat) (i : Nat)
    (is : List Nat) : acquireLoop inodes ref t availableInd (i :: is) =
      if (inodes i).Free t then acquireLoop inodes ref t (availableInd.or (some i)) is
      else if (inodes i).ref = ref then .found i
      else acquireLoop inodes ref t availableInd is := by
  cases availableInd with
  | none => rfl
  | some j => rfl

theorem acquireLoop_found {ref : ClaimRef} {t i : Nat} {is : List Nat} {availableInd : Option Nat}
    (h : acquireLoop inodes ref t availableInd is = .found i) :
    i ∈ is ∧ ¬(inodes i).Free t ∧ (inodes i).ref = ref := by
  induction is generalizing availableInd with
  | nil => cases availableInd <;> cases h
  | cons j is ih =>
    rw [acquireLoop_cons] at h
    split at h
    · obtain ⟨hmem, hfound⟩ := ih h
      exact ⟨List.mem_cons_of_mem _ hmem, hfound⟩
    · next hused =>
      split at h
      · next href =>
        cases h
        exact ⟨List.mem_cons_self, hused, href⟩
      · obtain ⟨hmem, hfound⟩ := ih h
        exact ⟨List.mem_cons_of_mem _ hmem, hfound⟩

theorem acquireLoop_available {ref : ClaimRef} {t i : Nat} {is : List Nat}
    {availableInd : Option Nat} (h : acquireLoop inodes ref t availableInd is = .available i) :
    availableInd = some i ∨ i ∈ is ∧ (inodes i).Free t := by
  induction is generalizing availableInd with
  | nil =>
    cases availableInd with
    | none => cases h
    | some j =>
      cases h
      exact .inl rfl
  | cons j is ih =>
    rw [acquireLoop_cons] at h
    split at h
    · next hfree =>
      rcases ih h with hind | ⟨hmem, hfree'⟩
      · cases availableInd with
        | none =>
          cases hind
          exact .inr ⟨List.mem_cons_self, hfree⟩
        | some k => exact .inl hind
      · exact .inr ⟨List.mem_cons_of_mem _ hmem, hfree'⟩
    · split at h
      · cases h
      · rcases ih h with hind | ⟨hmem, hfree⟩
        · exact .inl hind
        · exact .inr ⟨List.mem_cons_of_mem _ hmem, hfree⟩

/-- A number that a lookup finds is that of a slot in use. -/
theorem lookupInode_spec {ino t : Nat} {lock : Bool} {ref : ClaimRef} {inodes' : FsInodes}
    (h : lookupInode inodes ino lock t = some (ref, inodes')) :
    inoDyn ≤ ino ∧ ino - inoDyn < inodesLen ∧ ¬(inodes (ino - inoDyn)).Free t ∧
      ref = (inodes (ino - inoDyn)).ref ∧
      inodes' = Function.update inodes (ino - inoDyn) ((inodes (ino - inoDyn)).extend t lock) := by
  unfold lookupInode at h
  dsimp only at h
  split at h
  · cases h
  · next hrange =>
    split at h
    · cases h
    · next hused =>
      cases h
      exact ⟨Nat.not_lt.mp fun hlt => hrange (.inl hlt),
        Nat.not_le.mp fun hle => hrange (.inr hle), hused, rfl, rfl⟩

/-- A ref has its slot extended, or gets one that is free. -/
theorem acquireInode_spec {ref : ClaimRef} {lock : Bool} {t ino : Nat} {inodes' : FsInodes}
    (h : acquireInode inodes ref lock t = some (ino, inodes')) :
    ∃ i < inodesLen, ino = i + inoDyn ∧
      (¬(inodes i).Free t ∧ (inodes i).ref = ref ∧
        inodes' = Function.update inodes i ((inodes i).extend t lock) ∨
      (inodes i).Free t ∧ inodes' = Function.update inodes i
        ⟨ref, (inodes i).locked, t + inodeLifetime + inodeLifetimeOverlap⟩) := by
  unfold acquireInode at h
  split at h
  · next i hfound =>
    cases h
    obtain ⟨hmem, hused, href⟩ := acquireLoop_found hfound
    exact ⟨i, List.mem_range.mp hmem, rfl, .inl ⟨hused, href, rfl⟩⟩
  · next i havailable =>
    cases h
    rcases acquireLoop_available havailable with hnone | ⟨hmem, hfree⟩
    · cases hnone
    · exact ⟨i, List.mem_range.mp hmem, rfl, .inr ⟨hfree, rfl⟩⟩
  · cases h

/-! ## Locks -/

/-- No slot is locked. -/
def Unlocked (inodes : FsInodes) : Prop :=
  ∀ i < inodesLen, (inodes i).locked = false

/-- A lock is gone after the unlock, and only its slot has changed. -/
theorem unlocked_unlockInode {ino t : Nat} {ind : FsInode} (h : Unlocked inodes) :
    Unlocked (unlockInode (Function.update inodes (ino - inoDyn) ind) ino t) := by
  intro i hi
  unfold unlockInode
  by_cases heq : i = ino - inoDyn
  · rw [heq, Function.update_self]
  · rw [Function.update_of_ne heq, Function.update_of_ne heq]
    exact h i hi

/-- A request on a table without locks leaves one behind if and only if it leaks. -/
theorem unlocked_run_iff (h : Unlocked inodes) (r : FsRequest) :
    Unlocked (r.run inodes) ↔ ¬r.Leaks inodes := by
  cases r with
  | lookup ref stat acquired unlocked =>
    refine iff_of_true ?_ not_false
    unfold FsRequest.run
    dsimp only
    split
    · exact h
    · split
      · exact h
      · next ino inodes' hacquired =>
        obtain ⟨i, -, rfl, hcase⟩ := acquireInode_spec hacquired
        have hi : i + inoDyn - inoDyn = i := Nat.add_sub_cancel ..
        rcases hcase with ⟨-, -, rfl⟩ | ⟨-, rfl⟩
        · have hnext := @unlocked_unlockInode _ (i + inoDyn) unlocked
            ((inodes i).extend acquired true) h
          rwa [hi] at hnext
        · have hnext := @unlocked_unlockInode _ (i + inoDyn) unlocked
            ⟨ref, (inodes i).locked, acquired + inodeLifetime + inodeLifetimeOverlap⟩ h
          rwa [hi] at hnext
  | getattr ino stat lookedUp unlocked =>
    unfold FsRequest.run FsRequest.Leaks
    dsimp only
    split
    · next hdir =>
      refine iff_of_true h fun hleaks => ?_
      have hlt : ino < inoDyn := by rcases hdir with rfl | rfl <;> decide
      exact Nat.not_lt.mpr hleaks.1 hlt
    · split
      · next hnone =>
        refine iff_of_true h ?_
        rintro ⟨hdyn, hlen, hused, -⟩
        unfold lookupInode at hnone
        dsimp only at hnone
        rw [if_neg (not_or.mpr ⟨Nat.not_lt.mpr hdyn, Nat.not_le.mpr hlen⟩), if_neg hused] at hnone
        cases hnone
      · next ref inodes' hlookup =>
        obtain ⟨hdyn, hlen, hused, -, rfl⟩ := lookupInode_spec hlookup
        split
        · next hstat =>
          refine iff_of_false ?_ (not_not_intro ⟨hdyn, hlen, hused, hstat⟩)
          intro hunlocked
          have hlocked := hunlocked (ino - inoDyn) hlen
          rw [Function.update_self, FsInode.extend, Bool.or_true] at hlocked
          cases hlocked
        · next hstat =>
          exact iff_of_true (unlocked_unlockInode h) fun hleaks => hstat hleaks.2.2.2

end InodeLemmas

open InodeLemmas

/-- Between the requests of a sequence no slot is locked, so that every slot is free once its
timeout has passed, if and only if no getattr finds its inode and then fails. -/
theorem no_slot_locked_iff (requests : List FsRequest) :
    (∀ before, before <+: requests → ∀ i < inodesLen,
      (exec FsRequest.run emptyInodes before i).locked = false ∧
      ∀ t, (exec FsRequest.run emptyInodes before i).timeout < t →
        (exec FsRequest.run emptyInodes before i).Free t) ↔
    Along FsRequest.run (fun inodes r => ¬r.Leaks inodes) emptyInodes requests := by
  rw [← invariant_iff_along Unlocked (fun i _ => rfl) fun before r _ h => by
    rw [exec_append_singleton]
    exact unlocked_run_iff h r]
  constructor
  · intro h before hpre i hi
    exact (h before hpre i hi).1
  · intro h before hpre i hi
    exact ⟨h before hpre i hi, fun t ht => ⟨h before hpre i hi, ht⟩⟩

/-- A file is looked up. Then the storage cannot be reached in a getattr, and its slot stays
locked. -/
theorem failed_getattr_locks :
    (exec FsRequest.run emptyInodes
      [.lookup (Vector.replicate claimRefSize 1) .ok 10000 10000,
        .getattr 3 .error 11000 11000] 0).locked = true := by
  decide +kernel

end Everarch
