import Everarch.Keys
import Everarch.Lib.Run

/-!
# Tiny sets over runs

`struct evr_claim_ref_tiny_set` of keys.c under any calls of `evr_claim_ref_tiny_set_add` and
`evr_reset_claim_ref_tiny_set`. An add looks for the ref in the list only where the flag of its
first byte is set, and sets the flag also where the list has no room for the ref.

* `TinySetLemmas.add_cases`: what one add does, by the list alone.
* `TinySetRun.Reflects`: the list is what was added with `evr_ok` since the last reset.

Result: `tiny_set_add_results`.
-/

namespace Everarch

/-- `evr_reset_claim_ref_tiny_set`. -/
def resetClaimRefTinySet (set : ClaimRefTinySet) : ClaimRefTinySet :=
  { set with refs := [], hashSet := Vector.replicate 256 false }

/-- A call on a set. -/
inductive TinySetCall where
  | add (ref : ClaimRef)
  | reset
deriving DecidableEq

/-- A set and, seen from outside, the refs that adds returned `evr_ok` for since the last reset, in
the order of the adds. -/
structure TinySetRun where
  set : ClaimRefTinySet
  added : List ClaimRef

namespace TinySetRun

/-- A new set. -/
def create (refsLen : Nat) : TinySetRun :=
  ⟨createClaimRefTinySet refsLen, []⟩

/-- One call. -/
def step (run : TinySetRun) : TinySetCall → TinySetRun
  | .add ref =>
    let (res, set) := claimRefTinySetAdd run.set ref
    ⟨set, if res = .ok then run.added ++ [ref] else run.added⟩
  | .reset => ⟨resetClaimRefTinySet run.set, []⟩

/-- The set holds what was added. -/
structure Reflects (refsLen : Nat) (run : TinySetRun) : Prop where
  refsLen : run.set.refsLen = refsLen
  refs : run.set.refs = run.added
  nodup : run.added.Nodup
  marked : run.set.Marked

end TinySetRun

namespace TinySetLemmas

open ClaimRefTinySet TinySetRun

variable {set : ClaimRefTinySet} {ref : ClaimRef} {run : TinySetRun} {refsLen : Nat}

/-- A flag more does no harm. -/
theorem marked_set (hset : set.Marked) (flag : Fin 256) :
    ClaimRefTinySet.Marked { set with hashSet := set.hashSet.set flag true } := by
  intro r hr
  show (set.hashSet.set flag true)[(hs r : Nat)] = true
  rw [Vector.getElem_set]
  split_ifs with hflag
  · rfl
  · exact hset r hr

theorem add_full (h : ref ∉ set.refs) (hfull : set.refsLen ≤ set.refs.length) :
    ∃ flag : Fin 256, claimRefTinySetAdd set ref =
      (.error, { set with hashSet := set.hashSet.set flag true }) := by
  refine ⟨hs ref, ?_⟩
  unfold claimRefTinySetAdd
  simp only
  rw [if_neg, if_pos hfull]
  · rfl
  · intro hmem
    exact h (List.contains_iff_mem.mp (Bool.and_eq_true_iff.mp hmem).2)

/-- An add to a set whose flags are right: the ref is there, or it has room, or it has not. The
flags stay right. -/
theorem add_cases (hset : set.Marked) (ref : ClaimRef) :
    (ref ∈ set.refs ∧ claimRefTinySetAdd set ref = (.exists_, set)) ∨
      (ref ∉ set.refs ∧ set.refs.length < set.refsLen ∧ ∃ flags,
        claimRefTinySetAdd set ref = (.ok, ⟨set.refsLen, set.refs ++ [ref], flags⟩) ∧
          ClaimRefTinySet.Marked ⟨set.refsLen, set.refs ++ [ref], flags⟩) ∨
      (ref ∉ set.refs ∧ set.refsLen ≤ set.refs.length ∧ ∃ flags,
        claimRefTinySetAdd set ref = (.error, ⟨set.refsLen, set.refs, flags⟩) ∧
          ClaimRefTinySet.Marked ⟨set.refsLen, set.refs, flags⟩) := by
  by_cases hmem : ref ∈ set.refs
  · exact .inl ⟨hmem, add_of_mem hset hmem⟩
  · rcases Nat.lt_or_ge set.refs.length set.refsLen with hroom | hfull
    · exact .inr (.inl ⟨hmem, hroom, _, add_of_notMem hmem hroom, marked_append hset⟩)
    · obtain ⟨flag, hadd⟩ := add_full hmem hfull
      exact .inr (.inr ⟨hmem, hfull, _, hadd, marked_set hset flag⟩)

theorem reflects_create (refsLen : Nat) : (TinySetRun.create refsLen).Reflects refsLen where
  refsLen := rfl
  refs := rfl
  nodup := List.nodup_nil
  marked := marked_create refsLen

theorem reflects_reset (h : run.Reflects refsLen) : (run.step .reset).Reflects refsLen where
  refsLen := h.refsLen
  refs := rfl
  nodup := List.nodup_nil
  marked := fun _ hr => absurd hr List.not_mem_nil

theorem reflects_add (h : run.Reflects refsLen) (ref : ClaimRef) :
    (run.step (.add ref)).Reflects refsLen := by
  rcases add_cases h.marked ref with ⟨_, hadd⟩ | ⟨hnew, _, _, hadd, hmarked⟩ |
    ⟨_, _, _, hadd, hmarked⟩
  · simp only [step, hadd, reduceCtorEq, if_false]
    exact h
  · simp only [step, hadd, if_true]
    refine ⟨h.refsLen, ?_, ?_, hmarked⟩
    · exact congrArg (· ++ [ref]) h.refs
    · -- only a ref that is not in the list is appended
      rw [h.refs] at hnew
      refine List.nodup_append.mpr ⟨h.nodup, List.pairwise_singleton _ ref, ?_⟩
      rintro a ha b hb rfl
      exact hnew (List.mem_singleton.mp hb ▸ ha)
  · simp only [step, hadd, reduceCtorEq, if_false]
    exact ⟨h.refsLen, h.refs, h.nodup, hmarked⟩

theorem reflects_step (h : run.Reflects refsLen) (call : TinySetCall) :
    (run.step call).Reflects refsLen := by
  cases call with
  | add ref => exact reflects_add h ref
  | reset => exact reflects_reset h

/-- Every run of a new set. -/
theorem reflects_exec (refsLen : Nat) (calls : List TinySetCall) :
    (exec TinySetRun.step (.create refsLen) calls).Reflects refsLen :=
  exec_invariant (TinySetRun.Reflects refsLen) (reflects_create refsLen)
    fun _ call h => reflects_step h call

/-- What an add to the set of a run returns. -/
theorem add_results (h : run.Reflects refsLen) (ref : ClaimRef) :
    ((claimRefTinySetAdd run.set ref).1 = .exists_ ↔ ref ∈ run.added) ∧
      ((claimRefTinySetAdd run.set ref).1 = .ok ↔
        ref ∉ run.added ∧ run.added.length < refsLen) ∧
      ((claimRefTinySetAdd run.set ref).1 = .error ↔
        ref ∉ run.added ∧ refsLen ≤ run.added.length) := by
  rcases add_cases h.marked ref with ⟨hmem, hadd⟩ | ⟨hnew, hroom, _, hadd, -⟩ |
    ⟨hnew, hfull, _, hadd, -⟩
  · rw [h.refs] at hmem
    simp only [hadd, hmem, not_true_eq_false, reduceCtorEq, false_and, iff_self, and_self]
  · rw [h.refs] at hnew hroom
    rw [h.refsLen] at hroom
    simp only [hadd, hnew, hroom, reduceCtorEq, not_false_eq_true, true_and, iff_self, false_iff,
      Nat.not_le, and_self]
  · rw [h.refs] at hnew hfull
    rw [h.refsLen] at hfull
    simp only [hadd, hnew, hfull, reduceCtorEq, not_false_eq_true, true_and, iff_self, false_iff,
      Nat.not_lt, and_self]

/-- What is added is a member. -/
theorem mem_of_ok (hset : set.Marked) (hok : (claimRefTinySetAdd set ref).1 = .ok) :
    ref ∈ (claimRefTinySetAdd set ref).2.refs := by
  rcases add_cases hset ref with ⟨_, hadd⟩ | ⟨_, _, _, hadd, -⟩ | ⟨_, _, _, hadd, -⟩
  · rw [hadd] at hok
    cases hok
  · rw [hadd]
    exact List.mem_append_right _ List.mem_cons_self
  · rw [hadd] at hok
    cases hok

end TinySetLemmas

open TinySetLemmas in
/-- After any calls the list of a set is what was added since the last reset, in that order and each
ref once. The next add tells whether the ref is among them, and if it is not, whether there is room
for it. -/
theorem tiny_set_add_results (refsLen : Nat) (calls : List TinySetCall) (ref : ClaimRef) :
    let run := exec TinySetRun.step (.create refsLen) calls
    let add := claimRefTinySetAdd run.set ref
    (run.set.refs = run.added ∧ run.added.Nodup) ∧
      ((add.1 = .exists_ ↔ ref ∈ run.added) ∧
        (add.1 = .ok ↔ ref ∉ run.added ∧ run.added.length < refsLen) ∧
        (add.1 = .error ↔ ref ∉ run.added ∧ refsLen ≤ run.added.length)) ∧
      (add.1 = .ok → ref ∈ add.2.refs) := by
  intro run add
  have h : run.Reflects refsLen := reflects_exec refsLen calls
  exact ⟨⟨h.refs, h.nodup⟩, add_results h ref, mem_of_ok h.marked⟩

end Everarch
