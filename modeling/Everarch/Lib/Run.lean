import Mathlib.Data.List.Induction

/-!
# Runs of a deterministic state machine

A machine is a function `next : σ → ι → σ` from a state and an input to the next
state. `exec` runs a list of inputs, `Along` says that every step of a run meets
a condition on the state before it and its input.

* `exec_append_singleton`: the last step of a run.
* `Along.invariant`: an invariant kept by every step that meets the condition
  holds in every state a run of such steps reaches.
* `invariant_iff_along`, `goal_iff_along`: the same for a condition that is also necessary.
* `Along.of_prefix`, `Along.at_prefix`: a condition along a run, as a condition on its
  prefixes.
* `Along.imp`, `Along.and`: how a condition along a run comes about.
* `trace`, `eventually_of_rank`: endless runs, and what they must come to.
-/

namespace Everarch

section Run

variable {σ ι : Type} (next : σ → ι → σ)

/-- The state after the inputs, merged from left to right. -/
def exec (s : σ) (inputs : List ι) : σ :=
  inputs.foldl next s

/-- Every step of the run from `s` meets `P` in the state before it. -/
def Along (P : σ → ι → Prop) : σ → List ι → Prop
  | _, [] => True
  | s, i :: inputs => P s i ∧ Along P (next s i) inputs

instance decidableAlong (P : σ → ι → Prop) [∀ s i, Decidable (P s i)] :
    ∀ s inputs, Decidable (Along next P s inputs)
  | _, [] => isTrue trivial
  | s, i :: inputs =>
    have := decidableAlong P (next s i) inputs
    inferInstanceAs (Decidable (P s i ∧ Along next P (next s i) inputs))

variable {next} {P Q : σ → ι → Prop}

@[simp] theorem exec_nil (s : σ) : exec next s [] = s := rfl

@[simp] theorem exec_cons (s : σ) (i : ι) (inputs : List ι) :
    exec next s (i :: inputs) = exec next (next s i) inputs := rfl

theorem exec_append (s : σ) (inputs inputs' : List ι) :
    exec next s (inputs ++ inputs') = exec next (exec next s inputs) inputs' :=
  List.foldl_append

@[simp] theorem exec_append_singleton (s : σ) (inputs : List ι) (i : ι) :
    exec next s (inputs ++ [i]) = next (exec next s inputs) i :=
  exec_append s inputs [i]

theorem along_append {s : σ} {inputs inputs' : List ι} :
    Along next P s (inputs ++ inputs') ↔
      Along next P s inputs ∧ Along next P (exec next s inputs) inputs' := by
  induction inputs generalizing s with
  | nil => simp [Along]
  | cons i inputs ih => simp only [List.cons_append, Along, ih, exec_cons, and_assoc]

theorem along_append_singleton {s : σ} {inputs : List ι} {i : ι} :
    Along next P s (inputs ++ [i]) ↔
      Along next P s inputs ∧ P (exec next s inputs) i := by
  rw [along_append]
  simp only [Along, and_true]

theorem Along.imp {s : σ} {inputs : List ι} (h : Along next P s inputs)
    (hPQ : ∀ s i, P s i → Q s i) : Along next Q s inputs := by
  induction inputs generalizing s with
  | nil => trivial
  | cons i inputs ih => exact ⟨hPQ s i h.1, ih h.2⟩

theorem Along.and {s : σ} {inputs : List ι} (hP : Along next P s inputs)
    (hQ : Along next Q s inputs) : Along next (fun s i => P s i ∧ Q s i) s inputs := by
  induction inputs generalizing s with
  | nil => trivial
  | cons i inputs ih => exact ⟨⟨hP.1, hQ.1⟩, ih hP.2 hQ.2⟩

theorem Along.of_prefix {s : σ} {inputs : List ι}
    (h : ∀ before i, before ++ [i] <+: inputs → P (exec next s before) i) :
    Along next P s inputs := by
  induction inputs using List.reverseRecOn with
  | nil => trivial
  | append_singleton inputs i ih =>
    refine along_append_singleton.mpr ⟨ih fun before j hpre => ?_, h inputs i (List.prefix_refl _)⟩
    exact h before j (hpre.trans (List.prefix_append inputs [i]))

theorem Along.at_prefix {s : σ} {inputs before : List ι} {i : ι} (h : Along next P s inputs)
    (hpre : before ++ [i] <+: inputs) : P (exec next s before) i := by
  obtain ⟨after, rfl⟩ := hpre
  exact (along_append_singleton.mp (along_append.mp h).1).2

theorem along_inputs_iff {P : ι → Prop} {s : σ} {inputs : List ι} :
    Along next (fun _ i => P i) s inputs ↔ ∀ i ∈ inputs, P i := by
  induction inputs generalizing s with
  | nil => simp [Along]
  | cons i inputs ih => rw [Along, ih, List.forall_mem_cons]

/-- The invariant rule: what holds at the start and is kept by every step that
meets the condition holds at the end of every run whose steps all meet it. -/
theorem Along.invariant {s : σ} {inputs : List ι} (h : Along next P s inputs)
    (Inv : σ → Prop) (h0 : Inv s)
    (hstep : ∀ s i, Inv s → P s i → Inv (next s i)) : Inv (exec next s inputs) := by
  induction inputs generalizing s with
  | nil => exact h0
  | cons i inputs ih => exact ih h.2 (hstep s i h0 h.1)

/-- The invariant rule for an invariant that every step keeps. -/
theorem exec_invariant {s : σ} {inputs : List ι} (Inv : σ → Prop) (h0 : Inv s)
    (hstep : ∀ s i, Inv s → Inv (next s i)) : Inv (exec next s inputs) := by
  induction inputs generalizing s with
  | nil => exact h0
  | cons i inputs ih => exact ih (hstep s i h0)

/-- The rule for two machines with the same inputs. -/
theorem exec_rel {τ : Type} {next' : τ → ι → τ} {s : σ} {t : τ} {inputs : List ι}
    (R : σ → τ → Prop) (h0 : R s t) (hstep : ∀ s t i, R s t → R (next s i) (next' t i)) :
    R (exec next s inputs) (exec next' t inputs) := by
  induction inputs generalizing s t with
  | nil => exact h0
  | cons i inputs ih => exact ih (hstep s t i h0)

/-- Where every step keeps the invariant if and only if it meets the condition, the invariant
holds all along a run if and only if all its steps meet it. -/
theorem invariant_iff_along {s : σ} {inputs : List ι} (Inv : σ → Prop) (h0 : Inv s)
    (hstep : ∀ before i, before ++ [i] <+: inputs → Inv (exec next s before) →
      (Inv (exec next s (before ++ [i])) ↔ P (exec next s before) i)) :
    (∀ before, before <+: inputs → Inv (exec next s before)) ↔ Along next P s inputs := by
  constructor
  · intro h
    refine Along.of_prefix fun before i hpre => ?_
    exact (hstep before i hpre (h before ((List.prefix_append _ _).trans hpre))).mp (h _ hpre)
  · intro h before hpre
    induction before using List.reverseRecOn with
    | nil => exact h0
    | append_singleton before i ih =>
      have hbefore := ih ((List.prefix_append _ _).trans hpre)
      have hi := h.at_prefix hpre
      exact (hstep before i hpre hbefore).mpr hi

/-- Where a goal follows from an invariant and a step from the invariant reaches the goal if and
only if it meets the condition, and then keeps the invariant, the goal holds all along a run if and
only if all its steps meet the condition. -/
theorem goal_iff_along {s : σ} {inputs : List ι} (Inv Goal : σ → Prop) (h0 : Inv s)
    (hgoal : ∀ s, Inv s → Goal s) (hstep : ∀ s i, Inv s → (Goal (next s i) ↔ P s i))
    (hkeep : ∀ s i, Inv s → P s i → Inv (next s i)) :
    (∀ before, before <+: inputs → Goal (exec next s before)) ↔ Along next P s inputs := by
  have hinv : (∀ before, before <+: inputs → Inv (exec next s before)) ↔
      Along next P s inputs := by
    refine invariant_iff_along Inv h0 fun before i _ hbefore => ?_
    rw [exec_append_singleton]
    exact ⟨fun h => (hstep _ i hbefore).mp (hgoal _ h), hkeep _ i hbefore⟩
  rw [← hinv]
  refine ⟨fun h before hpre => ?_, fun h before hpre => hgoal _ (h before hpre)⟩
  induction before using List.reverseRecOn with
  | nil => exact h0
  | append_singleton before i ih =>
    have hbefore := ih ((List.prefix_append _ _).trans hpre)
    have hreached := h _ hpre
    rw [exec_append_singleton] at hreached ⊢
    exact hkeep _ i hbefore ((hstep _ i hbefore).mp hreached)

/-- The invariant rule with the inputs so far in the invariant. -/
theorem Along.invariant_inputs {s : σ} {inputs : List ι} (h : Along next P s inputs)
    (Inv : List ι → σ → Prop) (h0 : Inv [] s)
    (hstep : ∀ before i s, before ++ [i] <+: inputs → Inv before s → P s i →
      Inv (before ++ [i]) (next s i)) : Inv inputs (exec next s inputs) := by
  induction inputs using List.reverseRecOn with
  | nil => exact h0
  | append_singleton inputs i ih =>
    rw [along_append_singleton] at h
    rw [exec_append_singleton]
    refine hstep inputs i _ (List.prefix_refl _) (ih h.1 ?_) h.2
    intro before j s' hpre
    exact hstep before j s' (hpre.trans (List.prefix_append inputs [i]))

/-! ## Endless runs -/

/-- The states of an endless run. -/
def trace (next : σ → ι → σ) (s : σ) (run : Nat → ι) : Nat → σ
  | 0 => s
  | n + 1 => next (trace next s run n) (run n)

theorem trace_invariant {s : σ} {run : Nat → ι} (Inv : σ → Prop) (h0 : Inv s)
    (hstep : ∀ s i, Inv s → Inv (next s i)) (n : Nat) : Inv (trace next s run n) := by
  induction n with
  | zero => exact h0
  | succ n ih => exact hstep _ _ ih

end Run

/-- The rule for liveness: turns come again and again, a turn lowers the rank and nothing
raises it, unless the goal is met. -/
theorem eventually_of_rank (turn P Goal : Nat → Prop) (rank : Nat → Nat)
    (hfair : ∀ n, ∃ m, n ≤ m ∧ turn m)
    (hstep : ∀ n, P n → Goal (n + 1) ∨ P (n + 1) ∧ rank (n + 1) ≤ rank n ∧
      (turn n → rank (n + 1) < rank n)) {n : Nat} (h : P n) : ∃ m, n ≤ m ∧ Goal m := by
  induction hr : rank n using Nat.strongRecOn generalizing n with
  | ind r ih =>
    obtain ⟨m, hnm, hm⟩ := hfair n
    -- the time until the next turn
    induction hd : m - n generalizing n r with
    | zero =>
      have heq : m = n := Nat.le_antisymm (Nat.sub_eq_zero_iff_le.mp hd) hnm
      rcases hstep n h with hgoal | ⟨hP, -, hlt⟩
      · exact ⟨n + 1, Nat.le_succ n, hgoal⟩
      · obtain ⟨m', hle, hgoal⟩ := ih (rank (n + 1)) (hr ▸ hlt (heq ▸ hm)) hP rfl
        exact ⟨m', Nat.le_of_succ_le hle, hgoal⟩
    | succ d ihd =>
      rcases hstep n h with hgoal | ⟨hP, hle, -⟩
      · exact ⟨n + 1, Nat.le_succ n, hgoal⟩
      · have hnext : n + 1 ≤ m := by omega
        obtain ⟨m', hle', hgoal⟩ := ihd (n := n + 1) (rank (n + 1))
          (fun r' hr' => ih r' (Nat.lt_of_lt_of_le hr' (hr ▸ hle))) hP rfl hnext (by omega)
        exact ⟨m', Nat.le_of_succ_le hle', hgoal⟩

end Everarch
