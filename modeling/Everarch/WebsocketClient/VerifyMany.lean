import Everarch.Lib.Run
import Everarch.WebsocketServer.ClaimSetFilter

/-!
# Many claims in the order of their refs

`getVerifyMany` of the websocket client. The claims of a source of refs are fetched a few at a time,
whichever comes first, and passed on one after the other. Unlike the filter of the server it goes on
after its source has completed.

* `VerifyManyLemmas.triggerFetch_kept`: what one call of `triggerFetch` comes to.
* `VerifyManyLemmas.exec_kept`: which fetch is waited for after any events.

Results: `verify_many_in_order`.
-/

namespace Everarch

/-- The fetch of a ref. It starts with its first subscriber and replays what it delivered to the
others. -/
structure RefFetch (ρ β : Type) where
  ref : ρ
  subscribed : Bool
  delivered : Option (Delivery β)

/-- Where an error comes from. -/
inductive ManyError where
  | source
  | fetch (n : Nat)
deriving DecidableEq

inductive ManyObserver where
  | active
  | completed
  | errored (e : ManyError)
deriving DecidableEq

/-- The variables of the observable and what its observer has seen. The backlog refers to the
fetches by their numbers. -/
structure VerifyMany (ρ β : Type) where
  fetches : List (RefFetch ρ β)
  claimsBacklog : List Nat
  fetching : Bool
  draining : Bool
  emitted : List (ρ × β)
  observer : ManyObserver

/-- What a fetch passes on. -/
def passedOn {ρ β : Type} (ref : ρ) (blob : Option β) : List (ρ × β) :=
  blob.toList.map fun b => (ref, b)

namespace VerifyMany

variable {ρ β : Type}

def initial : VerifyMany ρ β :=
  ⟨[], [], false, false, [], .active⟩

/-- `subscribe` on the fetch with number `n`. -/
def subscribe (n : Nat) (st : VerifyMany ρ β) : VerifyMany ρ β :=
  { st with fetches := st.fetches.modify n fun f => { f with subscribed := true } }

/-- `next` and `complete` of the subscription in `triggerFetch`, up to its last call. -/
def completeHead (maxParallelFetch : Nat) (claims : List (ρ × β)) (st : VerifyMany ρ β) :
    VerifyMany ρ β :=
  let st := { st with
    emitted := st.emitted ++ claims, claimsBacklog := st.claimsBacklog.tail }
  let st := match st.claimsBacklog[maxParallelFetch - 1]? with
    | some n => st.subscribe n
    | none => st
  { st with fetching := false }

/-- `error` of the subscription in `triggerFetch`. -/
def errorHead (n : Nat) (st : VerifyMany ρ β) : VerifyMany ρ β :=
  { st with fetching := false, observer := .errored (.fetch n) }

theorem claimsBacklog_completeHead (maxParallelFetch : Nat) (claims : List (ρ × β))
    (st : VerifyMany ρ β) :
    (st.completeHead maxParallelFetch claims).claimsBacklog = st.claimsBacklog.tail := by
  unfold completeHead
  dsimp only
  split
  · rfl
  · rfl

/-- `triggerFetch`. -/
def triggerFetch (maxParallelFetch : Nat) (st : VerifyMany ρ β) : VerifyMany ρ β :=
  if st.fetching then st
  else
    match _h : st.claimsBacklog with
    | [] => if st.draining then { st with observer := .completed } else st
    | n :: _ =>
      let st' : VerifyMany ρ β := { st.subscribe n with fetching := true }
      match st'.fetches[n]? with
      | none => st'
      | some f =>
        match f.delivered with
        | none => st'
        | some .errored => st'.errorHead n
        | some (.completed blob) =>
          triggerFetch maxParallelFetch (completeHead maxParallelFetch (passedOn f.ref blob) st')
termination_by st.claimsBacklog.length
decreasing_by
  rw [claimsBacklog_completeHead]
  change st.claimsBacklog.tail.length < st.claimsBacklog.length
  rw [_h]
  exact Nat.lt_succ_self _

end VerifyMany

/-- What happens to the observable: the source emits, a fetch comes to its end, the source completes
or fails. -/
inductive VerifyManyEvent (ρ β : Type) where
  | next (ref : ρ)
  | fetched (n : Nat) (d : Delivery β)
  | complete
  | error

/-- One event. Those that cannot happen are ignored. -/
def VerifyMany.step {ρ β : Type} (maxParallelFetch : Nat) (st : VerifyMany ρ β) :
    VerifyManyEvent ρ β → VerifyMany ρ β
  | .next ref =>
    if st.observer = .active ∧ st.draining = false then
      let index := st.claimsBacklog.length
      triggerFetch maxParallelFetch { st with
        fetches := st.fetches ++ [⟨ref, index < maxParallelFetch, none⟩]
        claimsBacklog := st.claimsBacklog ++ [st.fetches.length] }
    else st
  | .fetched n d =>
    match st.fetches[n]? with
    | none => st
    | some f =>
      if st.observer = .active ∧ f.subscribed = true ∧ f.delivered.isNone = true then
        let st := { st with fetches := st.fetches.set n { f with delivered := some d } }
        if st.fetching = true ∧ st.claimsBacklog.head? = some n then
          match d with
          | .errored => st.errorHead n
          | .completed blob =>
            triggerFetch maxParallelFetch (st.completeHead maxParallelFetch (passedOn f.ref blob))
        else st
      else st
  | .complete =>
    if st.observer = .active ∧ st.draining = false then
      if st.claimsBacklog = [] then { st with draining := true, observer := .completed }
      else { st with draining := true }
    else st
  | .error =>
    if st.observer = .active ∧ st.draining = false then
      { st with observer := .errored .source }
    else st

/-! ## One fetch after the other -/

/-- How the fetches are left when they are taken one after the other. -/
inductive InOrderEnd where
  | drained
  | waiting
  | failed (n : Nat)

/-- What the fetches from number `n` on delivered, taken one after the other. -/
def takenInOrder {ρ β : Type} (n : Nat) : List (ρ × Option (Delivery β)) → List (ρ × β) × InOrderEnd
  | [] => ([], .drained)
  | (_, none) :: _ => ([], .waiting)
  | (_, some .errored) :: _ => ([], .failed n)
  | (ref, some (.completed blob)) :: rest =>
    (passedOn ref blob ++ (takenInOrder (n + 1) rest).1, (takenInOrder (n + 1) rest).2)

/-- What the observer sees of it, once the source has completed or before. -/
def InOrderEnd.observer (draining : Bool) : InOrderEnd → ManyObserver
  | .drained => if draining then .completed else .active
  | .waiting => .active
  | .failed n => .errored (.fetch n)

namespace VerifyMany

variable {ρ β : Type}

/-- The refs of the source and what was delivered for them. -/
def results (st : VerifyMany ρ β) : List (ρ × Option (Delivery β)) :=
  st.fetches.map fun f => (f.ref, f.delivered)

/-- The fetches that are on their way. -/
def running (st : VerifyMany ρ β) : List (RefFetch ρ β) :=
  st.fetches.filter fun f => f.subscribed && f.delivered.isNone

end VerifyMany

namespace VerifyManyLemmas

open VerifyMany

variable {ρ β : Type} {st : VerifyMany ρ β} {maxParallelFetch taken n : Nat} {f : RefFetch ρ β}

/-! ### The invariant -/

/-- The first `taken` fetches have been passed on, the others are in the backlog, and of these the
first ones were started. -/
structure Kept (maxParallelFetch taken : Nat) (st : VerifyMany ρ β) : Prop where
  le : taken ≤ st.fetches.length
  backlog : st.claimsBacklog = List.range' taken (st.fetches.length - taken)
  passed : ∀ rest, takenInOrder 0 (st.results.take taken ++ rest) =
    (st.emitted ++ (takenInOrder taken rest).1, (takenInOrder taken rest).2)
  done : ∀ n < taken, ∀ f, st.fetches[n]? = some f → f.delivered.isSome = true
  window : ∀ n f, st.fetches[n]? = some f → (f.subscribed = true ↔ n < taken + maxParallelFetch)

/-- The next fetch is not at its end. -/
def Pending (taken : Nat) (st : VerifyMany ρ β) : Prop :=
  ∀ f, st.fetches[taken]? = some f → f.delivered = none

/-- What the observer has seen of the next fetch. -/
def Settled (taken : Nat) (st : VerifyMany ρ β) : Prop :=
  match st.observer with
  | .active => Pending taken st ∧ (st.fetching = true ↔ taken < st.fetches.length) ∧
      (st.draining = true → taken < st.fetches.length)
  | .completed => taken = st.fetches.length ∧ st.draining = true
  | .errored .source => Pending taken st
  | .errored (.fetch n) => n = taken ∧ ∃ f, st.fetches[taken]? = some f ∧ f.delivered = some .errored

/-! ### Subscribing -/

theorem getElem?_subscribe (n k : Nat) (st : VerifyMany ρ β) :
    (st.subscribe n).fetches[k]? =
      st.fetches[k]?.map fun f => if n = k then { f with subscribed := true } else f := by
  rw [subscribe, List.getElem?_modify]
  rfl

theorem subscribe_eq_self (hf : st.fetches[n]? = some f) (hsub : f.subscribed = true) :
    st.subscribe n = st := by
  have hfetches : (st.subscribe n).fetches = st.fetches := by
    refine List.ext_getElem? fun k => ?_
    rw [getElem?_subscribe]
    by_cases hk : n = k
    · obtain rfl := hk
      rw [hf, Option.map_some, if_pos rfl]
      cases f
      obtain rfl := hsub
      rfl
    · rw [show (fun f : RefFetch ρ β => if n = k then { f with subscribed := true } else f) = id from
        funext fun f => if_neg hk, Option.map_id_fun, id]
  rw [subscribe] at hfetches ⊢
  rw [show (st.fetches.modify n fun f => { f with subscribed := true }) = st.fetches from hfetches]

theorem results_subscribe (n : Nat) (st : VerifyMany ρ β) :
    (st.subscribe n).results = st.results := by
  refine List.ext_getElem? fun k => ?_
  rw [results, results, List.getElem?_map, List.getElem?_map, getElem?_subscribe]
  cases st.fetches[k]? with
  | none => rfl
  | some f =>
    rw [Option.map_some, Option.map_some, Option.map_some]
    split
    · rfl
    · rfl

theorem results_getElem? (st : VerifyMany ρ β) (n : Nat) :
    st.results[n]? = st.fetches[n]?.map fun f => (f.ref, f.delivered) :=
  List.getElem?_map

theorem length_results (st : VerifyMany ρ β) : st.results.length = st.fetches.length :=
  List.length_map _

/-! ### The next fetch -/

theorem take_results (hf : st.fetches[taken]? = some f) :
    st.results.take (taken + 1) = st.results.take taken ++ [(f.ref, f.delivered)] := by
  rw [List.take_add_one, results_getElem?, hf]
  rfl

/-- The head of the backlog is the first fetch that has not been passed on. -/
theorem Kept.head (h : Kept maxParallelFetch taken st) {rest : List Nat}
    (hbacklog : st.claimsBacklog = n :: rest) : n = taken ∧ taken < st.fetches.length := by
  rw [h.backlog, List.range'_eq_cons_iff] at hbacklog
  exact ⟨hbacklog.1.symm, Nat.sub_pos_iff_lt.mp hbacklog.2.1⟩

theorem Kept.taken_of_nil (h : Kept maxParallelFetch taken st) (hbacklog : st.claimsBacklog = []) :
    taken = st.fetches.length := by
  rw [h.backlog, List.range'_eq_nil_iff, Nat.sub_eq_zero_iff_le] at hbacklog
  exact Nat.le_antisymm h.le hbacklog

theorem Kept.backlog_eq_nil_iff (h : Kept maxParallelFetch taken st) :
    st.claimsBacklog = [] ↔ ¬ taken < st.fetches.length := by
  rw [h.backlog, List.range'_eq_nil_iff, Nat.sub_eq_zero_iff_le, Nat.not_lt]

theorem completeHead_spec (claims : List (ρ × β)) (st : VerifyMany ρ β) :
    (st.completeHead maxParallelFetch claims).results = st.results ∧
      (st.completeHead maxParallelFetch claims).emitted = st.emitted ++ claims ∧
      (st.completeHead maxParallelFetch claims).fetching = false ∧
      (st.completeHead maxParallelFetch claims).draining = st.draining ∧
      (st.completeHead maxParallelFetch claims).observer = st.observer ∧
      ∀ k, (st.completeHead maxParallelFetch claims).fetches[k]? = st.fetches[k]?.map fun f =>
        if st.claimsBacklog.tail[maxParallelFetch - 1]? = some k then { f with subscribed := true }
        else f := by
  unfold completeHead
  dsimp only
  cases htail : st.claimsBacklog.tail[maxParallelFetch - 1]? with
  | none =>
    refine ⟨rfl, rfl, rfl, rfl, rfl, fun k => ?_⟩
    simp
  | some n =>
    refine ⟨results_subscribe n { st with
      emitted := st.emitted ++ claims, claimsBacklog := st.claimsBacklog.tail },
      rfl, rfl, rfl, rfl, fun k => ?_⟩
    rw [show (fun f : RefFetch ρ β => if some n = some k then { f with subscribed := true } else f) =
      fun f => if n = k then { f with subscribed := true } else f by simp]
    exact getElem?_subscribe n k { st with
      emitted := st.emitted ++ claims, claimsBacklog := st.claimsBacklog.tail }

/-- Passing the head of the backlog on. -/
theorem Kept.completeHead (h : Kept maxParallelFetch taken st) (hmax : 0 < maxParallelFetch)
    {blob : Option β} (hf : st.fetches[taken]? = some f)
    (hd : f.delivered = some (.completed blob)) :
    Kept maxParallelFetch (taken + 1)
      (st.completeHead maxParallelFetch (passedOn f.ref blob)) := by
  obtain ⟨hresults, hemitted, -, -, -, hget⟩ :=
    @completeHead_spec _ _ maxParallelFetch (passedOn f.ref blob) st
  have hlt : taken < st.fetches.length := (List.getElem?_eq_some_iff.mp hf).1
  have hlength : (st.completeHead maxParallelFetch (passedOn f.ref blob)).fetches.length =
      st.fetches.length := by
    rw [← length_results, hresults, length_results]
  have htail : st.claimsBacklog.tail =
      List.range' (taken + 1) (st.fetches.length - (taken + 1)) := by
    rw [h.backlog, List.tail_range', Nat.sub_sub]
  have hnext : ∀ k < st.fetches.length,
      (st.claimsBacklog.tail[maxParallelFetch - 1]? = some k ↔ k = taken + maxParallelFetch) := by
    intro k hk
    rw [htail, List.getElem?_eq_some_iff]
    constructor
    · rintro ⟨hlt, heq⟩
      rw [List.getElem_range'] at heq
      omega
    · rintro rfl
      refine ⟨by rw [List.length_range']; omega, ?_⟩
      rw [List.getElem_range']
      omega
  refine ⟨hlength ▸ hlt, ?_, ?_, ?_, ?_⟩
  · rw [claimsBacklog_completeHead, hlength, htail]
  · intro rest
    rw [hresults, take_results hf, hd, List.append_assoc, h.passed, hemitted, List.append_assoc]
    rfl
  · intro k hk f' hf'
    rw [hget] at hf'
    obtain ⟨f₀, hf₀, rfl⟩ := Option.map_eq_some_iff.mp hf'
    have hdone : f₀.delivered.isSome = true := by
      rcases Nat.lt_succ_iff_lt_or_eq.mp hk with hk | rfl
      · exact h.done k hk f₀ hf₀
      · rw [hf] at hf₀
        obtain rfl := Option.some.inj hf₀
        rw [hd]
        rfl
    split
    · exact hdone
    · exact hdone
  · intro k f' hf'
    rw [hget] at hf'
    obtain ⟨f₀, hf₀, rfl⟩ := Option.map_eq_some_iff.mp hf'
    have hk := hnext k (List.getElem?_eq_some_iff.mp hf₀).1
    have hwindow := h.window k f₀ hf₀
    split
    · rename_i heq
      have hkeq := hk.mp heq
      exact iff_of_true rfl (by omega)
    · rename_i hne
      have hkne : k ≠ taken + maxParallelFetch := fun heq => hne (hk.mpr heq)
      rw [hwindow]
      omega

/-- A subscription that changes nothing. -/
theorem Kept.congr (h : Kept maxParallelFetch taken st) {st' : VerifyMany ρ β}
    (hfetches : st'.fetches = st.fetches) (hbacklog : st'.claimsBacklog = st.claimsBacklog)
    (hemitted : st'.emitted = st.emitted) : Kept maxParallelFetch taken st' := by
  have hresults : st'.results = st.results := by rw [results, results, hfetches]
  refine ⟨hfetches ▸ h.le, ?_, ?_, hfetches ▸ h.done, hfetches ▸ h.window⟩
  · rw [hbacklog, hfetches, h.backlog]
  · intro rest
    rw [hresults, hemitted, h.passed]

/-- The head of the backlog is on its way already. -/
theorem Kept.subscribe_head (h : Kept maxParallelFetch taken st) (hmax : 0 < maxParallelFetch)
    (hlt : taken < st.fetches.length) : st.subscribe taken = st := by
  have hget := List.getElem?_eq_getElem hlt
  exact subscribe_eq_self hget ((h.window _ _ hget).mpr (Nat.lt_add_of_pos_right hmax))

/-- `triggerFetch` passes on what has been fetched and waits for the next fetch. -/
theorem triggerFetch_kept (h : Kept maxParallelFetch taken st) (hmax : 0 < maxParallelFetch)
    (hfetching : st.fetching = false) (hactive : st.observer = .active) :
    ∃ taken', Kept maxParallelFetch taken' (st.triggerFetch maxParallelFetch) ∧
      Settled taken' (st.triggerFetch maxParallelFetch) := by
  fun_induction VerifyMany.triggerFetch maxParallelFetch st generalizing taken with
  | case1 st hfetch =>
    rw [hfetch] at hfetching
    cases hfetching
  | case2 st _ hbacklog hdraining =>
    refine ⟨taken, h.congr rfl rfl rfl, ?_⟩
    exact ⟨h.taken_of_nil hbacklog, hdraining⟩
  | case3 st _ hbacklog hdraining =>
    have htaken := h.taken_of_nil hbacklog
    refine ⟨taken, h, ?_⟩
    rw [Settled, hactive]
    refine ⟨fun f hf => ?_, ?_, fun hdrain => absurd hdrain hdraining⟩
    · exact absurd (List.getElem?_eq_some_iff.mp hf).1 (htaken ▸ Nat.lt_irrefl _)
    · rw [hfetching]
      exact iff_of_false Bool.false_ne_true (htaken ▸ Nat.lt_irrefl _)
  | case4 st _ n rest hbacklog st' =>
    rename_i hnone
    obtain ⟨rfl, hlt⟩ := h.head hbacklog
    have hst' : st' = { st with fetching := true } :=
      congrArg (fun s : VerifyMany ρ β => { s with fetching := true }) (h.subscribe_head hmax hlt)
    rw [hst'] at hnone
    exact absurd hlt (Nat.not_lt.mpr (List.getElem?_eq_none_iff.mp hnone))
  | case5 st _ n rest hbacklog st' f =>
    rename_i hf hnone
    obtain ⟨rfl, hlt⟩ := h.head hbacklog
    have hst' : st' = { st with fetching := true } :=
      congrArg (fun s : VerifyMany ρ β => { s with fetching := true }) (h.subscribe_head hmax hlt)
    rw [hst'] at hf ⊢
    refine ⟨n, h.congr rfl rfl rfl, ?_⟩
    rw [Settled, hactive]
    refine ⟨fun f' hf' => ?_, iff_of_true rfl hlt, fun _ => hlt⟩
    rw [hf] at hf'
    exact Option.some.inj hf' ▸ hnone
  | case6 st _ n rest hbacklog st' f =>
    rename_i hf herrored
    obtain ⟨rfl, hlt⟩ := h.head hbacklog
    have hst' : st' = { st with fetching := true } :=
      congrArg (fun s : VerifyMany ρ β => { s with fetching := true }) (h.subscribe_head hmax hlt)
    rw [hst'] at hf ⊢
    exact ⟨n, h.congr rfl rfl rfl, rfl, f, hf, herrored⟩
  | case7 st _ n rest hbacklog st' f =>
    rename_i hf blob hcompleted ih
    obtain ⟨rfl, hlt⟩ := h.head hbacklog
    have hst' : st' = { st with fetching := true } :=
      congrArg (fun s : VerifyMany ρ β => { s with fetching := true }) (h.subscribe_head hmax hlt)
    rw [hst'] at hf ih ⊢
    have hkept : Kept maxParallelFetch n { st with fetching := true } := h.congr rfl rfl rfl
    obtain ⟨-, -, hfetching', -, hobserver, -⟩ :=
      @completeHead_spec _ _ maxParallelFetch (passedOn f.ref blob) { st with fetching := true }
    exact ih (hkept.completeHead hmax hf hcompleted) hfetching' (hobserver.trans hactive)

/-! ### Events -/

/-- The source emits. -/
theorem Kept.next (h : Kept maxParallelFetch taken st) (ref : ρ) :
    Kept maxParallelFetch taken { st with
      fetches := st.fetches ++ [⟨ref, st.claimsBacklog.length < maxParallelFetch, none⟩]
      claimsBacklog := st.claimsBacklog ++ [st.fetches.length] } := by
  have hle := h.le
  refine ⟨?_, ?_, ?_, ?_, ?_⟩
  · exact hle.trans (List.length_append ▸ Nat.le_add_right _ _)
  · dsimp only
    rw [h.backlog, List.length_append, List.length_singleton, Nat.succ_sub hle,
      List.range'_concat, Nat.one_mul, Nat.add_sub_cancel' hle]
  · intro rest
    rw [results, List.map_append,
      List.take_append_of_le_length (hle.trans_eq (List.length_map _).symm)]
    exact h.passed rest
  · intro k hk f hf
    rw [List.getElem?_append_left (Nat.lt_of_lt_of_le hk hle)] at hf
    exact h.done k hk f hf
  · intro k f hf
    rw [List.getElem?_append] at hf
    split at hf
    · exact h.window k f hf
    · rename_i hlast
      obtain ⟨hlt, rfl⟩ := List.getElem?_eq_some_iff.mp hf
      have hlength : st.claimsBacklog.length = st.fetches.length - taken := by
        rw [h.backlog, List.length_range']
      rw [List.length_singleton] at hlt
      simp only [List.getElem_singleton, decide_eq_true_eq, hlength]
      omega

/-- A fetch comes to its end. -/
theorem Kept.set (h : Kept maxParallelFetch taken st) (hf : st.fetches[n]? = some f)
    (hnone : f.delivered = none) (d : Delivery β) :
    Kept maxParallelFetch taken { st with
      fetches := st.fetches.set n { f with delivered := some d } } ∧ taken ≤ n := by
  have hle : taken ≤ n := by
    refine Nat.le_of_not_lt fun hlt => ?_
    have hdone := h.done n hlt f hf
    rw [hnone] at hdone
    cases hdone
  have hlt := (List.getElem?_eq_some_iff.mp hf).1
  refine ⟨⟨?_, ?_, ?_, ?_, ?_⟩, hle⟩
  · dsimp only
    rw [List.length_set]
    exact h.le
  · dsimp only
    rw [List.length_set]
    exact h.backlog
  · intro rest
    rw [results, List.map_set, List.take_set_of_le hle]
    exact h.passed rest
  · intro k hk f' hf'
    rw [List.getElem?_set_ne (Nat.ne_of_gt (Nat.lt_of_lt_of_le hk hle))] at hf'
    exact h.done k hk f' hf'
  · intro k f' hf'
    dsimp only at hf'
    rw [List.getElem?_set] at hf'
    split at hf'
    · rename_i heq
      obtain rfl := heq
      obtain rfl := Option.some.inj hf'
      exact h.window n f hf
    · exact h.window k f' hf'

theorem step_kept (hmax : 0 < maxParallelFetch) (h : Kept maxParallelFetch taken st)
    (hsettled : Settled taken st) (e : VerifyManyEvent ρ β) :
    ∃ taken', Kept maxParallelFetch taken' (st.step maxParallelFetch e) ∧
      Settled taken' (st.step maxParallelFetch e) := by
  cases e with
  | next ref =>
    rw [step]
    split
    · rename_i hst
      obtain ⟨hactive, -⟩ := hst
      rw [Settled, hactive] at hsettled
      obtain ⟨hpending, hfetching, hdraining⟩ := hsettled
      rcases Bool.eq_false_or_eq_true st.fetching with hidle | hidle
      · -- a fetch is on its way, and triggerFetch does nothing
        have hlt := hfetching.mp hidle
        dsimp only
        rw [triggerFetch, if_pos hidle]
        refine ⟨taken, h.next ref, ?_⟩
        have hlong : taken < (st.fetches ++
            [(⟨ref, st.claimsBacklog.length < maxParallelFetch, none⟩ : RefFetch ρ β)]).length :=
          Nat.lt_of_lt_of_le hlt (List.length_append ▸ Nat.le_add_right _ _)
        rw [Settled, hactive]
        refine ⟨fun f hf => hpending f ?_, iff_of_true hidle hlong, fun _ => hlong⟩
        rwa [List.getElem?_append_left hlt] at hf
      · exact triggerFetch_kept (h.next ref) hmax hidle hactive
    · exact ⟨taken, h, hsettled⟩
  | fetched n d =>
    rw [step]
    split
    · exact ⟨taken, h, hsettled⟩
    · rename_i f hf
      split
      · rename_i hst
        obtain ⟨hactive, -, hdelivered⟩ := hst
        obtain ⟨hkept, hle⟩ := h.set hf (Option.isNone_iff_eq_none.mp hdelivered) d
        have hlt := (List.getElem?_eq_some_iff.mp hf).1
        rw [Settled, hactive] at hsettled
        obtain ⟨hpending, hfetching, hdraining⟩ := hsettled
        have hself : (st.fetches.set n { f with delivered := some d })[n]? =
            some { f with delivered := some d } := List.getElem?_set_self hlt
        dsimp only
        split
        · rename_i hhead
          obtain ⟨rest, hbacklog⟩ := List.head?_eq_some_iff.mp hhead.2
          obtain ⟨rfl, -⟩ := h.head hbacklog
          cases d with
          | errored => exact ⟨n, hkept.congr rfl rfl rfl, rfl, _, hself, rfl⟩
          | completed blob =>
            obtain ⟨-, -, hfetching', -, hobserver, -⟩ := @completeHead_spec _ _ maxParallelFetch
              (passedOn f.ref blob) { st with
                fetches := st.fetches.set n { f with delivered := some (.completed blob) } }
            have hnext := @Kept.completeHead _ _ _ _ _ { f with delivered := some (.completed blob) }
              hkept hmax blob hself rfl
            exact triggerFetch_kept hnext hmax hfetching' (hobserver.trans hactive)
        · rename_i hhead
          refine ⟨taken, hkept, ?_⟩
          rw [Settled, hactive]
          dsimp only
          rw [List.length_set]
          refine ⟨fun f' hf' => hpending f' ?_, hfetching, hdraining⟩
          have hne : n ≠ taken := by
            rintro rfl
            refine hhead ⟨hfetching.mpr hlt, ?_⟩
            rw [h.backlog, List.head?_range', if_neg (Nat.sub_ne_zero_of_lt hlt)]
          rwa [List.getElem?_set_ne hne] at hf'
      · exact ⟨taken, h, hsettled⟩
  | complete =>
    rw [step]
    split
    · rename_i hst
      rw [Settled, hst.1] at hsettled
      obtain ⟨hpending, hfetching, -⟩ := hsettled
      split
      · rename_i hbacklog
        exact ⟨taken, h.congr rfl rfl rfl, h.taken_of_nil hbacklog, rfl⟩
      · rename_i hbacklog
        refine ⟨taken, h.congr rfl rfl rfl, ?_⟩
        rw [Settled, hst.1]
        exact ⟨hpending, hfetching, fun _ => not_not.mp (mt h.backlog_eq_nil_iff.mpr hbacklog)⟩
    · exact ⟨taken, h, hsettled⟩
  | error =>
    rw [step]
    split
    · rename_i hst
      rw [Settled, hst.1] at hsettled
      exact ⟨taken, h.congr rfl rfl rfl, hsettled.1⟩
    · exact ⟨taken, h, hsettled⟩

theorem exec_kept (hmax : 0 < maxParallelFetch) (es : List (VerifyManyEvent ρ β)) :
    ∃ taken, Kept maxParallelFetch taken (exec (VerifyMany.step maxParallelFetch) .initial es) ∧
      Settled taken (exec (VerifyMany.step maxParallelFetch) .initial es) := by
  induction es using List.reverseRecOn with
  | nil =>
    refine ⟨0, ⟨Nat.le_refl 0, rfl, fun rest => rfl, ?_, ?_⟩, ?_⟩
    · exact fun n hn => absurd hn (Nat.not_lt_zero n)
    · exact fun n f hf => absurd hf (by simp [initial])
    · refine ⟨fun f hf => absurd hf (by simp [initial]), ?_, fun h => absurd h Bool.false_ne_true⟩
      exact iff_of_false Bool.false_ne_true (Nat.lt_irrefl 0)
  | append_singleton es e ih =>
    obtain ⟨taken, h, hsettled⟩ := ih
    rw [exec_append_singleton]
    exact step_kept hmax h hsettled e

/-! ### What the observer has seen -/

theorem Kept.takenInOrder_eq (h : Kept maxParallelFetch taken st) :
    takenInOrder 0 st.results = (st.emitted ++ (takenInOrder taken (st.results.drop taken)).1,
      (takenInOrder taken (st.results.drop taken)).2) := by
  have hpassed := h.passed (st.results.drop taken)
  rwa [List.take_append_drop] at hpassed

theorem drop_results (hf : st.fetches[taken]? = some f) :
    st.results.drop taken = (f.ref, f.delivered) :: st.results.drop (taken + 1) := by
  obtain ⟨hlt, rfl⟩ := List.getElem?_eq_some_iff.mp hf
  rw [List.drop_eq_getElem_cons (by rwa [length_results])]
  simp [results]

/-- What is left if the next fetch is not at its end. -/
theorem takenInOrder_of_pending (hpending : Pending taken st) :
    takenInOrder taken (st.results.drop taken) =
      ([], if taken < st.fetches.length then .waiting else .drained) := by
  by_cases hlt : taken < st.fetches.length
  · have hget := List.getElem?_eq_getElem hlt
    rw [if_pos hlt, drop_results hget, hpending _ hget, takenInOrder]
  · rw [if_neg hlt, List.drop_eq_nil_of_le (length_results st ▸ Nat.le_of_not_lt hlt), takenInOrder]

theorem Settled.takenInOrder_eq (hsettled : Settled taken st) :
    (takenInOrder taken (st.results.drop taken)).1 = [] ∧
      (st.observer = (takenInOrder taken (st.results.drop taken)).2.observer st.draining ∨
        st.observer = .errored .source) := by
  unfold Settled at hsettled
  split at hsettled
  · rename_i hobserver
    obtain ⟨hpending, -, hdraining⟩ := hsettled
    rw [takenInOrder_of_pending hpending, hobserver]
    refine ⟨rfl, .inl ?_⟩
    dsimp only
    split
    · rfl
    · rename_i hlt
      rw [Bool.eq_false_iff.mpr (mt hdraining hlt)]
      rfl
  · rename_i hobserver
    obtain ⟨htaken, hdraining⟩ := hsettled
    rw [List.drop_eq_nil_of_le (length_results st ▸ htaken.ge), hobserver, hdraining]
    exact ⟨rfl, .inl rfl⟩
  · rename_i hobserver
    rw [takenInOrder_of_pending hsettled]
    exact ⟨rfl, .inr hobserver⟩
  · rename_i n hobserver
    obtain ⟨rfl, f, hf, herrored⟩ := hsettled
    rw [drop_results hf, herrored, hobserver]
    exact ⟨rfl, .inl rfl⟩

/-- The fetches on their way are among those after the ones that were passed on. -/
theorem Kept.length_running (h : Kept maxParallelFetch taken st) :
    st.running.length ≤ maxParallelFetch := by
  have hfront : ((st.fetches.take taken).filter fun f => f.subscribed && f.delivered.isNone) =
      [] := by
    refine List.filter_eq_nil_iff.mpr fun f hf => ?_
    obtain ⟨n, hn⟩ := List.mem_iff_getElem?.mp hf
    rw [List.getElem?_take] at hn
    split at hn
    · rename_i hlt
      obtain ⟨d, hd⟩ := Option.isSome_iff_exists.mp (h.done n hlt f hn)
      simp [hd]
    · cases hn
  have hback : ((st.fetches.drop (taken + maxParallelFetch)).filter fun f =>
      f.subscribed && f.delivered.isNone) = [] := by
    refine List.filter_eq_nil_iff.mpr fun f hf => ?_
    obtain ⟨n, hn⟩ := List.mem_iff_getElem?.mp hf
    rw [List.getElem?_drop] at hn
    have hsub : ¬ f.subscribed = true := fun hsub =>
      Nat.not_lt.mpr (Nat.le_add_right _ n) ((h.window _ f hn).mp hsub)
    simp [hsub]
  have hsplit : st.fetches = st.fetches.take taken ++
      ((st.fetches.drop taken).take maxParallelFetch ++
        st.fetches.drop (taken + maxParallelFetch)) := by
    rw [← List.drop_drop, List.take_append_drop, List.take_append_drop]
  rw [running, hsplit, List.filter_append, List.filter_append, hfront, hback, List.nil_append,
    List.append_nil]
  exact (List.length_filter_le _ _).trans (List.length_take_le _ _)

end VerifyManyLemmas

open VerifyManyLemmas in
/-- However the fetches come to their ends, the observer sees what it would see if they were made one
after the other, no more of them are on their way at once than allowed, and the next one is always
among these. -/
theorem verify_many_in_order {ρ β : Type} {maxParallelFetch : Nat} (hmax : 0 < maxParallelFetch)
    (es : List (VerifyManyEvent ρ β)) :
    let st := exec (VerifyMany.step maxParallelFetch) .initial es
    st.emitted = (takenInOrder 0 st.results).1 ∧
      (st.observer = (takenInOrder 0 st.results).2.observer st.draining ∨
        st.observer = .errored .source) ∧
      st.running.length ≤ maxParallelFetch ∧
      (st.running = [] → st.observer = .active →
        st.draining = false ∧ ∀ f ∈ st.fetches, f.delivered.isSome = true) := by
  intro st
  obtain ⟨taken, h, hsettled⟩ := exec_kept hmax es
  obtain ⟨hnil, hobserver⟩ := hsettled.takenInOrder_eq
  refine ⟨?_, ?_, h.length_running, ?_⟩
  · rw [h.takenInOrder_eq, hnil, List.append_nil]
  · rw [h.takenInOrder_eq]
    exact hobserver
  · intro hidle hactive
    have htaken : taken = st.fetches.length := by
      refine Nat.le_antisymm h.le (Nat.le_of_not_lt fun hlt => ?_)
      -- the next fetch would be on its way
      have hget := List.getElem?_eq_getElem hlt
      rw [Settled, hactive] at hsettled
      have hsub := (h.window _ _ hget).mpr (Nat.lt_add_of_pos_right hmax)
      have hrunning : st.fetches[taken] ∈ st.running :=
        List.mem_filter.mpr ⟨List.getElem_mem hlt, by simp [hsub, hsettled.1 _ hget]⟩
      rw [hidle] at hrunning
      cases hrunning
    rw [Settled, hactive] at hsettled
    refine ⟨Bool.eq_false_iff.mpr fun hdraining => ?_, fun f hf => ?_⟩
    · exact absurd (hsettled.2.2 hdraining) (htaken ▸ Nat.lt_irrefl _)
    · obtain ⟨n, hn⟩ := List.mem_iff_getElem?.mp hf
      exact h.done n (htaken ▸ (List.getElem?_eq_some_iff.mp hn).1) f hn

/-- The second of two claims comes first. -/
theorem verify_many_in_order_two :
    0 < 8 ∧
    (exec (VerifyMany.step 8) (VerifyMany.initial : VerifyMany Nat Bool)
      [.next 3, .next 5, .fetched 1 (.completed true), .complete,
        .fetched 0 (.completed false)]).emitted = [(3, false), (5, true)] := by
  have hmax : 0 < 8 := by decide
  refine ⟨hmax, (verify_many_in_order hmax _).1.trans ?_⟩
  simp [VerifyMany.step, VerifyMany.triggerFetch, VerifyMany.completeHead, VerifyMany.subscribe,
    VerifyMany.initial, VerifyMany.results, passedOn, takenInOrder]

end Everarch
