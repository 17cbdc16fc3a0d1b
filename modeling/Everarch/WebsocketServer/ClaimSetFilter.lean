import Everarch.Lib.Bytes
import Everarch.Lib.Run

/-!
# The claim set filter of the websocket server

The observable of `buildModifiedClaimSetFilter` in server.js with a namespace filter. Every
modified claim set of the source gets a shared fetch in a backlog. The first fetch of the backlog is
the one whose result is passed on next.

* `ClaimSetFilterLemmas.triggerFetch_waiting`: what one call of `triggerFetch` comes to.
* `ClaimSetFilterLemmas.runFilter_waiting`: which fetch the filter waits for after any events.

Result: `filter_keeps_iff`.
-/

namespace Everarch

/-! ## Fetches -/

/-- What `getAndVerify` comes to: a claim set with its body, an `evr` that exits with
`errorCodes.userDataInvalid`, any other error. -/
inductive Verified where
  | claimSet (body : Bytes)
  | userDataInvalid
  | failed

/-- What an observable passes on: at most one claim set and its completion, or an error. -/
inductive Delivery (α : Type) where
  | completed (claimSet : Option α)
  | errored

/-- `body.indexOf(ns) !== -1` on buffers. -/
def bodyContains (body ns : Bytes) : Bool :=
  body.tails.any fun rest => ns.isPrefixOf rest

/-- The operators behind `getAndVerify` in one backlog item. -/
def filterFetched {α : Type} (ns : Bytes) (modifiedClaimSet : α) : Verified → Delivery α
  | .claimSet body => .completed (if bodyContains body ns then some modifiedClaimSet else none)
  | .userDataInvalid => .completed none
  | .failed => .errored

/-- A shared fetch. It starts with its first subscriber and replays what it delivered to the
others. -/
structure SharedFetch (α : Type) where
  modifiedClaimSet : α
  subscribed : Bool
  delivered : Option (Delivery α)

/-! ## The observable -/

inductive ObserverStatus where
  | active
  | completed
  | errored
deriving DecidableEq, Repr

/-- The variables of the observable and what its observer has seen. The backlog refers to the
fetches by their numbers. -/
structure FilterState (α : Type) where
  fetches : List (SharedFetch α)
  claimsBacklog : List Nat
  fetching : Bool
  emitted : List α
  observer : ObserverStatus

def maxParallelFetch : Nat := 8

namespace FilterState

variable {α : Type}

def initial : FilterState α :=
  ⟨[], [], false, [], .active⟩

/-- `subscribe` on the fetch with number `n`. -/
def subscribe (n : Nat) (st : FilterState α) : FilterState α :=
  { st with fetches := st.fetches.modify n fun f => { f with subscribed := true } }

/-- `next` and `complete` of the subscription in `triggerFetch`, up to its last call. -/
def completeHead (claimSet : Option α) (st : FilterState α) : FilterState α :=
  let st := { st with
    emitted := st.emitted ++ claimSet.toList, claimsBacklog := st.claimsBacklog.tail }
  let st := match st.claimsBacklog[maxParallelFetch - 1]? with
    | some n => st.subscribe n
    | none => st
  { st with fetching := false }

/-- `error` of the subscription in `triggerFetch`. -/
def errorHead (st : FilterState α) : FilterState α :=
  { st with fetching := false, observer := .errored }

theorem length_completeHead_lt {st : FilterState α} {n : Nat} {rest : List Nat}
    (h : st.claimsBacklog = n :: rest) (claimSet : Option α) :
    (completeHead claimSet st).claimsBacklog.length < st.claimsBacklog.length := by
  have hlength : (completeHead claimSet st).claimsBacklog = rest := by
    unfold completeHead
    dsimp only
    split
    · exact congrArg List.tail h
    · exact congrArg List.tail h
  rw [hlength, h]
  exact Nat.lt_succ_self _

/-- `triggerFetch`. -/
def triggerFetch (st : FilterState α) : FilterState α :=
  if st.fetching then st
  else
    match _h : st.claimsBacklog with
    | [] => st
    | n :: _ =>
      let st' : FilterState α := { st.subscribe n with fetching := true }
      match st'.fetches[n]?.bind (·.delivered) with
      | none => st'
      | some .errored => st'.errorHead
      | some (.completed claimSet) => triggerFetch (completeHead claimSet st')
termination_by st.claimsBacklog.length
decreasing_by
  have hst' : ({ st.subscribe n with fetching := true } : FilterState α).claimsBacklog = n :: _ :=
    _h
  exact length_completeHead_lt hst' _

end FilterState

/-- What happens to the observable: the source emits, a fetch comes to its end, the source
completes. A fetch that the cache answers ends right after it started. -/
inductive FilterEvent (α : Type) where
  | next (modifiedClaimSet : α)
  | fetched (n : Nat)
  | complete

section FilterStep

variable {α : Type} (ns : Bytes) (verified : Nat → Verified)

/-- One event. Those that cannot happen are ignored. -/
def filterStep (st : FilterState α) : FilterEvent α → FilterState α
  | .next modifiedClaimSet =>
    if st.observer = .active then
      let index := st.claimsBacklog.length
      FilterState.triggerFetch { st with
        fetches := st.fetches ++ [⟨modifiedClaimSet, index < maxParallelFetch, none⟩]
        claimsBacklog := st.claimsBacklog ++ [st.fetches.length] }
    else st
  | .fetched n =>
    match st.fetches[n]? with
    | none => st
    | some f =>
      if st.observer = .active ∧ f.subscribed ∧ f.delivered.isNone then
        let d := filterFetched ns f.modifiedClaimSet (verified n)
        let st := { st with fetches := st.fetches.set n { f with delivered := some d } }
        if st.fetching ∧ st.claimsBacklog.head? = some n then
          match d with
          | .errored => st.errorHead
          | .completed claimSet => FilterState.triggerFetch (st.completeHead claimSet)
        else st
      else st
  | .complete =>
    if st.observer = .active then { st with observer := .completed } else st

/-- The state after the events. -/
def runFilter (events : List (FilterEvent α)) : FilterState α :=
  exec (filterStep ns verified) .initial events

end FilterStep

/-! ## What the filter is for -/

/-- The source: what it emits in the events. -/
def emittedBySource {α : Type} (events : List (FilterEvent α)) : List α :=
  events.filterMap fun
    | .next modifiedClaimSet => some modifiedClaimSet
    | _ => none

/-- The fetch gives a claim set with the namespace in it. -/
def inNamespace (ns : Bytes) : Verified → Bool
  | .claimSet body => bodyContains body ns
  | _ => false

/-- The claim sets of a source that match, in source order. -/
def matchingClaimSets {α : Type} (ns : Bytes) (verified : Nat → Verified) (source : List α) :
    List α :=
  (source.zipIdx.filter fun (_, n) => inNamespace ns (verified n)).map (·.1)

/-- The fetch with number `n` has come to its end. -/
def FilterState.Ended {α : Type} (st : FilterState α) (n : Nat) : Prop :=
  ∃ f, st.fetches[n]? = some f ∧ f.delivered.isSome = true

namespace ClaimSetFilterLemmas

variable {α : Type} {ns : Bytes} {verified : Nat → Verified} {source : List α}
  {st : FilterState α} {taken : Nat}

/-! ### Matching claim sets -/

theorem matchingClaimSets_append (ns : Bytes) (verified : Nat → Verified) (source more : List α) :
    matchingClaimSets ns verified (source ++ more) = matchingClaimSets ns verified source ++
      ((more.zipIdx source.length).filter fun (_, n) => inNamespace ns (verified n)).map (·.1) := by
  rw [matchingClaimSets, List.zipIdx_append, List.filter_append, List.map_append, Nat.zero_add]
  rfl

/-- The next claim set of the source is among the matching ones if its fetch delivers it. -/
theorem matchingClaimSets_take_succ {m : α} {claimSet : Option α}
    (hm : source[taken]? = some m)
    (hd : filterFetched ns m (verified taken) = .completed claimSet) :
    matchingClaimSets ns verified (source.take (taken + 1)) =
      matchingClaimSets ns verified (source.take taken) ++ claimSet.toList := by
  obtain ⟨hlt, -⟩ := List.getElem?_eq_some_iff.mp hm
  rw [List.take_add_one, hm, Option.toList_some, matchingClaimSets_append,
    List.length_take_of_le (Nat.le_of_lt hlt)]
  congr 1
  rw [List.zipIdx_singleton, List.filter_cons]
  cases hv : verified taken with
  | claimSet body =>
    rw [hv, filterFetched] at hd
    split at hd
    · next hmatch =>
      cases hd
      simp [inNamespace, hv, hmatch]
    · next hmatch =>
      cases hd
      simp [inNamespace, hv, hmatch]
  | userDataInvalid =>
    rw [hv] at hd
    cases hd
    simp [inNamespace, hv]
  | failed =>
    rw [hv] at hd
    cases hd

/-- Nothing of the source matches behind its first `taken` claim sets. -/
theorem matchingClaimSets_take_eq_iff (h : taken ≤ source.length) :
    matchingClaimSets ns verified (source.take taken) = matchingClaimSets ns verified source ↔
      ∀ n, taken ≤ n → n < source.length → inNamespace ns (verified n) = false := by
  have hsplit := matchingClaimSets_append ns verified (source.take taken) (source.drop taken)
  rw [List.take_append_drop, List.length_take_of_le h] at hsplit
  rw [hsplit, List.self_eq_append_right, List.map_eq_nil_iff, List.filter_eq_nil_iff]
  constructor
  · intro hall n hn hlt
    have hget : (source.drop taken)[n - taken]? = some source[n] := by
      rw [List.getElem?_drop, Nat.add_sub_cancel' hn, List.getElem?_eq_getElem hlt]
    have hmem := List.mk_mem_zipIdx_iff_le_and_getElem?_sub.mpr ⟨hn, hget⟩
    exact Bool.eq_false_iff.mpr (hall _ hmem)
  · rintro hall ⟨m, n⟩ hmem
    obtain ⟨hn, hget⟩ := List.mk_mem_zipIdx_iff_le_and_getElem?_sub.mp hmem
    rw [List.getElem?_drop, Nat.add_sub_cancel' hn] at hget
    exact Bool.eq_false_iff.mp (hall n hn (List.getElem?_eq_some_iff.mp hget).1)

/-! ### Subscribing -/

/-- What the fetches are about and what they delivered. -/
def results (st : FilterState α) : List (α × Option (Delivery α)) :=
  st.fetches.map fun f => (f.modifiedClaimSet, f.delivered)

theorem results_subscribe (n : Nat) (st : FilterState α) :
    results (st.subscribe n) = results st := by
  refine List.ext_getElem? fun i => ?_
  rw [results, results, List.getElem?_map, List.getElem?_map, FilterState.subscribe,
    List.getElem?_modify]
  cases st.fetches[i]? with
  | none => rfl
  | some f =>
    simp only [Option.map_eq_map, Option.map_some]
    split
    · rfl
    · rfl

theorem results_getElem? (st : FilterState α) (n : Nat) :
    (results st)[n]? = st.fetches[n]?.map fun f => (f.modifiedClaimSet, f.delivered) :=
  List.getElem?_map

theorem ended_iff (st : FilterState α) (n : Nat) :
    st.Ended n ↔ ∃ m d, (results st)[n]? = some (m, some d) := by
  rw [results_getElem?]
  constructor
  · rintro ⟨f, hf, hd⟩
    obtain ⟨d, hd⟩ := Option.isSome_iff_exists.mp hd
    exact ⟨f.modifiedClaimSet, d, by rw [hf, Option.map_some, hd]⟩
  · rintro ⟨m, d, h⟩
    obtain ⟨f, hf, heq⟩ := Option.map_eq_some_iff.mp h
    exact ⟨f, hf, by rw [(Prod.mk.inj heq).2]; rfl⟩

/-! ### The invariant -/

/-- The first `taken` fetches have been passed on, the others are in the backlog. -/
structure Passed (ns : Bytes) (verified : Nat → Verified) (source : List α) (taken : Nat)
    (st : FilterState α) : Prop where
  sources : (results st).map (·.1) = source
  le : taken ≤ source.length
  backlog : st.claimsBacklog = List.range' taken (source.length - taken)
  emitted : st.emitted = matchingClaimSets ns verified (source.take taken)
  delivered : ∀ n m d, (results st)[n]? = some (m, some d) →
    d = filterFetched ns m (verified n)
  ended : ∀ n < taken, st.Ended n

/-- Moreover the next fetch, if there is one, has not come to its end. -/
structure Waiting (ns : Bytes) (verified : Nat → Verified) (source : List α) (taken : Nat)
    (st : FilterState α) : Prop extends Passed ns verified source taken st where
  fetching : st.fetching = true ↔ taken < source.length
  pending : ¬st.Ended taken

theorem Passed.congr {st' : FilterState α} (h : Passed ns verified source taken st)
    (hresults : results st' = results st) (hbacklog : st'.claimsBacklog = st.claimsBacklog)
    (hemitted : st'.emitted = st.emitted) : Passed ns verified source taken st' where
  sources := hresults ▸ h.sources
  le := h.le
  backlog := hbacklog.trans h.backlog
  emitted := hemitted.trans h.emitted
  delivered := hresults ▸ h.delivered
  ended n hn := (ended_iff st' n).mpr (hresults ▸ (ended_iff st n).mp (h.ended n hn))

theorem Passed.length_fetches (h : Passed ns verified source taken st) :
    st.fetches.length = source.length := by
  rw [← h.sources, List.length_map, results, List.length_map]

theorem Passed.not_ended_length (h : Passed ns verified source taken st) :
    ¬st.Ended source.length := by
  rintro ⟨f, hf, -⟩
  obtain ⟨hlt, -⟩ := List.getElem?_eq_some_iff.mp hf
  exact absurd h.length_fetches (Nat.ne_of_gt hlt)

theorem Passed.source_getElem? (h : Passed ns verified source taken st) {n : Nat} {m : α}
    {d : Option (Delivery α)} (hn : (results st)[n]? = some (m, d)) : source[n]? = some m := by
  rw [← h.sources, List.getElem?_map, hn]
  rfl

/-- The head of the backlog is the first fetch that has not been passed on. -/
theorem Passed.head (h : Passed ns verified source taken st) {n : Nat} {rest : List Nat}
    (hbacklog : st.claimsBacklog = n :: rest) : n = taken ∧ taken < source.length := by
  rw [h.backlog, List.range'_eq_cons_iff] at hbacklog
  exact ⟨hbacklog.1.symm, Nat.sub_pos_iff_lt.mp hbacklog.2.1⟩

theorem completeHead_spec (claimSet : Option α) (st : FilterState α) :
    results (st.completeHead claimSet) = results st ∧
      (st.completeHead claimSet).claimsBacklog = st.claimsBacklog.tail ∧
      (st.completeHead claimSet).emitted = st.emitted ++ claimSet.toList ∧
      (st.completeHead claimSet).fetching = false ∧
      (st.completeHead claimSet).observer = st.observer := by
  unfold FilterState.completeHead
  dsimp only
  split
  · next n _ =>
    exact ⟨results_subscribe n { st with
      emitted := st.emitted ++ claimSet.toList, claimsBacklog := st.claimsBacklog.tail },
      rfl, rfl, rfl, rfl⟩
  · exact ⟨rfl, rfl, rfl, rfl, rfl⟩

/-- Passing the head of the backlog on. -/
theorem Passed.completeHead {m : α} {claimSet : Option α}
    (h : Passed ns verified source taken st)
    (hm : (results st)[taken]? = some (m, some (.completed claimSet))) :
    Passed ns verified source (taken + 1) (st.completeHead claimSet) := by
  obtain ⟨hresults, hbacklog, hemitted, -, -⟩ := completeHead_spec claimSet st
  have hsource := h.source_getElem? hm
  obtain ⟨hlt, -⟩ := List.getElem?_eq_some_iff.mp hsource
  refine ⟨hresults ▸ h.sources, hlt, ?_, ?_, hresults ▸ h.delivered, fun n hn => ?_⟩
  · rw [hbacklog, h.backlog, List.tail_range', Nat.sub_sub]
  · rw [hemitted, h.emitted, matchingClaimSets_take_succ hsource (h.delivered _ _ _ hm).symm]
  · rw [ended_iff, hresults, ← ended_iff]
    rcases Nat.lt_succ_iff_lt_or_eq.mp hn with hlt | rfl
    · exact h.ended n hlt
    · exact (ended_iff st n).mpr ⟨m, _, hm⟩

/-- `triggerFetch` passes on what has been fetched and waits for the next fetch. -/
theorem triggerFetch_waiting (h : Passed ns verified source taken st)
    (hfetching : st.fetching = false) (hactive : st.triggerFetch.observer = .active) :
    ∃ taken', Waiting ns verified source taken' st.triggerFetch := by
  fun_induction FilterState.triggerFetch st generalizing taken with
  | case1 st hfetch =>
    rw [hfetch] at hfetching
    cases hfetching
  | case2 st _ hbacklog =>
    have hlength : taken = source.length := by
      rw [h.backlog, List.range'_eq_nil_iff, Nat.sub_eq_zero_iff_le] at hbacklog
      exact Nat.le_antisymm h.le hbacklog
    subst hlength
    refine ⟨source.length, h, ?_, h.not_ended_length⟩
    rw [hfetching]
    exact ⟨fun hf => absurd hf (by decide), fun hlt => absurd hlt (Nat.lt_irrefl _)⟩
  | case3 st _ n rest hbacklog st' =>
    rename_i hnone
    obtain ⟨rfl, hlt⟩ := h.head hbacklog
    have hst' : Passed ns verified source n st' := h.congr (results_subscribe n st) rfl rfl
    refine ⟨n, hst', ⟨fun _ => hlt, fun _ => rfl⟩, ?_⟩
    rintro ⟨f, hf, hd⟩
    rw [hf, Option.bind_some] at hnone
    rw [hnone] at hd
    cases hd
  | case4 => cases hactive
  | case5 st _ n rest hbacklog st' claimSet hsome =>
    rename_i ih
    obtain ⟨rfl, hlt⟩ := h.head hbacklog
    have hst' : Passed ns verified source n st' := h.congr (results_subscribe n st) rfl rfl
    obtain ⟨f, hf, hd⟩ := Option.bind_eq_some_iff.mp hsome
    have hm : (results st')[n]? = some (f.modifiedClaimSet, some (.completed claimSet)) := by
      rw [results_getElem?, hf, Option.map_some, hd]
    obtain ⟨-, -, -, hfetching', -⟩ := completeHead_spec claimSet st'
    exact ih (hst'.completeHead hm) hfetching' hactive

/-! ### Events -/

theorem Passed.next (h : Passed ns verified source taken st) {st' : FilterState α} {m : α}
    {subscribed : Bool} (hfetches : st'.fetches = st.fetches ++ [⟨m, subscribed, none⟩])
    (hbacklog : st'.claimsBacklog = st.claimsBacklog ++ [st.fetches.length])
    (hemitted : st'.emitted = st.emitted) : Passed ns verified (source ++ [m]) taken st' := by
  have hresults : results st' = results st ++ [(m, none)] := by
    rw [results, hfetches, List.map_append]
    rfl
  refine ⟨?_, ?_, ?_, ?_, ?_, ?_⟩
  · rw [hresults, List.map_append, h.sources]
    rfl
  · exact h.le.trans (List.length_append ▸ Nat.le_add_right _ _)
  · rw [hbacklog, h.backlog, h.length_fetches, List.length_append, List.length_singleton,
      Nat.succ_sub h.le, List.range'_concat, Nat.one_mul, Nat.add_sub_cancel' h.le]
  · rw [hemitted, h.emitted, List.take_append_of_le_length h.le]
  · intro n m' d hn
    rw [hresults, List.getElem?_append] at hn
    split at hn
    · exact h.delivered n m' d hn
    · cases List.mem_singleton.mp (List.mem_of_getElem? hn)
  · intro n hn
    obtain ⟨m', d, hget⟩ := (ended_iff st n).mp (h.ended n hn)
    refine (ended_iff st' n).mpr ⟨m', d, ?_⟩
    rw [hresults, List.getElem?_append_left (List.getElem?_eq_some_iff.mp hget).1, hget]

theorem Waiting.next (h : Waiting ns verified source taken st) (m : α)
    (hactive : (filterStep ns verified st (.next m)).observer = .active) :
    ∃ taken', Waiting ns verified (source ++ [m]) taken'
      (filterStep ns verified st (.next m)) := by
  unfold filterStep at hactive ⊢
  dsimp only at hactive ⊢
  split at hactive
  · next hst =>
    rw [if_pos hst]
    generalize hst' : ({ st with
        fetches := st.fetches ++ [⟨m, st.claimsBacklog.length < maxParallelFetch, none⟩]
        claimsBacklog := st.claimsBacklog ++ [st.fetches.length] } : FilterState α) = st'
      at hactive ⊢
    have hpassed : Passed ns verified (source ++ [m]) taken st' := by
      subst hst'
      exact h.toPassed.next rfl rfl rfl
    have hfetching' : st'.fetching = st.fetching := by
      subst hst'
      rfl
    cases hfetching : st.fetching with
    | false => exact triggerFetch_waiting hpassed (hfetching'.trans hfetching) hactive
    | true =>
      -- a fetch is on its way, and triggerFetch does nothing
      rw [hfetching] at hfetching'
      have htrigger : st'.triggerFetch = st' := by
        rw [FilterState.triggerFetch, if_pos hfetching']
      have hlt := h.fetching.mp hfetching
      rw [htrigger]
      refine ⟨taken, hpassed, ⟨fun _ => ?_, fun _ => hfetching'⟩, ?_⟩
      · exact Nat.lt_of_lt_of_le hlt (List.length_append ▸ Nat.le_add_right _ _)
      · rintro ⟨f, hf, hd⟩
        refine h.pending ⟨f, ?_, hd⟩
        subst hst'
        rw [← h.length_fetches] at hlt
        exact (List.getElem?_append_left hlt).symm.trans hf
  · next hst => exact absurd hactive hst

/-- A fetch comes to its end. -/
theorem Passed.set (h : Passed ns verified source taken st) {n : Nat} {f : SharedFetch α}
    (hf : st.fetches[n]? = some f) {st' : FilterState α} (hfetches : st'.fetches =
      st.fetches.set n { f with
        delivered := some (filterFetched ns f.modifiedClaimSet (verified n)) })
    (hbacklog : st'.claimsBacklog = st.claimsBacklog) (hemitted : st'.emitted = st.emitted) :
    Passed ns verified source taken st' := by
  have hresults : results st' = (results st).set n
      (f.modifiedClaimSet, some (filterFetched ns f.modifiedClaimSet (verified n))) := by
    rw [results, hfetches, List.map_set]
    rfl
  have hget : (results st)[n]? = some (f.modifiedClaimSet, f.delivered) := by
    rw [results_getElem?, hf]
    rfl
  refine ⟨?_, h.le, hbacklog.trans h.backlog, hemitted.trans h.emitted, ?_, ?_⟩
  · have hmap : ((results st).map (·.1))[n]? = some f.modifiedClaimSet := by
      rw [List.getElem?_map, hget]
      rfl
    obtain ⟨hlt, heq⟩ := List.getElem?_eq_some_iff.mp hmap
    rw [hresults, List.map_set, ← heq, List.set_getElem_self, h.sources]
  · intro k m d hk
    rw [hresults, List.getElem?_set] at hk
    split at hk
    · next heq =>
      subst heq
      split at hk
      · cases hk
        rfl
      · cases hk
    · exact h.delivered k m d hk
  · intro k hk
    obtain ⟨m, d, hk⟩ := (ended_iff st k).mp (h.ended k hk)
    rw [ended_iff, hresults, List.getElem?_set]
    split
    · next heq =>
      subst heq
      rw [if_pos (List.getElem?_eq_some_iff.mp hk).1]
      exact ⟨_, _, rfl⟩
    · exact ⟨m, d, hk⟩

theorem Waiting.fetched (h : Waiting ns verified source taken st) (n : Nat)
    (hactive : (filterStep ns verified st (.fetched n)).observer = .active) :
    ∃ taken', Waiting ns verified source taken' (filterStep ns verified st (.fetched n)) := by
  unfold filterStep at hactive ⊢
  dsimp only at hactive ⊢
  cases hf : st.fetches[n]? with
  | none => exact ⟨taken, h⟩
  | some f =>
    simp only [hf] at hactive ⊢
    by_cases hst : st.observer = .active ∧ f.subscribed = true ∧ f.delivered.isNone = true
    · rw [if_pos hst] at hactive ⊢
      have hpassed : Passed ns verified source taken { st with
          fetches := st.fetches.set n { f with
            delivered := some (filterFetched ns f.modifiedClaimSet (verified n)) } } :=
        h.toPassed.set hf rfl rfl rfl
      have hnlt : n < st.fetches.length := (List.getElem?_eq_some_iff.mp hf).1
      by_cases hhead : st.fetching = true ∧ st.claimsBacklog.head? = some n
      · -- the subscription of triggerFetch sees the result
        rw [if_pos hhead] at hactive ⊢
        obtain ⟨rest, hbacklog⟩ := List.head?_eq_some_iff.mp hhead.2
        obtain ⟨rfl, -⟩ := h.head hbacklog
        cases hd : filterFetched ns f.modifiedClaimSet (verified n) with
        | errored =>
          simp only [hd] at hactive
          cases hactive
        | completed claimSet =>
          simp only [hd] at hactive hpassed ⊢
          refine triggerFetch_waiting (hpassed.completeHead (m := f.modifiedClaimSet) ?_)
            (completeHead_spec claimSet _).2.2.2.1 hactive
          rw [results_getElem?, List.getElem?_set_self hnlt]
          rfl
      · rw [if_neg hhead]
        refine ⟨taken, hpassed, h.fetching, ?_⟩
        rintro ⟨f', hf', hd⟩
        by_cases hn : n = taken
        · subst hn
          have hlt : n < source.length := h.length_fetches ▸ hnlt
          have hbacklog : st.claimsBacklog.head? = some n := by
            rw [h.backlog, List.head?_range', if_neg (Nat.sub_ne_zero_of_lt hlt)]
          exact hhead ⟨h.fetching.mpr hlt, hbacklog⟩
        · exact h.pending ⟨f', (List.getElem?_set_ne hn).symm.trans hf', hd⟩
    · rw [if_neg hst]
      exact ⟨taken, h⟩

theorem filterStep_of_not_active (hst : st.observer ≠ .active) (event : FilterEvent α) :
    filterStep ns verified st event = st := by
  cases event with
  | next m => exact if_neg hst
  | fetched n =>
    unfold filterStep
    dsimp only
    split
    · rfl
    · exact if_neg fun h => hst h.1
  | complete => exact if_neg hst

theorem emittedBySource_append (events events' : List (FilterEvent α)) :
    emittedBySource (events ++ events') = emittedBySource events ++ emittedBySource events' :=
  List.filterMap_append

/-- As long as the observable is active, the filter waits for the first fetch that is not at its
end. -/
theorem runFilter_waiting {events : List (FilterEvent α)}
    (hactive : (runFilter ns verified events).observer = .active) :
    ∃ taken, Waiting ns verified (emittedBySource events) taken
      (runFilter ns verified events) := by
  induction events using List.reverseRecOn with
  | nil =>
    refine ⟨0, ⟨rfl, Nat.le_refl 0, rfl, rfl, fun n m d h => ?_, fun n h => ?_⟩, ?_, ?_⟩
    · cases h
    · cases h
    · exact ⟨fun h => absurd h Bool.false_ne_true, fun h => absurd h (Nat.lt_irrefl 0)⟩
    · rintro ⟨f, hf, -⟩
      cases hf
  | append_singleton events event ih =>
    rw [runFilter, exec_append_singleton] at hactive ⊢
    rw [emittedBySource_append]
    by_cases hst : (runFilter ns verified events).observer = .active
    · obtain ⟨taken, h⟩ := ih hst
      cases event with
      | next m => exact h.next m hactive
      | fetched n =>
        rw [show emittedBySource [FilterEvent.fetched n] = ([] : List α) from rfl, List.append_nil]
        exact h.fetched n hactive
      | complete =>
        have hcompleted : (filterStep ns verified (runFilter ns verified events)
            .complete).observer = .completed := by
          rw [filterStep, if_pos hst]
        rw [runFilter] at hcompleted
        rw [hcompleted] at hactive
        cases hactive
    · rw [runFilter] at hst
      rw [filterStep_of_not_active hst] at hactive
      exact absurd hactive hst

end ClaimSetFilterLemmas

open ClaimSetFilterLemmas

/-- Where the source completes, every matching claim set has been passed on in source order,
exactly if by then all fetches up to the last matching one have come to their end. -/
theorem filter_keeps_iff {α : Type} {ns : Bytes} {verified : Nat → Verified}
    {events : List (FilterEvent α)}
    (hactive : (runFilter ns verified events).observer = .active) :
    (runFilter ns verified (events ++ [.complete])).emitted =
        matchingClaimSets ns verified (emittedBySource events) ↔
      ∀ n < (emittedBySource events).length, inNamespace ns (verified n) = true →
        ∀ k ≤ n, (runFilter ns verified events).Ended k := by
  obtain ⟨taken, h⟩ := runFilter_waiting hactive
  have hemitted : (runFilter ns verified (events ++ [.complete])).emitted =
      matchingClaimSets ns verified ((emittedBySource events).take taken) := by
    rw [← h.emitted, runFilter, exec_append_singleton, ← runFilter, filterStep, if_pos hactive]
  rw [hemitted, matchingClaimSets_take_eq_iff h.le]
  constructor
  · intro hall n hn hmatch k hk
    refine h.ended k (Nat.lt_of_le_of_lt hk (Nat.lt_of_not_le fun hle => ?_))
    rw [hall n hle hn] at hmatch
    cases hmatch
  · intro hall n hle hn
    by_contra hmatch
    exact h.pending (hall n hn (Bool.not_eq_false _ ▸ hmatch) taken hle)

/-- Three claim sets, fetched out of order. -/
def threeFetched : List (FilterEvent Nat) :=
  [.next 10, .next 11, .next 12, .fetched 1, .fetched 0, .fetched 2]

/-- The second claim set does not match. -/
theorem filter_keeps_iff_fetched :
    (runFilter [0] (fun n => .claimSet [UInt8.ofNat (n % 2)])
      (threeFetched ++ [.complete])).emitted = [10, 12] := by
  have hrun : runFilter [0] (fun n => .claimSet [UInt8.ofNat (n % 2)]) threeFetched =
      ⟨[⟨10, true, some (.completed (some 10))⟩, ⟨11, true, some (.completed none)⟩,
        ⟨12, true, some (.completed (some 12))⟩], [], false, [10, 12], .active⟩ := by
    simp [threeFetched, runFilter, filterStep, FilterState.initial, FilterState.triggerFetch,
      FilterState.subscribe, FilterState.completeHead, filterFetched, bodyContains,
      maxParallelFetch]
  have hactive : (runFilter [0] (fun n => .claimSet [UInt8.ofNat (n % 2)])
      threeFetched).observer = .active := by
    rw [hrun]
  have hmatching : matchingClaimSets [0] (fun n => .claimSet [UInt8.ofNat (n % 2)])
      (emittedBySource threeFetched) = [10, 12] := by decide +kernel
  refine ((filter_keeps_iff hactive).mpr fun n hn _ k hk => ?_).trans hmatching
  have hlt : k < 3 := Nat.lt_of_le_of_lt hk hn
  rw [hrun]
  obtain rfl | rfl | rfl : k = 0 ∨ k = 1 ∨ k = 2 := by omega
  · exact ⟨_, rfl, rfl⟩
  · exact ⟨_, rfl, rfl⟩
  · exact ⟨_, rfl, rfl⟩

/-- The source completes before its only claim set, which matches, has been fetched. -/
theorem filter_drops_pending :
    (runFilter [1] (fun _ => .claimSet [1]) [.next (), .complete]).observer = .completed ∧
      (runFilter [1] (fun _ => .claimSet [1]) [.next (), .complete]).emitted ≠
        matchingClaimSets [1] (fun _ => .claimSet [1]) (emittedBySource [.next (), .complete]) := by
  have hrun : runFilter [1] (fun _ => .claimSet [1]) [.next (), .complete] =
      ⟨[⟨(), true, none⟩], [0], true, [], .completed⟩ := by
    simp [runFilter, filterStep, FilterState.initial, FilterState.triggerFetch,
      FilterState.subscribe, maxParallelFetch]
  rw [hrun]
  exact ⟨rfl, by decide⟩

end Everarch
