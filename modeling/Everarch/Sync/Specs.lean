import Everarch.AttrIndex.Table
import Everarch.Claims
import Everarch.Lib.Run

/-!
# The newest attr-spec

`evr_watch_index_claims_worker` of evr-attr-index.c. The worker keeps the newest attr-spec
of a batch and hands it over at the end of the batch.

* `SpecWatch.step`: one round of its loop.
* `newest_spec_handed_over_iff`: when the spec that was handed over is the newest.
-/

namespace Everarch

/-! ## Attr-spec claims -/

/-- `struct evr_attr_spec_claim`. -/
structure AttrSpecClaim where
  attrDef : List AttrDef
  transformationBlobRef : BlobRef
  attrFactories : List BlobRef
deriving DecidableEq

/-- The elements that `evr_find_next_element` finds one after another. -/
def childElements (n : XmlNode) (name : String) : List XmlNode :=
  n.children.filter fun c => isEvrElement c name claimsNs

/-- A reference in an attribute. -/
def getBlobRefProp (n : XmlNode) (name : String) : Option BlobRef :=
  match n.getProp name with
  | none => none
  | some s =>
    match parseBlobRef (Vector.replicate _ 0) s.toList with
    | (.ok, ref) => some ref
    | _ => none

def parseAttrDef (n : XmlNode) : Option AttrDef := do
  let key ← n.getProp "k"
  match ← n.getProp "type" with
  | "str" => some ⟨key, .str⟩
  | "int" => some ⟨key, .int⟩
  | "claim-ref" => some ⟨key, .claimRef⟩
  | _ => none

def parseAttrFactory (n : XmlNode) : Option BlobRef :=
  if n.getProp "type" = some "executable" then getBlobRefProp n "blob" else none

/-- `evr_parse_attr_spec_claim`. -/
def parseAttrSpecClaim (claim : XmlNode) : Option AttrSpecClaim := do
  let attrDef ← (childElements claim "attr-def").mapM parseAttrDef
  let transformation ← (childElements claim "transformation").head?
  if transformation.getProp "type" ≠ some "xslt" then none
  let ref ← getBlobRefProp transformation "blob"
  let attrFactories ← (childElements claim "attr-factory").mapM parseAttrFactory
  some ⟨attrDef, ref, attrFactories⟩

/-! ## The worker -/

/-- `struct evr_watch_blobs_body`. -/
structure WatchBody where
  key : BlobRef
  lastModified : UInt64
  flags : UInt8
deriving DecidableEq

/-- `evr_watch_flag_eob` is set. -/
def WatchBody.eob (b : WatchBody) : Bool :=
  b.flags &&& 0x01 ≠ 0

/-- `claim`, `claim_key` and `created` of `struct evr_attr_spec_handover_ctx`. The time is
an `evr_time`. -/
structure Spec where
  key : BlobRef
  created : Nat
  claim : AttrSpecClaim
deriving DecidableEq

/-- `latest_spec` with its key and time, what was handed over last, and the result of the
worker if it has ended. -/
structure SpecWatch where
  latestSpec : Option Spec
  handed : Option Spec
  ended : Option Res

/-- What happens in a round of the loop. A body comes with the result of
`evr_fetch_signed_xml` for it and that of `evr_wait_for_handover_available`. -/
inductive SpecWatchEvent where
  | stop
  | waitFailed
  | noData
  | readFailed
  | body (b : WatchBody) (fetched : Except Res XmlDoc) (handover : Res)

/-- An `evr_time`. -/
def evrTime (t : Int) : Nat :=
  (t % 2 ^ 64).toNat

/-- The attr-spec claim of a claim set. -/
def attrSpecNode (cs : XmlNode) : Option XmlNode :=
  (childElements cs "attr-spec").head?

namespace SpecWatch

def start : SpecWatch := ⟨none, none, none⟩

def stop (w : SpecWatch) (res : Res) : SpecWatch :=
  { w with ended := some res }

/-- A spec is looked at if there is no other or if it is newer. -/
def considers (w : SpecWatch) (created : Nat) : Bool :=
  w.latestSpec.all fun latest => latest.created < created

/-- The claim set is looked at. None if its attr-spec can't be parsed. -/
def take (w : SpecWatch) (key : BlobRef) (created : Nat) (cs : XmlNode) : Option SpecWatch :=
  if w.considers created then
    match attrSpecNode cs with
    | none => some w
    | some n =>
      match parseAttrSpecClaim n with
      | none => none
      | some claim => some { w with latestSpec := some ⟨key, created, claim⟩ }
  else some w

/-- The end of a batch. -/
def handOver (w : SpecWatch) (handover : Res) : SpecWatch :=
  match w.latestSpec with
  | none => w
  | some spec =>
    match handover with
    | .ok => { w with latestSpec := none, handed := some spec }
    | .end_ => w.stop .ok
    | _ => w.stop .error

/-- One round of the loop of `evr_watch_index_claims_worker`. -/
def step (timegm : List Char → Option Int) (w : SpecWatch) (e : SpecWatchEvent) : SpecWatch :=
  if w.ended.isSome then w
  else
    match e with
    | .stop => w.stop .ok
    | .waitFailed | .readFailed => w.stop .error
    | .noData => w
    -- the end of the batch is not looked at
    | .body _ (.error .userDataInvalid) _ => w
    | .body _ (.error _) _ => w.stop .error
    | .body b (.ok doc) handover =>
      match getRootClaimSet doc with
      | none => w.stop .error
      | some cs =>
        match parseCreated timegm cs with
        | none => w.stop .error
        | some created =>
          match w.take b.key (evrTime created) cs with
          | none => w.stop .error
          | some w => if b.eob then w.handOver handover else w

end SpecWatch

/-! ## The newest spec -/

/-- The content of a body is not signed validly, or it is a valid claim set. -/
inductive BodyContent (timegm : List Char → Option Int) : Except Res XmlDoc → Prop
  | invalid : BodyContent timegm (.error .userDataInvalid)
  | claimSet {doc : XmlDoc} {cs : XmlNode} {created : Int} (hroot : getRootClaimSet doc = some cs)
      (hcreated : parseCreated timegm cs = some created)
      (hspec : ∀ n, attrSpecNode cs = some n → (parseAttrSpecClaim n).isSome) :
      BodyContent timegm (.ok doc)

/-- A body arrives, and the consumer takes what is handed over. -/
def SpecWatchEvent.Received (timegm : List Char → Option Int) : SpecWatchEvent → Prop
  | .body _ fetched handover => BodyContent timegm fetched ∧ handover = .ok
  | .noData => True
  | _ => False

/-- A body with the end-of-batch flag. -/
def SpecWatchEvent.eob : SpecWatchEvent → Bool
  | .body b _ _ => b.eob
  | _ => false

/-- The attr-spec of a document. -/
def specOf (timegm : List Char → Option Int) (key : BlobRef) (doc : XmlDoc) : Option Spec := do
  let cs ← getRootClaimSet doc
  let created ← parseCreated timegm cs
  let n ← attrSpecNode cs
  let claim ← parseAttrSpecClaim n
  some ⟨key, evrTime created, claim⟩

/-- The valid attr-spec of a body. -/
def SpecWatchEvent.spec (timegm : List Char → Option Int) : SpecWatchEvent → Option Spec
  | .body b (.ok doc) _ => specOf timegm b.key doc
  | _ => none

/-- The valid attr-specs of the bodies. -/
def receivedSpecs (timegm : List Char → Option Int) (events : List SpecWatchEvent) : List Spec :=
  events.filterMap (·.spec timegm)

/-- The spec is one of the newest, or there is none. -/
def Newest (specs : List Spec) : Option Spec → Prop
  | none => specs = []
  | some spec => spec ∈ specs ∧ ∀ spec' ∈ specs, spec'.created ≤ spec.created

instance (specs : List Spec) : (spec : Option Spec) → Decidable (Newest specs spec)
  | none => inferInstanceAs (Decidable (specs = []))
  | some spec => inferInstanceAs
      (Decidable (spec ∈ specs ∧ ∀ spec' ∈ specs, spec'.created ≤ spec.created))

/-- The spec that is kept and the one of the next body. -/
def batchSpecs (timegm : List Char → Option Int) (w : SpecWatch) (e : SpecWatchEvent) : List Spec :=
  w.latestSpec.toList ++ (e.spec timegm).toList

/-- At the end of a batch with specs, one of these is not older than what was handed over
before. A batch whose last body is invalid has no spec that is newer than that. -/
def BatchInOrder (timegm : List Char → Option Int) (w : SpecWatch) (e : SpecWatchEvent) : Prop :=
  match e with
  | .body b (.ok _) _ => b.eob = true → batchSpecs timegm w e ≠ [] →
      ∀ handed ∈ w.handed, ∃ spec ∈ batchSpecs timegm w e, handed.created ≤ spec.created
  | .body b (.error _) _ => b.eob = true →
      ∀ spec ∈ w.latestSpec, ∃ handed ∈ w.handed, spec.created ≤ handed.created
  | _ => True

instance (timegm : List Char → Option Int) (w : SpecWatch) :
    (e : SpecWatchEvent) → Decidable (BatchInOrder timegm w e)
  | .body b (.ok doc) handover => inferInstanceAs (Decidable (b.eob = true →
      batchSpecs timegm w (.body b (.ok doc) handover) ≠ [] → ∀ handed ∈ w.handed,
        ∃ spec ∈ batchSpecs timegm w (.body b (.ok doc) handover), handed.created ≤ spec.created))
  | .body b (.error _) _ => inferInstanceAs (Decidable (b.eob = true →
      ∀ spec ∈ w.latestSpec, ∃ handed ∈ w.handed, spec.created ≤ handed.created))
  | .stop | .waitFailed | .noData | .readFailed => isTrue trivial

namespace SpecsLemmas

variable {timegm : List Char → Option Int} {w : SpecWatch} {specs : List Spec}

/-- No spec is newer than what was handed over and what is kept. -/
structure Covered (specs : List Spec) (w : SpecWatch) : Prop where
  running : w.ended = none
  handed : ∀ spec ∈ w.handed, spec ∈ specs
  latest : ∀ spec ∈ w.latestSpec, spec ∈ specs
  newest : ∀ spec ∈ specs, ∃ spec', (spec' ∈ w.handed ∨ spec' ∈ w.latestSpec) ∧
    spec.created ≤ spec'.created

/-- Which spec is kept when a claim set was looked at. -/
theorem latestSpec_take (w : SpecWatch) (key : BlobRef) {doc : XmlDoc} {cs : XmlNode}
    {created : Int} (hroot : getRootClaimSet doc = some cs) (hcreated : parseCreated timegm cs = some created)
    (hspec : ∀ n, attrSpecNode cs = some n → (parseAttrSpecClaim n).isSome) :
    ∃ latest, w.take key (evrTime created) cs = some { w with latestSpec := latest } ∧
      (∀ spec ∈ latest, spec ∈ w.latestSpec ∨ spec ∈ specOf timegm key doc) ∧
      ∀ spec, spec ∈ w.latestSpec ∨ spec ∈ specOf timegm key doc →
        ∃ spec' ∈ latest, spec.created ≤ spec'.created := by
  have hof : specOf timegm key doc = (attrSpecNode cs).bind fun n =>
      (parseAttrSpecClaim n).map fun claim => ⟨key, evrTime created, claim⟩ := by
    simp only [specOf, hroot, hcreated, Option.bind_eq_bind, Option.bind_some]
    cases attrSpecNode cs with
    | none => rfl
    | some n =>
      cases hparse : parseAttrSpecClaim n with
      | none => simp only [Option.bind_some, hparse, Option.bind_none, Option.map_none]
      | some claim => simp only [Option.bind_some, hparse, Option.map_some]
  unfold SpecWatch.take
  split
  · next hconsiders =>
    have hnewer {latest : Spec} (hlatest : latest ∈ w.latestSpec) :
        latest.created < evrTime created := by
      rw [SpecWatch.considers, Option.mem_def.mp hlatest] at hconsiders
      exact of_decide_eq_true hconsiders
    cases hnode : attrSpecNode cs with
    | none =>
      rw [hnode] at hof
      refine ⟨w.latestSpec, rfl, fun _ => .inl, ?_⟩
      rintro spec (hold | hnew)
      · exact ⟨spec, hold, Nat.le_refl _⟩
      · rw [hof] at hnew
        cases hnew
    | some n =>
      obtain ⟨claim, hparse⟩ := Option.isSome_iff_exists.mp (hspec n hnode)
      have hnew : specOf timegm key doc = some ⟨key, evrTime created, claim⟩ := by
        rw [hof, hnode, Option.bind_some, hparse, Option.map_some]
      simp only [hparse, hnew]
      refine ⟨_, rfl, fun _ => .inr, ?_⟩
      rintro spec (hold | hmem)
      · exact ⟨_, rfl, Nat.le_of_lt (hnewer hold)⟩
      · exact ⟨spec, hmem, Nat.le_refl _⟩
  · next hconsiders =>
    -- the kept spec is not older, so it stays
    refine ⟨w.latestSpec, rfl, fun _ => .inl, ?_⟩
    rintro spec (hold | hnew)
    · exact ⟨spec, hold, Nat.le_refl _⟩
    · have hcreated' : spec.created = evrTime created := by
        rw [hof] at hnew
        obtain ⟨n, -, claim, -, rfl⟩ := by
          simpa only [Option.mem_def, Option.bind_eq_some_iff, Option.map_eq_some_iff] using hnew
        rfl
      cases hlatest : w.latestSpec with
      | none =>
        rw [SpecWatch.considers, hlatest] at hconsiders
        exact absurd rfl hconsiders
      | some latest =>
        rw [SpecWatch.considers, hlatest, Option.all_some, decide_eq_true_iff] at hconsiders
        exact ⟨latest, rfl, hcreated' ▸ Nat.not_lt.mp hconsiders⟩

theorem mem_batchSpecs {e : SpecWatchEvent} {spec : Spec} :
    spec ∈ batchSpecs timegm w e ↔ spec ∈ w.latestSpec ∨ spec ∈ e.spec timegm := by
  rw [batchSpecs, List.mem_append, Option.mem_toList, Option.mem_toList, Option.mem_def,
    Option.mem_def]

theorem covered_take {latest : Option Spec} {spec : Option Spec} (h : Covered specs w)
    (hlatest : ∀ s ∈ latest, s ∈ w.latestSpec ∨ s ∈ spec)
    (hnewest : ∀ s, s ∈ w.latestSpec ∨ s ∈ spec → ∃ s' ∈ latest, s.created ≤ s'.created) :
    Covered (specs ++ spec.toList) { w with latestSpec := latest } where
  running := h.running
  handed s hs := List.mem_append_left _ (h.handed s hs)
  latest s hs := by
    rcases hlatest s hs with hold | hnew
    · exact List.mem_append_left _ (h.latest s hold)
    · exact List.mem_append_right _ (Option.mem_toList.mpr hnew)
  newest s hs := by
    have hkept (s' : Spec) (hs' : s' ∈ w.latestSpec ∨ s' ∈ spec) :
        ∃ s'', (s'' ∈ w.handed ∨ s'' ∈ latest) ∧ s'.created ≤ s''.created := by
      obtain ⟨s'', hmem, hle⟩ := hnewest s' hs'
      exact ⟨s'', .inr hmem, hle⟩
    rcases List.mem_append.mp hs with hold | hnew
    · obtain ⟨s', hhanded | hlast, hle⟩ := h.newest s hold
      · exact ⟨s', .inl hhanded, hle⟩
      · obtain ⟨s'', hmem, hle'⟩ := hkept s' (.inl hlast)
        exact ⟨s'', hmem, hle.trans hle'⟩
    · exact hkept s (.inr (Option.mem_toList.mp hnew))

/-- Without a spec that is kept, what was handed over is the newest. -/
theorem newest_handed (h : Covered specs w) (hall : ∀ spec ∈ w.latestSpec,
    ∃ handed ∈ w.handed, spec.created ≤ handed.created) : Newest specs w.handed := by
  have hle {spec : Spec} (hspec : spec ∈ specs) :
      ∃ handed ∈ w.handed, spec.created ≤ handed.created := by
    obtain ⟨spec', hhanded | hlatest, hle⟩ := h.newest spec hspec
    · exact ⟨spec', hhanded, hle⟩
    · obtain ⟨handed, hmem, hle'⟩ := hall spec' hlatest
      exact ⟨handed, hmem, hle.trans hle'⟩
  cases hhanded : w.handed with
  | none =>
    refine List.eq_nil_iff_forall_not_mem.mpr fun spec hspec => ?_
    obtain ⟨handed, hmem, -⟩ := hle hspec
    rw [hhanded] at hmem
    cases hmem
  | some handed =>
    refine ⟨h.handed handed hhanded, fun spec hspec => ?_⟩
    obtain ⟨handed', hmem, hle'⟩ := hle hspec
    rw [hhanded] at hmem
    cases hmem
    exact hle'

/-- The spec that is kept is handed over. -/
theorem newest_latest {latest : Spec} (h : Covered specs w) (hlatest : w.latestSpec = some latest) :
    Newest specs (some latest) ↔ ∀ handed ∈ w.handed, handed.created ≤ latest.created := by
  refine ⟨fun hnewest handed hhanded => hnewest.2 handed (h.handed handed hhanded),
    fun hle => ⟨h.latest latest hlatest, fun spec hspec => ?_⟩⟩
  obtain ⟨spec', hhanded | hlast, hle'⟩ := h.newest spec hspec
  · exact hle'.trans (hle spec' hhanded)
  · rw [hlatest] at hlast
    cases hlast
    exact hle'

theorem covered_handed {latest : Spec} (h : w.ended = none) (hnewest : Newest specs (some latest)) :
    Covered specs { w with latestSpec := none, handed := some latest } where
  running := h
  handed spec hspec := by
    cases hspec
    exact hnewest.1
  latest _ hspec := nomatch hspec
  newest spec hspec := ⟨latest, .inl rfl, hnewest.2 spec hspec⟩

/-- One round of the loop. -/
theorem covered_step (h : Covered specs w) {e : SpecWatchEvent} (he : e.Received timegm) :
    (BatchInOrder timegm w e → Covered (specs ++ (e.spec timegm).toList) (w.step timegm e)) ∧
      (e.eob = true → (Newest (specs ++ (e.spec timegm).toList) (w.step timegm e).handed ↔
        BatchInOrder timegm w e)) := by
  have hrunning : w.ended.isSome = false := by
    rw [h.running]
    rfl
  cases e with
  | noData =>
    simp only [SpecWatchEvent.spec, Option.toList_none, List.append_nil, SpecWatch.step, hrunning]
    exact ⟨fun _ => h, fun heob => nomatch heob⟩
  | body b fetched handover =>
    obtain ⟨hcontent, rfl⟩ := he
    cases hcontent with
    | invalid =>
      simp only [SpecWatchEvent.spec, Option.toList_none, List.append_nil, SpecWatch.step, hrunning,
        Bool.false_eq_true, if_false]
      refine ⟨fun _ => h, fun heob => ⟨fun hnewest _ spec hspec => ?_, fun horder => ?_⟩⟩
      · have hmem := h.latest spec hspec
        cases hhanded : w.handed with
        | none =>
          rw [hhanded] at hnewest
          exact absurd (hnewest ▸ hmem) List.not_mem_nil
        | some handed =>
          rw [hhanded] at hnewest
          exact ⟨handed, rfl, hnewest.2 spec hmem⟩
      · exact newest_handed h (horder heob)
    | @claimSet doc cs created hroot hcreated hspec =>
      obtain ⟨latest, htake, hlatest, hnewest⟩ := latestSpec_take w b.key hroot hcreated hspec
      have hcovered := covered_take h hlatest hnewest
      have hstep : w.step timegm (.body b (.ok doc) .ok) =
          if b.eob then ({ w with latestSpec := latest } : SpecWatch).handOver .ok
          else { w with latestSpec := latest } := by
        simp only [SpecWatch.step, hrunning, hroot, hcreated, htake]
        rfl
      rw [hstep]
      by_cases heob : b.eob = true
      · rw [if_pos heob]
        cases latest with
        | none =>
          -- neither the batch nor this body has a spec
          refine ⟨fun _ => hcovered, fun _ => ⟨fun _ _ hsome => ?_, fun _ => ?_⟩⟩
          · obtain ⟨spec, hspec⟩ := List.exists_mem_of_ne_nil _ hsome
            obtain ⟨_, hnone, -⟩ := hnewest spec (mem_batchSpecs.mp hspec)
            cases hnone
          · exact newest_handed hcovered fun _ hnone => nomatch hnone
        | some latest =>
          have hiff : BatchInOrder timegm w (.body b (.ok doc) .ok) ↔
              Newest (specs ++ (specOf timegm b.key doc).toList) (some latest) := by
            rw [newest_latest hcovered rfl]
            have hmem : latest ∈ batchSpecs timegm w (.body b (.ok doc) .ok) :=
              mem_batchSpecs.mpr (hlatest latest rfl)
            refine ⟨fun horder handed hhanded => ?_, fun hle _ _ handed hhanded => ?_⟩
            · obtain ⟨spec', hspec', hle⟩ :=
                horder heob (List.ne_nil_of_mem hmem) handed hhanded
              obtain ⟨_, ⟨⟩, hle'⟩ := hnewest spec' (mem_batchSpecs.mp hspec')
              exact hle.trans hle'
            · exact ⟨latest, hmem, hle handed hhanded⟩
          exact ⟨fun horder => covered_handed h.running (hiff.mp horder), fun _ => hiff.symm⟩
      · rw [if_neg heob]
        exact ⟨fun _ => hcovered, fun heob' => absurd heob' heob⟩
  | _ => exact he.elim

theorem batchInOrder_of_not_eob {e : SpecWatchEvent} (h : ¬ e.eob = true) :
    BatchInOrder timegm w e := by
  cases e with
  | body b fetched handover =>
    cases fetched with
    | ok doc => exact fun heob => absurd heob h
    | error res => exact fun heob => absurd heob h
  | _ => trivial

theorem receivedSpecs_append_singleton (events : List SpecWatchEvent) (e : SpecWatchEvent) :
    receivedSpecs timegm (events ++ [e]) =
      receivedSpecs timegm events ++ (e.spec timegm).toList := by
  unfold receivedSpecs
  rw [List.filterMap_append]
  cases hspec : e.spec timegm with
  | none => simp only [List.filterMap_cons, hspec, List.filterMap_nil, Option.toList_none]
  | some spec => simp only [List.filterMap_cons, hspec, List.filterMap_nil, Option.toList_some]

theorem covered_start : Covered [] SpecWatch.start where
  running := rfl
  handed _ h := nomatch h
  latest _ h := nomatch h
  newest _ h := absurd h List.not_mem_nil

/-- A run whose batches are in order. -/
theorem covered_run {events : List SpecWatchEvent} (hreceived : ∀ e ∈ events, e.Received timegm)
    (h : Along (SpecWatch.step timegm) (BatchInOrder timegm) .start events) :
    Covered (receivedSpecs timegm events) (exec (SpecWatch.step timegm) .start events) := by
  refine h.invariant_inputs (fun before w => Covered (receivedSpecs timegm before) w) covered_start
    fun before e w hpre hcovered horder => ?_
  rw [receivedSpecs_append_singleton]
  exact (covered_step hcovered (hreceived e (hpre.subset
    (List.mem_append_right _ (List.mem_singleton.mpr rfl))))).1 horder

end SpecsLemmas

open SpecsLemmas

/-- After every body with the end-of-batch flag, the spec that was handed over last is the
newest one received (none if there is none), if and only if the batches are in order. -/
theorem newest_spec_handed_over_iff (timegm : List Char → Option Int)
    (events : List SpecWatchEvent) (hreceived : ∀ e ∈ events, e.Received timegm) :
    (∀ before e, before ++ [e] <+: events → e.eob = true →
      Newest (receivedSpecs timegm (before ++ [e]))
        (exec (SpecWatch.step timegm) .start (before ++ [e])).handed) ↔
      Along (SpecWatch.step timegm) (BatchInOrder timegm) .start events := by
  constructor
  · intro h
    induction events using List.reverseRecOn with
    | nil => trivial
    | append_singleton events e ih =>
      have hpre : events <+: events ++ [e] := List.prefix_append _ _
      have hbefore := ih (fun e' he' => hreceived e' (hpre.subset he'))
        fun before e' hpre' => h before e' (hpre'.trans hpre)
      refine along_append_singleton.mpr ⟨hbefore, ?_⟩
      by_cases heob : e.eob = true
      · have hcovered := covered_run (fun e' he' => hreceived e' (hpre.subset he')) hbefore
        have hstep := covered_step hcovered
          (hreceived e (List.mem_append_right _ (List.mem_singleton.mpr rfl)))
        have hnewest := h events e (List.prefix_refl _) heob
        rw [receivedSpecs_append_singleton, exec_append_singleton] at hnewest
        exact (hstep.2 heob).mp hnewest
      · exact batchInOrder_of_not_eob heob
  · intro h before e hpre heob
    have hmem (e' : SpecWatchEvent) (he' : e' ∈ before ++ [e]) : e'.Received timegm :=
      hreceived e' (hpre.subset he')
    obtain ⟨after, rfl⟩ := hpre
    have hbefore := along_append_singleton.mp (along_append.mp h).1
    have hcovered := covered_run (fun e' he' => hmem e' (List.mem_append_left _ he')) hbefore.1
    have hstep := covered_step hcovered
      (hmem e (List.mem_append_right _ (List.mem_singleton.mpr rfl)))
    rw [receivedSpecs_append_singleton, exec_append_singleton]
    exact (hstep.2 heob).mpr hbefore.2

/-! ## Specs out of order -/

/-- An attr-spec without attr-defs and attr-factories. -/
def specNode : XmlNode :=
  .element "attr-spec" (some claimsNs) []
    [.element "transformation" (some claimsNs) [⟨none, "type", "xslt"⟩,
      ⟨none, "blob", "sha3-224-00000000000000000000000000000000000000000000000000000000"⟩] []]

/-- A claim set with an attr-spec. -/
def specClaimSet (created : String) : XmlNode :=
  .element "claim-set" (some claimsNs) [⟨some dcNs, "created", created⟩] [specNode]

/-- The starts of two years. -/
def sampleTimegm (s : List Char) : Option Int :=
  if s = "2023-01-01T00:00:00Z".toList then some 1672531200
  else if s = "2024-01-01T00:00:00Z".toList then some 1704067200
  else none

/-- A body that is the last of its batch. -/
def lastSpec (n : UInt8) (created : String) : SpecWatchEvent :=
  .body ⟨Vector.replicate _ n, 0, 0x01⟩ (.ok ⟨some (specClaimSet created)⟩) .ok

def spec2023 : SpecWatchEvent := lastSpec 1 "2023-01-01T00:00:00.000000Z"
def spec2024 : SpecWatchEvent := lastSpec 2 "2024-01-01T00:00:00.000000Z"

/-- What `specNode` says. -/
def specClaim : AttrSpecClaim :=
  ⟨[], Vector.replicate _ 0, []⟩

namespace SpecsLemmas

section LastSpec

variable {created : String} {t : Int}

theorem rootClaimSet_specClaimSet (created : String) :
    getRootClaimSet ⟨some (specClaimSet created)⟩ = some (specClaimSet created) := by
  simp [getRootClaimSet, specClaimSet, isEvrElement]

theorem parseCreated_specClaimSet
    (h : timeFromIso8601 sampleTimegm created.toList = some t) :
    parseCreated sampleTimegm (specClaimSet created) = some t := by
  simpa [parseCreated, specClaimSet, XmlNode.getNsProp, XmlNode.attrs] using h

theorem attrSpecNode_specClaimSet (created : String) :
    attrSpecNode (specClaimSet created) = some specNode := by
  simp [attrSpecNode, childElements, specClaimSet, XmlNode.children, specNode, isEvrElement]

theorem parseAttrSpecClaim_specNode : parseAttrSpecClaim specNode = some specClaim := by
  decide +kernel

theorem received_lastSpec (n : UInt8)
    (h : timeFromIso8601 sampleTimegm created.toList = some t) :
    (lastSpec n created).Received sampleTimegm := by
  refine ⟨.claimSet (rootClaimSet_specClaimSet created) (parseCreated_specClaimSet h)
    fun node hnode => ?_, rfl⟩
  rw [attrSpecNode_specClaimSet] at hnode
  cases hnode
  rw [parseAttrSpecClaim_specNode]
  rfl

/-- The spec of the body. -/
theorem spec_lastSpec (n : UInt8) (h : timeFromIso8601 sampleTimegm created.toList = some t) :
    (lastSpec n created).spec sampleTimegm = some ⟨Vector.replicate _ n, evrTime t, specClaim⟩ := by
  unfold lastSpec SpecWatchEvent.spec specOf
  simp only [rootClaimSet_specClaimSet, parseCreated_specClaimSet h, attrSpecNode_specClaimSet,
    parseAttrSpecClaim_specNode, Option.bind_eq_bind, Option.bind_some]

/-- A worker that keeps no spec hands it over. -/
theorem step_lastSpec {w : SpecWatch} (hended : w.ended = none) (hempty : w.latestSpec = none)
    (n : UInt8) (h : timeFromIso8601 sampleTimegm created.toList = some t) :
    w.step sampleTimegm (lastSpec n created) =
      ⟨none, some ⟨Vector.replicate _ n, evrTime t, specClaim⟩, none⟩ := by
  have hconsiders : w.considers (evrTime t) = true := by
    rw [SpecWatch.considers, hempty]
    rfl
  have heob : (⟨Vector.replicate _ n, 0, 0x01⟩ : WatchBody).eob = true := by
    show decide ((0x01 : UInt8) &&& 0x01 ≠ 0) = true
    decide
  unfold SpecWatch.step lastSpec
  simp only [hended, Option.isSome_none, Bool.false_eq_true, if_false, rootClaimSet_specClaimSet,
    parseCreated_specClaimSet h, SpecWatch.take, hconsiders, if_true, attrSpecNode_specClaimSet,
    parseAttrSpecClaim_specNode, heob]
  rfl

end LastSpec

/-- The texts as lists, because they would be decoded at each look at them. -/
theorem sampleTimegm_eq (s : List Char) :
    sampleTimegm s =
      if s = ['2', '0', '2', '3', '-', '0', '1', '-', '0', '1', 'T', '0', '0', ':', '0', '0',
        ':', '0', '0', 'Z'] then
        some 1672531200
      else if s = ['2', '0', '2', '4', '-', '0', '1', '-', '0', '1', 'T', '0', '0', ':', '0',
        '0', ':', '0', '0', 'Z'] then
        some 1704067200
      else none := by
  rw [sampleTimegm, show "2023-01-01T00:00:00Z".toList = _ from String.toList_ofList,
    show "2024-01-01T00:00:00Z".toList = _ from String.toList_ofList]

theorem time_2023 :
    timeFromIso8601 sampleTimegm "2023-01-01T00:00:00.000000Z".toList = some 1672531200000 := by
  have htext : "2023-01-01T00:00:00.000000Z".toList =
      ['2', '0', '2', '3', '-', '0', '1', '-', '0', '1', 'T', '0', '0', ':', '0', '0', ':', '0',
      '0', '.', '0', '0', '0', '0', '0', '0', 'Z'] :=
    String.toList_ofList
  rw [funext sampleTimegm_eq, htext]
  decide +kernel

theorem time_2024 :
    timeFromIso8601 sampleTimegm "2024-01-01T00:00:00.000000Z".toList = some 1704067200000 := by
  have htext : "2024-01-01T00:00:00.000000Z".toList =
      ['2', '0', '2', '4', '-', '0', '1', '-', '0', '1', 'T', '0', '0', ':', '0', '0', ':', '0',
      '0', '.', '0', '0', '0', '0', '0', '0', 'Z'] :=
    String.toList_ofList
  rw [funext sampleTimegm_eq, htext]
  decide +kernel

theorem received_years {e : SpecWatchEvent} (h : e ∈ [spec2023, spec2024]) :
    e.Received sampleTimegm := by
  rcases List.mem_pair.mp h with rfl | rfl
  · exact received_lastSpec 1 time_2023
  · exact received_lastSpec 2 time_2024

end SpecsLemmas

open SpecsLemmas in
/-- The specs come in the order of their times. -/
theorem newest_spec_handed_over_iff_years :
    Newest (receivedSpecs sampleTimegm [spec2023, spec2024])
      (exec (SpecWatch.step sampleTimegm) .start [spec2023, spec2024]).handed := by
  have horder : Along (SpecWatch.step sampleTimegm) (BatchInOrder sampleTimegm) .start
      [spec2023, spec2024] := by
    refine ⟨fun _ _ handed hhanded => absurd hhanded (by simp [SpecWatch.start]), ?_, trivial⟩
    rw [spec2023, step_lastSpec rfl rfl 1 time_2023]
    rintro - - _ ⟨⟩
    refine ⟨_, List.mem_append_right _ (Option.mem_toList.mpr (spec_lastSpec 2 time_2024)), ?_⟩
    decide
  have heob : spec2024.eob = true := rfl
  have hreceived : ∀ e ∈ [spec2023, spec2024], e.Received sampleTimegm := fun _ => received_years
  -- as variables the events are not run at each look at the goal
  generalize spec2023 = e, spec2024 = e' at horder heob hreceived ⊢
  exact (newest_spec_handed_over_iff sampleTimegm [e, e'] hreceived).mpr horder [e] e'
    (List.prefix_refl _) heob

open SpecsLemmas in
/-- The spec of 2024 is listed, and that of 2023 comes while the worker watches. -/
theorem older_spec_handed_over :
    (∀ e ∈ [spec2024, spec2023], e.Received sampleTimegm) ∧
    ¬ ∀ before e, before ++ [e] <+: [spec2024, spec2023] → e.eob = true →
      Newest (receivedSpecs sampleTimegm (before ++ [e]))
        (exec (SpecWatch.step sampleTimegm) .start (before ++ [e])).handed := by
  refine ⟨fun e he => received_years ((List.Perm.swap _ _ _).mem_iff.mp he), fun h => ?_⟩
  have heob : spec2023.eob = true := rfl
  generalize he : spec2024 = e, he' : spec2023 = e' at h heob
  have hnewest := h [e] e' (List.prefix_refl _) heob
  rw [List.singleton_append, exec_cons, exec_cons, exec_nil, ← he, ← he', spec2024, spec2023,
    step_lastSpec rfl rfl 2 time_2024, step_lastSpec rfl rfl 1 time_2023] at hnewest
  have hlisted : (⟨Vector.replicate _ 2, evrTime 1704067200000, specClaim⟩ : Spec) ∈
      receivedSpecs sampleTimegm
        [lastSpec 2 "2024-01-01T00:00:00.000000Z", lastSpec 1 "2023-01-01T00:00:00.000000Z"] :=
    List.mem_filterMap.mpr ⟨_, List.mem_cons_self, spec_lastSpec 2 time_2024⟩
  exact absurd (hnewest.2 _ hlisted) (by decide)

/-- Nothing is handed over when an invalid body ends the batch. -/
example : ((⟨some ⟨Vector.replicate _ 2, 1, specClaim⟩, none, none⟩ : SpecWatch).step sampleTimegm
    (.body ⟨Vector.replicate _ 3, 0, 0x01⟩ (.error .userDataInvalid) .ok)).handed = none :=
  rfl

end Everarch
