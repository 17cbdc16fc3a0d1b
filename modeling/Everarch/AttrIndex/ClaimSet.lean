import Everarch.AttrIndex.Merge

/-!
# Merging claim sets

`evr_merge_attr_index_claim_set` of attr-index-db.c and what it calls. There is no
transaction around it: the row in `claim_set` is inserted first, and every exit
after that leaves it behind.

* `mergeAttrClaims_ok_iff`, `mergeArchiveClaims_ok_iff`: when the two loops over the
  claims succeed.
* `indexClaimSet_ok_iff`: when what follows the insert succeeds (`NoLateExit`).
* `indexClaimSet_claimSet_length`: it never takes the row back.

Result: `claim_set_all_or_nothing_iff`; `claim_set_left_behind`: a claim set that is
refused and indexed all the same.
-/

namespace Everarch

/-! ## The functions -/

/-- What the merge of a claim set depends on outside of the database: the time
functions of libc, the results of the attr factories, the XSLT stylesheet, the order
of tied rows and the current time. -/
structure ClaimSetEnv where
  timegm : List Char → Option Int
  factories : XmlDoc → List (Option XmlDoc)
  transform : XmlDoc → Option XmlDoc
  ord : RowOrder
  now : Int

/-- `insert_claim_set`, none on a constraint violation. -/
def insertClaimSet (db : AttrIndexDb) (ref : BlobRef) (created : Int) : Option AttrIndexDb :=
  if db.claimSet.any fun r => r.ref = ref then none
  else some { db with claimSet := db.claimSet ++ [⟨ref, created, 0, none⟩] }

/-- `update_claim_set_failed`. -/
def updateClaimSetFailed (db : AttrIndexDb) (ref : BlobRef) (t : Int) : AttrIndexDb :=
  { db with claimSet := db.claimSet.map fun r =>
    if r.ref = ref then { r with failCounter := r.failCounter + 1, lastFailTimestamp := some t }
    else r }

/-- `reset_claim_set_failed`. -/
def resetClaimSetFailed (db : AttrIndexDb) (ref : BlobRef) : AttrIndexDb :=
  { db with claimSet := db.claimSet.map fun r =>
    if r.ref = ref then { r with failCounter := 0 } else r }

/-- `insert_claim`. A constraint violation is not an error. -/
def insertClaim (db : AttrIndexDb) (ref seed : ClaimRef) : AttrIndexDb :=
  if db.claim.any fun r => r.ref = ref then db
  else { db with claim := db.claim ++ [⟨ref, seed⟩] }

/-- `evr_append_attr_factory_claims`: every factory must succeed and produce a claim
set. -/
def appendAttrFactoryClaims (factories : XmlDoc → List (Option XmlDoc)) (doc : XmlDoc) :
    Option XmlDoc :=
  (factories doc).foldl (fun acc out => acc.bind fun d => out.bind fun o => moveClaims d o)
    (some doc)

/-- The value of an attr: given, or the ref of its claim. -/
def attrValue (ref : ClaimRef) (a : Attr) : Option String :=
  match a.valueType with
  | .static => a.value
  | .selfClaimRef => some (String.ofList (fmtClaimRef ref))

/-- The loop of `evr_merge_attr_index_attr`. -/
def mergeAttrIndexAttr (ord : RowOrder) (t : Int) (seed ref : ClaimRef) :
    List Attr → AttrIndexDb → Res × AttrIndexDb
  | [], db => (.ok, db)
  | a :: attrs, db =>
    match mergeAttrIndexAttrOp ord db t seed a.op a.key (attrValue ref a) with
    | (.ok, db) => mergeAttrIndexAttr ord t seed ref attrs db
    | (.userDataInvalid, db) => (.userDataInvalid, db)
    | (.noReturn, db) => (.noReturn, db)
    | (_, db) => (.error, db)

/-- The seed of an attr claim. -/
def AttrClaim.seedIn (c : AttrClaim) (claimSetRef : BlobRef) : ClaimRef :=
  c.seed.getD (buildClaimRef claimSetRef c.indexSeed)

/-- `evr_merge_attr_index_claim` for a claim of the claim set. -/
def mergeAttrIndexClaim (ord : RowOrder) (db : AttrIndexDb) (t : Int) (claimSetRef : BlobRef)
    (claim : AttrClaim) : Res × AttrIndexDb :=
  let cref := buildClaimRef claimSetRef claim.indexSeed
  let seed := claim.seedIn claimSetRef
  match mergeAttrIndexAttr ord t seed cref claim.attrs db with
  | (.ok, db) => (.ok, insertClaim db cref seed)
  | r => r

/-- Adds a seed to the visited seed set, if there is one. -/
def visitSeed (visited : Option ClaimRefTinySet) (seed : ClaimRef) :
    Bool × Option ClaimRefTinySet :=
  match visited with
  | none => (true, none)
  | some set =>
    let (res, set) := claimRefTinySetAdd set seed
    (res = .ok || res = .exists_, some set)

/-- The database and the visited seeds. -/
structure IndexState where
  db : AttrIndexDb
  visited : Option ClaimRefTinySet

/-- The loop over the attr claims. -/
def mergeAttrClaims (env : ClaimSetEnv) (created : Int) (ref : BlobRef) :
    List (Nat × XmlNode) → IndexState → Res × IndexState
  | [], st => (.ok, st)
  | (before, node) :: nodes, st =>
    match parseAttrClaim before node with
    | .error e => (e, st)
    | .ok claim =>
      match mergeAttrIndexClaim env.ord st.db created ref claim with
      | (.ok, db) =>
        match visitSeed st.visited (claim.seedIn ref) with
        | (true, visited) => mergeAttrClaims env created ref nodes ⟨db, visited⟩
        | (false, visited) => (.error, ⟨db, visited⟩)
      | (e, db) => (e, { st with db := db })

/-- An archive claim keeps the earliest archive time of its seed. -/
def archiveClaim (db : AttrIndexDb) (seed : ClaimRef) (created : Int) : AttrIndexDb :=
  match db.claimArchive.find? fun r => r.seed = seed with
  | some r =>
    if created < r.validUntil then
      { db with claimArchive := (db.claimArchive.filter fun r => r.seed ≠ seed) ++
        [⟨seed, created⟩] }
    else db
  | none => { db with claimArchive := db.claimArchive ++ [⟨seed, created⟩] }

/-- The loop over the archive claims. -/
def mergeArchiveClaims (created : Int) : List (Nat × XmlNode) → IndexState → Res × IndexState
  | [], st => (.ok, st)
  | (_, node) :: nodes, st =>
    match parseArchiveClaim node with
    | none => (.error, st)
    | some seed =>
      let db := archiveClaim st.db seed created
      match visitSeed st.visited seed with
      | (true, visited) => mergeArchiveClaims created nodes ⟨db, visited⟩
      | (false, visited) => (.error, ⟨db, visited⟩)

/-- Both loops over the claims of the transformed claim set. -/
def mergeClaims (env : ClaimSetEnv) (created : Int) (ref : BlobRef) (cs : XmlNode)
    (st : IndexState) : Res × IndexState :=
  match mergeAttrClaims env created ref (claimsNamed "attr" cs) st with
  | (.ok, st) => mergeArchiveClaims created (claimsNamed "archive" cs) st
  | r => r

/-- `evr_merge_attr_index_claim_set` after the row in `claim_set` has been inserted. -/
def indexClaimSet (env : ClaimSetEnv) (created : Int) (ref : BlobRef) (raw : XmlDoc)
    (reindex : Bool) (st : IndexState) : Res × IndexState :=
  match annotateClaims raw ref with
  | none => (.error, st)
  | some raw =>
    match appendAttrFactoryClaims env.factories raw with
    | none => (.ok, { st with db := updateClaimSetFailed st.db ref env.now })
    | some raw =>
      match (annotateClaims raw ref).bind env.transform with
      | none => (.error, st)
      | some doc =>
        match getRootClaimSet doc with
        | none => (.ok, st)
        | some cs =>
          match mergeClaims env created ref cs st with
          | (.ok, st) =>
            (.ok, if reindex then { st with db := resetClaimSetFailed st.db ref } else st)
          | r => r

/-- `evr_merge_attr_index_claim_set`. -/
def mergeAttrIndexClaimSet (env : ClaimSetEnv) (ref : BlobRef) (raw : XmlDoc) (reindex : Bool)
    (st : IndexState) : Res × IndexState :=
  match getRootClaimSet raw with
  | none => (.error, st)
  | some cs =>
    match parseCreated env.timegm cs with
    | none => (.userDataInvalid, st)
    | some created =>
      match if reindex then some st.db else insertClaimSet st.db ref created with
      | none => (.ok, st)
      | some db => indexClaimSet env created ref raw reindex { st with db := db }

/-! ## When a claim set is indexed without an error -/

/-- The value is of the type of its key, and a `+` without a value meets no row whose
value it would have to be compared with. -/
def OpFits (db : AttrIndexDb) (s : OpStep) : Prop :=
  valueFits db s.key s.value = true ∧
    ¬ (s.op = .add ∧ (s.value.isNone && addComparesNull
      (db.attr.findPastSiblings s.ord s.seed s.key s.time)
      (db.attr.findFutureSiblings s.ord s.seed s.key s.time)
      ((db.attr.findPastSiblings s.ord s.seed s.key s.time).find? (·.trunc))) = true)

/-- The operations of an attr claim. -/
def AttrClaim.ops (ord : RowOrder) (created : Int) (ref : BlobRef) (c : AttrClaim) : List OpStep :=
  c.attrs.map fun a =>
    ⟨ord, created, c.seedIn ref, a.op, a.key, attrValue (buildClaimRef ref c.indexSeed) a⟩

/-- The visited seed set takes all the seeds. -/
def RoomFor (visited : Option ClaimRefTinySet) (seeds : List ClaimRef) : Prop :=
  Along (fun visited seed => (visitSeed visited seed).2)
    (fun visited seed => (visitSeed visited seed).1 = true) visited seeds

/-- All claims of the transformed claim set parse, the operations of its attr claims
fit one after the other, and the visited seed set has room. -/
def ClaimsFit (env : ClaimSetEnv) (created : Int) (ref : BlobRef) (st : IndexState)
    (cs : XmlNode) : Prop :=
  ∃ claims seeds,
    (claimsNamed "attr" cs).Forall₂ (fun n c => parseAttrClaim n.1 n.2 = .ok c) claims ∧
    (claimsNamed "archive" cs).Forall₂ (fun n seed => parseArchiveClaim n.2 = some seed) seeds ∧
    Along nextOpDb OpFits st.db (claims.flatMap fun c => c.ops env.ord created ref) ∧
    RoomFor st.visited ((claims.map fun c => c.seedIn ref) ++ seeds)

/-- No error exit behind the insert into `claim_set` is taken. -/
def NoLateExit (env : ClaimSetEnv) (created : Int) (ref : BlobRef) (raw : XmlDoc)
    (st : IndexState) : Prop :=
  ∃ raw1, annotateClaims raw ref = some raw1 ∧
    ∀ raw2, appendAttrFactoryClaims env.factories raw1 = some raw2 →
      ∃ doc, (annotateClaims raw2 ref).bind env.transform = some doc ∧
        ∀ cs, getRootClaimSet doc = some cs → ClaimsFit env created ref st cs

/-- If the merge does not succeed (a crash counts as well), the tables are as before. -/
def AllOrNothing (env : ClaimSetEnv) (ref : BlobRef) (raw : XmlDoc) (st : IndexState) : Prop :=
  (mergeAttrIndexClaimSet env ref raw false st).1 ≠ .ok →
    let db := (mergeAttrIndexClaimSet env ref raw false st).2.db
    db.attr = st.db.attr ∧ db.claim = st.db.claim ∧ db.claimArchive = st.db.claimArchive ∧
      db.claimSet = st.db.claimSet

namespace ClaimSetLemmas

open MergeLemmas

theorem op_ok_iff (db : AttrIndexDb) (s : OpStep) :
    (mergeAttrIndexAttrOp s.ord db s.time s.seed s.op s.key s.value).1 = .ok ↔ OpFits db s := by
  unfold mergeAttrIndexAttrOp OpFits
  cases s.op with
  | replace => exact mergeSiblings_ok_iff.trans (by simp)
  | rm => exact mergeSiblings_ok_iff.trans (by simp)
  | add =>
    show (mergeAttrIndexAttrAdd _ _ _ _ _ _).1 = .ok ↔ _
    unfold mergeAttrIndexAttrAdd
    simp only
    split
    · next h => simp [h]
    · next h =>
      rw [mergeSiblings_ok_iff, Bool.not_eq_true] at *
      simp [h]

theorem mergeAttrIndexAttr_ok_iff {ord : RowOrder} {t : Int} {seed ref : ClaimRef}
    {attrs : List Attr} {db db' : AttrIndexDb} :
    mergeAttrIndexAttr ord t seed ref attrs db = (.ok, db') ↔
      Along nextOpDb OpFits db
        (attrs.map fun a => ⟨ord, t, seed, a.op, a.key, attrValue ref a⟩) ∧
      db' = exec nextOpDb db
        (attrs.map fun a => ⟨ord, t, seed, a.op, a.key, attrValue ref a⟩) := by
  induction attrs generalizing db with
  | nil =>
    simp only [mergeAttrIndexAttr, List.map_nil, Along, exec_nil, true_and, Prod.mk.injEq]
    exact eq_comm
  | cons a attrs ih =>
    have hop := op_ok_iff db ⟨ord, t, seed, a.op, a.key, attrValue ref a⟩
    have hnext : nextOpDb db ⟨ord, t, seed, a.op, a.key, attrValue ref a⟩ =
      (mergeAttrIndexAttrOp ord db t seed a.op a.key (attrValue ref a)).2 := rfl
    simp only [List.map_cons, Along, exec_cons, hnext, ← hop]
    unfold mergeAttrIndexAttr
    rcases hm : mergeAttrIndexAttrOp ord db t seed a.op a.key (attrValue ref a) with ⟨res, db1⟩
    cases res with
    | ok => simp only [ih, true_and]
    | _ => simp

theorem insertAttr_setClaim (db : AttrIndexDb) (claim : List ClaimRow) (ref : ClaimRef)
    (key : String) (value : Option String) (validFrom : Int) (validUntil : Option Int)
    (trunc : Bool) :
    (insertAttr { db with claim := claim } ref key value validFrom validUntil trunc).2 =
      { (insertAttr db ref key value validFrom validUntil trunc).2 with claim := claim } := by
  have htype : getAttrTypeForKey { db with claim := claim } key = getAttrTypeForKey db key := rfl
  unfold insertAttr
  cases value with
  | none => rfl
  | some v =>
    simp only [htype]
    cases getAttrTypeForKey db key with
    | str => rfl
    | int =>
      simp only
      split <;> rfl
    | claimRef =>
      simp only
      split <;> rfl

/-- The operations do not look at the claim table. -/
theorem nextOpDb_setClaim (db : AttrIndexDb) (claim : List ClaimRow) (s : OpStep) :
    nextOpDb { db with claim := claim } s = { nextOpDb db s with claim := claim } := by
  unfold nextOpDb mergeAttrIndexAttrOp
  cases s.op with
  | replace => exact insertAttr_setClaim { db with attr := _ } claim _ _ _ _ _ _
  | rm => exact insertAttr_setClaim { db with attr := _ } claim _ _ _ _ _ _
  | add =>
    show (mergeAttrIndexAttrAdd _ _ _ _ _ _).2 =
      { (mergeAttrIndexAttrAdd _ _ _ _ _ _).2 with claim := claim }
    unfold mergeAttrIndexAttrAdd
    simp only
    split
    · rfl
    · exact insertAttr_setClaim { db with attr := _ } claim _ _ _ _ _ _

theorem along_setClaim {db : AttrIndexDb} {claim : List ClaimRow} {ops : List OpStep} :
    Along nextOpDb OpFits { db with claim := claim } ops ↔ Along nextOpDb OpFits db ops := by
  induction ops generalizing db with
  | nil => exact Iff.rfl
  | cons s ops ih =>
    unfold Along
    rw [nextOpDb_setClaim, ih]
    exact Iff.rfl

theorem insertClaim_eq (db : AttrIndexDb) (ref seed : ClaimRef) :
    ∃ claim, insertClaim db ref seed = { db with claim := claim } := by
  unfold insertClaim
  split
  · exact ⟨db.claim, rfl⟩
  · exact ⟨_, rfl⟩

theorem nextOpDb_eq (db : AttrIndexDb) (s : OpStep) :
    ∃ attr, nextOpDb db s = { db with attr := attr } := by
  have hmerge (closes stops trunc) :
      ∃ attr, (mergeSiblings s.ord closes stops trunc db s.time s.seed s.key s.value).2 =
        { db with attr := attr } := by
    obtain ⟨valInt, validUntil, heq⟩ :=
      mergeSiblings_eq s.ord closes stops trunc db s.time s.seed s.key s.value
    rw [heq]
    cases valueFits db s.key s.value with
    | true => exact ⟨_, rfl⟩
    | false => exact ⟨_, rfl⟩
  unfold nextOpDb mergeAttrIndexAttrOp
  cases s.op with
  | replace => exact hmerge _ _ _
  | rm => exact hmerge _ _ _
  | add =>
    show ∃ attr, (mergeAttrIndexAttrAdd _ _ _ _ _ _).2 = _
    unfold mergeAttrIndexAttrAdd
    simp only
    split
    · exact ⟨db.attr, rfl⟩
    · exact hmerge _ _ _

theorem mergeAttrIndexClaim_ok_iff {ord : RowOrder} {db db' : AttrIndexDb} {t : Int}
    {ref : BlobRef} {c : AttrClaim} :
    mergeAttrIndexClaim ord db t ref c = (.ok, db') ↔
      Along nextOpDb OpFits db (c.ops ord t ref) ∧
      db' = insertClaim (exec nextOpDb db (c.ops ord t ref)) (buildClaimRef ref c.indexSeed)
        (c.seedIn ref) := by
  unfold mergeAttrIndexClaim
  simp only
  split
  · next db1 heq =>
    obtain ⟨halong, hdb⟩ := mergeAttrIndexAttr_ok_iff.mp heq
    rw [hdb, Prod.mk.injEq]
    exact ⟨fun h => ⟨halong, h.2.symm⟩, fun h => ⟨rfl, h.2.symm⟩⟩
  · next hne =>
    refine ⟨fun h => absurd h (hne db'), fun h => ?_⟩
    exact absurd (mergeAttrIndexAttr_ok_iff.mpr ⟨h.1, rfl⟩) (hne _)

theorem parseAttrClaim_ne_error_ok (before : Nat) (node : XmlNode) :
    parseAttrClaim before node ≠ .error .ok := by
  have hbind {α β : Type} {x : Except Res α} {f : α → Except Res β} (hx : x ≠ .error .ok)
      (hf : ∀ a, f a ≠ .error .ok) : x.bind f ≠ .error .ok := by
    cases x with
    | error e => exact fun h => hx (by cases h; rfl)
    | ok a => exact hf a
  unfold parseAttrClaim
  simp only
  refine hbind ?_ fun seed => hbind ?_ fun indexSeed => ?_
  · split
    · simp
    · split
      · simp
      · simp
  · split
    · simp
    · simp
    · simp
  · split
    · simp
    · split
      · simp
      · simp

/-- A list related to a longer one starts with the value of the head. -/
theorem exists_forall₂_cons {α β ε : Type} {f : α → Except ε β} {a : α} {b : β} {l : List α}
    (hb : f a = .ok b) (Q : List β → Prop) :
    (∃ bs, (a :: l).Forall₂ (fun a b => f a = .ok b) bs ∧ Q bs) ↔
      ∃ bs, l.Forall₂ (fun a b => f a = .ok b) bs ∧ Q (b :: bs) := by
  constructor
  · rintro ⟨_, hbs, hQ⟩
    cases hbs with
    | cons hb' hbs =>
      rw [hb] at hb'
      cases hb'
      exact ⟨_, hbs, hQ⟩
  · rintro ⟨bs, hbs, hQ⟩
    exact ⟨b :: bs, .cons hb hbs, hQ⟩

/-- The loop over the attr claims succeeds, and leaves behind visited seeds with `P`,
if and only if its claims parse and fit. -/
theorem mergeAttrClaims_ok_iff (env : ClaimSetEnv) (created : Int) (ref : BlobRef)
    (nodes : List (Nat × XmlNode)) (st : IndexState) (P : Option ClaimRefTinySet → Prop) :
    ((mergeAttrClaims env created ref nodes st).1 = .ok ∧
      P (mergeAttrClaims env created ref nodes st).2.visited) ↔
    ∃ claims, nodes.Forall₂ (fun n c => parseAttrClaim n.1 n.2 = .ok c) claims ∧
      Along nextOpDb OpFits st.db (claims.flatMap fun c => c.ops env.ord created ref) ∧
      RoomFor st.visited (claims.map fun c => c.seedIn ref) ∧
      P (exec (fun visited seed => (visitSeed visited seed).2) st.visited
        (claims.map fun c => c.seedIn ref)) := by
  induction nodes generalizing st with
  | nil => simp [mergeAttrClaims, RoomFor, Along]
  | cons n nodes ih =>
    obtain ⟨before, node⟩ := n
    unfold mergeAttrClaims
    cases hp : parseAttrClaim before node with
    | error e =>
      refine ⟨fun h => absurd (hp.trans (congrArg _ h.1)) (parseAttrClaim_ne_error_ok _ _), ?_⟩
      rintro ⟨_, hclaims, -⟩
      cases hclaims with
      | cons hc _ =>
        rw [hp] at hc
        cases hc
    | ok claim =>
      rw [exists_forall₂_cons (f := fun n : Nat × XmlNode => parseAttrClaim n.1 n.2) hp]
      simp only [List.flatMap_cons, List.map_cons, RoomFor, along_append, Along, exec_cons]
      rcases hm : mergeAttrIndexClaim env.ord st.db created ref claim with ⟨res, db1⟩
      cases res with
      | ok =>
        obtain ⟨hops, hdb⟩ := mergeAttrIndexClaim_ok_iff.mp hm
        -- the row in the claim table is of no concern to the operations that follow
        obtain ⟨rows, hrows⟩ := insertClaim_eq
          (exec nextOpDb st.db (claim.ops env.ord created ref)) (buildClaimRef ref claim.indexSeed)
          (claim.seedIn ref)
        rcases hv : visitSeed st.visited (claim.seedIn ref) with ⟨room, visited⟩
        cases room with
        | true => simp only [ih, hdb, hrows, along_setClaim, hops, true_and, RoomFor]
        | false => simp
      | _ =>
        refine ⟨fun h => absurd h.1 (by simp), ?_⟩
        rintro ⟨_, _, ⟨hops, _⟩, _⟩
        rw [mergeAttrIndexClaim_ok_iff.mpr ⟨hops, rfl⟩] at hm
        cases hm

theorem mergeArchiveClaims_ok_iff {created : Int} {nodes : List (Nat × XmlNode)}
    {st : IndexState} :
    (mergeArchiveClaims created nodes st).1 = .ok ↔
      ∃ seeds, nodes.Forall₂ (fun n seed => parseArchiveClaim n.2 = some seed) seeds ∧
        RoomFor st.visited seeds := by
  induction nodes generalizing st with
  | nil => simp [mergeArchiveClaims, RoomFor, Along]
  | cons n nodes ih =>
    obtain ⟨before, node⟩ := n
    unfold mergeArchiveClaims
    cases hp : parseArchiveClaim node with
    | none =>
      refine ⟨fun h => absurd h (by simp), ?_⟩
      rintro ⟨_, hseeds, -⟩
      cases hseeds with
      | cons hc _ =>
        rw [hp] at hc
        cases hc
    | some seed =>
      rcases hv : visitSeed st.visited seed with ⟨room, visited⟩
      constructor
      · intro h
        cases room with
        | true =>
          obtain ⟨seeds, hseeds, hroom⟩ := ih.mp (by simpa only [hv] using h)
          refine ⟨seed :: seeds, .cons hp hseeds, ?_⟩
          simpa only [RoomFor, Along, hv, true_and] using hroom
        | false => simp only [hv] at h; cases h
      · rintro ⟨_, hseeds, hroom⟩
        cases hseeds with
        | cons hc hseeds =>
          cases hp.symm.trans hc
          simp only [RoomFor, Along, hv] at hroom
          obtain ⟨rfl, hroom⟩ := hroom
          simp only [hv]
          exact ih.mpr ⟨_, hseeds, hroom⟩

theorem mergeClaims_ok_iff (env : ClaimSetEnv) (created : Int) (ref : BlobRef) (cs : XmlNode)
    (st : IndexState) :
    (mergeClaims env created ref cs st).1 = .ok ↔ ClaimsFit env created ref st cs := by
  have hattrs := mergeAttrClaims_ok_iff env created ref (claimsNamed "attr" cs) st
    fun visited => ∃ seeds, (claimsNamed "archive" cs).Forall₂
        (fun n seed => parseArchiveClaim n.2 = some seed) seeds ∧ RoomFor visited seeds
  have hmerge : (mergeClaims env created ref cs st).1 = .ok ↔
      (mergeAttrClaims env created ref (claimsNamed "attr" cs) st).1 = .ok ∧
      (mergeArchiveClaims created (claimsNamed "archive" cs)
        (mergeAttrClaims env created ref (claimsNamed "attr" cs) st).2).1 = .ok := by
    unfold mergeClaims
    rcases hm : mergeAttrClaims env created ref (claimsNamed "attr" cs) st with ⟨res, st1⟩
    cases res with
    | ok => simp
    | _ => simp
  rw [hmerge, mergeArchiveClaims_ok_iff, hattrs]
  unfold ClaimsFit RoomFor
  simp only [along_append]
  grind

theorem indexClaimSet_ok_iff (env : ClaimSetEnv) (created : Int) (ref : BlobRef) (raw : XmlDoc)
    (reindex : Bool) (st : IndexState) :
    (indexClaimSet env created ref raw reindex st).1 = .ok ↔
      NoLateExit env created ref raw st := by
  unfold indexClaimSet NoLateExit
  cases annotateClaims raw ref with
  | none => simp
  | some raw1 =>
    cases h2 : appendAttrFactoryClaims env.factories raw1 with
    | none => simp [h2]
    | some raw2 =>
      cases h3 : (annotateClaims raw2 ref).bind env.transform with
      | none => simp [h2, h3]
      | some doc =>
        cases h4 : getRootClaimSet doc with
        | none => simp [h2, h3, h4]
        | some cs =>
          have hcs := mergeClaims_ok_iff env created ref cs st
          simp only [h2, h3, h4, Option.some.injEq, exists_eq_left', forall_eq', ← hcs]
          rcases mergeClaims env created ref cs st with ⟨res, st1⟩
          cases res with
          | ok => simp
          | _ => simp

/-- The operations of an attr claim only touch the attr table. -/
theorem mergeAttrIndexAttr_eq (ord : RowOrder) (t : Int) (seed ref : ClaimRef)
    (attrs : List Attr) (db : AttrIndexDb) :
    ∃ attr, (mergeAttrIndexAttr ord t seed ref attrs db).2 = { db with attr := attr } := by
  induction attrs generalizing db with
  | nil => exact ⟨db.attr, rfl⟩
  | cons a attrs ih =>
    obtain ⟨attr, hop⟩ : ∃ attr, (mergeAttrIndexAttrOp ord db t seed a.op a.key
        (attrValue ref a)).2 = { db with attr := attr } :=
      nextOpDb_eq db ⟨ord, t, seed, a.op, a.key, attrValue ref a⟩
    unfold mergeAttrIndexAttr
    rcases hm : mergeAttrIndexAttrOp ord db t seed a.op a.key (attrValue ref a) with ⟨res, db1⟩
    rw [hm] at hop
    cases hop
    cases res with
    | ok => exact ih { db with attr := attr }
    | _ => exact ⟨attr, rfl⟩

theorem mergeAttrIndexClaim_eq (ord : RowOrder) (db : AttrIndexDb) (t : Int) (ref : BlobRef)
    (c : AttrClaim) :
    ∃ attr claim, (mergeAttrIndexClaim ord db t ref c).2 =
      { db with attr := attr, claim := claim } := by
  obtain ⟨attr, hattrs⟩ := mergeAttrIndexAttr_eq ord t (c.seedIn ref)
    (buildClaimRef ref c.indexSeed) c.attrs db
  unfold mergeAttrIndexClaim
  simp only
  split
  · next db1 heq =>
    rw [heq] at hattrs
    cases hattrs
    obtain ⟨claim, hclaim⟩ := insertClaim_eq { db with attr := attr }
      (buildClaimRef ref c.indexSeed) (c.seedIn ref)
    exact ⟨attr, claim, hclaim⟩
  · exact ⟨attr, db.claim, hattrs⟩

/-- The attr claims only touch the tables attr and claim. -/
theorem mergeAttrClaims_eq (env : ClaimSetEnv) (created : Int) (ref : BlobRef)
    (nodes : List (Nat × XmlNode)) (st : IndexState) :
    ∃ attr claim, (mergeAttrClaims env created ref nodes st).2.db =
      { st.db with attr := attr, claim := claim } := by
  induction nodes generalizing st with
  | nil => exact ⟨st.db.attr, st.db.claim, rfl⟩
  | cons n nodes ih =>
    unfold mergeAttrClaims
    cases parseAttrClaim n.1 n.2 with
    | error e => exact ⟨st.db.attr, st.db.claim, rfl⟩
    | ok c =>
      obtain ⟨attr, claim, hclaim⟩ := mergeAttrIndexClaim_eq env.ord st.db created ref c
      rcases hm : mergeAttrIndexClaim env.ord st.db created ref c with ⟨res, db1⟩
      rw [hm] at hclaim
      cases hclaim
      simp only [hm]
      cases res with
      | ok =>
        rcases visitSeed st.visited (c.seedIn ref) with ⟨room, visited⟩
        cases room with
        | true =>
          obtain ⟨attr', claim', hrest⟩ :=
            ih ⟨{ st.db with attr := attr, claim := claim }, visited⟩
          exact ⟨attr', claim', hrest⟩
        | false => exact ⟨attr, claim, rfl⟩
      | _ => exact ⟨attr, claim, rfl⟩

theorem mergeAttrClaims_claimSet (env : ClaimSetEnv) (created : Int) (ref : BlobRef)
    (nodes : List (Nat × XmlNode)) (st : IndexState) :
    (mergeAttrClaims env created ref nodes st).2.db.claimSet = st.db.claimSet := by
  obtain ⟨attr, claim, heq⟩ := mergeAttrClaims_eq env created ref nodes st
  rw [heq]

theorem archiveClaim_claimSet (db : AttrIndexDb) (seed : ClaimRef) (created : Int) :
    (archiveClaim db seed created).claimSet = db.claimSet := by
  unfold archiveClaim
  split
  · split
    · rfl
    · rfl
  · rfl

theorem mergeArchiveClaims_claimSet (created : Int) (nodes : List (Nat × XmlNode))
    (st : IndexState) :
    (mergeArchiveClaims created nodes st).2.db.claimSet = st.db.claimSet := by
  induction nodes generalizing st with
  | nil => rfl
  | cons n nodes ih =>
    unfold mergeArchiveClaims
    cases parseArchiveClaim n.2 with
    | none => rfl
    | some seed =>
      have hdb := archiveClaim_claimSet st.db seed created
      rcases hv : visitSeed st.visited seed with ⟨room, visited⟩
      simp only [hv]
      cases room with
      | true => exact (ih ⟨archiveClaim st.db seed created, visited⟩).trans hdb
      | false => exact hdb

theorem mergeClaims_claimSet (env : ClaimSetEnv) (created : Int) (ref : BlobRef) (cs : XmlNode)
    (st : IndexState) : (mergeClaims env created ref cs st).2.db.claimSet = st.db.claimSet := by
  have hattrs := mergeAttrClaims_claimSet env created ref (claimsNamed "attr" cs) st
  unfold mergeClaims
  split
  · next st1 heq =>
    rw [heq] at hattrs
    exact (mergeArchiveClaims_claimSet created _ st1).trans hattrs
  · exact hattrs

/-- The rows of `claim_set` stay on every exit, with their refs. -/
theorem indexClaimSet_refs (env : ClaimSetEnv) (created : Int) (ref : BlobRef) (raw : XmlDoc)
    (reindex : Bool) (st : IndexState) :
    (indexClaimSet env created ref raw reindex st).2.db.claimSet.map (·.ref) =
      st.db.claimSet.map (·.ref) := by
  have hrefs (f : ClaimSetRow → ClaimSetRow) (hf : ∀ r, (f r).ref = r.ref)
      (rows : List ClaimSetRow) : (rows.map f).map (·.ref) = rows.map (·.ref) := by
    rw [List.map_map]
    exact List.map_congr_left fun r _ => hf r
  unfold indexClaimSet
  split
  · rfl
  · split
    · exact hrefs _ (fun r => by split <;> rfl) _
    · split
      · rfl
      · split
        · rfl
        · next cs _ =>
          have hcs := mergeClaims_claimSet env created ref cs st
          split
          · next st1 heq =>
            rw [heq] at hcs
            cases reindex with
            | true =>
              exact (hrefs _ (fun r => by split <;> rfl) _).trans (congrArg (List.map _) hcs)
            | false => exact congrArg (List.map _) hcs
          · exact congrArg (List.map _) hcs

/-- The row in `claim_set` is not taken back on any exit. -/
theorem indexClaimSet_claimSet_length (env : ClaimSetEnv) (created : Int) (ref : BlobRef)
    (raw : XmlDoc) (reindex : Bool) (st : IndexState) :
    (indexClaimSet env created ref raw reindex st).2.db.claimSet.length =
      st.db.claimSet.length := by
  have hrefs := congrArg List.length (indexClaimSet_refs env created ref raw reindex st)
  rwa [List.length_map, List.length_map] at hrefs

theorem eq_of_insertClaimSet {db db' : AttrIndexDb} {ref : BlobRef} {created : Int}
    (h : insertClaimSet db ref created = some db') :
    db' = { db with claimSet := db.claimSet ++ [⟨ref, created, 0, none⟩] } := by
  unfold insertClaimSet at h
  split at h
  · cases h
  · exact (Option.some.inj h).symm

/-- A claim set is refused if it is in the table. -/
theorem mem_of_insertClaimSet {db : AttrIndexDb} {ref : BlobRef} {created : Int}
    (h : insertClaimSet db ref created = none) : ref ∈ db.claimSet.map (·.ref) := by
  unfold insertClaimSet at h
  split at h
  · next hany => simpa using hany
  · cases h

theorem insertClaimSet_length {db db' : AttrIndexDb} {ref : BlobRef} {created : Int}
    (h : insertClaimSet db ref created = some db') :
    db'.claimSet.length = db.claimSet.length + 1 := by
  rw [eq_of_insertClaimSet h]
  exact List.length_append

end ClaimSetLemmas

open ClaimSetLemmas

/-- A merge that does not succeed leaves the tables alone if and only if no exit
behind the insert into `claim_set` is taken. -/
theorem claim_set_all_or_nothing_iff (env : ClaimSetEnv) (ref : BlobRef) (raw : XmlDoc)
    (st : IndexState) :
    AllOrNothing env ref raw st ↔
      ∀ cs, getRootClaimSet raw = some cs →
        ∀ created, parseCreated env.timegm cs = some created →
          ∀ db, insertClaimSet st.db ref created = some db →
            NoLateExit env created ref raw { st with db := db } := by
  unfold AllOrNothing mergeAttrIndexClaimSet
  cases hcs : getRootClaimSet raw with
  | none => simp
  | some cs =>
    cases hcreated : parseCreated env.timegm cs with
    | none => simp [hcreated]
    | some created =>
      cases hins : insertClaimSet st.db ref created with
      | none => simp [hcreated, hins]
      | some db =>
        have hok := indexClaimSet_ok_iff env created ref raw false { st with db := db }
        have hlen : _ = db.claimSet.length :=
          indexClaimSet_claimSet_length env created ref raw false { st with db := db }
        have hgrown : db.claimSet.length = st.db.claimSet.length + 1 :=
          insertClaimSet_length hins
        simp only [Bool.false_eq_true, if_false, hcreated, hins, Option.some.injEq, forall_eq',
          ← hok]
        constructor
        · intro h
          refine Classical.byContradiction fun hne => ?_
          -- the inserted row is still there
          have hsame := congrArg List.length (h hne).2.2.2
          rw [hlen, hgrown] at hsame
          exact absurd hsame (Nat.succ_ne_self _)
        · exact fun h hne => absurd h hne

/-- A claim set that assigns `x` to the number `n`. -/
def sampleClaimSet : XmlDoc :=
  ⟨some (.element "claim-set" (some claimsNs)
    [⟨some dcNs, "created", "2024-01-01T00:00:00.000000Z"⟩]
    [.element "attr" (some claimsNs) []
      [.element "a" (some claimsNs) [⟨none, "op", "="⟩, ⟨none, "k", "n"⟩, ⟨none, "v", "x"⟩] []]])⟩

/-- No attr factories, and a stylesheet that copies. -/
def sampleEnv : ClaimSetEnv where
  timegm := fun _ => some 1704067200
  factories := fun _ => []
  transform := some
  ord := .byRowid
  now := 0

/-- The refused claim set is taken for indexed when it comes again. -/
theorem claim_set_left_behind :
    ¬ AllOrNothing sampleEnv (Vector.replicate _ 0) sampleClaimSet
      ⟨setupAttrIndexDb [⟨"n", .int⟩], none⟩ := by
  intro h
  have hrefused : (mergeAttrIndexClaimSet sampleEnv (Vector.replicate _ 0) sampleClaimSet false
      ⟨setupAttrIndexDb [⟨"n", .int⟩], none⟩).1 = .userDataInvalid := by decide +kernel
  have hrow : (mergeAttrIndexClaimSet sampleEnv (Vector.replicate _ 0) sampleClaimSet false
      ⟨setupAttrIndexDb [⟨"n", .int⟩], none⟩).2.db.claimSet.length = 1 := by decide +kernel
  have hsame := congrArg List.length (h (by rw [hrefused]; decide)).2.2.2
  rw [hrow] at hsame
  cases hsame

end Everarch
