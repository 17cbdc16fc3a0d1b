import Everarch.Keys

/-!
# Claim set documents

XML documents as claims.c reads them through libxml, and the functions of claims.c
on claim sets, attr claims and archive claims. Allocations succeed.
-/

namespace Everarch

/-! ## Documents -/

/-- An attribute with the href of its namespace. -/
structure XmlAttr where
  ns : Option String
  name : String
  value : String
deriving DecidableEq, Repr

/-- A node: an element, or anything else (text, comments). -/
inductive XmlNode where
  | element (name : String) (ns : Option String) (attrs : List XmlAttr) (children : List XmlNode)
  | other

/-- A document by its root element. -/
structure XmlDoc where
  root : Option XmlNode

namespace XmlNode

def isElement : XmlNode → Bool
  | .element .. => true
  | .other => false

def attrs : XmlNode → List XmlAttr
  | .element _ _ attrs _ => attrs
  | .other => []

def children : XmlNode → List XmlNode
  | .element _ _ _ children => children
  | .other => []

def setChildren (children : List XmlNode) : XmlNode → XmlNode
  | .element name ns attrs _ => .element name ns attrs children
  | .other => .other

/-- `xmlGetProp`, which does not look at namespaces. -/
def getProp (n : XmlNode) (name : String) : Option String :=
  (n.attrs.find? fun a => a.name = name).map (·.value)

/-- `xmlGetNsProp`. -/
def getNsProp (n : XmlNode) (name ns : String) : Option String :=
  (n.attrs.find? fun a => a.name = name ∧ a.ns = some ns).map (·.value)

/-- `xmlSetProp` for a name that no attribute has yet. -/
def addProp (name value : String) : XmlNode → XmlNode
  | .element n ns attrs children => .element n ns (attrs ++ [⟨none, name, value⟩]) children
  | .other => .other

end XmlNode

/-! ## Claim sets -/

/-- `evr_claims_ns`. -/
def claimsNs : String := "https://evr.ma300k.de/claims/"

/-- `evr_dc_ns`. -/
def dcNs : String := "http://purl.org/dc/terms/"

/-- `evr_is_evr_element`. -/
def isEvrElement (n : XmlNode) (name ns : String) : Bool :=
  match n with
  | .element name' ns' _ _ => name' = name && ns' = some ns
  | .other => false

/-- `evr_get_root_claim_set`. -/
def getRootClaimSet (doc : XmlDoc) : Option XmlNode :=
  doc.root.filter fun n => isEvrElement n "claim-set" claimsNs

/-- `evr_time_from_iso8601` without its memory accesses, which `timeFromIso8601Accesses` has: it
writes one byte behind its copy of the text. `timegm` stands for `strptime` with
`evr_iso_8601_timestamp_fmt` up to the end of the text and `timegm` of the result. -/
def timeFromIso8601 (timegm : List Char → Option Int) (s : List Char) : Option Int :=
  if s.length < 8 then none
  else
    let base := s.take (s.length - 8)
    match s.drop (s.length - 8) with
    | dot :: p =>
      if dot ≠ '.' || !(p.take 6).all Char.isDigit || p.drop 6 ≠ ['Z'] then none
      else (timegm (base ++ ['Z'])).map fun seconds =>
        let ms := ofDigits 10 (leadingDigits decDigit (p.take 6))
        Int.bmod (seconds * 1000 + (ms / 1000 : Nat)) (2 ^ 64)
    | [] => none

/-- `evr_parse_created`. -/
def parseCreated (timegm : List Char → Option Int) (n : XmlNode) : Option Int :=
  (n.getNsProp "created" dcNs).bind fun s => timeFromIso8601 timegm s.toList

/-- `evr_parse_claim_index_seed_attr`: absent, unparsable or a number. -/
def parseClaimIndexSeedAttr (claim : XmlNode) : Res × Nat :=
  match claim.getProp "index-seed" with
  | none => (.notFound, 0)
  | some s =>
    match sscanfSize s.toList with
    | none => (.error, 0)
    | some n => (.ok, n)

/-- The body of the loop of `evr_annotate_claims` for the claim with index `ci`. -/
def annotateClaim (docRef : BlobRef) (ci : Nat) (c : XmlNode) : Option XmlNode :=
  let c := if (c.getProp "claim-ref").isSome then c
    else c.addProp "claim-ref" (String.ofList (fmtClaimRef (buildClaimRef docRef ci)))
  if (c.getProp "seed").isSome then some c
  else
    let seed (i : Nat) : String := String.ofList (fmtClaimRef (buildClaimRef docRef i))
    match parseClaimIndexSeedAttr c with
    | (.notFound, _) => some (c.addProp "seed" (seed ci))
    | (.ok, i) => some (c.addProp "seed" (seed i))
    | _ => none

/-- The loop of `evr_annotate_claims`. -/
def annotateLoop (docRef : BlobRef) : Nat → List XmlNode → Option (List XmlNode)
  | _, [] => some []
  | ci, n :: nodes =>
    if n.isElement then
      (annotateClaim docRef ci n).bind fun n =>
        (annotateLoop docRef (ci + 1) nodes).map (n :: ·)
    else (annotateLoop docRef ci nodes).map (n :: ·)

/-- `evr_annotate_claims`. -/
def annotateClaims (doc : XmlDoc) (docRef : BlobRef) : Option XmlDoc :=
  match getRootClaimSet doc with
  | none => some doc
  | some cs => (annotateLoop docRef 0 cs.children).map fun nodes => ⟨some (cs.setChildren nodes)⟩

/-! ## Attr and archive claims -/

/-- `evr_attr_op_*`. -/
inductive AttrOp where
  | replace
  | add
  | rm
deriving DecidableEq, Repr

/-- `evr_attr_value_type_*`. -/
inductive AttrValueType where
  | static
  | selfClaimRef
deriving DecidableEq, Repr

/-- `struct evr_attr`. -/
structure Attr where
  op : AttrOp
  key : String
  valueType : AttrValueType
  value : Option String
deriving DecidableEq, Repr

/-- `struct evr_attr_claim`. Without a seed the claim itself is meant. -/
structure AttrClaim where
  seed : Option ClaimRef
  indexSeed : Nat
  attrs : List Attr
deriving DecidableEq, Repr

/-- One `a` element in the second loop of `evr_parse_attr_claim`. -/
def parseAttr (a : XmlNode) : Option Attr := do
  let op ← match a.getProp "op" with
    | some "=" => some AttrOp.replace
    | some "+" => some AttrOp.add
    | some "-" => some AttrOp.rm
    | _ => none
  let key ← a.getProp "k"
  match a.getProp "vf" with
  | none | some "static" => some ⟨op, key, .static, a.getProp "v"⟩
  | some "claim-ref" => some ⟨op, key, .selfClaimRef, none⟩
  | some _ => none

/-- `evr_parse_attr_claim` for a claim with `before` elements before it. -/
def parseAttrClaim (before : Nat) (claim : XmlNode) : Except Res AttrClaim :=
  let seed : Except Res (Option ClaimRef) := match claim.getProp "seed" with
    | none => .ok none
    | some s => match parseClaimRef (Vector.replicate _ 0) s.toList with
      | (.ok, ref) => .ok (some ref)
      | _ => .error .userDataInvalid
  let indexSeed : Except Res Nat := match parseClaimIndexSeedAttr claim with
    | (.notFound, _) => .ok before
    | (.ok, i) => .ok i
    | _ => .error .error
  let as := claim.children.filter fun n => isEvrElement n "a" claimsNs
  seed.bind fun seed => indexSeed.bind fun indexSeed =>
    if as.any fun a => (a.getProp "k").isNone then .error .error
    else match as.mapM parseAttr with
      | none => .error .error
      | some attrs => .ok ⟨seed, indexSeed, attrs⟩

/-- `evr_parse_archive_claim`: the archived seed. -/
def parseArchiveClaim (claim : XmlNode) : Option ClaimRef :=
  match claim.getProp "seed" with
  | none => none
  | some s =>
    match parseClaimRef (Vector.replicate _ 0) s.toList with
    | (.ok, ref) => some ref
    | _ => none

/-- The elements of a claim set with the given name, each with the number of
elements before it, in document order. -/
def claimsNamed (name : String) (cs : XmlNode) : List (Nat × XmlNode) :=
  ((cs.children.filter (·.isElement)).zipIdx.map fun (n, i) => (i, n)).filter fun (_, n) =>
    isEvrElement n name claimsNs

/-- `evr_move_claims`: the claims of `src` behind the nodes of `dest`. -/
def moveClaims (dest src : XmlDoc) : Option XmlDoc :=
  match getRootClaimSet dest, getRootClaimSet src with
  | some dcs, some scs =>
    some ⟨some (dcs.setChildren (dcs.children ++ scs.children.filter (·.isElement)))⟩
  | _, _ => none

end Everarch
