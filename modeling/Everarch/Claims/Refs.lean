import Everarch.Claims

/-!
# Claim refs

What the refs that `evr_annotate_claims` gives the claims of a document identify. A claim is
numbered by its place among the elements below the claim set and looked up by that number with
`evr_nth_claim`; `evr_build_claim_ref` keeps 16 bits of it.

* `RefsLemmas.Numbered`: every claim without a claim-ref got one with its number.
* `RefsLemmas.identify_iff`: what such refs identify.

Result: `claim_refs_identify_iff`.
-/

namespace Everarch

/-! ## Looking up a claim -/

/-- `evr_find_next_element` without filters. A node stands with its next siblings. -/
def findNextElement (node : List XmlNode) : List XmlNode :=
  node.dropWhile fun n => !n.isElement

/-- `evr_first_claim`. -/
def firstClaim (claimSet : XmlNode) : List XmlNode :=
  findNextElement claimSet.children

/-- `evr_next_claim`. -/
def nextClaim (claimNode : List XmlNode) : List XmlNode :=
  findNextElement claimNode.tail

/-- The loop of `evr_nth_claim`. -/
def nthLoop : Nat → List XmlNode → List XmlNode
  | 0, node => node
  | _, [] => []
  | n + 1, node => nthLoop n (nextClaim node)

/-- `evr_nth_claim`. -/
def nthClaim (claimSet : XmlNode) (n : Nat) : List XmlNode :=
  nthLoop n (firstClaim claimSet)

/-! ## What refs identify -/

/-- The nodes below the claim set of a document. -/
def claimNodes (doc : XmlDoc) : List XmlNode :=
  (getRootClaimSet doc).elim [] XmlNode.children

/-- The claim-ref of the node at place `k`. -/
def claimRefAt (nodes : List XmlNode) (k : Nat) : Option ClaimRef :=
  (nodes[k]?.bind (·.getProp "claim-ref")).bind fun s =>
    match parseClaimRef (Vector.replicate _ 0) s.toList with
    | (.ok, ref) => some ref
    | _ => none

/-- At place `k` stands a claim that carries no claim-ref. -/
def Unannotated (nodes : List XmlNode) (k : Nat) : Prop :=
  ∃ n, nodes[k]? = some n ∧ n.isElement = true ∧ n.getProp "claim-ref" = none

/-- The number of claims before place `k`. -/
def claimsBefore (nodes : List XmlNode) (k : Nat) : Nat :=
  (nodes.take k).countP (·.isElement)

/-- The refs given to the claims that carried none are distinct, and each leads back to its
claim. -/
structure RefsIdentify (before : List XmlNode) (doc : XmlDoc) : Prop where
  distinct : ∀ j k, Unannotated before j → Unannotated before k →
    claimRefAt (claimNodes doc) j = claimRefAt (claimNodes doc) k → j = k
  nth : ∀ k, Unannotated before k → ∃ cs ref, getRootClaimSet doc = some cs ∧
    claimRefAt cs.children k = some ref ∧
      nthClaim cs (splitClaimRef ref).2 = cs.children.drop k

/-- `doc` is annotated, the claims of `src` are appended and the result is annotated again. -/
structure AnnotatedTwice (docRef : BlobRef) (doc src doc1 doc2 : XmlDoc) : Prop where
  first : annotateClaims doc docRef = some doc1
  second : ∃ ext, moveClaims doc1 src = some ext ∧ annotateClaims ext docRef = some doc2

/-- The nodes of `doc` followed by the claims of `src`, as they are before any annotation. -/
def extendedNodes (doc src : XmlDoc) : List XmlNode :=
  claimNodes doc ++ (claimNodes src).filter (·.isElement)

/-- The refs identify the claims of the document and those of the extended one, and the refs of
the first claims stay. -/
structure RefsIdentifyTwice (doc src doc1 doc2 : XmlDoc) : Prop where
  first : RefsIdentify (claimNodes doc) doc1
  extended : RefsIdentify (extendedNodes doc src) doc2
  unchanged : ∀ k, Unannotated (claimNodes doc) k →
    claimRefAt (claimNodes doc2) k = claimRefAt (claimNodes doc1) k

namespace RefsLemmas

/-! ### Annotating one claim -/

theorem isElement_addProp (name value : String) (n : XmlNode) :
    (n.addProp name value).isElement = n.isElement := by
  cases n with
  | element => rfl
  | other => rfl

theorem getProp_addProp_self {name value : String} {n : XmlNode} (helem : n.isElement = true)
    (h : n.getProp name = none) : (n.addProp name value).getProp name = some value := by
  cases n with
  | element _ _ attrs _ =>
    have hnone : attrs.find? (fun a => a.name = name) = none := Option.map_eq_none_iff.mp h
    unfold XmlNode.getProp
    simp only [XmlNode.addProp, XmlNode.attrs, List.find?_append, hnone, Option.none_or]
    simp
  | other => cases helem

theorem getProp_addProp_of_ne {name other value : String} (n : XmlNode) (h : name ≠ other) :
    (n.addProp name value).getProp other = n.getProp other := by
  cases n with
  | element =>
    simp [XmlNode.getProp, XmlNode.addProp, XmlNode.attrs, List.find?_append, h]
  | other => rfl

/-- What `evr_annotate_claims` does to the claim with index `ci`. -/
structure Claimed (docRef : BlobRef) (ci : Nat) (n n' : XmlNode) : Prop where
  isElement : n'.isElement = n.isElement
  kept : ∀ s, n.getProp "claim-ref" = some s → n'.getProp "claim-ref" = some s
  given : n.getProp "claim-ref" = none →
    n'.getProp "claim-ref" = some (String.ofList (fmtClaimRef (buildClaimRef docRef ci)))

theorem claimed_addProp_seed {docRef : BlobRef} {ci : Nat} {n n' : XmlNode} {seed : String}
    (h : Claimed docRef ci n n') : Claimed docRef ci n (n'.addProp "seed" seed) := by
  have hne : "seed" ≠ "claim-ref" := by decide
  exact ⟨(isElement_addProp _ _ _).trans h.isElement,
    fun s hs => (getProp_addProp_of_ne _ hne).trans (h.kept s hs),
    fun hs => (getProp_addProp_of_ne _ hne).trans (h.given hs)⟩

theorem claimed_annotateClaim {docRef : BlobRef} {ci : Nat} {n n' : XmlNode}
    (helem : n.isElement = true) (h : annotateClaim docRef ci n = some n') :
    Claimed docRef ci n n' := by
  unfold annotateClaim at h
  dsimp only at h
  generalize hc : (if (n.getProp "claim-ref").isSome then n else
    n.addProp "claim-ref" (String.ofList (fmtClaimRef (buildClaimRef docRef ci)))) = c at h
  have hclaimed : Claimed docRef ci n c := by
    subst hc
    split
    · next hsome => exact ⟨rfl, fun _ hs => hs, fun hs => by rw [hs] at hsome; cases hsome⟩
    · next hnone =>
      have hnone' := Option.not_isSome_iff_eq_none.mp hnone
      exact ⟨isElement_addProp _ _ _, fun s hs => by simp [hs] at hnone',
        fun hs => getProp_addProp_self helem hs⟩
  split at h
  · cases h
    exact hclaimed
  · split at h
    · cases h
      exact claimed_addProp_seed hclaimed
    · cases h
      exact claimed_addProp_seed hclaimed
    · cases h

/-! ### Annotating the nodes -/

theorem annotateLoop_isElement {docRef : BlobRef} {ci : Nat} {nodes nodes' : List XmlNode}
    (h : annotateLoop docRef ci nodes = some nodes') :
    nodes'.map (·.isElement) = nodes.map (·.isElement) := by
  induction nodes generalizing ci nodes' with
  | nil =>
    cases h
    rfl
  | cons n nodes ih =>
    unfold annotateLoop at h
    split at h
    · next helem =>
      obtain ⟨n', hn', h⟩ := Option.bind_eq_some_iff.mp h
      obtain ⟨rest, hrest, rfl⟩ := Option.map_eq_some_iff.mp h
      rw [List.map_cons, List.map_cons, ih hrest, (claimed_annotateClaim helem hn').isElement]
    · obtain ⟨rest, hrest, rfl⟩ := Option.map_eq_some_iff.mp h
      rw [List.map_cons, List.map_cons, ih hrest]

theorem claimsBefore_cons (n : XmlNode) (nodes : List XmlNode) (k : Nat) :
    claimsBefore (n :: nodes) (k + 1) =
      claimsBefore nodes k + if n.isElement then 1 else 0 := by
  rw [claimsBefore, List.take_succ_cons, List.countP_cons]
  rfl

/-- The claim at place `k` is annotated with the number of claims before it. -/
theorem annotateLoop_claimed {docRef : BlobRef} {ci k : Nat} {nodes nodes' : List XmlNode}
    {n : XmlNode} (h : annotateLoop docRef ci nodes = some nodes') (hn : nodes[k]? = some n)
    (helem : n.isElement = true) :
    ∃ n', nodes'[k]? = some n' ∧ Claimed docRef (ci + claimsBefore nodes k) n n' := by
  induction nodes generalizing ci k nodes' with
  | nil => cases hn
  | cons m nodes ih =>
    unfold annotateLoop at h
    split at h
    · next hm =>
      obtain ⟨m', hm', h⟩ := Option.bind_eq_some_iff.mp h
      obtain ⟨rest, hrest, rfl⟩ := Option.map_eq_some_iff.mp h
      cases k with
      | zero =>
        cases hn
        exact ⟨m', rfl, claimed_annotateClaim helem hm'⟩
      | succ k =>
        obtain ⟨n', hn', hclaimed⟩ := ih hrest hn
        have hci : ci + claimsBefore (m :: nodes) (k + 1) = ci + 1 + claimsBefore nodes k := by
          rw [claimsBefore_cons, if_pos hm, Nat.add_assoc ci, Nat.add_comm 1]
        exact ⟨n', hn', hci ▸ hclaimed⟩
    · next hm =>
      obtain ⟨rest, hrest, rfl⟩ := Option.map_eq_some_iff.mp h
      cases k with
      | zero =>
        cases hn
        exact absurd helem hm
      | succ k =>
        obtain ⟨n', hn', hclaimed⟩ := ih hrest hn
        rw [claimsBefore_cons, if_neg hm]
        exact ⟨n', hn', hclaimed⟩

theorem claimsBefore_congr {nodes nodes' : List XmlNode}
    (h : nodes'.map (·.isElement) = nodes.map (·.isElement)) (k : Nat) :
    claimsBefore nodes' k = claimsBefore nodes k := by
  have hmap : ∀ l : List XmlNode, claimsBefore l k = ((l.map (·.isElement)).take k).countP id :=
    fun l => by rw [← List.map_take, List.countP_map]; rfl
  rw [hmap, hmap, h]

/-- In `nodes'` every claim that carries no claim-ref in `nodes` has one with its number. -/
structure Numbered (docRef : BlobRef) (nodes nodes' : List XmlNode) : Prop where
  isElement : nodes'.map (·.isElement) = nodes.map (·.isElement)
  given : ∀ k, Unannotated nodes k → nodes'[k]?.bind (·.getProp "claim-ref") =
    some (String.ofList (fmtClaimRef (buildClaimRef docRef (claimsBefore nodes k))))

theorem numbered_annotateLoop {docRef : BlobRef} {nodes nodes' : List XmlNode}
    (h : annotateLoop docRef 0 nodes = some nodes') : Numbered docRef nodes nodes' where
  isElement := annotateLoop_isElement h
  given k := by
    rintro ⟨n, hn, helem, hnone⟩
    obtain ⟨n', hn', hclaimed⟩ := annotateLoop_claimed h hn helem
    rw [hn', Option.bind_some, hclaimed.given hnone, Nat.zero_add]

/-- Annotating again after more claims were appended numbers all of them. -/
theorem numbered_append {docRef : BlobRef} {nodes nodes1 more nodes2 : List XmlNode}
    (h1 : Numbered docRef nodes nodes1)
    (h2 : annotateLoop docRef 0 (nodes1 ++ more) = some nodes2) :
    Numbered docRef (nodes ++ more) nodes2 := by
  have helems : (nodes1 ++ more).map (·.isElement) = (nodes ++ more).map (·.isElement) := by
    rw [List.map_append, List.map_append, h1.isElement]
  have hlength : nodes1.length = nodes.length := by
    rw [← List.length_map, h1.isElement, List.length_map]
  refine ⟨(annotateLoop_isElement h2).trans helems, fun k hk => ?_⟩
  by_cases hlt : k < nodes.length
  · -- the claim kept the ref of the first annotation
    have hk' : Unannotated nodes k := by
      obtain ⟨n, hn, hk⟩ := hk
      exact ⟨n, (List.getElem?_append_left hlt).symm.trans hn, hk⟩
    have hbefore : claimsBefore (nodes ++ more) k = claimsBefore nodes k := by
      rw [claimsBefore, List.take_append_of_le_length (Nat.le_of_lt hlt)]
      rfl
    obtain ⟨n1, hn1, hprop⟩ := Option.bind_eq_some_iff.mp (h1.given k hk')
    have hn1' : (nodes1 ++ more)[k]? = some n1 :=
      (List.getElem?_append_left (hlength ▸ hlt)).trans hn1
    have helem1 : n1.isElement = true := by
      cases n1 with
      | element => rfl
      | other => cases hprop
    obtain ⟨n2, hn2, hclaimed⟩ := annotateLoop_claimed h2 hn1' helem1
    rw [hn2, Option.bind_some, hclaimed.kept _ hprop, hbefore]
  · obtain ⟨n, hn, helem, hnone⟩ := hk
    have hn1 : (nodes1 ++ more)[k]? = some n := by
      rw [List.getElem?_append_right (Nat.not_lt.mp hlt)] at hn
      rw [List.getElem?_append_right (hlength ▸ Nat.not_lt.mp hlt), hlength, hn]
    obtain ⟨n2, hn2, hclaimed⟩ := annotateLoop_claimed h2 hn1 helem
    rw [hn2, Option.bind_some, hclaimed.given hnone, Nat.zero_add, claimsBefore_congr helems]

/-! ### Numbers and places -/

/-- `evr_nth_claim` finds a claim by the number of claims before it. -/
theorem nthLoop_claimsBefore {nodes : List XmlNode} {k : Nat} {n : XmlNode}
    (hn : nodes[k]? = some n) (helem : n.isElement = true) :
    nthLoop (claimsBefore nodes k) (findNextElement nodes) = nodes.drop k := by
  induction nodes generalizing k with
  | nil => cases hn
  | cons m nodes ih =>
    cases k with
    | zero =>
      cases hn
      rw [findNextElement, List.dropWhile_cons, helem]
      rfl
    | succ k =>
      rw [claimsBefore_cons, List.drop_succ_cons, ← ih hn, findNextElement,
        List.dropWhile_cons]
      cases hm : m.isElement with
      | true => rfl
      | false => rfl

theorem claimsBefore_lt {nodes : List XmlNode} {j k : Nat} {n : XmlNode} (h : j < k)
    (hn : nodes[j]? = some n) (helem : n.isElement = true) :
    claimsBefore nodes j < claimsBefore nodes k := by
  have hj : claimsBefore nodes (j + 1) = claimsBefore nodes j + 1 := by
    rw [claimsBefore, List.take_add_one, hn, List.countP_append]
    simp [claimsBefore, helem]
  have hle : claimsBefore nodes (j + 1) ≤ claimsBefore nodes k :=
    (List.take_sublist_take_left h).countP_le
  exact Nat.lt_of_lt_of_le (Nat.lt_of_succ_le hj.ge) hle

theorem claimsBefore_inj {nodes : List XmlNode} {j k : Nat} (hj : Unannotated nodes j)
    (hk : Unannotated nodes k) (h : claimsBefore nodes j = claimsBefore nodes k) : j = k := by
  obtain ⟨m, hm, hmelem, -⟩ := hj
  obtain ⟨n, hn, hnelem, -⟩ := hk
  rcases Nat.lt_trichotomy j k with hlt | heq | hlt
  · exact absurd h (Nat.ne_of_lt (claimsBefore_lt hlt hm hmelem))
  · exact heq
  · exact absurd h.symm (Nat.ne_of_lt (claimsBefore_lt hlt hn hnelem))

/-- A claim has claims at all numbers below its own. -/
theorem exists_claimsBefore {nodes : List XmlNode} {k i : Nat} (h : i < claimsBefore nodes k) :
    ∃ j n, j < k ∧ nodes[j]? = some n ∧ n.isElement = true ∧ claimsBefore nodes j = i := by
  induction k with
  | zero => cases h
  | succ k ih =>
    by_cases hi : i < claimsBefore nodes k
    · obtain ⟨j, n, hj, hrest⟩ := ih hi
      exact ⟨j, n, Nat.lt_succ_of_lt hj, hrest⟩
    · cases hk : nodes[k]? with
      | none =>
        rw [claimsBefore, List.take_add_one, hk, Option.toList_none, List.append_nil] at h
        exact absurd h hi
      | some n =>
        rw [claimsBefore, List.take_add_one, hk, List.countP_append] at h
        cases helem : n.isElement with
        | true =>
          refine ⟨k, n, Nat.lt_succ_self k, hk, helem, ?_⟩
          simp only [Option.toList_some, List.countP_singleton, helem, if_true] at h
          exact Nat.le_antisymm (Nat.not_lt.mp hi) (Nat.le_of_lt_succ h)
        | false =>
          simp only [Option.toList_some, List.countP_singleton, helem, Bool.false_eq_true,
            if_false, Nat.add_zero] at h
          exact absurd h hi

/-! ### Refs and numbers -/

/-- `evr_split_claim_ref` gives 16 bits of the number back. -/
theorem splitClaimRef_buildClaimRef (docRef : BlobRef) (i : Nat) :
    (splitClaimRef (buildClaimRef docRef i)).2 = i % 65536 := by
  have hhigh : (buildClaimRef docRef i).get ⟨28, blobRefSize_lt_claimRefSize⟩ =
      UInt8.ofNat (i / 256) :=
    Vector.getElem_append_right (by decide) (Nat.le_refl 28)
  have hlow : (buildClaimRef docRef i).get ⟨29, blobRefSize_succ_lt_claimRefSize⟩ =
      UInt8.ofNat i :=
    Vector.getElem_append_right (by decide) (Nat.le_succ 28)
  rw [splitClaimRef, hhigh, hlow, UInt8.toNat_ofNat', UInt8.toNat_ofNat']
  omega

theorem Numbered.claimRefAt_eq {docRef : BlobRef} {nodes nodes' : List XmlNode} {k : Nat}
    (h : Numbered docRef nodes nodes') (hk : Unannotated nodes k) :
    claimRefAt nodes' k = some (buildClaimRef docRef (claimsBefore nodes k)) := by
  rw [claimRefAt, h.given k hk, Option.bind_some, String.toList_ofList,
    RefTextLemmas.parseClaimRef_fmtClaimRef]

theorem rootClaimSet_of_claimNodes {doc : XmlDoc} {k : Nat} {n : XmlNode}
    (h : (claimNodes doc)[k]? = some n) :
    ∃ cs, getRootClaimSet doc = some cs ∧ claimNodes doc = cs.children := by
  unfold claimNodes at h ⊢
  cases hcs : getRootClaimSet doc with
  | none =>
    rw [hcs] at h
    cases h
  | some cs => exact ⟨cs, rfl, rfl⟩

/-- The node that got a ref at place `k`. -/
theorem Numbered.exists_node {docRef : BlobRef} {nodes nodes' : List XmlNode} {k : Nat}
    (h : Numbered docRef nodes nodes') (hk : Unannotated nodes k) :
    ∃ n, nodes'[k]? = some n ∧ n.isElement = true := by
  obtain ⟨n, hn, hprop⟩ := Option.bind_eq_some_iff.mp (h.given k hk)
  cases n with
  | element => exact ⟨_, hn, rfl⟩
  | other => cases hprop

/-- Refs identify claims as long as the numbers fit into 16 bits. -/
theorem identify_iff {docRef : BlobRef} {before : List XmlNode} {doc : XmlDoc}
    (h : Numbered docRef before (claimNodes doc)) :
    RefsIdentify before doc ↔ ∀ k, Unannotated before k → claimsBefore before k < 65536 := by
  constructor
  · intro hident k hk
    by_contra hge
    obtain ⟨cs, ref, hcs, href, hnth⟩ := hident.nth k hk
    have hnodes : claimNodes doc = cs.children := by rw [claimNodes, hcs]; rfl
    rw [← hnodes] at href hnth
    rw [h.claimRefAt_eq hk] at href
    cases href
    have hlt : claimsBefore before k % 65536 < claimsBefore (claimNodes doc) k := by
      rw [claimsBefore_congr h.isElement]
      exact Nat.lt_of_lt_of_le (Nat.mod_lt _ (by decide)) (Nat.not_lt.mp hge)
    -- the number in the ref is that of an earlier claim
    obtain ⟨j, n, hj, hn, helem, hbefore⟩ := exists_claimsBefore hlt
    rw [splitClaimRef_buildClaimRef, nthClaim, firstClaim, ← hnodes, ← hbefore,
      nthLoop_claimsBefore hn helem] at hnth
    obtain ⟨m, hm, -⟩ := h.exists_node hk
    have hklt := (List.getElem?_eq_some_iff.mp hm).1
    have hlength := congrArg List.length hnth
    rw [List.length_drop, List.length_drop] at hlength
    omega
  · intro hlt
    refine ⟨fun j k hj hk heq => ?_, fun k hk => ?_⟩
    · rw [h.claimRefAt_eq hj, h.claimRefAt_eq hk] at heq
      have hsplit := congrArg (fun r => (splitClaimRef r).2) (Option.some.inj heq)
      simp only [splitClaimRef_buildClaimRef, Nat.mod_eq_of_lt (hlt j hj),
        Nat.mod_eq_of_lt (hlt k hk)] at hsplit
      exact claimsBefore_inj hj hk hsplit
    · obtain ⟨n, hn, helem⟩ := h.exists_node hk
      obtain ⟨cs, hcs, hnodes⟩ := rootClaimSet_of_claimNodes hn
      refine ⟨cs, _, hcs, hnodes ▸ h.claimRefAt_eq hk, ?_⟩
      rw [splitClaimRef_buildClaimRef, Nat.mod_eq_of_lt (hlt k hk),
        ← claimsBefore_congr h.isElement, nthClaim, firstClaim, ← hnodes,
        nthLoop_claimsBefore hn helem]

/-! ### Documents -/

theorem getRootClaimSet_setChildren {doc : XmlDoc} {cs : XmlNode}
    (h : getRootClaimSet doc = some cs) (nodes : List XmlNode) :
    getRootClaimSet ⟨some (cs.setChildren nodes)⟩ = some (cs.setChildren nodes) ∧
      (cs.setChildren nodes).children = nodes := by
  have hcs : isEvrElement cs "claim-set" claimsNs = true := (Option.filter_eq_some_iff.mp h).2
  cases cs with
  | element => exact ⟨Option.filter_eq_some_iff.mpr ⟨rfl, hcs⟩, rfl⟩
  | other => cases hcs

theorem claimNodes_annotateClaims {doc doc' : XmlDoc} {docRef : BlobRef}
    (h : annotateClaims doc docRef = some doc') :
    annotateLoop docRef 0 (claimNodes doc) = some (claimNodes doc') := by
  unfold annotateClaims at h
  cases hcs : getRootClaimSet doc with
  | none =>
    rw [hcs] at h
    cases h
    rw [claimNodes, hcs]
    rfl
  | some cs =>
    rw [hcs] at h
    obtain ⟨nodes, hnodes, rfl⟩ := Option.map_eq_some_iff.mp h
    obtain ⟨hroot, hchildren⟩ := getRootClaimSet_setChildren hcs nodes
    rw [claimNodes, claimNodes, hcs, hroot, Option.elim_some, Option.elim_some, hchildren, hnodes]

theorem claimNodes_moveClaims {dest src ext : XmlDoc} (h : moveClaims dest src = some ext) :
    claimNodes ext = claimNodes dest ++ (claimNodes src).filter (·.isElement) := by
  unfold moveClaims at h
  split at h
  · next dcs scs hdcs hscs =>
    cases h
    obtain ⟨hroot, hchildren⟩ := getRootClaimSet_setChildren hdcs
      (dcs.children ++ scs.children.filter (·.isElement))
    rw [claimNodes, hroot, Option.elim_some, hchildren, claimNodes, hdcs, claimNodes, hscs]
    rfl
  · cases h

theorem numbered_annotatedTwice {docRef : BlobRef} {doc src doc1 doc2 : XmlDoc}
    (h : AnnotatedTwice docRef doc src doc1 doc2) :
    Numbered docRef (claimNodes doc) (claimNodes doc1) ∧
      Numbered docRef (extendedNodes doc src) (claimNodes doc2) := by
  obtain ⟨ext, hmove, hsecond⟩ := h.second
  have hfirst := numbered_annotateLoop (claimNodes_annotateClaims h.first)
  have hloop := claimNodes_annotateClaims hsecond
  rw [claimNodes_moveClaims hmove] at hloop
  exact ⟨hfirst, numbered_append hfirst hloop⟩

theorem unannotated_append {nodes : List XmlNode} (more : List XmlNode) {k : Nat}
    (h : Unannotated nodes k) :
    Unannotated (nodes ++ more) k ∧ claimsBefore (nodes ++ more) k = claimsBefore nodes k := by
  obtain ⟨n, hn, hrest⟩ := h
  have hlt := (List.getElem?_eq_some_iff.mp hn).1
  refine ⟨⟨n, (List.getElem?_append_left hlt).trans hn, hrest⟩, ?_⟩
  rw [claimsBefore, List.take_append_of_le_length (Nat.le_of_lt hlt)]
  rfl

/-! ### Annotations that succeed -/

/-- Without an index-seed attribute there is nothing that `evr_annotate_claims` fails on. -/
theorem annotateClaim_of_noIndexSeed (docRef : BlobRef) (ci : Nat) {n : XmlNode}
    (h : n.getProp "index-seed" = none) :
    ∃ n', annotateClaim docRef ci n = some n' ∧ n'.getProp "index-seed" = none := by
  have hseed : "seed" ≠ "index-seed" := by decide
  have href : "claim-ref" ≠ "index-seed" := by decide
  unfold annotateClaim
  dsimp only
  generalize hc : (if (n.getProp "claim-ref").isSome then n else
    n.addProp "claim-ref" (String.ofList (fmtClaimRef (buildClaimRef docRef ci)))) = c
  have hc' : c.getProp "index-seed" = none := by
    subst hc
    split
    · exact h
    · exact (getProp_addProp_of_ne _ href).trans h
  split
  · exact ⟨c, rfl, hc'⟩
  · rw [parseClaimIndexSeedAttr, hc']
    exact ⟨_, rfl, (getProp_addProp_of_ne _ hseed).trans hc'⟩

theorem annotateLoop_of_noIndexSeed (docRef : BlobRef) (ci : Nat) {nodes : List XmlNode}
    (h : ∀ n ∈ nodes, n.getProp "index-seed" = none) :
    ∃ nodes', annotateLoop docRef ci nodes = some nodes' ∧
      ∀ n ∈ nodes', n.getProp "index-seed" = none := by
  induction nodes generalizing ci with
  | nil => exact ⟨[], rfl, h⟩
  | cons n nodes ih =>
    obtain ⟨hn, hnodes⟩ := List.forall_mem_cons.mp h
    unfold annotateLoop
    split
    · obtain ⟨n', hn', hseed⟩ := annotateClaim_of_noIndexSeed docRef ci hn
      obtain ⟨rest, hrest, hall⟩ := ih (ci + 1) hnodes
      exact ⟨n' :: rest, by rw [hn', hrest]; rfl, List.forall_mem_cons.mpr ⟨hseed, hall⟩⟩
    · obtain ⟨rest, hrest, hall⟩ := ih ci hnodes
      exact ⟨n :: rest, by rw [hrest]; rfl, List.forall_mem_cons.mpr ⟨hn, hall⟩⟩

theorem annotateClaims_of_root (docRef : BlobRef) {doc : XmlDoc} {cs : XmlNode}
    (hcs : getRootClaimSet doc = some cs)
    (h : ∀ n ∈ claimNodes doc, n.getProp "index-seed" = none) :
    ∃ doc' cs', annotateClaims doc docRef = some doc' ∧ getRootClaimSet doc' = some cs' ∧
      ∀ n ∈ claimNodes doc', n.getProp "index-seed" = none := by
  rw [claimNodes, hcs, Option.elim_some] at h
  obtain ⟨nodes, hloop, hnodes⟩ := annotateLoop_of_noIndexSeed docRef 0 h
  obtain ⟨hroot, hchildren⟩ := getRootClaimSet_setChildren hcs nodes
  refine ⟨⟨some (cs.setChildren nodes)⟩, _, ?_, hroot, ?_⟩
  · simp only [annotateClaims, hcs, hloop, Option.map_some]
  · rw [claimNodes, hroot, Option.elim_some, hchildren]
    exact hnodes

/-- Documents without index-seed attributes can be annotated, extended and annotated again. -/
theorem exists_annotatedTwice (docRef : BlobRef) {doc src : XmlDoc} {cs scs : XmlNode}
    (hcs : getRootClaimSet doc = some cs) (hscs : getRootClaimSet src = some scs)
    (hdoc : ∀ n ∈ claimNodes doc, n.getProp "index-seed" = none)
    (hsrc : ∀ n ∈ claimNodes src, n.getProp "index-seed" = none) :
    ∃ doc1 doc2, AnnotatedTwice docRef doc src doc1 doc2 := by
  obtain ⟨doc1, cs1, hfirst, hcs1, hdoc1⟩ := annotateClaims_of_root docRef hcs hdoc
  have hmove : moveClaims doc1 src = some ⟨some (cs1.setChildren
      (cs1.children ++ scs.children.filter (·.isElement)))⟩ := by
    rw [moveClaims, hcs1, hscs]
  obtain ⟨hroot, -⟩ := getRootClaimSet_setChildren hcs1
    (cs1.children ++ scs.children.filter (·.isElement))
  obtain ⟨doc2, -, hsecond, -⟩ := annotateClaims_of_root docRef hroot <| by
    rw [claimNodes_moveClaims hmove]
    exact List.forall_mem_append.mpr ⟨hdoc1, fun n hn => hsrc n (List.mem_filter.mp hn).1⟩
  exact ⟨doc1, doc2, hfirst, _, hmove, hsecond⟩

end RefsLemmas

open RefsLemmas

/-- The refs of a document and of its extension identify their claims exactly if no claim that
gets a ref has 65536 claims before it. -/
theorem claim_refs_identify_iff {docRef : BlobRef} {doc src doc1 doc2 : XmlDoc}
    (h : AnnotatedTwice docRef doc src doc1 doc2) :
    RefsIdentifyTwice doc src doc1 doc2 ↔
      ∀ k, Unannotated (extendedNodes doc src) k →
        claimsBefore (extendedNodes doc src) k < 65536 := by
  obtain ⟨hfirst, hsecond⟩ := numbered_annotatedTwice h
  refine ⟨fun hident => (identify_iff hsecond).mp hident.extended, fun hlt => ⟨?_, ?_, ?_⟩⟩
  · refine (identify_iff hfirst).mpr fun k hk => ?_
    obtain ⟨hext, hbefore⟩ := unannotated_append ((claimNodes src).filter (·.isElement)) hk
    exact hbefore ▸ hlt k hext
  · exact (identify_iff hsecond).mpr hlt
  · intro k hk
    obtain ⟨hext, hbefore⟩ := unannotated_append ((claimNodes src).filter (·.isElement)) hk
    rw [hfirst.claimRefAt_eq hk, hsecond.claimRefAt_eq hext, extendedNodes, hbefore]

/-- A claim set with `n` archive claims. -/
def archiveClaims (n : Nat) : XmlDoc :=
  ⟨some (.element "claim-set" (some claimsNs) []
    (List.replicate n (.element "archive" (some claimsNs) [] [])))⟩

theorem getRootClaimSet_archiveClaims (n : Nat) :
    getRootClaimSet (archiveClaims n) = (archiveClaims n).root :=
  Option.filter_eq_some_iff.mpr ⟨rfl, by simp [isEvrElement]⟩

theorem claimNodes_archiveClaims (n : Nat) : claimNodes (archiveClaims n) =
    List.replicate n (.element "archive" (some claimsNs) [] []) := by
  rw [claimNodes, getRootClaimSet_archiveClaims]
  rfl

theorem archiveClaims_annotatedTwice (docRef : BlobRef) (n m : Nat) :
    ∃ doc1 doc2, AnnotatedTwice docRef (archiveClaims n) (archiveClaims m) doc1 doc2 := by
  have hseed : ∀ n, ∀ c ∈ claimNodes (archiveClaims n), c.getProp "index-seed" = none := by
    intro n c hc
    rw [claimNodes_archiveClaims] at hc
    rw [List.eq_of_mem_replicate hc]
    rfl
  exact exists_annotatedTwice docRef (getRootClaimSet_archiveClaims n)
    (getRootClaimSet_archiveClaims m) (hseed n) (hseed m)

/-- Two claims and one more. -/
theorem claim_refs_identify_iff_three :
    ∃ doc1 doc2, AnnotatedTwice (Vector.replicate _ 0) (archiveClaims 2) (archiveClaims 1)
      doc1 doc2 ∧ RefsIdentifyTwice (archiveClaims 2) (archiveClaims 1) doc1 doc2 := by
  obtain ⟨doc1, doc2, h⟩ := archiveClaims_annotatedTwice (Vector.replicate _ 0) 2 1
  refine ⟨doc1, doc2, h, (claim_refs_identify_iff h).mpr fun k _ => ?_⟩
  have hlength : (extendedNodes (archiveClaims 2) (archiveClaims 1)).length = 3 := by
    rw [extendedNodes, claimNodes_archiveClaims, claimNodes_archiveClaims]
    rfl
  refine Nat.lt_of_le_of_lt (List.countP_le_length.trans (List.length_take_le' _ _)) ?_
  rw [hlength]
  decide

/-- The 65537th claim gets the ref of the first one. -/
theorem many_claims_share_refs :
    ∃ doc1 doc2, AnnotatedTwice (Vector.replicate _ 0) (archiveClaims 65537) (archiveClaims 0)
      doc1 doc2 ∧ ¬RefsIdentifyTwice (archiveClaims 65537) (archiveClaims 0) doc1 doc2 := by
  obtain ⟨doc1, doc2, h⟩ := archiveClaims_annotatedTwice (Vector.replicate _ 0) 65537 0
  refine ⟨doc1, doc2, h, fun hident => ?_⟩
  have hnodes : extendedNodes (archiveClaims 65537) (archiveClaims 0) =
      List.replicate 65537 (.element "archive" (some claimsNs) [] []) := by
    rw [extendedNodes, claimNodes_archiveClaims, claimNodes_archiveClaims, List.replicate_zero,
      List.filter_nil, List.append_nil]
  have hlt := (identify_iff (numbered_annotatedTwice h).2).mp hident.extended 65536 <| by
    rw [hnodes]
    exact ⟨_, List.getElem?_replicate_of_lt (by decide), rfl, rfl⟩
  rw [hnodes, claimsBefore, List.take_replicate, List.countP_replicate] at hlt
  exact absurd hlt (by decide)

end Everarch
