import Everarch.Lib.BinarySearch
import Everarch.Lib.Bytes

/-!
# Signed claims

signatures.c and metadata.c: which signed messages are accepted and what is written about their
signers, with the fetch of a signed document over them. What gpgme says about a message is a
parameter.

* `isSignatureAccepted_iff`: a signature that counts, of a key that was configured.
* `verify_ok_iff`, `fetchSignedXml_ok_iff`: the messages and documents that are passed on.
* `fetchSignedXml_metadata`: what is written about their signers.
-/

namespace Everarch

/-! ## gpgme -/

/-- `gpgme_signature_t`. -/
structure GpgSignature where
  summary : Nat
  fpr : Bytes
deriving DecidableEq, Repr

def gpgmeSigsumValid : Nat := 0x1
def gpgmeSigsumKeyExpired : Nat := 0x20

/-- `gpgme_op_verify` on a message: its signatures and the message without them, or none where
the operation fails. -/
abbrev GpgmeOpVerify := Bytes → Option (List GpgSignature × Bytes)

/-! ## The accepted keys -/

/-- `struct evr_verify_ctx`. -/
structure VerifyCtx where
  acceptedFprs : List Bytes
  ascending : Rising acceptedFprs

/-- `evr_init_verify_ctx`. -/
def initVerifyCtx (acceptedFprs : List Bytes) : VerifyCtx :=
  ⟨qsort acceptedFprs, rising_qsort acceptedFprs⟩

/-- `evr_verify_add_gpg_fpr` for one option after the other: the last comes first. -/
def verifyAddGpgFprs (fprs : List Bytes) : List Bytes :=
  fprs.foldl (fun accepted fpr => fpr :: accepted) []

/-- `evr_build_verify_ctx` for the keys of a configuration. -/
def buildVerifyCtx (fprs : List Bytes) : VerifyCtx :=
  initVerifyCtx (verifyAddGpgFprs fprs)

/-- The summaries that `evr_is_signature_accepted` does not skip. -/
def GpgSignature.counts (s : GpgSignature) : Bool :=
  !(decide (s.summary &&& gpgmeSigsumValid = 0) && decide (s.summary ≠ gpgmeSigsumKeyExpired))

/-- `evr_is_signature_accepted`. -/
def isSignatureAccepted (ctx : VerifyCtx) : List GpgSignature → Bool
  | [] => false
  | s :: rest =>
    if s.counts then
      match bsearch s.fpr ctx.acceptedFprs with
      | none => isSignatureAccepted ctx rest
      | some _ => true
    else isSignatureAccepted ctx rest

/-! ## Metadata -/

/-- `evr_meta_key_labels[evr_meta_signed_by]`: signed-by. -/
def metaSignedBy : Bytes := [115, 105, 103, 110, 101, 100, 45, 98, 121]

def equalsSign : UInt8 := 61
def lineEnd : UInt8 := 10

/-- `evr_meta_write_str`. -/
def metaWriteStr (key value : Bytes) : Bytes :=
  key ++ [equalsSign] ++ value ++ [lineEnd]

/-! ## Verification -/

inductive VerifyRes where
  | ok (dest : Bytes)
  | userDataInvalid
  | error
deriving DecidableEq, Repr

/-- `evr_verify`: what it returns and what it writes into the metadata. -/
def verify (opVerify : GpgmeOpVerify) (ctx : VerifyCtx) (s : Bytes) (sMaxlen : Nat) :
    VerifyRes × Bytes :=
  match opVerify (cString (s.take sMaxlen)) with
  | none => (.error, [])
  | some (signatures, out) =>
    (if isSignatureAccepted ctx signatures then .ok out else .userDataInvalid,
      signatures.flatMap fun s => metaWriteStr metaSignedBy s.fpr)

inductive FetchRes (δ : Type) where
  | ok (doc : δ)
  | notFound
  | userDataInvalid
  | error
deriving DecidableEq, Repr

/-- What `evr_parse_xml` says of a text: a document, `evr_user_data_invalid` or `evr_error`. -/
abbrev ParseXml (δ : Type) := Bytes → FetchRes δ

/-- `evr_fetch_signed_xml` with the body of the blob that the storage answered: none where its
status was not ok. -/
def fetchSignedXml {δ : Type} (opVerify : GpgmeOpVerify) (parseXml : ParseXml δ) (ctx : VerifyCtx)
    (blob : Option Bytes) : FetchRes δ × Bytes :=
  match blob with
  | none => (.notFound, [])
  | some buf =>
    match verify opVerify ctx buf buf.length with
    | (.error, metadata) => (.error, metadata)
    | (.userDataInvalid, metadata) => (.userDataInvalid, metadata)
    | (.ok claim, metadata) =>
      match parseXml claim with
      | .ok doc => (.ok doc, metadata)
      | .userDataInvalid => (.userDataInvalid, metadata)
      | _ => (.error, metadata)

/-! ## What is accepted -/

section Accepted

variable {opVerify : GpgmeOpVerify} {fprs : List Bytes} {ctx : VerifyCtx}

theorem mem_verifyAddGpgFprs {fpr : Bytes} : fpr ∈ verifyAddGpgFprs fprs ↔ fpr ∈ fprs := by
  rw [verifyAddGpgFprs, List.foldl_flip_cons_eq_append', List.append_nil, List.mem_reverse]

theorem isSignatureAccepted_iff {signatures : List GpgSignature} :
    isSignatureAccepted ctx signatures = true ↔
      ∃ s ∈ signatures, s.counts = true ∧ s.fpr ∈ ctx.acceptedFprs := by
  have hfound : ∀ fpr : Bytes, (bsearch fpr ctx.acceptedFprs).isSome = true ↔
      fpr ∈ ctx.acceptedFprs := by
    intro fpr
    rw [bsearch_isSome_iff ctx.ascending]
    constructor
    · rintro ⟨fpr', hmem, heq⟩
      rwa [Std.LawfulEqCmp.eq_of_compare heq]
    · exact fun hmem => ⟨fpr, hmem, Std.ReflCmp.compare_self⟩
  induction signatures with
  | nil => simp [isSignatureAccepted]
  | cons s rest ih =>
    unfold isSignatureAccepted
    rw [List.exists_mem_cons_iff]
    split
    · rename_i hcounts
      cases hsearch : bsearch s.fpr ctx.acceptedFprs with
      | none =>
        have hnot : s.fpr ∉ ctx.acceptedFprs := by
          rw [← hfound, hsearch]
          decide
        simpa [hnot] using ih
      | some _ =>
        have hmem : s.fpr ∈ ctx.acceptedFprs := by
          rw [← hfound, hsearch]
          rfl
        exact iff_of_true rfl (.inl ⟨hcounts, hmem⟩)
    · rename_i hcounts
      simpa [hcounts] using ih

theorem verify_ok_iff {s : Bytes} {sMaxlen : Nat} {dest : Bytes} :
    (verify opVerify (buildVerifyCtx fprs) s sMaxlen).1 = .ok dest ↔
      ∃ signatures, opVerify (cString (s.take sMaxlen)) = some (signatures, dest) ∧
        ∃ sig ∈ signatures, sig.counts = true ∧ sig.fpr ∈ fprs := by
  have haccepted : ∀ signatures : List GpgSignature,
      isSignatureAccepted (buildVerifyCtx fprs) signatures = true ↔
        ∃ sig ∈ signatures, sig.counts = true ∧ sig.fpr ∈ fprs := by
    intro signatures
    rw [isSignatureAccepted_iff]
    simp only [buildVerifyCtx, initVerifyCtx, mem_qsort, mem_verifyAddGpgFprs]
  unfold verify
  cases opVerify (cString (s.take sMaxlen)) with
  | none => simp
  | some result =>
    obtain ⟨signatures, out⟩ := result
    dsimp only
    by_cases hacc : isSignatureAccepted (buildVerifyCtx fprs) signatures = true
    · rw [if_pos hacc]
      constructor
      · intro h
        cases h
        exact ⟨signatures, rfl, (haccepted signatures).mp hacc⟩
      · rintro ⟨_, h, -⟩
        cases h
        rfl
    · rw [if_neg hacc]
      refine iff_of_false nofun ?_
      rintro ⟨_, h, hsig⟩
      cases h
      exact hacc ((haccepted signatures).mpr hsig)

theorem fetchSignedXml_ok_iff {δ : Type} {parseXml : ParseXml δ} {blob : Option Bytes} {doc : δ} :
    (fetchSignedXml opVerify parseXml (buildVerifyCtx fprs) blob).1 = .ok doc ↔
      ∃ buf signatures claim, blob = some buf ∧ opVerify (cString buf) = some (signatures, claim) ∧
        (∃ sig ∈ signatures, sig.counts = true ∧ sig.fpr ∈ fprs) ∧ parseXml claim = .ok doc := by
  cases blob with
  | none => simp [fetchSignedXml]
  | some buf =>
    have hverify : ∀ dest, (verify opVerify (buildVerifyCtx fprs) buf buf.length).1 = .ok dest ↔
        ∃ signatures, opVerify (cString buf) = some (signatures, dest) ∧
          ∃ sig ∈ signatures, sig.counts = true ∧ sig.fpr ∈ fprs := fun dest => by
      rw [verify_ok_iff, List.take_length]
    unfold fetchSignedXml
    dsimp only
    generalize verify opVerify (buildVerifyCtx fprs) buf buf.length = result at hverify
    obtain ⟨res, metadata⟩ := result
    have hrefused : ∀ {fetched : FetchRes δ}, fetched ≠ .ok doc → (∀ dest, res ≠ .ok dest) →
        (fetched = .ok doc ↔ ∃ buf' signatures claim, some buf = some buf' ∧
          opVerify (cString buf') = some (signatures, claim) ∧
          (∃ sig ∈ signatures, sig.counts = true ∧ sig.fpr ∈ fprs) ∧ parseXml claim = .ok doc) := by
      intro fetched hfetched hres
      refine iff_of_false hfetched ?_
      rintro ⟨_, signatures, claim, hbuf, hop, hsig, -⟩
      cases hbuf
      exact hres claim ((hverify claim).mpr ⟨signatures, hop, hsig⟩)
    cases res with
    | error => exact hrefused nofun nofun
    | userDataInvalid => exact hrefused nofun nofun
    | ok claim =>
      obtain ⟨signatures, hop, hsig⟩ := (hverify claim).mp rfl
      dsimp only
      constructor
      · intro h
        refine ⟨buf, signatures, claim, rfl, hop, hsig, ?_⟩
        cases hparse : parseXml claim <;> simp only [hparse] at h <;> cases h
        rfl
      · rintro ⟨_, _, _, hbuf, hop', -, hparse⟩
        cases hbuf
        rw [hop] at hop'
        cases hop'
        rw [hparse]

/-- What is written about the signers does not depend on what is accepted. -/
theorem fetchSignedXml_metadata {δ : Type} {parseXml : ParseXml δ} {buf out : Bytes}
    {signatures : List GpgSignature} (h : opVerify (cString buf) = some (signatures, out)) :
    (fetchSignedXml opVerify parseXml ctx (some buf)).2 =
      signatures.flatMap fun s => metaWriteStr metaSignedBy s.fpr := by
  have hmeta : (verify opVerify ctx buf buf.length).2 =
      signatures.flatMap fun s => metaWriteStr metaSignedBy s.fpr := by
    rw [verify, List.take_length, h]
  unfold fetchSignedXml
  dsimp only
  rw [← hmeta]
  generalize verify opVerify ctx buf buf.length = result
  obtain ⟨res, metadata⟩ := result
  cases res with
  | ok claim =>
    dsimp only
    cases parseXml claim <;> rfl
  | userDataInvalid => rfl
  | error => rfl

end Accepted

end Everarch
