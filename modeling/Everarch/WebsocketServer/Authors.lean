import Everarch.Signatures
import Mathlib.Data.List.Induction

/-!
# The signers that a get-verify answer names

`getAndVerify` and the get-verify command of server.js over `evr get-verify --meta`: the body of a
signed claim set with the keys that signed it and the users that these keys belong to.

* `parseMetadata_signedBy`: the metadata that evr writes is read as it was written.
* `userForKey_eq_some_iff`: whose a key is.

Results: `verified_authors`.
-/

namespace Everarch

/-! ## The users -/

/-- `gpg-keys` of the entries of `config.user`, in the order of `Object.keys`. -/
abbrev GpgKeys := List (Bytes × List Bytes)

/-- The entries that `buildUserForKeyMap` sets, the last one first. -/
def buildUserForKeyMap (users : GpgKeys) : List (Bytes × Bytes) :=
  users.foldl (fun map user => user.2.foldl (fun map key => (key, user.1) :: map) map) []

/-- `userForKey.get` where it is not falsy. -/
def userForKey (users : GpgKeys) (key : Bytes) : Option Bytes :=
  ((buildUserForKeyMap users).lookup key).filter fun user => user ≠ []

/-- A user who has the key and nobody after him. -/
def LastOwner (users : GpgKeys) (key user : Bytes) : Prop :=
  ∃ before keys after, users = before ++ (user, keys) :: after ∧ key ∈ keys ∧
    ∀ other ∈ after, key ∉ other.2

/-! ## The metadata -/

/-- One line of `parseMetadata`. -/
def parseMetadataLine (line : Bytes) : Bytes × Bytes :=
  match line.findIdx? (· = equalsSign) with
  | none => ([], line)
  | some eqPos => (line.take eqPos, line.drop (eqPos + 1))

def parseMetadata (metadataTxt : Bytes) : List (Bytes × Bytes) :=
  ((metadataTxt.splitOn lineEnd).filter (· ≠ [])).map parseMetadataLine

/-- signed-by-user. -/
def metaSignedByUser : Bytes := metaSignedBy ++ [45, 117, 115, 101, 114]

/-- The `extraMeta` of the get-verify command behind the metadata. -/
def withUsers (users : GpgKeys) (metadata : List (Bytes × Bytes)) : List (Bytes × Bytes) :=
  metadata ++ metadata.filterMap fun (metaKey, metaValue) =>
    if metaKey ≠ metaSignedBy then none
    else (userForKey users metaValue).map fun user => (metaSignedByUser, user)

/-- The users of the keys of signatures, in the order of the signatures. -/
def signers (users : GpgKeys) (signatures : List GpgSignature) : List Bytes :=
  signatures.filterMap fun s => userForKey users s.fpr

/-! ## The command -/

/-- `evr_cli_get_verify`: what it writes to the standard output, none where it fails, and the
metadata. -/
def cliGetVerify {δ : Type} (opVerify : GpgmeOpVerify) (parseXml : ParseXml δ)
    (xmlDocDump : δ → Option Bytes) (fprs : List Bytes) (blob : Option Bytes) :
    Option Bytes × Bytes :=
  match fetchSignedXml opVerify parseXml (buildVerifyCtx fprs) blob with
  | (.ok doc, metadata) => (xmlDocDump doc, metadata)
  | (_, metadata) => (none, metadata)

/-- The body and the metadata of the answer to get-verify, none for an error. -/
def getVerifyWithMeta {δ : Type} (opVerify : GpgmeOpVerify) (parseXml : ParseXml δ)
    (xmlDocDump : δ → Option Bytes) (fprs : List Bytes) (users : GpgKeys) (blob : Option Bytes) :
    Option (Bytes × List (Bytes × Bytes)) :=
  match cliGetVerify opVerify parseXml xmlDocDump fprs blob with
  | (none, _) => none
  | (some body, metadataTxt) => some (body, withUsers users (parseMetadata metadataTxt))

namespace AuthorLemmas

/-! ## Whose a key is -/

theorem foldl_keys (user : Bytes) (keys : List Bytes) (map : List (Bytes × Bytes)) :
    keys.foldl (fun map key => (key, user) :: map) map =
      keys.reverse.map (fun key => (key, user)) ++ map := by
  induction keys generalizing map with
  | nil => rfl
  | cons key keys ih => simp [ih]

theorem buildUserForKeyMap_snoc (users : GpgKeys) (user : Bytes) (keys : List Bytes) :
    buildUserForKeyMap (users ++ [(user, keys)]) =
      keys.reverse.map (fun key => (key, user)) ++ buildUserForKeyMap users := by
  rw [buildUserForKeyMap, List.foldl_append]
  exact foldl_keys user keys _

theorem lookup_keys (user key : Bytes) (keys : List Bytes) :
    (keys.map fun key => (key, user)).lookup key = if key ∈ keys then some user else none := by
  induction keys with
  | nil => rfl
  | cons other keys ih =>
    rw [List.map_cons, List.lookup_cons, ih]
    by_cases h : key = other
    · simp [h]
    · simp [h, beq_eq_false_iff_ne.mpr h]

theorem lookup_eq_some_iff {users : GpgKeys} {key user : Bytes} :
    (buildUserForKeyMap users).lookup key = some user ↔ LastOwner users key user := by
  induction users using List.reverseRecOn with
  | nil =>
    refine iff_of_false nofun ?_
    rintro ⟨before, keys, after, h, -⟩
    exact absurd h (by simp)
  | append_singleton users last ih =>
    obtain ⟨user', keys⟩ := last
    rw [buildUserForKeyMap_snoc, List.lookup_append, lookup_keys]
    by_cases hkey : key ∈ keys
    · rw [if_pos (List.mem_reverse.mpr hkey), Option.some_or]
      constructor
      · intro h
        obtain rfl := Option.some.inj h
        exact ⟨users, keys, [], rfl, hkey, nofun⟩
      · rintro ⟨before, keys', after, h, hkey', hlast⟩
        cases after using List.reverseRecOn with
        | nil =>
          obtain ⟨-, h⟩ := List.append_inj' h rfl
          cases h
          rfl
        | append_singleton after last =>
          rw [← List.cons_append, ← List.append_assoc] at h
          obtain ⟨-, h⟩ := List.append_inj' h rfl
          cases h
          exact absurd hkey (hlast _ (List.mem_append_right _ (List.mem_singleton_self _)))
    · rw [if_neg (fun h => hkey (List.mem_reverse.mp h)), Option.none_or, ih]
      constructor
      · rintro ⟨before, keys', after, rfl, hkey', hlast⟩
        refine ⟨before, keys', after ++ [(user', keys)], by simp, hkey', ?_⟩
        intro other hother
        rcases List.mem_append.mp hother with hother | hother
        · exact hlast other hother
        · rw [List.mem_singleton.mp hother]
          exact hkey
      · rintro ⟨before, keys', after, h, hkey', hlast⟩
        cases after using List.reverseRecOn with
        | nil =>
          obtain ⟨-, h⟩ := List.append_inj' h rfl
          cases h
          exact absurd hkey' hkey
        | append_singleton after last =>
          rw [← List.cons_append, ← List.append_assoc] at h
          obtain ⟨h, -⟩ := List.append_inj' h rfl
          exact ⟨before, keys', after, h, hkey', fun other hother =>
            hlast other (List.mem_append_left _ hother)⟩

theorem userForKey_eq_some_iff {users : GpgKeys} {key user : Bytes} :
    userForKey users key = some user ↔ user ≠ [] ∧ LastOwner users key user := by
  rw [userForKey, Option.filter_eq_some_iff, lookup_eq_some_iff, and_comm]
  simp

/-! ## What is read of the metadata -/

theorem parseMetadataLine_signedBy (value : Bytes) :
    parseMetadataLine (metaSignedBy ++ [equalsSign] ++ value) = (metaSignedBy, value) := by
  rfl

theorem parseMetadata_signedBy {fprs : List Bytes} (h : ∀ fpr ∈ fprs, lineEnd ∉ fpr) :
    parseMetadata (fprs.flatMap (metaWriteStr metaSignedBy)) =
      fprs.map fun fpr => (metaSignedBy, fpr) := by
  induction fprs with
  | nil => rfl
  | cons fpr fprs ih =>
    have hline : lineEnd ∉ metaSignedBy ++ [equalsSign] ++ fpr := by
      intro hmem
      rcases List.mem_append.mp hmem with hmem | hmem
      · exact absurd hmem (by decide)
      · exact h fpr List.mem_cons_self hmem
    have ih' := ih fun other hother => h other (List.mem_cons_of_mem _ hother)
    unfold parseMetadata at ih' ⊢
    rw [List.flatMap_cons, metaWriteStr, List.append_assoc, List.singleton_append,
      List.splitOn_append_cons_self_of_not_mem hline, List.filter_cons_of_pos (by simp),
      List.map_cons, ih', parseMetadataLine_signedBy, List.map_cons]

theorem withUsers_signedBy (users : GpgKeys) (signatures : List GpgSignature) :
    withUsers users (signatures.map fun s => (metaSignedBy, s.fpr)) =
      signatures.map (fun s => (metaSignedBy, s.fpr)) ++
        (signers users signatures).map fun user => (metaSignedByUser, user) := by
  simp [withUsers, signers, List.filterMap_map, List.map_filterMap]

theorem mem_signers {users : GpgKeys} {signatures : List GpgSignature} {user : Bytes} :
    user ∈ signers users signatures ↔ user ≠ [] ∧ ∃ s ∈ signatures, LastOwner users s.fpr user := by
  rw [signers, List.mem_filterMap]
  simp only [userForKey_eq_some_iff]
  constructor
  · rintro ⟨s, hs, huser, hkey⟩
    exact ⟨huser, s, hs, hkey⟩
  · rintro ⟨huser, s, hs, hkey⟩
    exact ⟨s, hs, huser, hkey⟩

end AuthorLemmas

open AuthorLemmas in
/-- A blob is answered exactly if gpg verifies it, one of its signatures counts and is of an
accepted key, and the text that was signed is a document. The answer has that document and names the
keys of all signatures, whether or not they count. A user is named exactly if one of these keys is
his and of no later user. -/
theorem verified_authors {δ : Type} (opVerify : GpgmeOpVerify) (parseXml : ParseXml δ)
    (xmlDocDump : δ → Option Bytes) (fprs : List Bytes) (users : GpgKeys) (buf : Bytes)
    (hlines : ∀ signatures out, opVerify (cString buf) = some (signatures, out) →
      ∀ s ∈ signatures, lineEnd ∉ s.fpr) :
    (∀ body metadata,
      getVerifyWithMeta opVerify parseXml xmlDocDump fprs users (some buf) = some (body, metadata) ↔
        ∃ signatures claim doc, opVerify (cString buf) = some (signatures, claim) ∧
          (∃ s ∈ signatures, s.counts = true ∧ s.fpr ∈ fprs) ∧
          parseXml claim = .ok doc ∧ xmlDocDump doc = some body ∧
          metadata = signatures.map (fun s => (metaSignedBy, s.fpr)) ++
            (signers users signatures).map fun user => (metaSignedByUser, user)) ∧
    ∀ signatures user, user ∈ signers users signatures ↔
      user ≠ [] ∧ ∃ s ∈ signatures, LastOwner users s.fpr user := by
  refine ⟨fun body metadata => ?_, fun signatures user => mem_signers⟩
  have hread : ∀ signatures out, opVerify (cString buf) = some (signatures, out) →
      withUsers users (parseMetadata
        (fetchSignedXml opVerify parseXml (buildVerifyCtx fprs) (some buf)).2) =
          signatures.map (fun s => (metaSignedBy, s.fpr)) ++
            (signers users signatures).map fun user => (metaSignedByUser, user) := by
    intro signatures out hop
    have hfprs : ∀ fpr ∈ signatures.map (·.fpr), lineEnd ∉ fpr := by
      intro fpr hfpr
      obtain ⟨s, hs, rfl⟩ := List.mem_map.mp hfpr
      exact hlines signatures out hop s hs
    have hparse := parseMetadata_signedBy hfprs
    rw [List.flatMap_map, List.map_map] at hparse
    rw [fetchSignedXml_metadata hop, hparse]
    exact withUsers_signedBy users signatures
  have hok := fun doc => @fetchSignedXml_ok_iff opVerify fprs δ parseXml (some buf) doc
  unfold getVerifyWithMeta cliGetVerify
  generalize fetchSignedXml opVerify parseXml (buildVerifyCtx fprs) (some buf) = fetched at hread hok
  obtain ⟨res, metadataTxt⟩ := fetched
  constructor
  · intro h
    cases res with
    | ok doc =>
      obtain ⟨_, signatures, claim, hbuf, hop, hsig, hdoc⟩ := (hok doc).mp rfl
      cases hbuf
      cases hdump : xmlDocDump doc with
      | none => simp [hdump] at h
      | some out =>
        simp only [hdump] at h
        cases h
        exact ⟨signatures, claim, doc, hop, hsig, hdoc, hdump, hread signatures claim hop⟩
    | _ => cases h
  · rintro ⟨signatures, claim, doc, hop, hsig, hdoc, hdump, rfl⟩
    obtain rfl : res = .ok doc := (hok doc).mpr ⟨buf, signatures, claim, rfl, hop, hsig, hdoc⟩
    simp only [hdump]
    rw [hread signatures claim hop]

/-- A signature that does not verify next to one that does: both users are named. -/
theorem verified_authors_bad_signature :
    getVerifyWithMeta (fun s => some ([⟨4, [98]⟩, ⟨3, [97]⟩], s)) FetchRes.ok some [[97]]
        [([1], [[97]]), ([2], [[98]])] (some [60]) =
      some ([60], [(metaSignedBy, [98]), (metaSignedBy, [97]), (metaSignedByUser, [2]),
        (metaSignedByUser, [1])]) := by
  refine ((verified_authors (fun s => some ([⟨4, [98]⟩, ⟨3, [97]⟩], s)) FetchRes.ok some [[97]]
    [([1], [[97]]), ([2], [[98]])] [60] ?_).1 _ _).mpr ?_
  · intro signatures out h
    cases h
    decide
  · exact ⟨_, _, _, rfl, ⟨⟨3, [97]⟩, by decide, by decide, by decide⟩, rfl, rfl, by decide⟩

end Everarch
