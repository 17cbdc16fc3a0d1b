import Everarch.Basic
import Mathlib.Tactic.SplitIfs

/-!
# Reference texts

`evr_fmt_blob_ref`, `evr_fmt_claim_ref` and the parsers of keys.c, with the part
of `sscanf` they use.
-/

namespace Everarch

/-! ## sscanf -/

/-- `isspace` in the C locale. -/
def isSpaceChar (c : Char) : Bool :=
  c == ' ' || c == '\t' || c == '\n' || c == '\r' || c.toNat == 11 || c.toNat == 12

/-- The value of a decimal digit. -/
def decDigit (c : Char) : Option Nat :=
  if '0' ≤ c ∧ c ≤ '9' then some (c.toNat - '0'.toNat) else none

/-- The value of a hexadecimal digit in either case. -/
def hexDigit (c : Char) : Option Nat :=
  if '0' ≤ c ∧ c ≤ '9' then some (c.toNat - '0'.toNat)
  else if 'a' ≤ c ∧ c ≤ 'f' then some (c.toNat - 'a'.toNat + 10)
  else if 'A' ≤ c ∧ c ≤ 'F' then some (c.toNat - 'A'.toNat + 10)
  else none

/-- The longest run of digits at the start of a text, as digit values. -/
def leadingDigits (digit : Char → Option Nat) : List Char → List Nat
  | [] => []
  | c :: cs =>
    match digit c with
    | none => []
    | some d => d :: leadingDigits digit cs

/-- The number that digits spell in the given base. -/
def ofDigits (base : Nat) (ds : List Nat) : Nat :=
  ds.foldl (fun n d => n * base + d) 0

/-- An optional sign and the text after it. -/
def scanSign : List Char → Bool × List Char
  | '-' :: cs => (true, cs)
  | '+' :: cs => (false, cs)
  | cs => (false, cs)

/-- `sscanf(s, "%<width>x", &v) == 1` with `unsigned int v`. White space before
the number is skipped and does not count, a sign and the prefix 0x do. -/
def sscanfHex (width : Nat) (s : List Char) : Option Nat :=
  let (neg, s) := scanSign ((s.dropWhile isSpaceChar).take width)
  let (hexMark, s) :=
    match s with
    | '0' :: 'x' :: cs => (true, cs)
    | '0' :: 'X' :: cs => (true, cs)
    | cs => (false, cs)
  let ds := leadingDigits hexDigit s
  if ds.isEmpty && !hexMark then none
  else
    let n := ofDigits 16 ds
    some (if neg then (2 ^ 32 - n % 2 ^ 32) % 2 ^ 32 else n % 2 ^ 32)

/-- `sscanf(s, "%d", &v) == 1` with `int v`: the number is read as `long`, kept in
its range and converted. -/
def sscanfInt (s : List Char) : Option Int :=
  let (neg, s) := scanSign (s.dropWhile isSpaceChar)
  let ds := leadingDigits decDigit s
  if ds.isEmpty then none
  else
    let n : Int := ofDigits 10 ds
    let n := if neg then -n else n
    some (toInt32 (max (-2 ^ 63) (min (2 ^ 63 - 1) n)))

/-- `sscanf(s, "%zu", &v) == 1` with `size_t v`: read as `unsigned long`, a minus
sign wraps around. -/
def sscanfSize (s : List Char) : Option Nat :=
  let (neg, s) := scanSign (s.dropWhile isSpaceChar)
  let ds := leadingDigits decDigit s
  if ds.isEmpty then none
  else
    let n := ofDigits 10 ds
    if 2 ^ 64 ≤ n then some (2 ^ 64 - 1)
    else some (if neg then (2 ^ 64 - n) % 2 ^ 64 else n)

/-! ## Formatting -/

/-- One lower case hexadecimal digit. -/
def fmtHexDigit (n : Nat) : Char :=
  if n % 16 < 10 then Char.ofNat ('0'.toNat + n % 16) else Char.ofNat ('a'.toNat + (n % 16 - 10))

/-- `%02x` of a byte. -/
def fmtHexByte (b : UInt8) : List Char :=
  [fmtHexDigit (b.toNat / 16), fmtHexDigit b.toNat]

/-- `evr_blob_ref_str_prefix`. -/
def blobRefStrPrefix : List Char := "sha3-224-".toList

/-- `evr_fmt_blob_ref`. -/
def fmtBlobRef (key : BlobRef) : List Char :=
  blobRefStrPrefix ++ key.toList.flatMap fmtHexByte

/-- `evr_fmt_claim_ref`. -/
def fmtClaimRef (cref : ClaimRef) : List Char :=
  fmtBlobRef (splitClaimRef cref).1 ++ '-' :: (cref.toList.drop blobRefSize).flatMap fmtHexByte

/-! ## Parsing -/

/-- The loop of `evr_parse_blob_ref` over the bytes of the key. The buffer keeps
what it held before where the loop ends early. -/
def parseBlobRefLoop (i : Nat) (key : BlobRef) : List Char → Res × BlobRef
  | c0 :: c1 :: p =>
    match sscanfHex 2 [c0, c1] with
    | none => (.error, key)
    | some v =>
      if 255 < v then (.error, key)
      else if h : i < blobRefSize then
        parseBlobRefLoop (i + 1) (key.set i (UInt8.ofNat v)) p
      else (.ok, key)
  | _ => (.ok, key)

/-- `evr_parse_blob_ref`. -/
def parseBlobRef (key : BlobRef) (fmtKey : List Char) : Res × BlobRef :=
  if fmtKey.take blobRefStrPrefix.length ≠ blobRefStrPrefix then (.error, key)
  else
    let p := fmtKey.drop blobRefStrPrefix.length
    if p.length ≠ 2 * blobRefSize then (.error, key)
    else parseBlobRefLoop 0 key p

/-- `evr_blob_ref_str_size - 1`. -/
def blobRefStrLen : Nat := 9 + 2 * blobRefSize

/-- `evr_claim_ref_str_size - 1`. -/
def claimRefStrLen : Nat := blobRefStrLen + 1 + 4

/-- `evr_parse_claim_ref`. The result of `evr_parse_blob_ref` is not looked at, so
the blob ref part of the buffer may keep what it held before. -/
def parseClaimRef (cref : ClaimRef) (fmtRef : List Char) : Res × ClaimRef :=
  if fmtRef.length ≠ claimRefStrLen then (.error, cref)
  else
    let bref := (parseBlobRef (splitClaimRef cref).1 (fmtRef.take blobRefStrLen)).2
    match fmtRef.drop blobRefStrLen with
    | '-' :: s =>
      match sscanfHex 4 s with
      | none => (.error, bref ++ #v[cref.get ⟨28, by decide⟩, cref.get ⟨29, by decide⟩])
      | some indexRef => (.ok, buildClaimRef bref indexRef)
    | _ => (.error, bref ++ #v[cref.get ⟨28, by decide⟩, cref.get ⟨29, by decide⟩])

/-! ## Texts that are read back -/

namespace RefTextLemmas

theorem hexDigit_fmtHexDigit (n : Nat) : hexDigit (fmtHexDigit n) = some (n % 16) := by
  have h : ∀ m : Fin 16, hexDigit (fmtHexDigit m) = some m.val := by decide +kernel
  have hn := h ⟨n % 16, Nat.mod_lt _ (by decide)⟩
  rwa [show fmtHexDigit (n % 16) = fmtHexDigit n by
    unfold fmtHexDigit
    rw [Nat.mod_mod]] at hn

/-- A digit is no white space, no end of a text, no sign and no mark of the base. -/
theorem fmtHexDigit_plain (n : Nat) :
    (isSpaceChar (fmtHexDigit n) = false ∧ fmtHexDigit n ≠ '\x00') ∧ fmtHexDigit n ≠ '-' ∧
      fmtHexDigit n ≠ '+' ∧ fmtHexDigit n ≠ 'x' ∧ fmtHexDigit n ≠ 'X' := by
  have h : ∀ m : Fin 16, (isSpaceChar (fmtHexDigit m) = false ∧ fmtHexDigit m ≠ '\x00') ∧
      fmtHexDigit m ≠ '-' ∧ fmtHexDigit m ≠ '+' ∧ fmtHexDigit m ≠ 'x' ∧ fmtHexDigit m ≠ 'X' := by
    decide +kernel
  have hn := h ⟨n % 16, Nat.mod_lt _ (by decide)⟩
  rwa [show fmtHexDigit (n % 16) = fmtHexDigit n by
    unfold fmtHexDigit
    rw [Nat.mod_mod]] at hn

theorem leadingDigits_fmt (ns : List Nat) :
    leadingDigits hexDigit (ns.map fmtHexDigit) = ns.map (· % 16) := by
  induction ns with
  | nil => rfl
  | cons n ns ih =>
    rw [List.map_cons, leadingDigits, hexDigit_fmtHexDigit, ih, List.map_cons]

theorem scanSign_of_ne {c : Char} (hminus : c ≠ '-') (hplus : c ≠ '+') (cs : List Char) :
    scanSign (c :: cs) = (false, c :: cs) := by
  unfold scanSign
  split
  · rename_i h
    exact absurd (List.cons.inj h).1 hminus
  · rename_i h
    exact absurd (List.cons.inj h).1 hplus
  · rfl

/-- Digits are read as the number that they spell. -/
theorem sscanfHex_digits (n m : Nat) (ns : List Nat) :
    sscanfHex (n :: m :: ns).length ((n :: m :: ns).map fmtHexDigit) =
      some (ofDigits 16 ((n :: m :: ns).map (· % 16)) % 2 ^ 32) := by
  obtain ⟨⟨hspace, -⟩, hminus, hplus, -, -⟩ := fmtHexDigit_plain n
  obtain ⟨-, -, -, hx, hX⟩ := fmtHexDigit_plain m
  have hdrop : ((n :: m :: ns).map fmtHexDigit).dropWhile isSpaceChar =
      (n :: m :: ns).map fmtHexDigit := by
    rw [List.map_cons, List.dropWhile_cons_of_neg (by rw [hspace]; decide)]
  have htake : ((n :: m :: ns).map fmtHexDigit).take (n :: m :: ns).length =
      (n :: m :: ns).map fmtHexDigit := by
    rw [← List.length_map fmtHexDigit, List.take_length]
  have hsign : scanSign ((n :: m :: ns).map fmtHexDigit) =
      (false, (n :: m :: ns).map fmtHexDigit) := scanSign_of_ne hminus hplus _
  have hdigits := leadingDigits_fmt (n :: m :: ns)
  unfold sscanfHex
  rw [hdrop, htake, hsign]
  simp only
  split
  · rename_i h
    exact absurd (List.cons.inj (List.cons.inj h).2).1 hx
  · rename_i h
    exact absurd (List.cons.inj (List.cons.inj h).2).1 hX
  · rw [hdigits]
    rfl

theorem sscanfHex_fmtHexByte (b : UInt8) : sscanfHex 2 (fmtHexByte b) = some b.toNat := by
  have h := sscanfHex_digits (b.toNat / 16) b.toNat []
  refine h.trans (congrArg some ?_)
  have hb := UInt8.toNat_lt b
  simp only [List.map_cons, List.map_nil, ofDigits, List.foldl_cons, List.foldl_nil]
  omega

theorem length_fmtHexBytes (bs : List UInt8) : (bs.flatMap fmtHexByte).length = 2 * bs.length := by
  induction bs with
  | nil => rfl
  | cons b bs ih =>
    rw [List.flatMap_cons, List.length_append, ih, List.length_cons, fmtHexByte]
    show 2 + 2 * bs.length = 2 * (bs.length + 1)
    ring

theorem length_fmtBlobRef (key : BlobRef) : (fmtBlobRef key).length = blobRefStrLen := by
  rw [fmtBlobRef, List.length_append, length_fmtHexBytes, Vector.length_toList]
  rfl

theorem parseBlobRefLoop_cons (i : Nat) (key : BlobRef) (c0 c1 : Char) (p : List Char) :
    parseBlobRefLoop i key (c0 :: c1 :: p) =
      match sscanfHex 2 [c0, c1] with
      | none => (.error, key)
      | some v =>
        if 255 < v then (.error, key)
        else if h : i < blobRefSize then
          parseBlobRefLoop (i + 1) (key.set i (UInt8.ofNat v)) p
        else (.ok, key) := (rfl)

/-- The loop sets one byte after the other. -/
theorem parseBlobRefLoop_fmt (key k : BlobRef) (i : Nat) (hi : i ≤ blobRefSize)
    (hsame : ∀ (j : Nat) (hj : j < blobRefSize), j < i → key[j] = k[j]) :
    parseBlobRefLoop i key ((k.toList.drop i).flatMap fmtHexByte) = (.ok, k) := by
  induction hn : blobRefSize - i generalizing i key with
  | zero =>
    have hdrop : k.toList.drop i = [] :=
      List.drop_eq_nil_iff.mpr (by rw [Vector.length_toList]; omega)
    rw [hdrop]
    refine Prod.ext rfl (Vector.ext fun j hj => hsame j hj (by omega))
  | succ n ih =>
    have hlt : i < blobRefSize := by omega
    have hdrop : k.toList.drop i = k[i] :: k.toList.drop (i + 1) := by
      rw [List.drop_eq_getElem_cons (by rw [Vector.length_toList]; exact hlt)]
      simp
    rw [hdrop, List.flatMap_cons, fmtHexByte]
    rw [List.cons_append, List.cons_append, List.nil_append, parseBlobRefLoop_cons]
    have hscan := sscanfHex_fmtHexByte k[i]
    rw [fmtHexByte] at hscan
    rw [hscan]
    simp only
    rw [if_neg (Nat.not_lt.mpr (Nat.le_of_lt_succ (UInt8.toNat_lt k[i]))), dif_pos hlt,
      UInt8.ofNat_toNat]
    refine ih _ (i + 1) hlt (fun j hj hle => ?_) (by omega)
    rw [Vector.getElem_set]
    split_ifs with heq
    · cases heq
      rfl
    · exact hsame j hj (by omega)

theorem parseBlobRef_fmtBlobRef (key k : BlobRef) : parseBlobRef key (fmtBlobRef k) = (.ok, k) := by
  have htake : (fmtBlobRef k).take blobRefStrPrefix.length = blobRefStrPrefix :=
    List.take_left
  have hdrop : (fmtBlobRef k).drop blobRefStrPrefix.length = k.toList.flatMap fmtHexByte :=
    List.drop_left
  unfold parseBlobRef
  rw [htake, hdrop]
  simp only
  rw [if_neg (not_not.mpr rfl), if_neg (not_not.mpr _)]
  · exact parseBlobRefLoop_fmt key k 0 (Nat.zero_le _) fun j _ h => absurd h (Nat.not_lt_zero j)
  · rw [length_fmtHexBytes, Vector.length_toList]

theorem length_fmtClaimRef (cref : ClaimRef) : (fmtClaimRef cref).length = claimRefStrLen := by
  rw [fmtClaimRef, List.length_append, length_fmtBlobRef, List.length_cons, length_fmtHexBytes,
    List.length_drop, Vector.length_toList]
  rfl

/-- The two bytes behind the blob ref. -/
theorem drop_claimRef (cref : ClaimRef) :
    cref.toList.drop blobRefSize = [cref.get ⟨28, blobRefSize_lt_claimRefSize⟩,
      cref.get ⟨29, blobRefSize_succ_lt_claimRefSize⟩] := by
  rw [List.drop_eq_getElem_cons (by rw [Vector.length_toList]; decide),
    List.drop_eq_getElem_cons (by rw [Vector.length_toList]; decide),
    List.drop_eq_nil_iff.mpr (by rw [Vector.length_toList]; decide)]
  rfl

theorem sscanfHex_index (a b : UInt8) :
    sscanfHex 4 ([a, b].flatMap fmtHexByte) = some (a.toNat * 256 + b.toNat) := by
  have h := sscanfHex_digits (a.toNat / 16) a.toNat [b.toNat / 16, b.toNat]
  refine h.trans (congrArg some ?_)
  have ha := UInt8.toNat_lt a
  have hb := UInt8.toNat_lt b
  simp only [List.map_cons, List.map_nil, ofDigits, List.foldl_cons, List.foldl_nil]
  omega

theorem ofNat_index (a b : UInt8) :
    UInt8.ofNat ((a.toNat * 256 + b.toNat) / 256) = a ∧
      UInt8.ofNat (a.toNat * 256 + b.toNat) = b := by
  have ha := UInt8.toNat_lt a
  have hb := UInt8.toNat_lt b
  constructor
  · refine UInt8.toNat_inj.mp ?_
    rw [UInt8.toNat_ofNat']
    omega
  · refine UInt8.toNat_inj.mp ?_
    rw [UInt8.toNat_ofNat']
    omega

theorem toList_splitClaimRef (cref : ClaimRef) :
    (splitClaimRef cref).1.toList = cref.toList.take blobRefSize := by
  refine List.ext_getElem ?_ fun i hi hi' => ?_
  · rw [Vector.length_toList, List.length_take, Vector.length_toList]
    rfl
  · rw [List.getElem_take, Vector.getElem_toList, Vector.getElem_toList]
    exact Vector.getElem_ofFn _

theorem buildClaimRef_splitClaimRef (cref : ClaimRef) :
    buildClaimRef (splitClaimRef cref).1
      ((cref.get ⟨28, blobRefSize_lt_claimRefSize⟩).toNat * 256 +
        (cref.get ⟨29, blobRefSize_succ_lt_claimRefSize⟩).toNat) = cref := by
  refine Vector.toList_inj.mp ?_
  obtain ⟨hhigh, hlow⟩ := ofNat_index (cref.get ⟨28, blobRefSize_lt_claimRefSize⟩)
    (cref.get ⟨29, blobRefSize_succ_lt_claimRefSize⟩)
  unfold buildClaimRef
  rw [hhigh, hlow]
  refine Vector.toList_append.trans ?_
  rw [toList_splitClaimRef]
  exact (congrArg _ (drop_claimRef cref).symm).trans (List.take_append_drop _ _)

/-- A claim ref is read as it is written. -/
theorem parseClaimRef_fmtClaimRef (before cref : ClaimRef) :
    parseClaimRef before (fmtClaimRef cref) = (.ok, cref) := by
  have hblob := length_fmtBlobRef (splitClaimRef cref).1
  have htake : (fmtClaimRef cref).take blobRefStrLen = fmtBlobRef (splitClaimRef cref).1 := by
    rw [fmtClaimRef, ← hblob, List.take_left]
  have hdrop : (fmtClaimRef cref).drop blobRefStrLen =
      '-' :: (cref.toList.drop blobRefSize).flatMap fmtHexByte := by
    rw [fmtClaimRef, ← hblob, List.drop_left]
  unfold parseClaimRef
  rw [if_neg (not_not.mpr (length_fmtClaimRef cref)), htake, hdrop, parseBlobRef_fmtBlobRef,
    drop_claimRef]
  simp only [sscanfHex_index, buildClaimRef_splitClaimRef]

theorem fmtHexBytes_plain {bs : List UInt8} {c : Char} (h : c ∈ bs.flatMap fmtHexByte) :
    isSpaceChar c = false ∧ c ≠ '\x00' := by
  obtain ⟨b, -, hc⟩ := List.mem_flatMap.mp h
  simp only [fmtHexByte, List.mem_cons, List.not_mem_nil, or_false] at hc
  rcases hc with rfl | rfl
  · exact (fmtHexDigit_plain _).1
  · exact (fmtHexDigit_plain _).1

/-- No white space stands in a claim ref. -/
theorem fmtClaimRef_plain {cref : ClaimRef} {c : Char} (h : c ∈ fmtClaimRef cref) :
    isSpaceChar c = false ∧ c ≠ '\x00' := by
  rw [fmtClaimRef, List.mem_append, List.mem_cons, fmtBlobRef, List.mem_append] at h
  rcases h with (hmark | hblob) | rfl | hindex
  · have hplain : (blobRefStrPrefix.all fun c => !isSpaceChar c && c != '\x00') = true := by
      decide +kernel
    simpa using List.all_eq_true.mp hplain c hmark
  · exact fmtHexBytes_plain hblob
  · decide
  · exact fmtHexBytes_plain hindex

end RefTextLemmas

/-! ## Small sets of claim refs -/

/-- `struct evr_claim_ref_tiny_set`: room for `refsLen` refs and one flag for each
first byte that was ever added. -/
structure ClaimRefTinySet where
  refsLen : Nat
  refs : List ClaimRef
  hashSet : Vector Bool 256

/-- `evr_create_claim_ref_tiny_set`. -/
def createClaimRefTinySet (refsLen : Nat) : ClaimRefTinySet :=
  ⟨refsLen, [], Vector.replicate 256 false⟩

/-- `evr_claim_ref_tiny_set_add`. -/
def claimRefTinySetAdd (set : ClaimRefTinySet) (ref : ClaimRef) : Res × ClaimRefTinySet :=
  let hs := (ref.get ⟨0, by decide⟩).toFin
  if set.hashSet.get hs && set.refs.contains ref then (.exists_, set)
  else
    let set := { set with hashSet := set.hashSet.set hs true }
    if set.refsLen ≤ set.refs.length then (.error, set)
    else (.ok, { set with refs := set.refs ++ [ref] })

namespace ClaimRefTinySet

/-- The flag of a ref. -/
def hs (ref : ClaimRef) : Fin 256 :=
  (ref.get ⟨0, by decide⟩).toFin

/-- Every ref in the set has its flag. -/
def Marked (set : ClaimRefTinySet) : Prop :=
  ∀ ref ∈ set.refs, set.hashSet.get (hs ref) = true

end ClaimRefTinySet

namespace TinySetLemmas

open ClaimRefTinySet

variable {set : ClaimRefTinySet} {ref : ClaimRef}

theorem mem_of_exists (h : (claimRefTinySetAdd set ref).1 = .exists_) : ref ∈ set.refs := by
  unfold claimRefTinySetAdd at h
  simp only at h
  split_ifs at h with hmem
  exact List.contains_iff_mem.mp (Bool.and_eq_true_iff.mp hmem).2

theorem mem_refs_add {r : ClaimRef} (h : r ∈ (claimRefTinySetAdd set ref).2.refs) :
    r ∈ set.refs ∨ r = ref := by
  unfold claimRefTinySetAdd at h
  simp only at h
  split_ifs at h
  · exact .inl h
  · exact .inl h
  · exact (List.mem_append.mp h).imp_right List.mem_singleton.mp

theorem marked_create (refsLen : Nat) : (createClaimRefTinySet refsLen).Marked :=
  fun _ h => absurd h List.not_mem_nil

theorem add_of_mem (hset : set.Marked) (h : ref ∈ set.refs) :
    claimRefTinySetAdd set ref = (.exists_, set) :=
  if_pos (Bool.and_eq_true_iff.mpr ⟨hset ref h, List.contains_iff_mem.mpr h⟩)

theorem add_of_notMem (h : ref ∉ set.refs) (hroom : set.refs.length < set.refsLen) :
    claimRefTinySetAdd set ref =
      (.ok, ⟨set.refsLen, set.refs ++ [ref], set.hashSet.set (hs ref) true⟩) := by
  unfold claimRefTinySetAdd
  simp only
  rw [if_neg, if_neg (Nat.not_le.mpr hroom)]
  · rfl
  · intro hmem
    exact h (List.contains_iff_mem.mp (Bool.and_eq_true_iff.mp hmem).2)

theorem marked_append (hset : set.Marked) :
    Marked ⟨set.refsLen, set.refs ++ [ref], set.hashSet.set (hs ref) true⟩ := by
  intro r hr
  show (set.hashSet.set (hs ref) true)[(hs r : Nat)] = true
  rw [Vector.getElem_set]
  split_ifs with hflag
  · rfl
  · rcases List.mem_append.mp hr with hold | hnew
    · exact hset r hold
    · exact absurd (congrArg (fun r => (hs r : Nat)) (List.mem_singleton.mp hnew).symm) hflag

end TinySetLemmas

end Everarch
