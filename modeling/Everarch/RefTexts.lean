import Everarch.Keys
import Everarch.AttrIndex.Gate
import Mathlib.Tactic.IntervalCases

/-!
# What the texts of refs and tokens mean

The parsers read two characters at a time with `sscanf`.

* `RefTextLemmas.sscanfHex_isSome`: a number is read where a digit stands behind blanks and a sign;
* `RefTextLemmas.readPairs_hex`: pairs of digits give the bytes whose text is the digits in lower
  case;
* `RefTextLemmas.parseBlobRefLoop_eq`, `RefTextLemmas.parseAuthToken_eq`: both parsers read the
  pairs one after the other;
* `refTexts_roundTrip`: what is formatted is read back, and different values have different texts;
* `refParsers_exact_iff`: the texts at which a parser accepts exactly its grammar.
-/

namespace Everarch

/-! ## Tokens -/

/-- `evr_auth_token`. -/
abbrev AuthToken := Vector UInt8 authTokenSize

/-- The characters of a string. -/
def bytesText (s : Bytes) : List Char :=
  s.map fun b => Char.ofNat b.toNat

/-- `evr_fmt_auth_token`. -/
def fmtAuthToken (t : AuthToken) : List Char :=
  t.toList.flatMap fmtHexByte

/-- A loop that sets one byte after the other from pairs of characters. It stops at the first pair
that is not read, and leaves the rest of the buffer as it was. -/
def pairsLoop {n : Nat} (read : Char → Char → Option UInt8) (i : Nat) (key : Vector UInt8 n) :
    List Char → Res × Vector UInt8 n
  | c0 :: c1 :: p =>
    match read c0 c1 with
    | none => (.error, key)
    | some b =>
      if h : i < n then pairsLoop read (i + 1) (key.set i b) p
      else (.ok, key)
  | _ => (.ok, key)

/-- The value of `t[i] = v`: it keeps the last eight bits. -/
def tokenByte (c0 c1 : Char) : Option UInt8 :=
  (sscanfHex 2 [c0, c1]).map UInt8.ofNat

/-- The value of `key[i] = v`, behind the check that it is a byte. -/
def blobRefByte (c0 c1 : Char) : Option UInt8 :=
  match sscanfHex 2 [c0, c1] with
  | none => none
  | some v => if 255 < v then none else some (UInt8.ofNat v)

/-- `evr_parse_auth_token` with the buffer of its result. -/
def parseAuthTokenInto (t : AuthToken) (s : List Char) : Res × AuthToken :=
  if s.length ≠ 2 * authTokenSize then (.error, t)
  else pairsLoop tokenByte 0 t s

/-! ## Grammars -/

/-- A hexadecimal digit in either case. -/
def isHexChar (c : Char) : Bool :=
  (hexDigit c).isSome

/-- The grammar of a blob ref. -/
def IsBlobRefText (s : List Char) : Prop :=
  ∃ ds, s = blobRefStrPrefix ++ ds ∧ ds.length = 2 * blobRefSize ∧ ∀ c ∈ ds, isHexChar c = true

/-- The grammar of a claim ref. -/
def IsClaimRefText (s : List Char) : Prop :=
  ∃ bref ds, s = bref ++ '-' :: ds ∧ IsBlobRefText bref ∧ ds.length = 4 ∧
    ∀ c ∈ ds, isHexChar c = true

/-- The grammar of a token. -/
def IsAuthTokenText (s : List Char) : Prop :=
  s.length = 2 * authTokenSize ∧ ∀ c ∈ s, isHexChar c = true

/-- A parser that accepts exactly the texts of a grammar, whatever its result buffer held before,
and whose result is what the text says. -/
structure ParsesExactly {K : Type} (parse : K → Res × K) (fmt : K → List Char)
    (grammar : List Char → Prop) (s : List Char) : Prop where
  accepts : ∀ before, (parse before).1 = .ok ↔ grammar s
  formats : ∀ before key, parse before = (.ok, key) → fmt key = s.map Char.toLower

/-! ## Pairs of characters -/

/-- The bytes that a text gives pair by pair. -/
def readPairs {α β : Type} (read : α → α → Option β) : List α → Option (List β)
  | a :: b :: p =>
    match read a b with
    | none => none
    | some v => (readPairs read p).map (v :: ·)
  | _ => some []

/-- A condition on the pairs that a text is made of. -/
def pairsAll (r : Char → Char → Bool) : List Char → Bool
  | a :: b :: p => r a b && pairsAll r p
  | _ => true

/-- Two digits. -/
def hexPair (a b : Char) : Bool :=
  isHexChar a && isHexChar b

/-- Two characters in which `sscanf` finds a number. -/
def numberPair (a b : Char) : Bool :=
  isHexChar a || isHexChar b && (isSpaceChar a || a == '+' || a == '-')

/-- Two characters that are read as a byte of a blob ref: a negative number is too large. -/
def bytePair (a b : Char) : Bool :=
  numberPair a b && !(a == '-' && b != '0')

/-- What is read as the index of a claim: a digit behind blanks and a sign. -/
def startsNumber (s : List Char) : Bool :=
  (scanSign (s.dropWhile isSpaceChar)).2.head?.any isHexChar

namespace RefTextLemmas

/-! ## Digits -/

theorem blobRefStrPrefix_eq :
    blobRefStrPrefix = ['s', 'h', 'a', '3', '-', '2', '2', '4', '-'] :=
  String.toList_ofList

/-- The digits, as a list because a text would be decoded at each look at it. -/
def hexChars : List Char :=
  ['0', '1', '2', '3', '4', '5', '6', '7', '8', '9', 'a', 'b', 'c', 'd', 'e', 'f',
    'A', 'B', 'C', 'D', 'E', 'F']

theorem hexDigit_mem {c : Char} {x : Nat} (h : hexDigit c = some x) :
    c ∈ hexChars := by
  have hval : c = Char.ofNat c.toNat := (Char.ofNat_toNat c).symm
  have hrange : 48 ≤ c.toNat ∧ c.toNat ≤ 57 ∨ 97 ≤ c.toNat ∧ c.toNat ≤ 102 ∨
      65 ≤ c.toNat ∧ c.toNat ≤ 70 := by
    unfold hexDigit at h
    split_ifs at h with h0 h1 h2
    · exact .inl h0
    · exact .inr (.inl h1)
    · exact .inr (.inr h2)
  generalize c.toNat = n at hval hrange
  subst hval
  rcases hrange with ⟨hlo, hhi⟩ | ⟨hlo, hhi⟩ | ⟨hlo, hhi⟩ <;> interval_cases n <;> decide

/-- What is true of a digit. -/
structure DigitFacts (c : Char) (x : Nat) : Prop where
  small : x < 16
  lower : fmtHexDigit x = c.toLower
  space : isSpaceChar c = false
  minus : c ≠ '-'
  plus : c ≠ '+'
  mark : c ≠ 'x' ∧ c ≠ 'X'

theorem digitFacts {c : Char} {x : Nat} (h : hexDigit c = some x) : DigitFacts c x := by
  have hall : (hexChars.all fun c => (hexDigit c).all fun x =>
      decide (x < 16 ∧ fmtHexDigit x = c.toLower ∧ isSpaceChar c = false ∧ c ≠ '-' ∧ c ≠ '+' ∧
        c ≠ 'x' ∧ c ≠ 'X')) = true := by
    decide +kernel
  have hdigit := List.all_eq_true.mp hall c (hexDigit_mem h)
  rw [h] at hdigit
  obtain ⟨h1, h2, h3, h4, h5, h6⟩ := of_decide_eq_true hdigit
  exact ⟨h1, h2, h3, h4, h5, h6⟩

theorem isHexChar_iff {c : Char} : isHexChar c = true ↔ ∃ x, hexDigit c = some x :=
  Option.isSome_iff_exists

/-! ## Numbers -/

theorem leadingDigits_isEmpty (s : List Char) :
    (leadingDigits hexDigit s).isEmpty = !s.head?.any isHexChar := by
  cases s with
  | nil => rfl
  | cons c cs =>
    unfold leadingDigits
    simp only [List.head?_cons, Option.any_some, isHexChar]
    cases hexDigit c with
    | none => rfl
    | some d => rfl

/-- A number is read where a digit stands behind blanks and a sign. -/
theorem sscanfHex_isSome (w : Nat) (s : List Char) :
    (sscanfHex w s).isSome =
      (scanSign ((s.dropWhile isSpaceChar).take w)).2.head?.any isHexChar := by
  unfold sscanfHex
  generalize scanSign ((s.dropWhile isSpaceChar).take w) = t
  obtain ⟨neg, t⟩ := t
  simp only
  split
  · simp only [Bool.not_true, Bool.and_false]
    rfl
  · simp only [Bool.not_true, Bool.and_false]
    rfl
  · rw [leadingDigits_isEmpty]
    cases t.head?.any isHexChar <;> rfl

theorem sscanfHex_isSome_short {w : Nat} {s : List Char} (h : s.length ≤ w) :
    (sscanfHex w s).isSome = startsNumber s := by
  have hle : (s.dropWhile isSpaceChar).length ≤ w :=
    (List.IsSuffix.length_le (List.dropWhile_suffix _)).trans h
  rw [sscanfHex_isSome, List.take_of_length_le hle, startsNumber]

theorem scanSign_digit {c : Char} {cs : List Char} (h : isHexChar c = true) :
    scanSign ((c :: cs).dropWhile isSpaceChar) = (false, c :: cs) := by
  obtain ⟨x, hx⟩ := isHexChar_iff.mp h
  have hfacts := digitFacts hx
  rw [List.dropWhile_cons_of_neg (by rw [hfacts.space]; decide),
    scanSign_of_ne hfacts.minus hfacts.plus]

/-- Where a number is found in a pair: it is the pair or its second character. -/
theorem scanSign_pair {a b : Char} (h : numberPair a b = true) :
    scanSign ([a, b].dropWhile isSpaceChar) =
      if isHexChar a then (false, [a, b]) else (a == '-', [b]) := by
  by_cases ha : isHexChar a = true
  · rw [if_pos ha, scanSign_digit ha]
  unfold numberPair at h
  rw [Bool.eq_false_iff.mpr ha, Bool.false_or, Bool.and_eq_true, Bool.or_eq_true, Bool.or_eq_true,
    beq_iff_eq, beq_iff_eq] at h
  obtain ⟨hb, (hspace | rfl) | rfl⟩ := h
  · have hne : a ≠ '-' := by
      rintro rfl
      exact absurd hspace (by decide)
    rw [if_neg ha, List.dropWhile_cons_of_pos hspace, scanSign_digit hb, beq_false_of_ne hne]
  · rfl
  · rfl

theorem startsNumber_pair (a b : Char) : startsNumber [a, b] = numberPair a b := by
  unfold startsNumber
  by_cases h : numberPair a b = true
  · rw [scanSign_pair h, h]
    by_cases ha : isHexChar a = true
    · simp [ha]
    · have hb : isHexChar b = true := by
        unfold numberPair at h
        rw [Bool.eq_false_iff.mpr ha, Bool.false_or, Bool.and_eq_true] at h
        exact h.1
      simp [ha, hb]
  · rw [Bool.eq_false_iff.mpr h]
    have ha : isHexChar a = false := by
      unfold numberPair at h
      cases hha : isHexChar a with
      | false => rfl
      | true => exact absurd (by rw [hha]; rfl) h
    by_cases hspace : isSpaceChar a = true
    · have hb : isHexChar b = false := by
        unfold numberPair at h
        cases hhb : isHexChar b with
        | false => rfl
        | true => exact absurd (by rw [hhb, hspace, ha]; rfl) h
      rw [List.dropWhile_cons_of_pos hspace, List.dropWhile_cons]
      split
      · rfl
      · unfold scanSign
        split
        · rename_i heq
          rw [(List.cons.inj heq).2.symm]
          rfl
        · rename_i heq
          rw [(List.cons.inj heq).2.symm]
          rfl
        · simp [hb]
    rw [List.dropWhile_cons_of_neg hspace]
    by_cases hsign : a = '-' ∨ a = '+'
    · have hb : isHexChar b = false := by
        unfold numberPair at h
        cases hhb : isHexChar b with
        | false => rfl
        | true =>
          refine absurd ?_ h
          rcases hsign with rfl | rfl <;> simp [hhb]
      rcases hsign with rfl | rfl <;> simp [scanSign, hb]
    · obtain ⟨hminus, hplus⟩ := not_or.mp hsign
      rw [scanSign_of_ne hminus hplus]
      simp [ha]

theorem leadingDigits_length (s : List Char) : (leadingDigits hexDigit s).length ≤ s.length := by
  induction s with
  | nil => exact Nat.le_refl 0
  | cons c cs ih =>
    unfold leadingDigits
    split
    · exact Nat.zero_le _
    · exact Nat.succ_le_succ ih

theorem leadingDigits_small {s : List Char} {d : Nat} (h : d ∈ leadingDigits hexDigit s) :
    d < 16 := by
  induction s with
  | nil => exact absurd h List.not_mem_nil
  | cons c cs ih =>
    unfold leadingDigits at h
    split at h
    · exact absurd h List.not_mem_nil
    · rename_i x hx
      rcases List.mem_cons.mp h with rfl | hmem
      · exact (digitFacts hx).small
      · exact ih hmem

theorem ofDigits_lt {ds : List Nat} (h : ∀ d ∈ ds, d < 16) : ofDigits 16 ds < 16 ^ ds.length := by
  have hfold : ∀ n, ds.foldl (fun n d => n * 16 + d) n < (n + 1) * 16 ^ ds.length := by
    induction ds with
    | nil =>
      intro n
      simp
    | cons d ds ih =>
      intro n
      have hd := h d List.mem_cons_self
      have hstep := ih (fun d hmem => h d (List.mem_cons_of_mem _ hmem)) (n * 16 + d)
      rw [List.foldl_cons, List.length_cons, pow_succ]
      calc _ < (n * 16 + d + 1) * 16 ^ ds.length := hstep
        _ ≤ ((n + 1) * 16) * 16 ^ ds.length := Nat.mul_le_mul_right _ (by omega)
        _ = _ := by ring
  simpa [ofDigits] using hfold 0

/-- What is read without a minus sign is a byte. -/
theorem sscanfHex_le {a b : Char} {v : Nat} (h : sscanfHex 2 [a, b] = some v) (hne : a ≠ '-') :
    v ≤ 255 := by
  have hpair : numberPair a b = true := by
    rw [← startsNumber_pair, ← sscanfHex_isSome_short (Nat.le_refl 2), h]
    rfl
  have hsign : ∃ t, scanSign (([a, b].dropWhile isSpaceChar).take 2) = (false, t) ∧
      t.length ≤ 2 := by
    have hle : ([a, b].dropWhile isSpaceChar).length ≤ 2 := (List.dropWhile_suffix _).length_le
    rw [List.take_of_length_le hle, scanSign_pair hpair]
    by_cases ha : isHexChar a = true
    · exact ⟨[a, b], if_pos ha, Nat.le_refl 2⟩
    · refine ⟨[b], ?_, Nat.le_succ 1⟩
      rw [if_neg ha, beq_false_of_ne hne]
  obtain ⟨t, ht, hlen⟩ := hsign
  have hsmall : ∀ u : List Char, u.length ≤ 2 →
      ofDigits 16 (leadingDigits hexDigit u) % 2 ^ 32 ≤ 255 := by
    intro u hu
    have hlt := ofDigits_lt fun d => leadingDigits_small (s := u) (d := d)
    have hpow : 16 ^ (leadingDigits hexDigit u).length ≤ 16 ^ 2 :=
      Nat.pow_le_pow_right (by decide) ((leadingDigits_length u).trans hu)
    omega
  unfold sscanfHex at h
  rw [ht] at h
  simp only [Bool.false_eq_true, if_false] at h
  split at h
  · rename_i cs
    rw [Bool.not_true, Bool.and_false, if_neg Bool.false_ne_true] at h
    cases h
    exact hsmall cs (by simp only [List.length_cons] at hlen; omega)
  · rename_i cs
    rw [Bool.not_true, Bool.and_false, if_neg Bool.false_ne_true] at h
    cases h
    exact hsmall cs (by simp only [List.length_cons] at hlen; omega)
  · split_ifs at h
    cases h
    exact hsmall t hlen

theorem leadingDigits_hex {s : List Char} {ds : List Nat}
    (h : List.Forall₂ (fun c d => hexDigit c = some d) s ds) : leadingDigits hexDigit s = ds := by
  induction h with
  | nil => rfl
  | cons hc _ ih =>
    unfold leadingDigits
    rw [hc, ih]

/-- Two or more digits are read as the number that they spell. -/
theorem sscanfHex_hex {w : Nat} {a b : Char} {cs : List Char} {ds : List Nat}
    (h : List.Forall₂ (fun c d => hexDigit c = some d) (a :: b :: cs) ds)
    (hlen : (a :: b :: cs).length ≤ w) :
    sscanfHex w (a :: b :: cs) = some (ofDigits 16 ds % 2 ^ 32) := by
  have hdigits := leadingDigits_hex h
  cases h with
  | cons ha htail =>
    cases htail with
    | cons hb hrest =>
      have hfa := digitFacts ha
      have hfb := digitFacts hb
      unfold sscanfHex
      rw [List.dropWhile_cons_of_neg (by rw [hfa.space]; decide), List.take_of_length_le hlen,
        scanSign_of_ne hfa.minus hfa.plus]
      simp only
      split
      · rename_i heq
        exact absurd (List.cons.inj (List.cons.inj heq).2).1 hfb.mark.1
      · rename_i heq
        exact absurd (List.cons.inj (List.cons.inj heq).2).1 hfb.mark.2
      · rw [hdigits]
        rfl

/-- Two digits are read as the byte that they spell. -/
theorem sscanfHex_hexPair {a b : Char} {x y : Nat} (ha : hexDigit a = some x)
    (hb : hexDigit b = some y) : sscanfHex 2 [a, b] = some (x * 16 + y) := by
  have hx := (digitFacts ha).small
  have hy := (digitFacts hb).small
  rw [sscanfHex_hex (.cons ha (.cons hb .nil)) (Nat.le_refl 2)]
  refine congrArg some ?_
  simp only [ofDigits, List.foldl_cons, List.foldl_nil]
  omega

/-- The text of the byte is the two digits in lower case. -/
theorem fmtHexByte_hexPair {a b : Char} {x y : Nat} (ha : hexDigit a = some x)
    (hb : hexDigit b = some y) :
    fmtHexByte (UInt8.ofNat (x * 16 + y)) = [a.toLower, b.toLower] := by
  have hx := (digitFacts ha).small
  have hy := (digitFacts hb).small
  have hval : (UInt8.ofNat (x * 16 + y)).toNat = x * 16 + y := by
    rw [UInt8.toNat_ofNat']
    omega
  have hlow : fmtHexDigit (x * 16 + y) = fmtHexDigit y := by
    have hmod : (x * 16 + y) % 16 = y % 16 := by omega
    unfold fmtHexDigit
    rw [hmod]
  rw [fmtHexByte, hval, hlow, ← (digitFacts ha).lower, ← (digitFacts hb).lower]
  rw [show (x * 16 + y) / 16 = x by omega]

theorem sscanfHex_minus {b : Char} {y : Nat} (hb : hexDigit b = some y) :
    sscanfHex 2 ['-', b] = some ((2 ^ 32 - y) % 2 ^ 32) := by
  have hfacts := digitFacts hb
  have hy : y % 2 ^ 32 = y := Nat.mod_eq_of_lt (by have := hfacts.small; omega)
  have hsign : scanSign ((['-', b].dropWhile isSpaceChar).take 2) = (true, [b]) := rfl
  have hdigits : leadingDigits hexDigit [b] = [y] := by
    simp [leadingDigits, hb]
  have hvalue : ofDigits 16 [y] = y := by
    simp [ofDigits]
  unfold sscanfHex
  rw [hsign]
  simp only
  rw [hdigits, hvalue, hy]
  rfl

theorem tokenByte_isSome (a b : Char) : (tokenByte a b).isSome = numberPair a b := by
  rw [tokenByte, Option.isSome_map, sscanfHex_isSome_short (Nat.le_refl 2), startsNumber_pair]

/-- A negative number is a byte only where it is zero. -/
theorem blobRefByte_isSome (a b : Char) : (blobRefByte a b).isSome = bytePair a b := by
  have hsome : (sscanfHex 2 [a, b]).isSome = numberPair a b := by
    rw [sscanfHex_isSome_short (Nat.le_refl 2), startsNumber_pair]
  unfold blobRefByte bytePair
  cases hscan : sscanfHex 2 [a, b] with
  | none =>
    rw [hscan] at hsome
    rw [← hsome]
    rfl
  | some v =>
    rw [hscan] at hsome
    rw [← hsome]
    simp only [Option.isSome_some, Bool.true_and]
    by_cases hminus : a = '-'
    · subst hminus
      have hb : isHexChar b = true := by
        have hsm := hsome.symm
        unfold numberPair at hsm
        have hno : isHexChar '-' = false := by decide
        rw [hno, Bool.false_or, Option.isSome_some, Bool.and_eq_true] at hsm
        exact hsm.1
      obtain ⟨y, hy⟩ := isHexChar_iff.mp hb
      have hsmall := (digitFacts hy).small
      rw [sscanfHex_minus hy] at hscan
      cases hscan
      by_cases hzero : b = '0'
      · subst hzero
        cases hy
        rfl
      · have hne : y ≠ 0 := by
          rintro rfl
          have hlower := (digitFacts hy).lower
          have hall : (hexChars.all fun c =>
              decide (hexDigit c = some 0 → c = '0')) = true := by
            decide +kernel
          exact hzero (of_decide_eq_true (List.all_eq_true.mp hall b (hexDigit_mem hy)) hy)
        rw [if_pos (by omega)]
        simp [hzero]
    · rw [if_neg (Nat.not_lt.mpr (sscanfHex_le hscan hminus))]
      simp [hminus]

/-- A pair of digits is read as the byte whose text it is. -/
theorem byte_of_hexPair {a b : Char} (h : hexPair a b = true) :
    ∃ v, blobRefByte a b = some v ∧ tokenByte a b = some v ∧
      fmtHexByte v = [a.toLower, b.toLower] := by
  obtain ⟨ha, hb⟩ := Bool.and_eq_true_iff.mp h
  obtain ⟨x, hx⟩ := isHexChar_iff.mp ha
  obtain ⟨y, hy⟩ := isHexChar_iff.mp hb
  refine ⟨UInt8.ofNat (x * 16 + y), ?_, ?_, fmtHexByte_hexPair hx hy⟩
  · have hle := sscanfHex_le (sscanfHex_hexPair hx hy) (digitFacts hx).minus
    unfold blobRefByte
    rw [sscanfHex_hexPair hx hy]
    exact if_neg (Nat.not_lt.mpr hle)
  · unfold tokenByte
    rw [sscanfHex_hexPair hx hy]
    rfl

/-! ## Loops over pairs -/

theorem readPairs_cons {α β : Type} (read : α → α → Option β) (a b : α) (p : List α) :
    readPairs read (a :: b :: p) =
      match read a b with
      | none => none
      | some v => (readPairs read p).map (v :: ·) := (rfl)

theorem pairsAll_cons (r : Char → Char → Bool) (a b : Char) (p : List Char) :
    pairsAll r (a :: b :: p) = (r a b && pairsAll r p) := (rfl)

theorem readPairs_isSome (read : Char → Char → Option UInt8) (p : List Char) :
    (readPairs read p).isSome = pairsAll (fun a b => (read a b).isSome) p := by
  induction p using readPairs.induct read with
  | case1 a b p h =>
    rw [readPairs_cons, pairsAll_cons, h]
    rfl
  | case2 a b p v h ih =>
    rw [readPairs_cons, pairsAll_cons, h]
    simp only [Option.isSome_map, Option.isSome_some, Bool.true_and]
    exact ih
  | case3 p h =>
    match p, h with
    | [], _ => rfl
    | [c], _ => rfl
    | a :: b :: p, h => exact absurd rfl (h a b p)

/-- Pairs of digits give the bytes whose text is the digits in lower case. -/
theorem readPairs_hex {read : Char → Char → Option UInt8} {p : List Char}
    (hread : ∀ a b, hexPair a b = true →
      ∃ v, read a b = some v ∧ fmtHexByte v = [a.toLower, b.toLower])
    (heven : p.length % 2 = 0) (h : pairsAll hexPair p = true) :
    ∃ bs, readPairs read p = some bs ∧ bs.flatMap fmtHexByte = p.map Char.toLower := by
  induction p using readPairs.induct read with
  | case1 a b p hnone =>
    obtain ⟨hpair, -⟩ := Bool.and_eq_true_iff.mp h
    obtain ⟨v, hv, -⟩ := hread a b hpair
    rw [hnone] at hv
    cases hv
  | case2 a b p v hv ih =>
    obtain ⟨hpair, hrest⟩ := Bool.and_eq_true_iff.mp h
    obtain ⟨bs, hbs, hfmt⟩ := ih (by simp only [List.length_cons] at heven; omega) hrest
    obtain ⟨v', hv', htext⟩ := hread a b hpair
    rw [hv] at hv'
    cases hv'
    refine ⟨v :: bs, ?_, ?_⟩
    · rw [readPairs_cons, hv, hbs]
      rfl
    · rw [List.flatMap_cons, hfmt, htext]
      rfl
  | case3 p hp =>
    match p, hp, heven with
    | [], _, _ => exact ⟨[], rfl, rfl⟩
    | [c], _, heven => exact absurd heven Nat.one_ne_zero
    | a :: b :: p, hp, _ => exact absurd rfl (hp a b p)

theorem pairsLoop_cons {n : Nat} (read : Char → Char → Option UInt8) (i : Nat)
    (key : Vector UInt8 n) (c0 c1 : Char) (p : List Char) :
    pairsLoop read i key (c0 :: c1 :: p) =
      match read c0 c1 with
      | none => (.error, key)
      | some b =>
        if h : i < n then pairsLoop read (i + 1) (key.set i b) p
        else (.ok, key) := (rfl)

theorem parseBlobRefLoop_eq (i : Nat) (key : BlobRef) (p : List Char) :
    parseBlobRefLoop i key p = pairsLoop blobRefByte i key p := by
  induction p using readPairs.induct blobRefByte generalizing i key with
  | case1 a b p h =>
    rw [parseBlobRefLoop_cons, pairsLoop_cons, h]
    unfold blobRefByte at h
    cases hscan : sscanfHex 2 [a, b] with
    | none => rfl
    | some v =>
      rw [hscan] at h
      simp only at h
      by_cases hbig : 255 < v
      · exact if_pos hbig
      · rw [if_neg hbig] at h
        cases h
  | case2 a b p w h ih =>
    rw [parseBlobRefLoop_cons, pairsLoop_cons, h]
    unfold blobRefByte at h
    cases hscan : sscanfHex 2 [a, b] with
    | none =>
      rw [hscan] at h
      cases h
    | some v =>
      rw [hscan] at h
      simp only at h
      by_cases hbig : 255 < v
      · rw [if_pos hbig] at h
        cases h
      · rw [if_neg hbig] at h
        cases h
        simp only
        rw [if_neg hbig]
        split
        · exact ih _ _
        · rfl
  | case3 p h =>
    match p, h with
    | [], _ => rfl
    | [c], _ => rfl
    | a :: b :: p, h => exact absurd rfl (h a b p)

/-- The loop sets the bytes that its pairs give. -/
theorem pairsLoop_spec {n : Nat} (read : Char → Char → Option UInt8) (i : Nat)
    (key : Vector UInt8 n) (p : List Char) (hi : i ≤ n) (hlen : p.length = 2 * (n - i)) :
    match readPairs read p with
    | none => (pairsLoop read i key p).1 = .error
    | some bs => ∃ k : Vector UInt8 n, pairsLoop read i key p = (.ok, k) ∧
        k.toList = key.toList.take i ++ bs := by
  induction p using readPairs.induct read generalizing i key with
  | case1 a b p h =>
    rw [readPairs_cons, pairsLoop_cons, h]
  | case2 a b p v h ih =>
    simp only [List.length_cons] at hlen
    have hlt : i < n := by omega
    have hrec := ih (i + 1) (key.set i v) hlt (by omega)
    rw [readPairs_cons, pairsLoop_cons, h]
    simp only [dif_pos hlt]
    cases hrest : readPairs read p with
    | none =>
      rw [hrest] at hrec
      exact hrec
    | some bs =>
      rw [hrest] at hrec
      obtain ⟨k, hk, hlist⟩ := hrec
      refine ⟨k, hk, ?_⟩
      have htake : (key.set i v).toList.take (i + 1) = key.toList.take i ++ [v] := by
        rw [Vector.toList_set, List.take_succ_eq_append_getElem (by simpa using hlt),
          List.getElem_set_self, List.take_set_of_le (Nat.le_refl i)]
      rw [hlist, htake, List.append_assoc]
      rfl
  | case3 p h =>
    match p, h, hlen with
    | [], _, hlen =>
      have hfull : n ≤ i := by
        simp only [List.length_nil] at hlen
        omega
      refine ⟨key, rfl, ?_⟩
      rw [List.take_of_length_le (by simpa using hfull), List.append_nil]
    | [c], _, hlen =>
      simp only [List.length_cons, List.length_nil] at hlen
      omega
    | a :: b :: p, h, _ => exact absurd rfl (h a b p)

theorem pairsLoop_ok_iff {n : Nat} (read : Char → Char → Option UInt8) (key : Vector UInt8 n)
    {p : List Char} (hlen : p.length = 2 * n) :
    (pairsLoop read 0 key p).1 = .ok ↔ pairsAll (fun a b => (read a b).isSome) p = true := by
  have hspec := pairsLoop_spec read 0 key p (Nat.zero_le n) hlen
  rw [← readPairs_isSome]
  cases hread : readPairs read p with
  | none =>
    rw [hread] at hspec
    rw [hspec]
    simp
  | some bs =>
    rw [hread] at hspec
    obtain ⟨k, hk, -⟩ := hspec
    rw [hk]
    simp

theorem pairsLoop_hex {n : Nat} {read : Char → Char → Option UInt8} {key k : Vector UInt8 n}
    {p : List Char} (hlen : p.length = 2 * n)
    (hread : ∀ a b, hexPair a b = true →
      ∃ v, read a b = some v ∧ fmtHexByte v = [a.toLower, b.toLower])
    (h : pairsAll hexPair p = true) (hk : pairsLoop read 0 key p = (.ok, k)) :
    k.toList.flatMap fmtHexByte = p.map Char.toLower := by
  obtain ⟨bs, hbs, hfmt⟩ := readPairs_hex hread (by omega) h
  have hspec := pairsLoop_spec read 0 key p (Nat.zero_le n) hlen
  rw [hbs] at hspec
  obtain ⟨k', hk', hlist⟩ := hspec
  rw [hk] at hk'
  cases hk'
  rw [hlist, List.take_zero, List.nil_append, hfmt]

theorem pairsAll_hexPair_iff {p : List Char} (heven : p.length % 2 = 0) :
    pairsAll hexPair p = true ↔ ∀ c ∈ p, isHexChar c = true := by
  induction p using pairsAll.induct with
  | case1 a b p ih =>
    have hrest : p.length % 2 = 0 := by
      simp only [List.length_cons] at heven
      omega
    rw [pairsAll_cons, Bool.and_eq_true, ih hrest, hexPair, Bool.and_eq_true]
    simp only [List.forall_mem_cons]
    exact and_assoc
  | case2 p h =>
    match p, h, heven with
    | [], _, _ => simp [pairsAll]
    | [c], _, heven => exact absurd heven Nat.one_ne_zero
    | a :: b :: p, h, _ => exact absurd rfl (h a b p)

/-! ## The parsers -/

theorem parseBlobRef_ok_iff (before : BlobRef) (s : List Char) :
    (parseBlobRef before s).1 = .ok ↔ s.take blobRefStrPrefix.length = blobRefStrPrefix ∧
      (s.drop blobRefStrPrefix.length).length = 2 * blobRefSize ∧
      pairsAll bytePair (s.drop blobRefStrPrefix.length) = true := by
  unfold parseBlobRef
  by_cases hmark : s.take blobRefStrPrefix.length = blobRefStrPrefix
  · rw [if_neg (not_not.mpr hmark)]
    simp only
    by_cases hlen : (s.drop blobRefStrPrefix.length).length = 2 * blobRefSize
    · rw [if_neg (not_not.mpr hlen), parseBlobRefLoop_eq, pairsLoop_ok_iff _ _ hlen]
      simp only [blobRefByte_isSome]
      exact ⟨fun h => ⟨hmark, hlen, h⟩, fun h => h.2.2⟩
    · rw [if_pos hlen]
      exact ⟨fun h => Res.noConfusion h, fun h => absurd h.2.1 hlen⟩
  · rw [if_pos hmark]
    exact ⟨fun h => Res.noConfusion h, fun h => absurd h.1 hmark⟩

theorem isBlobRefText_iff (s : List Char) :
    IsBlobRefText s ↔ s.take blobRefStrPrefix.length = blobRefStrPrefix ∧
      (s.drop blobRefStrPrefix.length).length = 2 * blobRefSize ∧
      pairsAll hexPair (s.drop blobRefStrPrefix.length) = true := by
  constructor
  · rintro ⟨ds, rfl, hlen, hhex⟩
    rw [List.take_left, List.drop_left]
    exact ⟨rfl, hlen, (pairsAll_hexPair_iff (by omega)).mpr hhex⟩
  · rintro ⟨hmark, hlen, hhex⟩
    refine ⟨s.drop blobRefStrPrefix.length, ?_, hlen,
      (pairsAll_hexPair_iff (by omega)).mp hhex⟩
    conv_lhs => rw [← List.take_append_drop blobRefStrPrefix.length s, hmark]

theorem bytePair_of_hexPair {a b : Char} (h : hexPair a b = true) : bytePair a b = true := by
  obtain ⟨v, hv, -, -⟩ := byte_of_hexPair h
  rw [← blobRefByte_isSome, hv]
  rfl

theorem pairsAll_mono {r r' : Char → Char → Bool} (hr : ∀ a b, r a b = true → r' a b = true)
    {p : List Char} (h : pairsAll r p = true) : pairsAll r' p = true := by
  induction p using pairsAll.induct with
  | case1 a b p ih =>
    obtain ⟨hpair, hrest⟩ := Bool.and_eq_true_iff.mp h
    exact Bool.and_eq_true_iff.mpr ⟨hr a b hpair, ih hrest⟩
  | case2 p hp =>
    match p, hp with
    | [], _ => rfl
    | [c], _ => rfl
    | a :: b :: p, hp => exact absurd rfl (hp a b p)

/-- What the grammar allows is accepted, and its text is the one that was read. -/
theorem parseBlobRef_of_text (before : BlobRef) {s : List Char} (h : IsBlobRefText s) :
    ∃ key, parseBlobRef before s = (.ok, key) ∧ fmtBlobRef key = s.map Char.toLower := by
  obtain ⟨hmark, hlen, hhex⟩ := (isBlobRefText_iff s).mp h
  have hok := (parseBlobRef_ok_iff before s).mpr
    ⟨hmark, hlen, pairsAll_mono (fun _ _ => bytePair_of_hexPair) hhex⟩
  refine ⟨(parseBlobRef before s).2, Prod.ext hok rfl, ?_⟩
  have hloop : parseBlobRef before s =
      pairsLoop blobRefByte 0 before (s.drop blobRefStrPrefix.length) := by
    rw [← parseBlobRefLoop_eq]
    unfold parseBlobRef
    rw [if_neg (not_not.mpr hmark)]
    simp only
    rw [if_neg (not_not.mpr hlen)]
  have hbytes := pairsLoop_hex hlen
    (fun a b hpair => by
      obtain ⟨v, hv, -, hfmt⟩ := byte_of_hexPair hpair
      exact ⟨v, hv, hfmt⟩) hhex (hloop.symm.trans (Prod.ext hok rfl))
  have hlower : blobRefStrPrefix.map Char.toLower = blobRefStrPrefix := by
    rw [blobRefStrPrefix_eq]
    decide
  rw [fmtBlobRef, hbytes]
  conv_rhs => rw [← List.take_append_drop blobRefStrPrefix.length s, hmark, List.map_append, hlower]

theorem parseAuthTokenInto_ok_iff (before : AuthToken) (s : List Char) :
    (parseAuthTokenInto before s).1 = .ok ↔
      s.length = 2 * authTokenSize ∧ pairsAll numberPair s = true := by
  unfold parseAuthTokenInto
  by_cases hlen : s.length = 2 * authTokenSize
  · rw [if_neg (not_not.mpr hlen), pairsLoop_ok_iff _ _ hlen]
    simp only [tokenByte_isSome]
    exact ⟨fun h => ⟨hlen, h⟩, fun h => h.2⟩
  · rw [if_pos hlen]
    exact ⟨fun h => Res.noConfusion h, fun h => absurd h.1 hlen⟩

theorem parseAuthTokenInto_of_text (before : AuthToken) {s : List Char} (h : IsAuthTokenText s) :
    ∃ t, parseAuthTokenInto before s = (.ok, t) ∧ fmtAuthToken t = s.map Char.toLower := by
  obtain ⟨hlen, hhex⟩ := h
  have hpairs := (pairsAll_hexPair_iff (by omega)).mpr hhex
  have hok := (parseAuthTokenInto_ok_iff before s).mpr
    ⟨hlen, pairsAll_mono (fun _ _ hpair => (Bool.and_eq_true_iff.mp (bytePair_of_hexPair hpair)).1)
      hpairs⟩
  refine ⟨(parseAuthTokenInto before s).2, Prod.ext hok rfl, ?_⟩
  refine pairsLoop_hex hlen (fun a b hpair => ?_) hpairs
    ((if_neg (not_not.mpr hlen)).symm.trans (Prod.ext hok rfl))
  obtain ⟨v, -, hv, hfmt⟩ := byte_of_hexPair hpair
  exact ⟨v, hv, hfmt⟩

theorem parseClaimRef_ok_iff (before : ClaimRef) (s : List Char) :
    (parseClaimRef before s).1 = .ok ↔ s.length = claimRefStrLen ∧
      (s.drop blobRefStrLen).head? = some '-' ∧
      startsNumber (s.drop (blobRefStrLen + 1)) = true := by
  unfold parseClaimRef
  by_cases hlen : s.length = claimRefStrLen
  · rw [if_neg (not_not.mpr hlen)]
    have htail : s.drop (blobRefStrLen + 1) = (s.drop blobRefStrLen).tail := by
      rw [List.tail_drop]
    have hshort : (s.drop (blobRefStrLen + 1)).length ≤ 4 := by
      rw [List.length_drop, hlen]
      exact Nat.le_refl 4
    rw [htail] at hshort ⊢
    simp only
    split
    · rename_i ds heq
      rw [heq] at hshort ⊢
      rw [List.tail_cons] at hshort ⊢
      rw [← sscanfHex_isSome_short hshort]
      cases sscanfHex 4 ds with
      | none => simp
      | some v => simp [hlen]
    · rename_i hne
      refine ⟨fun h => Res.noConfusion h, fun ⟨_, hhead, _⟩ => ?_⟩
      obtain ⟨ds, hds⟩ := List.head?_eq_some_iff.mp hhead
      exact absurd hds (hne ds)
  · rw [if_pos hlen]
    exact ⟨fun h => Res.noConfusion h, fun h => absurd h.1 hlen⟩

/-- The text of a claim ref by its parts. -/
theorem fmtClaimRef_buildClaimRef (bref : BlobRef) (index : Nat) :
    fmtClaimRef (buildClaimRef bref index) = fmtBlobRef bref ++
      '-' :: [UInt8.ofNat (index / 256), UInt8.ofNat index].flatMap fmtHexByte := by
  have hlist : (buildClaimRef bref index).toList =
      bref.toList ++ [UInt8.ofNat (index / 256), UInt8.ofNat index] := Vector.toList_append
  have hbref : (splitClaimRef (buildClaimRef bref index)).1 = bref := by
    refine Vector.toList_inj.mp ?_
    rw [toList_splitClaimRef, hlist]
    exact List.take_left' (Vector.length_toList)
  have hindex : (buildClaimRef bref index).toList.drop blobRefSize =
      [UInt8.ofNat (index / 256), UInt8.ofNat index] := by
    rw [hlist]
    exact List.drop_left' (Vector.length_toList)
  rw [fmtClaimRef, hbref, hindex]

/-- Four digits are read as an index whose text they are. -/
theorem sscanfHex_index_text {ds : List Char} (hlen : ds.length = 4)
    (hhex : ∀ c ∈ ds, isHexChar c = true) :
    ∃ v, sscanfHex 4 ds = some v ∧
      [UInt8.ofNat (v / 256), UInt8.ofNat v].flatMap fmtHexByte = ds.map Char.toLower := by
  match ds, hlen, hhex with
  | [a, b, c, d], _, hhex =>
    obtain ⟨x, ha⟩ := isHexChar_iff.mp (hhex a (by simp))
    obtain ⟨y, hb⟩ := isHexChar_iff.mp (hhex b (by simp))
    obtain ⟨z, hc⟩ := isHexChar_iff.mp (hhex c (by simp))
    obtain ⟨w, hd⟩ := isHexChar_iff.mp (hhex d (by simp))
    have hx := (digitFacts ha).small
    have hy := (digitFacts hb).small
    have hz := (digitFacts hc).small
    have hw := (digitFacts hd).small
    refine ⟨(x * 16 + y) * 256 + (z * 16 + w), ?_, ?_⟩
    · rw [sscanfHex_hex (.cons ha (.cons hb (.cons hc (.cons hd .nil)))) (Nat.le_refl 4)]
      refine congrArg some ?_
      simp only [ofDigits, List.foldl_cons, List.foldl_nil]
      omega
    · have hhigh : UInt8.ofNat (((x * 16 + y) * 256 + (z * 16 + w)) / 256) =
          UInt8.ofNat (x * 16 + y) := congrArg _ (by omega)
      have hlow : UInt8.ofNat ((x * 16 + y) * 256 + (z * 16 + w)) = UInt8.ofNat (z * 16 + w) := by
        refine UInt8.toNat_inj.mp ?_
        rw [UInt8.toNat_ofNat', UInt8.toNat_ofNat']
        omega
      rw [hhigh, hlow]
      simp only [List.flatMap_cons, List.flatMap_nil, fmtHexByte_hexPair ha hb,
        fmtHexByte_hexPair hc hd]
      rfl

theorem length_of_isBlobRefText {s : List Char} (h : IsBlobRefText s) :
    s.length = blobRefStrLen := by
  obtain ⟨ds, rfl, hlen, -⟩ := h
  rw [List.length_append, hlen]
  rfl

theorem parseClaimRef_of_text (before : ClaimRef) {s : List Char} (h : IsClaimRefText s) :
    ∃ cref, parseClaimRef before s = (.ok, cref) ∧ fmtClaimRef cref = s.map Char.toLower := by
  obtain ⟨bref, ds, rfl, hbref, hlen, hhex⟩ := h
  have hblob := length_of_isBlobRefText hbref
  have htotal : (bref ++ '-' :: ds).length = claimRefStrLen := by
    rw [List.length_append, List.length_cons, hblob, hlen]
    rfl
  obtain ⟨key, hkey, hfmt⟩ := parseBlobRef_of_text (splitClaimRef before).1 hbref
  obtain ⟨v, hv, hindex⟩ := sscanfHex_index_text hlen hhex
  refine ⟨buildClaimRef key v, ?_, ?_⟩
  · unfold parseClaimRef
    rw [if_neg (not_not.mpr htotal), List.take_left' hblob, List.drop_left' hblob]
    simp only [hkey, hv]
  · rw [fmtClaimRef_buildClaimRef, hfmt, hindex, List.map_append, List.map_cons]
    rfl

theorem isClaimRefText_iff (s : List Char) :
    IsClaimRefText s ↔ s.length = claimRefStrLen ∧
      (s.drop blobRefStrLen).head? = some '-' ∧
      s.take blobRefStrPrefix.length = blobRefStrPrefix ∧
      pairsAll hexPair ((s.drop blobRefStrPrefix.length).take (2 * blobRefSize)) = true ∧
      pairsAll hexPair (s.drop (blobRefStrLen + 1)) = true := by
  constructor
  · rintro ⟨bref, ds, rfl, hbref, hlen, hhex⟩
    have hblob := length_of_isBlobRefText hbref
    obtain ⟨hmark, hdigits, hpairs⟩ := (isBlobRefText_iff bref).mp hbref
    have hle : blobRefStrPrefix.length ≤ bref.length := by
      rw [hblob]
      decide
    refine ⟨?_, ?_, ?_, ?_, ?_⟩
    · rw [List.length_append, List.length_cons, hblob, hlen]
      rfl
    · rw [List.drop_left' hblob]
      rfl
    · rw [List.take_append_of_le_length hle, hmark]
    · rw [List.drop_append_of_le_length hle, List.take_left' hdigits, hpairs]
    · rw [← List.drop_drop, List.drop_left' hblob]
      exact (pairsAll_hexPair_iff (by rw [List.drop_one, List.tail_cons, hlen])).mpr hhex
  · rintro ⟨hlen, hsep, hmark, hpairs, hindex⟩
    obtain ⟨ds, hds⟩ := List.head?_eq_some_iff.mp hsep
    have hrest : s.drop (blobRefStrLen + 1) = ds := by
      rw [← List.drop_drop, hds]
      rfl
    have hfour : ds.length = 4 := by
      rw [← hrest, List.length_drop, hlen]
      rfl
    have hswap : (s.take blobRefStrLen).drop blobRefStrPrefix.length =
        (s.drop blobRefStrPrefix.length).take (2 * blobRefSize) := by
      rw [List.drop_take]
      rfl
    refine ⟨s.take blobRefStrLen, ds, ?_, (isBlobRefText_iff _).mpr ⟨?_, ?_, ?_⟩, hfour, ?_⟩
    · rw [← hds, List.take_append_drop]
    · rw [List.take_take, Nat.min_eq_left (by decide), hmark]
    · rw [hswap, List.length_take, List.length_drop, hlen]
      rfl
    · rw [hswap, hpairs]
    · rw [hrest] at hindex
      exact (pairsAll_hexPair_iff (by rw [hfour])).mp hindex

/-- A parser is exact on a text if it reads the text, whatever its buffer holds, only where the
grammar allows it. -/
theorem parsesExactly_iff {K : Type} {parse : K → Res × K} {fmt : K → List Char}
    {grammar : List Char → Prop} {s : List Char} {read : Prop} (k : K)
    (hread : ∀ before, (parse before).1 = .ok ↔ read)
    (htext : grammar s → ∀ before, ∃ key, parse before = (.ok, key) ∧
      fmt key = s.map Char.toLower) :
    ParsesExactly parse fmt grammar s ↔ (read → grammar s) := by
  constructor
  · exact fun h hok => (h.accepts k).mp ((hread k).mpr hok)
  · intro h
    have haccepts : ∀ before, (parse before).1 = .ok ↔ grammar s := by
      refine fun before => ⟨fun hok => h ((hread before).mp hok), fun hs => ?_⟩
      obtain ⟨key, hkey, -⟩ := htext hs before
      rw [hkey]
    refine ⟨haccepts, fun before key hkey => ?_⟩
    obtain ⟨key', hkey', hfmt⟩ := htext ((haccepts before).mp (by rw [hkey])) before
    rw [hkey] at hkey'
    cases hkey'
    exact hfmt

/-! ## Tokens -/

theorem readPairs_map {α β γ : Type} (f : α → β) (read : β → β → Option γ) (p : List α) :
    readPairs read (p.map f) = readPairs (fun a b => read (f a) (f b)) p := by
  induction p using readPairs.induct fun a b => read (f a) (f b) with
  | case1 a b p h =>
    rw [List.map_cons, List.map_cons, readPairs_cons, readPairs_cons, h]
  | case2 a b p v h ih =>
    rw [List.map_cons, List.map_cons, readPairs_cons, readPairs_cons, h, ih]
  | case3 p h =>
    match p, h with
    | [], _ => rfl
    | [c], _ => rfl
    | a :: b :: p, h => exact absurd rfl (h a b p)

/-- Pairs are read by their places. -/
theorem mapM_range_pairs {α β : Type} (read : α → α → Option β) (d : α) {n : Nat} {s : List α}
    (h : s.length = 2 * n) :
    (List.range n).mapM (fun i => read (s.getD (2 * i) d) (s.getD (2 * i + 1) d)) =
      readPairs read s := by
  induction n generalizing s with
  | zero =>
    rw [List.length_eq_zero_iff.mp h]
    rfl
  | succ n ih =>
    match s, h with
    | a :: b :: p, h =>
      have hrest : p.length = 2 * n := by
        simp only [List.length_cons] at h
        omega
      have hshift : (fun i => read ((a :: b :: p).getD (2 * i) d)
          ((a :: b :: p).getD (2 * i + 1) d)) ∘ Nat.succ =
          fun i => read (p.getD (2 * i) d) (p.getD (2 * i + 1) d) := by
        funext i
        rfl
      rw [List.range_succ_eq_map, List.mapM_cons, List.mapM_map, hshift, ih hrest, readPairs_cons]
      simp only [Nat.mul_zero, List.getD_cons_zero, Nat.zero_add, List.getD_cons_succ]
      cases read a b with
      | none => rfl
      | some v => cases readPairs read p <;> rfl

/-- The token that a command line holds is the one that is written into the buffer. -/
theorem parseAuthToken_eq (before : AuthToken) (s : Bytes) :
    parseAuthToken s =
      if (parseAuthTokenInto before (bytesText s)).1 = .ok then
        some (parseAuthTokenInto before (bytesText s)).2.toList
      else none := by
  unfold parseAuthToken parseAuthTokenInto
  rw [bytesText, List.length_map]
  by_cases hlen : s.length = 2 * authTokenSize
  · have hread : (List.range authTokenSize).mapM (fun i =>
        let buf := [s.getD (2 * i) 0, s.getD (2 * i + 1) 0]
        (sscanfHex 2 (buf.map fun b => Char.ofNat b.toNat)).map UInt8.ofNat) =
        readPairs tokenByte (s.map fun b => Char.ofNat b.toNat) := by
      rw [readPairs_map]
      exact mapM_range_pairs (fun a b : UInt8 =>
        tokenByte (Char.ofNat a.toNat) (Char.ofNat b.toNat)) 0 hlen
    have hspec := pairsLoop_spec tokenByte 0 before (s.map fun b => Char.ofNat b.toNat)
      (Nat.zero_le _) (by rw [List.length_map]; exact hlen)
    rw [if_neg (not_not.mpr hlen), if_neg (not_not.mpr hlen), hread]
    cases hpairs : readPairs tokenByte (s.map fun b => Char.ofNat b.toNat) with
    | none =>
      rw [hpairs] at hspec
      rw [hspec]
      rfl
    | some bs =>
      rw [hpairs] at hspec
      obtain ⟨k, hk, hlist⟩ := hspec
      rw [hk, if_pos rfl, hlist]
      rfl
  · rw [if_pos hlen, if_pos hlen]
    rfl

theorem readPairs_fmt (bs : List UInt8) :
    readPairs tokenByte (bs.flatMap fmtHexByte) = some bs := by
  induction bs with
  | nil => rfl
  | cons b bs ih =>
    have hscan := sscanfHex_fmtHexByte b
    rw [fmtHexByte] at hscan
    rw [List.flatMap_cons, fmtHexByte, List.cons_append, List.cons_append, List.nil_append,
      readPairs_cons, tokenByte, hscan, ih]
    simp

theorem parseAuthTokenInto_fmtAuthToken (before t : AuthToken) :
    parseAuthTokenInto before (fmtAuthToken t) = (.ok, t) := by
  have hlen : (fmtAuthToken t).length = 2 * authTokenSize := by
    rw [fmtAuthToken, length_fmtHexBytes, Vector.length_toList]
  have hspec := pairsLoop_spec tokenByte 0 before (fmtAuthToken t) (Nat.zero_le _) hlen
  rw [fmtAuthToken, readPairs_fmt] at hspec
  obtain ⟨k, hk, hlist⟩ := hspec
  have hkt : k = t := by
    refine Vector.toList_inj.mp ?_
    rw [hlist, List.take_zero, List.nil_append]
  rw [parseAuthTokenInto, if_neg (not_not.mpr hlen), fmtAuthToken, hk, hkt]

/-- What is read back can be told apart. -/
theorem injective_of_roundTrip {K : Type} {parse : K → List Char → Res × K}
    {fmt : K → List Char} (h : ∀ before k, parse before (fmt k) = (.ok, k)) :
    Function.Injective fmt := by
  intro k k' heq
  have hparse := h k k
  rw [heq, h] at hparse
  exact (congrArg Prod.snd hparse).symm

end RefTextLemmas

open RefTextLemmas

/-- What is formatted is read as the value that it was formatted from, whatever the buffer of the
result held, and different values have different texts. -/
theorem refTexts_roundTrip :
    (∀ before key, parseBlobRef before (fmtBlobRef key) = (.ok, key)) ∧
      (∀ before cref, parseClaimRef before (fmtClaimRef cref) = (.ok, cref)) ∧
      (∀ before t, parseAuthTokenInto before (fmtAuthToken t) = (.ok, t)) ∧
      Function.Injective fmtBlobRef ∧ Function.Injective fmtClaimRef ∧
      Function.Injective fmtAuthToken :=
  ⟨parseBlobRef_fmtBlobRef, parseClaimRef_fmtClaimRef, parseAuthTokenInto_fmtAuthToken,
    injective_of_roundTrip parseBlobRef_fmtBlobRef,
    injective_of_roundTrip parseClaimRef_fmtClaimRef,
    injective_of_roundTrip parseAuthTokenInto_fmtAuthToken⟩

/-- A parser accepts its grammar only on texts in which no pair of characters holds a number without
being two digits: such a pair is read as if it were a byte. The claim ref parser does not look at
what became of its blob ref, and reads the index in the same way. -/
theorem refParsers_exact_iff (s : List Char) :
    (ParsesExactly (fun before => parseBlobRef before s) fmtBlobRef IsBlobRefText s ↔
      (s.take blobRefStrPrefix.length = blobRefStrPrefix →
        (s.drop blobRefStrPrefix.length).length = 2 * blobRefSize →
        pairsAll bytePair (s.drop blobRefStrPrefix.length) = true →
        pairsAll hexPair (s.drop blobRefStrPrefix.length) = true)) ∧
    (ParsesExactly (fun before => parseClaimRef before s) fmtClaimRef IsClaimRefText s ↔
      (s.length = claimRefStrLen → (s.drop blobRefStrLen).head? = some '-' →
        startsNumber (s.drop (blobRefStrLen + 1)) = true →
        s.take blobRefStrPrefix.length = blobRefStrPrefix ∧
          pairsAll hexPair ((s.drop blobRefStrPrefix.length).take (2 * blobRefSize)) = true ∧
          pairsAll hexPair (s.drop (blobRefStrLen + 1)) = true)) ∧
    (ParsesExactly (fun before => parseAuthTokenInto before s) fmtAuthToken IsAuthTokenText s ↔
      (s.length = 2 * authTokenSize → pairsAll numberPair s = true →
        pairsAll hexPair s = true)) := by
  refine ⟨?_, ?_, ?_⟩
  · rw [parsesExactly_iff (Vector.replicate _ 0) (fun before => parseBlobRef_ok_iff before s)
      (fun h before => parseBlobRef_of_text before h), isBlobRefText_iff]
    exact ⟨fun h hmark hlen hpairs => (h ⟨hmark, hlen, hpairs⟩).2.2,
      fun h ⟨hmark, hlen, hpairs⟩ => ⟨hmark, hlen, h hmark hlen hpairs⟩⟩
  · rw [parsesExactly_iff (Vector.replicate _ 0) (fun before => parseClaimRef_ok_iff before s)
      (fun h before => parseClaimRef_of_text before h), isClaimRefText_iff]
    exact ⟨fun h hlen hsep hindex => (h ⟨hlen, hsep, hindex⟩).2.2,
      fun h ⟨hlen, hsep, hindex⟩ => ⟨hlen, hsep, h hlen hsep hindex⟩⟩
  · rw [parsesExactly_iff (Vector.replicate _ 0) (fun before => parseAuthTokenInto_ok_iff before s)
      (fun h before => parseAuthTokenInto_of_text before h)]
    constructor
    · intro h hlen hpairs
      exact (pairsAll_hexPair_iff (by omega)).mpr (h ⟨hlen, hpairs⟩).2
    · rintro h ⟨hlen, hpairs⟩
      exact ⟨hlen, (pairsAll_hexPair_iff (by omega)).mp (h hlen hpairs)⟩

/-- A text that is read is a blob ref where nothing else is accepted. -/
theorem RefTextLemmas.isBlobRefText_of_exact {s : List Char}
    (h : ParsesExactly (fun before => parseBlobRef before s) fmtBlobRef IsBlobRefText s)
    (hread : s.take blobRefStrPrefix.length = blobRefStrPrefix ∧
      (s.drop blobRefStrPrefix.length).length = 2 * blobRefSize ∧
      pairsAll bytePair (s.drop blobRefStrPrefix.length) = true) : IsBlobRefText s :=
  (h.accepts (Vector.replicate _ 0)).mp ((parseBlobRef_ok_iff _ s).mpr hread)

/-- A blob ref with a blank in place of a digit, a claim ref whose blob ref is none, and a token
with a negative number are accepted. -/
theorem refParsers_not_exact :
    ¬ ParsesExactly (fun before => parseBlobRef before
        (blobRefStrPrefix ++ ' ' :: List.replicate 55 'f')) fmtBlobRef IsBlobRefText
        (blobRefStrPrefix ++ ' ' :: List.replicate 55 'f') ∧
      ¬ ParsesExactly (fun before => parseClaimRef before
        (List.replicate 65 'g' ++ "-0000".toList)) fmtClaimRef IsClaimRefText
        (List.replicate 65 'g' ++ "-0000".toList) ∧
      ¬ ParsesExactly (fun before => parseAuthTokenInto before
        ('-' :: List.replicate 63 'f')) fmtAuthToken IsAuthTokenText
        ('-' :: List.replicate 63 'f') := by
  rw [blobRefStrPrefix_eq]
  refine ⟨fun h => ?_, fun h => ?_, fun h => ?_⟩
  · have hexact := (isBlobRefText_iff _).mp
      (isBlobRefText_of_exact h (by rw [blobRefStrPrefix_eq]; decide))
    rw [blobRefStrPrefix_eq] at hexact
    exact absurd hexact (by decide)
  · have hok := (h.accepts (Vector.replicate _ 0)).mp ((parseClaimRef_ok_iff _ _).mpr (by decide))
    exact absurd ((isClaimRefText_iff _).mp hok) (by decide)
  · have hok := (h.accepts (Vector.replicate _ 0)).mp
      ((parseAuthTokenInto_ok_iff _ _).mpr (by decide))
    exact absurd (hok.2 '-' List.mem_cons_self) (by decide)

end Everarch
