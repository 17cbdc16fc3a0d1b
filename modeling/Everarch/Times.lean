import Everarch.Claims
import Everarch.RefTexts

/-!
# Texts of times

`evr_time_to_iso8601` and `evr_time_from_iso8601` of basics.c. The milliseconds of a time stand as
six digits in front of the `Z` that `strftime` and `strptime` end with.

* `TimesLemmas.timeFromIso8601_parts`: a text is cut where its last eight characters begin.
* `TimesLemmas.run_parts`: the accesses to such a text and to the copy of what is in front.
* `TimesLemmas.run_eq`: with one more byte for the copy they compute `timeFromIso8601`.

Results: `time_text_round_trip`, `time_parse_in_bounds_iff`.
-/

namespace Everarch

/-! ## Writing -/

/-- `evr_second_fraction_digits`. -/
def secondFractionDigits : Nat := 6

/-- `evr_max_time_iso8601_size`. -/
def maxTimeIso8601Size : Nat := 30

/-- The first second after the year 9999. -/
def year10000 : Nat := 253402300800

/-- `sprintf` with `%06d`. -/
def fmtFraction (n : Nat) : List Char :=
  (Nat.toDigits 10 n).leftpad secondFractionDigits '0'

/-- `evr_time_to_iso8601` with a buffer of `sSize` bytes, none where it panics or `strftime` has no
room for its text. `strftime` stands for `gmtime_r` and `strftime` with
`evr_iso_8601_timestamp_fmt`. -/
def timeToIso8601 (strftime : Nat → List Char) (sSize t : Nat) : Option (List Char) :=
  let s := strftime (t / 1000)
  let ms := t % 1000 * 1000
  if sSize ≤ s.length || s.getLast? ≠ some 'Z' then none
  else if sSize ≤ s.length + 1 + secondFractionDigits + 1 then none
  else some (s.dropLast ++ '.' :: (fmtFraction ms ++ ['Z']))

/-- What the C library does with a second: `strptime` and `timegm` read what `gmtime_r` and
`strftime` write, which has a year of four digits. -/
structure IsoSecond (strftime : Nat → List Char) (timegm : List Char → Option Int) (sec : Nat) :
    Prop where
  text : ∃ base : List Char, base.length = 19 ∧ strftime sec = base ++ ['Z']
  inverse : timegm (strftime sec) = some (sec : Int)

namespace TimesLemmas

theorem decDigit_of_isDigit {c : Char} (h : c.isDigit = true) :
    decDigit c = some (c.toNat - '0'.toNat) := by
  unfold Char.isDigit at h
  exact if_pos ((Bool.and_eq_true_iff.mp h).imp of_decide_eq_true of_decide_eq_true)

/-- The number that digits spell. -/
theorem ofDigits_leadingDigits {cs : List Char} (h : ∀ c ∈ cs, c.isDigit = true) :
    ofDigits 10 (leadingDigits decDigit cs) = Nat.ofDigitChars 10 cs 0 := by
  have hdigits : leadingDigits decDigit cs = cs.map fun c => c.toNat - '0'.toNat := by
    induction cs with
    | nil => rfl
    | cons c cs ih =>
      rw [leadingDigits, decDigit_of_isDigit (h c List.mem_cons_self),
        ih fun c' hc' => h c' (List.mem_cons_of_mem _ hc'), List.map_cons]
  rw [hdigits, ofDigits, List.foldl_map, Nat.ofDigitChars_eq_foldl]
  simp only [Nat.mul_comm]

theorem isDigit_fmtFraction (n : Nat) : ∀ c ∈ fmtFraction n, c.isDigit = true := by
  intro c hc
  rcases List.mem_append.mp hc with hpad | hdigit
  · rw [List.eq_of_mem_replicate hpad]
    rfl
  · exact Nat.isDigit_of_mem_toDigits (by decide) (by decide) hdigit

theorem length_fmtFraction {n : Nat} (h : n < 10 ^ secondFractionDigits) :
    (fmtFraction n).length = secondFractionDigits := by
  have hle : (Nat.toDigits 10 n).length ≤ secondFractionDigits :=
    (Nat.length_toDigits_le_iff (by decide) (by decide)).mpr h
  rw [fmtFraction, List.length_leftpad, Nat.max_eq_left hle]

theorem ofDigits_fmtFraction (n : Nat) :
    ofDigits 10 (leadingDigits decDigit (fmtFraction n)) = n := by
  rw [ofDigits_leadingDigits (isDigit_fmtFraction n), fmtFraction, List.leftpad,
    Nat.ofDigitChars_append, Nat.ofDigitChars_replicate_zero, Nat.mul_zero,
    Nat.ofDigitChars_ten_toDigits]

/-- A text of at least eight characters: it is read if it ends in a fraction. -/
theorem timeFromIso8601_parts (timegm : List Char → Option Int) (base : List Char) (dot : Char)
    {frac : List Char} (z : Char) (hlen : frac.length = secondFractionDigits) :
    timeFromIso8601 timegm (base ++ dot :: (frac ++ [z])) =
      if dot = '.' ∧ frac.all Char.isDigit = true ∧ z = 'Z' then
        (timegm (base ++ ['Z'])).map fun seconds =>
          Int.bmod (seconds * 1000 + (ofDigits 10 (leadingDigits decDigit frac) / 1000 : Nat))
            (2 ^ 64)
      else none := by
  have hs : (base ++ dot :: (frac ++ [z])).length = base.length + 8 := by
    simp only [List.length_append, List.length_cons, List.length_nil, hlen, secondFractionDigits]
  have htake : (frac ++ [z]).take 6 = frac := List.take_left' hlen
  have hdrop : (frac ++ [z]).drop 6 = [z] := List.drop_left' hlen
  unfold timeFromIso8601
  rw [if_neg (by omega), hs, Nat.add_sub_cancel, List.take_left' rfl, List.drop_left' rfl]
  simp only [htake, hdrop]
  by_cases haccept : dot = '.' ∧ frac.all Char.isDigit = true ∧ z = 'Z'
  · obtain ⟨rfl, hdigits, rfl⟩ := haccept
    rw [if_neg, if_pos ⟨rfl, hdigits, rfl⟩]
    simp [hdigits]
  · rw [if_pos, if_neg haccept]
    by_contra hall
    simp only [Bool.or_eq_true, decide_eq_true_eq, Bool.not_eq_true', not_or, not_not,
      Bool.not_eq_false, List.cons.injEq, and_true, ne_eq] at hall
    exact haccept ⟨hall.1.1, hall.1.2, hall.2⟩

end TimesLemmas

open TimesLemmas in
/-- The text that is written for a time up to the end of the year 9999 is read as that time, and it
is written wherever the buffer has the size that the callers use. -/
theorem time_text_round_trip (strftime : Nat → List Char) (timegm : List Char → Option Int)
    (sSize : Nat) {t : Nat} (ht : t < year10000 * 1000)
    (hlib : IsoSecond strftime timegm (t / 1000)) :
    (∀ s, timeToIso8601 strftime sSize t = some s → timeFromIso8601 timegm s = some (t : Int)) ∧
      (maxTimeIso8601Size ≤ sSize → ∃ s, timeToIso8601 strftime sSize t = some s) := by
  obtain ⟨base, hbase, htext⟩ := hlib.text
  have hinverse := hlib.inverse
  rw [htext] at hinverse
  have hlen : (base ++ ['Z']).length = 20 := by
    rw [List.length_append, hbase, List.length_singleton]
  constructor
  · intro s hs
    simp only [timeToIso8601, htext, List.dropLast_concat] at hs
    split_ifs at hs
    cases hs
    have hms : t % 1000 * 1000 < 10 ^ secondFractionDigits :=
      Nat.mul_lt_mul_of_pos_right (Nat.mod_lt t (by decide)) (by decide)
    rw [timeFromIso8601_parts timegm base '.' 'Z' (length_fmtFraction hms),
      if_pos ⟨rfl, List.all_eq_true.mpr (isDigit_fmtFraction (t % 1000 * 1000)), rfl⟩, hinverse,
      ofDigits_fmtFraction, Nat.mul_div_cancel _ (by decide)]
    simp only [Option.map_some, Option.some.injEq]
    -- seconds and milliseconds add up again, far below what a time can hold
    unfold year10000 at ht
    have hsum : ((t / 1000 : Nat) : Int) * 1000 + (t % 1000 : Nat) = t := by omega
    rw [hsum]
    exact Int.bmod_eq_of_le (by omega) (by omega)
  · intro hsize
    unfold maxTimeIso8601Size at hsize
    have hroom : (decide (sSize ≤ 20) || decide (some 'Z' ≠ some 'Z')) = false := by
      rw [decide_eq_false (by omega), decide_eq_false (not_not.mpr rfl), Bool.or_false]
    simp only [timeToIso8601, htext, hlen, List.getLast?_concat, hroom, secondFractionDigits]
    rw [if_neg Bool.false_ne_true, if_neg (by omega)]
    exact ⟨_, rfl⟩

/-- `gmtime_r` and `strftime` at the start of 2024. -/
def newYearStrftime (sec : Nat) : List Char :=
  if sec = 1704067200 then "2024-01-01T00:00:00Z".toList else []

/-- `strptime` and `timegm` at the start of 2024. -/
def newYearTimegm (s : List Char) : Option Int :=
  if s = "2024-01-01T00:00:00Z".toList then some 1704067200 else none

/-- 42 milliseconds into 2024. -/
theorem time_text_round_trip_new_year :
    (∀ s, timeToIso8601 newYearStrftime 30 1704067200042 = some s →
        timeFromIso8601 newYearTimegm s = some ((1704067200042 : Nat) : Int)) ∧
      (maxTimeIso8601Size ≤ 30 → ∃ s, timeToIso8601 newYearStrftime 30 1704067200042 = some s) :=
  time_text_round_trip newYearStrftime newYearTimegm 30 (by decide)
    ⟨⟨"2024-01-01T00:00:00".toList, by decide +kernel, by decide +kernel⟩, by decide +kernel⟩

/-! ## Accesses -/

/-- An access outside of the text that is parsed, or of the copy of its part without fraction. -/
inductive TimeFault where
  | text
  | buf
deriving DecidableEq

namespace TimeText

/-- `s[i]`, where a zero follows the text. -/
def peek (s : Bytes) (i : Nat) : Except TimeFault UInt8 :=
  match (s ++ [0])[i]? with
  | none => .error .text
  | some b => .ok b

/-- What a function that takes a string reads from `s + i` on. -/
def string (s : Bytes) (i : Nat) : Except TimeFault Bytes :=
  if i ≤ s.length then .ok (s.drop i) else .error .text

/-- `buf[i] = b`. -/
def poke (buf : Bytes) (i : Nat) (b : UInt8) : Except TimeFault Bytes :=
  if i < buf.length then .ok (buf.set i b) else .error .buf

/-- What a function that takes a string reads from `buf`, which needs a zero somewhere. -/
def bufString (buf : Bytes) : Except TimeFault Bytes :=
  if 0 ∈ buf then .ok (cString buf) else .error .buf

/-- `memcpy(buf, s, n)`. -/
def memcpy (s : Bytes) : Nat → Bytes → Except TimeFault Bytes
  | 0, buf => .ok buf
  | n + 1, buf => do poke (← memcpy s n buf) n (← peek s n)

/-- The loop over the digits of the fraction, from `p` on: whether all of them are digits. -/
def digitsLoop (s : Bytes) : Nat → Nat → Except TimeFault Bool
  | 0, _ => .ok true
  | n + 1, p => do
    let c ← peek s p
    if c < 48 || 57 < c then return false
    digitsLoop s n (p + 1)

/-- The copy that `strptime` gets, with `spare` bytes more than `buf_len`. What `stack` holds was
there before. -/
def copyBase (spare : Nat) (stack : Nat → UInt8) (s : Bytes) (dotS : Nat) :
    Except TimeFault Bytes := do
  let bufLen := dotS + 1
  let buf := (List.range (bufLen + spare)).map stack
  let buf ← memcpy s (bufLen - 1) buf
  let buf ← poke buf (bufLen - 1) 90
  poke buf bufLen 0

/-- `evr_time_from_iso8601` with `spare` bytes more for its copy. -/
def run (spare : Nat) (stack : Nat → UInt8) (timegm : List Char → Option Int) (s : Bytes) :
    Except TimeFault (Option Int) := do
  let slen := (← string s 0).length
  if slen < 2 + secondFractionDigits then return none
  let dotS := slen - (2 + secondFractionDigits)
  if (← peek s dotS) ≠ 46 then return none
  let msS := dotS + 1
  if !(← digitsLoop s secondFractionDigits msS) then return none
  if (← peek s (msS + secondFractionDigits)) ≠ 90 then return none
  match sscanfInt ((bytesText (← string s msS)).take secondFractionDigits) with
  | none => return none
  | some ms =>
    let buf ← copyBase spare stack s dotS
    match timegm (bytesText (← bufString buf)) with
    | none => return none
    | some seconds => return some (Int.bmod (seconds * 1000 + ms / 1000) (2 ^ 64))

end TimeText

/-- `evr_time_from_iso8601`, one access after the other: the copy has `buf_len` bytes. -/
def timeFromIso8601Accesses (stack : Nat → UInt8) (timegm : List Char → Option Int) (s : Bytes) :
    Except TimeFault (Option Int) :=
  TimeText.run 0 stack timegm s

/-- A text that ends in a dot, six digits and `Z`. -/
def EndsInFraction (s : Bytes) : Prop :=
  ∃ base frac, s = base ++ 46 :: (frac ++ [90]) ∧ frac.length = secondFractionDigits ∧
    ∀ b ∈ frac, 48 ≤ b ∧ b ≤ 57

namespace TimesLemmas

open TimeText

variable {s buf : Bytes} {i n : Nat}

/-! ## Single accesses -/

theorem peek_of_lt (h : i < s.length) : peek s i = .ok s[i] := by
  unfold peek
  rw [List.getElem?_append_left h, List.getElem?_eq_getElem h]

theorem peek_append (front : Bytes) (b : UInt8) (back : Bytes) :
    peek (front ++ b :: back) front.length = .ok b := by
  unfold peek
  rw [List.append_assoc, List.getElem?_append_right (Nat.le_refl _), Nat.sub_self]
  rfl

theorem string_of_le (h : i ≤ s.length) : string s i = .ok (s.drop i) :=
  if_pos h

theorem all_digits_iff {frac : Bytes} :
    (frac.all fun b => 48 ≤ b && b ≤ 57) = true ↔ ∀ b ∈ frac, 48 ≤ b ∧ b ≤ 57 := by
  simp only [List.all_eq_true, Bool.and_eq_true, decide_eq_true_eq]

theorem digitsLoop_spec (front digits back : Bytes) :
    digitsLoop (front ++ (digits ++ back)) digits.length front.length =
      .ok (digits.all fun b => 48 ≤ b && b ≤ 57) := by
  induction digits generalizing front with
  | nil => rfl
  | cons b digits ih =>
    rw [List.length_cons, digitsLoop, List.cons_append, peek_append]
    show (if b < 48 || 57 < b then _ else _) = _
    by_cases hdigit : 48 ≤ b ∧ b ≤ 57
    · have hnext := ih (front ++ [b])
      rw [List.length_append, List.length_singleton, List.append_assoc] at hnext
      rw [if_neg (by simp [hdigit])]
      refine hnext.trans ?_
      rw [List.all_cons, decide_eq_true hdigit.1, decide_eq_true hdigit.2]
      rfl
    · have hfirst : (decide (48 ≤ b) && decide (b ≤ 57)) = false := by
        rw [← Bool.decide_and, decide_eq_false hdigit]
      rw [if_pos, List.all_cons, hfirst, Bool.false_and]
      · rfl
      · rw [Bool.or_eq_true, decide_eq_true_eq, decide_eq_true_eq, ← UInt8.not_le, ← UInt8.not_le]
        exact not_and_or.mp hdigit

/-- The bytes that are copied lie within the text and within the copy. -/
theorem memcpy_spec (hs : n ≤ s.length) (hbuf : n ≤ buf.length) :
    memcpy s n buf = .ok (s.take n ++ buf.drop n) := by
  induction n with
  | zero => rfl
  | succ n ih =>
    have hlen : (s.take n).length = n := List.length_take_of_le (Nat.le_of_succ_le hs)
    rw [memcpy, ih (Nat.le_of_succ_le hs) (Nat.le_of_succ_le hbuf), peek_of_lt hs]
    show poke _ n s[n] = _
    have hroom : n < (s.take n ++ buf.drop n).length := by
      rw [List.length_append, hlen, List.length_drop]
      omega
    rw [poke, if_pos hroom, List.set_append_right _ _ (Nat.le_of_eq hlen), hlen, Nat.sub_self,
      List.drop_eq_getElem_cons hbuf, List.set_cons_zero, List.take_succ_eq_append_getElem hs,
      List.append_assoc]
    rfl

/-! ## The copy -/

/-- The bytes in front of the dot and the `Z` fit into the copy. -/
theorem copyBase_eq (spare : Nat) (stack : Nat → UInt8) (front back : Bytes) :
    ∃ rest : Bytes, rest.length = spare ∧ copyBase spare stack (front ++ back) front.length =
      poke (front ++ 90 :: rest) (front.length + 1) 0 := by
  let buf := (List.range (front.length + 1 + spare)).map stack
  have hbuf : buf.length = front.length + 1 + spare := by
    rw [List.length_map, List.length_range]
  have hcopy : memcpy (front ++ back) front.length buf = .ok (front ++ buf.drop front.length) := by
    rw [memcpy_spec (by simp) (by omega), List.take_left' rfl]
  have hlt : front.length < buf.length := by omega
  refine ⟨buf.drop (front.length + 1), by rw [List.length_drop]; omega, ?_⟩
  unfold copyBase
  simp only [Nat.add_sub_cancel]
  show (memcpy (front ++ back) front.length buf >>= _) = _
  rw [hcopy]
  show (poke (front ++ buf.drop front.length) front.length 90 >>= _) = _
  rw [List.drop_eq_getElem_cons hlt, poke, if_pos (by simp [hlt]),
    List.set_append_right _ _ (Nat.le_refl _), Nat.sub_self, List.set_cons_zero]
  rfl

/-- A copy of `buf_len` bytes has no place for the zero. -/
theorem copyBase_zero (stack : Nat → UInt8) (front back : Bytes) :
    copyBase 0 stack (front ++ back) front.length = .error .buf := by
  obtain ⟨rest, hrest, hcopy⟩ := copyBase_eq 0 stack front back
  rw [hcopy, List.eq_nil_of_length_eq_zero hrest]
  exact if_neg (by simp)

/-- One byte more is enough. -/
theorem copyBase_succ (spare : Nat) (stack : Nat → UInt8) (front back : Bytes) :
    ∃ rest, copyBase (spare + 1) stack (front ++ back) front.length =
      .ok (front ++ 90 :: 0 :: rest) := by
  obtain ⟨rest, hrest, hcopy⟩ := copyBase_eq (spare + 1) stack front back
  obtain ⟨b, rest, rfl⟩ := List.exists_cons_of_length_eq_add_one hrest
  refine ⟨rest, ?_⟩
  rw [hcopy, poke, if_pos (by simp), List.set_append_right _ _ (Nat.le_succ _)]
  simp

/-! ## The fraction -/

theorem isDigit_ofNat (b : UInt8) :
    (Char.ofNat b.toNat).isDigit = (decide (48 ≤ b) && decide (b ≤ 57)) := by
  have hall : ∀ n : Fin 256,
      (Char.ofNat n).isDigit = (decide (48 ≤ n.val) && decide (n.val ≤ 57)) := by
    decide +kernel
  exact hall ⟨b.toNat, UInt8.toNat_lt b⟩

theorem ofDigitChars_lt {cs : List Char} (h : ∀ c ∈ cs, c.isDigit = true) :
    Nat.ofDigitChars 10 cs 0 < 10 ^ cs.length := by
  induction cs with
  | nil => exact Nat.zero_lt_one
  | cons c cs ih =>
    have hc : c.toNat ≤ 57 := by
      have hdigit := h c List.mem_cons_self
      unfold Char.isDigit at hdigit
      exact of_decide_eq_true (Bool.and_eq_true_iff.mp hdigit).2
    have hcs := ih fun c' hc' => h c' (List.mem_cons_of_mem _ hc')
    rw [Nat.ofDigitChars_cons, Nat.ofDigitChars_eq_ofDigitChars_zero, List.length_cons,
      Nat.pow_succ]
    have hzero : '0'.toNat = 48 := rfl
    have hle : 10 ^ cs.length * (10 * 0 + (c.toNat - '0'.toNat)) ≤ 10 ^ cs.length * 9 :=
      Nat.mul_le_mul_left _ (by omega)
    omega

/-- Digits are no blanks and no signs. -/
theorem sscanfInt_digits {cs : List Char} (hne : cs ≠ []) (hlen : cs.length ≤ 9)
    (h : ∀ c ∈ cs, c.isDigit = true) :
    sscanfInt cs = some ((ofDigits 10 (leadingDigits decDigit cs) : Nat) : Int) := by
  obtain ⟨c, cs, rfl⟩ := List.exists_cons_of_ne_nil hne
  have hdec := decDigit_of_isDigit (h c List.mem_cons_self)
  have hhex : hexDigit c = some (c.toNat - '0'.toNat) := by
    unfold decDigit at hdec
    split_ifs at hdec with hrange
    exact if_pos hrange
  have hfacts := RefTextLemmas.digitFacts hhex
  have hdrop : (c :: cs).dropWhile isSpaceChar = c :: cs :=
    List.dropWhile_cons_of_neg (by rw [hfacts.space]; decide)
  have hsign := RefTextLemmas.scanSign_of_ne hfacts.minus hfacts.plus cs
  have hsome : (leadingDigits decDigit (c :: cs)).isEmpty = false := by
    rw [leadingDigits, hdec]
    rfl
  have hlt : ofDigits 10 (leadingDigits decDigit (c :: cs)) < 10 ^ 9 := by
    rw [ofDigits_leadingDigits h]
    exact (ofDigitChars_lt h).trans_le (Nat.pow_le_pow_right (by decide) hlen)
  unfold sscanfInt
  rw [hdrop, hsign]
  simp only [hsome, Bool.false_eq_true, if_false]
  generalize ofDigits 10 (leadingDigits decDigit (c :: cs)) = v at hlt
  rw [min_eq_right (by omega), max_eq_right (by omega), toInt32_of_lt (by omega)]

/-- The fraction of a text, once it is known to consist of digits. -/
theorem sscanfInt_fraction {frac : Bytes} (hlen : frac.length = secondFractionDigits)
    (h : ∀ b ∈ frac, 48 ≤ b ∧ b ≤ 57) (back : Bytes) :
    sscanfInt ((bytesText (frac ++ back)).take secondFractionDigits) =
      some ((ofDigits 10 (leadingDigits decDigit (bytesText frac)) : Nat) : Int) := by
  have htext : (bytesText frac).length = secondFractionDigits := by
    rw [bytesText, List.length_map, hlen]
  have htake : (bytesText (frac ++ back)).take secondFractionDigits = bytesText frac := by
    rw [bytesText, List.map_append]
    exact List.take_left' htext
  rw [htake]
  refine sscanfInt_digits ?_ (by rw [htext]; decide) fun c hc => ?_
  · intro hnil
    rw [hnil] at htext
    exact absurd htext (by decide)
  · obtain ⟨b, hb, rfl⟩ := List.mem_map.mp hc
    rw [isDigit_ofNat, decide_eq_true (h b hb).1, decide_eq_true (h b hb).2]
    rfl

/-! ## The parser -/

theorem run_short {spare : Nat} {stack : Nat → UInt8} {timegm : List Char → Option Int}
    (h : s.length < 8) : run spare stack timegm s = .ok none := by
  unfold run
  rw [string_of_le (Nat.zero_le _)]
  exact if_pos h

/-- A text of at least eight bytes: all that is read of it lies in it, and it is copied if it ends
in a fraction. -/
theorem run_parts (spare : Nat) (stack : Nat → UInt8) (timegm : List Char → Option Int)
    (base : Bytes) (dot : UInt8) {frac : Bytes} (z : UInt8)
    (hlen : frac.length = secondFractionDigits) :
    run spare stack timegm (base ++ dot :: (frac ++ [z])) =
      if dot = 46 ∧ (frac.all fun b => 48 ≤ b && b ≤ 57) = true ∧ z = 90 then do
        let buf ← copyBase spare stack (base ++ dot :: (frac ++ [z])) base.length
        return (timegm (bytesText (← bufString buf))).map fun seconds =>
          Int.bmod (seconds * 1000 +
            (ofDigits 10 (leadingDigits decDigit (bytesText frac)) : Nat) / 1000) (2 ^ 64)
      else .ok none := by
  have hs : (base ++ dot :: (frac ++ [z])).length = base.length + 8 := by
    simp only [List.length_append, List.length_cons, List.length_nil, hlen, secondFractionDigits]
  have hdot := peek_append base dot (frac ++ [z])
  have hdigits := digitsLoop_spec (base ++ [dot]) frac [z]
  have hz := peek_append (base ++ dot :: frac) z []
  have hstring : string (base ++ dot :: (frac ++ [z])) (base.length + 1) = .ok (frac ++ [z]) := by
    rw [string_of_le (by omega)]
    simp
  simp only [List.append_assoc, List.cons_append, List.nil_append, List.length_append,
    List.length_cons, List.length_nil, Nat.zero_add, hlen] at hdigits hz
  unfold run
  rw [string_of_le (Nat.zero_le _), List.drop_zero]
  have hshort : ¬ base.length + 8 < 2 + secondFractionDigits := by
    unfold secondFractionDigits
    omega
  have hpos : base.length + 8 - (2 + secondFractionDigits) = base.length := Nat.add_sub_cancel _ 8
  simp only [bind, Except.bind, hs, if_neg hshort, hpos, hdot]
  by_cases hdot' : dot = 46
  · subst hdot'
    rw [if_neg (not_not.mpr rfl)]
    simp only [hdigits]
    cases hfrac : frac.all fun b => 48 ≤ b && b ≤ 57 with
    | true =>
      simp only [Bool.not_true, Bool.false_eq_true, if_false, Nat.add_assoc,
        Nat.add_comm 1 secondFractionDigits, hz]
      by_cases hz' : z = 90
      · subst hz'
        rw [if_neg (not_not.mpr rfl), if_pos ⟨trivial, trivial, rfl⟩]
        simp only [hstring, sscanfInt_fraction hlen (all_digits_iff.mp hfrac)]
        cases copyBase spare stack (base ++ 46 :: (frac ++ [90])) base.length with
        | error fault => rfl
        | ok buf =>
          simp only
          cases bufString buf with
          | error fault => rfl
          | ok b =>
            simp only
            cases timegm (bytesText b) with
            | none => rfl
            | some seconds => rfl
      · rw [if_pos hz', if_neg fun h => hz' h.2.2]
        rfl
    | false =>
      simp only [Bool.not_false, if_true]
      rw [if_neg fun h => Bool.false_ne_true h.2.1]
      rfl
  · rw [if_pos hdot', if_neg fun h => hdot' h.1]
    rfl

theorem exists_parts (h : 8 ≤ s.length) :
    ∃ base dot frac z, frac.length = secondFractionDigits ∧
      s = base ++ dot :: (frac ++ [z]) := by
  have hlast : s ≠ [] := List.ne_nil_of_length_pos (by omega)
  have hfront : s.length - 8 < s.dropLast.length := by
    rw [List.length_dropLast]
    omega
  refine ⟨s.dropLast.take (s.length - 8), s.dropLast[s.length - 8],
    s.dropLast.drop (s.length - 8 + 1), s.getLast hlast, ?_, ?_⟩
  · rw [List.length_drop, List.length_dropLast, secondFractionDigits]
    omega
  · rw [← List.cons_append, ← List.append_assoc, ← List.drop_eq_getElem_cons hfront,
      List.take_append_drop, List.dropLast_append_getLast]

theorem endsInFraction_parts {base frac : Bytes} {dot z : UInt8}
    (hlen : frac.length = secondFractionDigits) :
    EndsInFraction (base ++ dot :: (frac ++ [z])) ↔
      dot = 46 ∧ (frac.all fun b => 48 ≤ b && b ≤ 57) = true ∧ z = 90 := by
  rw [all_digits_iff]
  constructor
  · rintro ⟨base', frac', heq, hlen', hdigits⟩
    have htail : (dot :: (frac ++ [z])).length = (46 :: (frac' ++ [90])).length := by
      simp only [List.length_cons, List.length_append, List.length_nil, hlen, hlen']
    obtain ⟨-, hback⟩ := List.append_inj' heq htail
    obtain ⟨rfl, hfrac⟩ := List.cons.inj hback
    obtain ⟨rfl, hz⟩ := List.append_inj' hfrac rfl
    exact ⟨rfl, hdigits, (List.cons.inj hz).1⟩
  · rintro ⟨rfl, hdigits, rfl⟩
    exact ⟨base, frac, rfl, hlen, hdigits⟩

theorem not_endsInFraction_of_short (h : s.length < 8) : ¬ EndsInFraction s := by
  rintro ⟨base, frac, rfl, hlen, -⟩
  simp only [List.length_append, List.length_cons, List.length_nil, hlen,
    secondFractionDigits] at h
  omega

/-! ## What the accesses compute -/

theorem ofNat_inj {a b : UInt8} : Char.ofNat a.toNat = Char.ofNat b.toNat ↔ a = b := by
  have hall : ∀ n : Fin 256, (Char.ofNat n).toNat = n := by
    decide +kernel
  refine ⟨fun h => UInt8.toNat_inj.mp ?_, fun h => congrArg (fun b => Char.ofNat b.toNat) h⟩
  have ha := hall ⟨a.toNat, UInt8.toNat_lt a⟩
  have hb := hall ⟨b.toNat, UInt8.toNat_lt b⟩
  simp only at ha hb
  rw [← ha, ← hb, h]

theorem bytesText_parts (base frac : Bytes) (dot z : UInt8) :
    bytesText (base ++ dot :: (frac ++ [z])) =
      bytesText base ++ Char.ofNat dot.toNat :: (bytesText frac ++ [Char.ofNat z.toNat]) := by
  simp [bytesText]

/-- The text ends in a fraction, in bytes and in characters. -/
theorem accept_iff (dot z : UInt8) (frac : Bytes) :
    (Char.ofNat dot.toNat = '.' ∧ (bytesText frac).all Char.isDigit = true ∧
        Char.ofNat z.toNat = 'Z') ↔
      dot = 46 ∧ (frac.all fun b => 48 ≤ b && b ≤ 57) = true ∧ z = 90 := by
  refine and_congr (ofNat_inj (b := 46)) (and_congr ?_ (ofNat_inj (b := 90)))
  simp only [bytesText, List.all_map, Function.comp_def, isDigit_ofNat]

/-- The copy is the text without fraction. -/
theorem bufString_copy {base : Bytes} (hbase : 0 ∉ base) (rest : Bytes) :
    bufString (base ++ 90 :: 0 :: rest) = .ok (base ++ [90]) := by
  have hcut : cString (base ++ 90 :: 0 :: rest) = base ++ [90] := by
    rw [cString, List.takeWhile_append_of_pos]
    · rfl
    · intro b hb
      exact decide_eq_true fun hzero => hbase (hzero ▸ hb)
  rw [bufString, if_pos (by simp), hcut]

/-- With one more byte for the copy every access is within bounds, and the result is that of
`timeFromIso8601`. -/
theorem run_eq (spare : Nat) (stack : Nat → UInt8) (timegm : List Char → Option Int)
    (hs : 0 ∉ s) :
    run (spare + 1) stack timegm s = .ok (timeFromIso8601 timegm (bytesText s)) := by
  rcases Nat.lt_or_ge s.length 8 with hshort | hlong
  · rw [run_short hshort, timeFromIso8601, if_pos (by rwa [bytesText, List.length_map])]
  · obtain ⟨base, dot, frac, z, hlen, rfl⟩ := exists_parts hlong
    have hfrac : (bytesText frac).length = secondFractionDigits := by
      rw [bytesText, List.length_map, hlen]
    rw [run_parts (spare + 1) stack timegm base dot z hlen, bytesText_parts,
      timeFromIso8601_parts timegm _ _ _ hfrac]
    by_cases haccept : dot = 46 ∧ (frac.all fun b => 48 ≤ b && b ≤ 57) = true ∧ z = 90
    · obtain ⟨rest, hcopy⟩ := copyBase_succ spare stack base (dot :: (frac ++ [z]))
      have hbase : 0 ∉ base := fun h => hs (List.mem_append_left _ h)
      rw [if_pos haccept, if_pos ((accept_iff dot z frac).mpr haccept), hcopy]
      show (bufString (base ++ 90 :: 0 :: rest) >>= _) = _
      have htext : bytesText (base ++ [90]) = bytesText base ++ ['Z'] := List.map_append
      rw [bufString_copy hbase, ← htext]
      simp only [Int.natCast_ediv, Nat.cast_ofNat]
      rfl
    · rw [if_neg haccept, if_neg fun h => haccept ((accept_iff dot z frac).mp h)]

end TimesLemmas

open TimesLemmas in
/-- Every access lies in the text or in the copy if and only if the text does not end as a time
does: a text that does is copied without a place for the zero behind it. -/
theorem time_parse_in_bounds_iff (stack : Nat → UInt8) (timegm : List Char → Option Int)
    (s : Bytes) :
    (∃ res, timeFromIso8601Accesses stack timegm s = .ok res) ↔ ¬ EndsInFraction s := by
  rcases Nat.lt_or_ge s.length 8 with hshort | hlong
  · exact iff_of_true ⟨none, run_short hshort⟩ (not_endsInFraction_of_short hshort)
  · obtain ⟨base, dot, frac, z, hlen, rfl⟩ := exists_parts hlong
    rw [endsInFraction_parts hlen, timeFromIso8601Accesses,
      run_parts 0 stack timegm base dot z hlen]
    by_cases haccept : dot = 46 ∧ (frac.all fun b => 48 ≤ b && b ≤ 57) = true ∧ z = 90
    · rw [if_pos haccept, copyBase_zero]
      refine iff_of_false ?_ (not_not.mpr haccept)
      rintro ⟨res, hres⟩
      cases hres
    · rw [if_neg haccept]
      exact iff_of_true ⟨none, rfl⟩ haccept

/-- The start of 2024. -/
theorem time_parse_out_of_bounds :
    timeFromIso8601Accesses (fun _ => 0) newYearTimegm (text "2024-01-01T00:00:00.000000Z") =
      .error .buf := by
  decide +kernel

end Everarch
