import Everarch.AttrIndex.Query
import Everarch.Lib.Lexer

/-!
# The tokens of a query text

The rules of attr-query-lexer.l. A text may be laid out freely: blanks stand anywhere
between tokens and are needed only between two words.

* `QueryTokenLemmas.pick_token`: the rule that reads the text of a token.
* `lexes_layout`: the tokens of a text that is laid out.
-/

namespace Everarch

open Lexer

/-- The tokens of attr-query-parser.y that the lexer returns. -/
inductive QueryTok where
  | boolAnd
  | boolOr
  | eq
  | contains
  | bOpen
  | bClose
  | ref
  | select
  | where_
  | at_
  | offset
  | limit
  | wildcard
  | string (s : List Char)
  | end_
  | unknown
deriving DecidableEq, Repr

/-- `[a-zA-Z0-9]`. -/
def isWordStart (c : Char) : Bool :=
  'a' ≤ c && c ≤ 'z' || 'A' ≤ c && c ≤ 'Z' || '0' ≤ c && c ≤ '9'

/-- `[a-zA-Z0-9_.:-]`. -/
def isWordChar (c : Char) : Bool :=
  isWordStart c || c == '_' || c == '.' || c == ':' || c == '-'

/-- `[ \t]`. -/
def isBlank (c : Char) : Bool :=
  c == ' ' || c == '\t'

/-- The pattern `.`. -/
def anyChar : List Char → Nat
  | [] => 0
  | c :: _ => if c = '\n' then 0 else 1

/-- A rule whose pattern is a text. -/
def literalRule (s : List Char) (t : QueryTok) : Rule Char QueryTok :=
  ⟨literal s, fun _ => some t⟩

/-- The rules in front of the one for `STRING`. -/
def queryLiterals : List (List Char × QueryTok) :=
  [(['&', '&'], .boolAnd), (['|', '|'], .boolOr), (['='], .eq), (['~'], .contains),
    (['('], .bOpen), ([')'], .bClose), (['r', 'e', 'f'], .ref),
    (['s', 'e', 'l', 'e', 'c', 't'], .select), (['w', 'h', 'e', 'r', 'e'], .where_),
    (['a', 't'], .at_), (['o', 'f', 'f', 's', 'e', 't'], .offset),
    (['l', 'i', 'm', 'i', 't'], .limit), (['*'], .wildcard)]

/-- The rule for `STRING` and the rules behind it. -/
def queryClasses : List (Rule Char QueryTok) :=
  [⟨headTail isWordStart isWordChar, fun s => some (.string s)⟩,
    ⟨many isBlank, fun _ => none⟩,
    literalRule ['\n'] .end_,
    ⟨anyChar, fun _ => some .unknown⟩]

/-- The rules of attr-query-lexer.l, the one for the end of the text apart. -/
def queryRules : List (Rule Char QueryTok) :=
  queryLiterals.map (fun l => literalRule l.1 l.2) ++ queryClasses

/-- What the calls of `yylex` return for a text before they return `END` for its end. -/
def queryToks (text : List Char) : List QueryTok :=
  scan queryRules text.length text

/-! ## Layouts -/

/-- The text of a token of a query. -/
def QueryTok.text : QueryTok → List Char
  | .string s => s
  | t => ((queryLiterals.find? fun l => l.2 = t).map Prod.fst).getD []

/-- A token that is made of word characters. -/
def QueryTok.isWord (t : QueryTok) : Bool :=
  t.text.all isWordChar

/-- A token that a text can spell: a string is a word that is no keyword. -/
def QueryTok.Spelled : QueryTok → Prop
  | .string s => (∃ c cs, s = c :: cs ∧ isWordStart c = true ∧ ∀ d ∈ cs, isWordChar d = true) ∧
      s ∉ queryLiterals.map Prod.fst
  | .end_ | .unknown => False
  | _ => True

/-- The text of tokens with what stands in front of each of them. -/
def layout (ts : List (List Char × QueryTok)) : List Char :=
  ts.flatMap fun t => t.1 ++ t.2.text

/-- Only blanks stand in front of a token, and at least one between two words. -/
inductive Spaced : List (List Char × QueryTok) → Prop
  | nil : Spaced []
  | one {b : List Char} {t : QueryTok} (hb : ∀ c ∈ b, isBlank c = true) : Spaced [(b, t)]
  | cons {b b' : List Char} {t t' : QueryTok} {ts : List (List Char × QueryTok)}
      (hb : ∀ c ∈ b, isBlank c = true) (hword : t.isWord = true → t'.isWord = true → b' ≠ [])
      (hrest : Spaced ((b', t') :: ts)) : Spaced ((b, t) :: (b', t') :: ts)

namespace QueryTokenLemmas

variable {w l rest b : List Char} {t : QueryTok}

/-- A text that no literal goes on from, unless both are words. -/
def Closed (w : List Char) : Prop :=
  ∀ l ∈ queryLiterals.map Prod.fst, w <+: l →
    l = w ∨ w.all isWordChar = true ∧ l.all isWordChar = true

/-- No word goes on behind a word. -/
def Ends (w rest : List Char) : Prop :=
  w.all isWordChar = true → ∀ d ∈ rest.head?, isWordChar d = false

theorem closed_literal (hw : w ∈ queryLiterals.map Prod.fst) : Closed w := by
  have h : ∀ w ∈ queryLiterals.map Prod.fst, ∀ l ∈ queryLiterals.map Prod.fst, w.isPrefixOf l = true →
      l = w ∨ w.all isWordChar = true ∧ l.all isWordChar = true := by decide
  exact fun l hl hprefix => h w hw l hl (List.isPrefixOf_iff_prefix.mpr hprefix)

theorem closed_word {c : Char} {cs : List Char} (hc : isWordStart c = true)
    (hcs : ∀ d ∈ cs, isWordChar d = true) : Closed (c :: cs) := by
  intro l hl hbegin
  have hword : ∀ l ∈ queryLiterals.map Prod.fst, l.head?.all isWordStart = true →
      l.all isWordChar = true := by decide
  obtain ⟨more, rfl⟩ := hbegin
  refine .inr ⟨?_, hword _ hl (by simpa using hc)⟩
  simpa [isWordChar, hc] using hcs

/-- A literal that is another text matches less of this one. -/
theorem literal_lt (hl : l ∈ queryLiterals.map Prod.fst) (hne : l ≠ w) (hpos : 0 < w.length)
    (hclosed : Closed w) (hends : Ends w rest) : literal l (w ++ rest) < w.length := by
  unfold literal
  split
  · rename_i hmatch
    have hmatch := List.isPrefixOf_iff_prefix.mp hmatch
    rcases List.prefix_or_prefix_of_prefix hmatch (List.prefix_append w rest) with hshort | hlong
    · exact lt_of_le_of_ne hshort.length_le fun hlen => hne (hshort.eq_of_length hlen)
    · -- the literal would be a longer word, but the next character is none of a word
      obtain ⟨hword, hlword⟩ := (hclosed l hl hlong).resolve_left hne
      obtain ⟨more, rfl⟩ := hlong
      obtain ⟨rest', hrest⟩ := (List.prefix_append_right_inj w).mp hmatch
      cases more with
      | nil => exact absurd (List.append_nil w) hne
      | cons d more =>
        have hd := hends hword d (by rw [← hrest]; rfl)
        have hd' := List.all_eq_true.mp hlword d
          (List.mem_append_right w List.mem_cons_self)
        exact absurd (hd.symm.trans hd') Bool.false_ne_true
  · exact hpos

theorem headTail_word {c : Char} {cs : List Char} (hc : isWordStart c = true)
    (hcs : ∀ d ∈ cs, isWordChar d = true) (hends : Ends (c :: cs) rest) :
    headTail isWordStart isWordChar (c :: cs ++ rest) = (c :: cs).length := by
  have hword : (c :: cs).all isWordChar = true := by simpa [isWordChar, hc] using hcs
  have htake : (cs ++ rest).takeWhile isWordChar = cs := by
    rw [List.takeWhile_append_of_pos hcs]
    cases rest with
    | nil => simp
    | cons d rest => simp [hends hword d rfl]
  rw [List.cons_append, headTail, if_pos hc, htake, List.length_cons]

theorem anyChar_le (cs : List Char) : anyChar cs ≤ 1 := by
  cases cs with
  | nil => exact Nat.zero_le 1
  | cons c cs =>
    simp only [anyChar]
    split <;> omega

/-- The rules behind the literals match no more than a token. -/
theorem classes_le {c : Char} {cs : List Char} (hblank : isBlank c = false)
    (hword : isWordStart c = true → ∀ d ∈ cs, isWordChar d = true)
    (hends : Ends (c :: cs) rest) :
    ∀ r ∈ queryClasses, r.longest (c :: cs ++ rest) ≤ (c :: cs).length := by
  intro r hr
  simp only [queryClasses, List.mem_cons, List.not_mem_nil, or_false] at hr
  rcases hr with rfl | rfl | rfl | rfl
  · dsimp only
    cases hc : isWordStart c with
    | false => simp [headTail, hc]
    | true => exact le_of_eq (headTail_word hc (hword hc) hends)
  · simp [many, hblank]
  · exact (literal_le _ _).trans (Nat.succ_le_succ (Nat.zero_le cs.length))
  · exact (anyChar_le (c :: cs ++ rest)).trans (Nat.succ_le_succ (Nat.zero_le cs.length))

theorem pick_literal (hw : (w, t) ∈ queryLiterals) (hends : Ends w rest) :
    pick queryRules (w ++ rest) = (w.length, fun _ => some t) := by
  have hwords : ∀ l ∈ queryLiterals, ∃ c cs, l.1 = c :: cs ∧ isBlank c = false ∧
      (isWordStart c = true → ∀ d ∈ cs, isWordChar d = true) := by
    have h : ∀ l ∈ queryLiterals, l.1.head?.any (fun c => !isBlank c) = true ∧
        (l.1.head?.any isWordStart = true → l.1.tail.all isWordChar = true) := by decide +kernel
    rintro ⟨l, t⟩ hl
    obtain ⟨hhead, htail⟩ := h _ hl
    cases l with
    | nil => cases hhead
    | cons c cs =>
      exact ⟨c, cs, rfl, by simpa using hhead,
        fun hc => List.all_eq_true.mp (htail (by simpa using hc))⟩
  obtain ⟨c, cs, rfl, hblank, hword⟩ := hwords _ hw
  have hmem : ∀ l ∈ queryLiterals, l.1 ∈ queryLiterals.map Prod.fst :=
    fun l hl => List.mem_map_of_mem hl
  have hclosed : Closed (c :: cs) := closed_literal (hmem _ hw)
  have hnodup : (queryLiterals.map Prod.fst).Nodup := by decide
  obtain ⟨before, after, hsplit⟩ := List.append_of_mem hw
  rw [hsplit, List.map_append, List.map_cons] at hnodup
  have hbefore : c :: cs ∉ before.map Prod.fst := fun h =>
    (List.nodup_append.mp hnodup).2.2 _ h _ List.mem_cons_self rfl
  have hself : (literalRule (c :: cs) t).longest (c :: cs ++ rest) = (c :: cs).length :=
    literal_append _ _
  have hpick : pick (before.map (fun l => literalRule l.1 l.2) ++ literalRule (c :: cs) t ::
      (after.map (fun l => literalRule l.1 l.2) ++ queryClasses)) (c :: cs ++ rest) = _ :=
    pick_eq ?_ ?_
  · rw [queryRules, hsplit, List.map_append, List.map_cons, List.append_assoc, List.cons_append,
      hpick, hself]
    rfl
  · intro r hr
    obtain ⟨l, hl, rfl⟩ := List.mem_map.mp hr
    have hl' : l ∈ queryLiterals := hsplit ▸ List.mem_append_left _ hl
    rw [hself]
    exact literal_lt (hmem l hl') (fun h => hbefore (h ▸ List.mem_map_of_mem hl))
      (Nat.succ_pos _) hclosed hends
  · intro r hr
    rw [hself]
    rcases List.mem_append.mp hr with hr | hr
    · obtain ⟨l, _, rfl⟩ := List.mem_map.mp hr
      have hl' : l ∈ queryLiterals :=
        hsplit ▸ List.mem_append_right _ (List.mem_cons_of_mem _ ‹l ∈ after›)
      by_cases h : l.1 = c :: cs
      · exact (literal_le l.1 _).trans (le_of_eq (congrArg List.length h))
      · exact (literal_lt (hmem l hl') h (Nat.succ_pos _) hclosed hends).le
    · exact classes_le hblank hword hends r hr

theorem not_blank_of_wordStart {c : Char} (hc : isWordStart c = true) : isBlank c = false := by
  by_contra h
  rw [Bool.not_eq_false, isBlank, Bool.or_eq_true, beq_iff_eq, beq_iff_eq] at h
  rcases h with rfl | rfl
  · simp [isWordStart] at hc
  · simp [isWordStart] at hc

theorem pick_string {c : Char} {cs : List Char} (hc : isWordStart c = true)
    (hcs : ∀ d ∈ cs, isWordChar d = true) (hkey : c :: cs ∉ queryLiterals.map Prod.fst)
    (hends : Ends (c :: cs) rest) :
    pick queryRules (c :: cs ++ rest) = ((c :: cs).length, fun s => some (.string s)) := by
  have hself := headTail_word hc hcs hends
  have hblank := not_blank_of_wordStart hc
  have hpick : pick (queryLiterals.map (fun l => literalRule l.1 l.2) ++
      ⟨headTail isWordStart isWordChar, fun s => some (.string s)⟩ :: queryClasses.tail)
      (c :: cs ++ rest) = _ := pick_eq ?_ ?_
  · exact hpick.trans (Prod.ext hself rfl)
  · intro r hr
    obtain ⟨l, hl, rfl⟩ := List.mem_map.mp hr
    have hl' := List.mem_map_of_mem (f := Prod.fst) hl
    exact lt_of_lt_of_eq (literal_lt hl' (fun h => hkey (h ▸ hl')) (Nat.succ_pos _)
      (closed_word hc hcs) hends) hself.symm
  · intro r hr
    exact (classes_le hblank (fun _ => hcs) hends r (List.mem_of_mem_tail hr)).trans
      (le_of_eq hself.symm)

/-- Blanks are read at once, as far as they go. -/
theorem pick_blanks (hb : ∀ c ∈ b, isBlank c = true) (hpos : 0 < b.length)
    (hrest : ∀ c ∈ rest.head?, isBlank c = false) :
    pick queryRules (b ++ rest) = (b.length, fun _ => none) := by
  obtain ⟨c, cs, rfl⟩ := List.exists_cons_of_length_pos hpos
  have hc := hb c List.mem_cons_self
  have hself : many isBlank (c :: cs ++ rest) = (c :: cs).length := by
    rw [many, List.takeWhile_append_of_pos hb]
    cases rest with
    | nil => simp
    | cons d rest => simp [hrest d rfl]
  have hcases : c = ' ' ∨ c = '\t' := by simpa [isBlank] using hc
  have hliterals : ∀ c, c = ' ' ∨ c = '\t' → ∀ l ∈ queryLiterals.map Prod.fst,
      l.head? ≠ some c ∧ l ≠ [] := by
    rintro c (rfl | rfl) <;> decide
  have hstart : isWordStart c = false := by
    rcases hcases with rfl | rfl <;> rfl
  have hpick : pick ((queryLiterals.map (fun l => literalRule l.1 l.2) ++
      [⟨headTail isWordStart isWordChar, fun s => some (.string s)⟩]) ++
      ⟨many isBlank, fun _ => none⟩ :: queryClasses.drop 2) (c :: cs ++ rest) = _ := pick_eq ?_ ?_
  · rw [List.append_assoc] at hpick
    exact hpick.trans (Prod.ext hself rfl)
  · intro r hr
    dsimp only
    rw [hself]
    rcases List.mem_append.mp hr with hr | hr
    · obtain ⟨l, hl, rfl⟩ := List.mem_map.mp hr
      obtain ⟨hhead, hne⟩ := hliterals c hcases l.1 (List.mem_map_of_mem hl)
      have hnone : ¬l.1.isPrefixOf (c :: cs ++ rest) = true := by
        intro hmatch
        obtain ⟨more, hmore⟩ := List.isPrefixOf_iff_prefix.mp hmatch
        cases hl1 : l.1 with
        | nil => exact hne hl1
        | cons d ds =>
          rw [hl1] at hmore hhead
          exact hhead (congrArg some (List.cons.inj hmore).1)
      have hzero : (literalRule l.1 l.2).longest (c :: cs ++ rest) = 0 := if_neg hnone
      rw [hzero]
      exact Nat.succ_pos _
    · rw [List.mem_singleton.mp hr]
      simp [headTail, hstart]
  · intro r hr
    dsimp only
    rw [hself]
    simp only [queryClasses, List.drop_succ_cons, List.drop_zero, List.mem_cons, List.not_mem_nil,
      or_false] at hr
    rcases hr with rfl | rfl
    · exact (literal_le _ _).trans (Nat.succ_le_succ (Nat.zero_le cs.length))
    · exact (anyChar_le (c :: cs ++ rest)).trans (Nat.succ_le_succ (Nat.zero_le cs.length))

/-- What the lexer takes for the text of a token. -/
theorem pick_token (ht : t.Spelled) (hends : Ends t.text rest) :
    ∃ action : List Char → Option QueryTok, pick queryRules (t.text ++ rest) = (t.text.length, action) ∧
      action t.text = some t := by
  by_cases hstring : ∃ s, t = .string s
  · obtain ⟨s, rfl⟩ := hstring
    obtain ⟨⟨c, cs, rfl, hc, hcs⟩, hkey⟩ := ht
    exact ⟨_, pick_string hc hcs hkey hends, rfl⟩
  · have hmem : (t.text, t) ∈ queryLiterals := by
      cases t with
      | string s => exact absurd ⟨s, rfl⟩ hstring
      | end_ => exact absurd ht id
      | unknown => exact absurd ht id
      | _ => decide
    exact ⟨_, pick_literal hmem hends, rfl⟩

theorem toks_match {action : List Char → Option QueryTok} (hpos : 0 < w.length)
    (hpick : pick queryRules (w ++ rest) = (w.length, action)) :
    queryToks (w ++ rest) = (action w).toList ++ queryToks rest := by
  have hlen : (w ++ rest).length = (w.length - 1 + rest.length) + 1 := by
    rw [List.length_append]
    omega
  have hnil : (pick queryRules []).1 = 0 := rfl
  rw [queryToks, hlen, scan_match hpick rfl hpos,
    scan_fuel (Nat.le_add_left rest.length _) le_rfl hnil, ← queryToks]

theorem spelled_text (ht : t.Spelled) : ∃ c cs, t.text = c :: cs ∧ isBlank c = false ∧
    (t.isWord = false → isWordChar c = false) := by
  by_cases hstring : ∃ s, t = .string s
  · obtain ⟨s, rfl⟩ := hstring
    obtain ⟨⟨c, cs, rfl, hc, hcs⟩, -⟩ := ht
    refine ⟨c, cs, rfl, not_blank_of_wordStart hc, fun hword => ?_⟩
    have hall : (QueryTok.string (c :: cs)).isWord = true := by
      simpa [QueryTok.isWord, QueryTok.text, isWordChar, hc] using hcs
    exact absurd (hall.symm.trans hword) (by decide)
  · cases t with
    | string s => exact absurd ⟨s, rfl⟩ hstring
    | end_ => exact absurd ht id
    | unknown => exact absurd ht id
    | _ => exact ⟨_, _, rfl, by decide, by decide⟩

theorem toks_blanks (hb : ∀ c ∈ b, isBlank c = true) (hrest : ∀ c ∈ rest.head?, isBlank c = false) :
    queryToks (b ++ rest) = queryToks rest := by
  rcases Nat.eq_zero_or_pos b.length with hzero | hpos
  · rw [List.length_eq_zero_iff.mp hzero, List.nil_append]
  · exact toks_match hpos (pick_blanks hb hpos hrest)

/-- Blanks, a token and what ends the token. -/
theorem toks_token (hb : ∀ c ∈ b, isBlank c = true) (ht : t.Spelled) (hends : Ends t.text rest) :
    queryToks (b ++ t.text ++ rest) = t :: queryToks rest := by
  obtain ⟨c, cs, htext, hblank, -⟩ := spelled_text ht
  obtain ⟨action, hpick, haction⟩ := pick_token ht hends
  rw [List.append_assoc, toks_blanks hb, toks_match (by rw [htext]; exact Nat.succ_pos _) hpick, haction]
  · rfl
  · rw [htext]
    rintro d hd
    exact Option.some.inj hd ▸ hblank

theorem not_wordChar_of_blank {c : Char} (hc : isBlank c = true) : isWordChar c = false := by
  rw [isBlank, Bool.or_eq_true, beq_iff_eq, beq_iff_eq] at hc
  rcases hc with rfl | rfl <;> rfl

theorem ends_of_head (h : ∀ d ∈ rest.head?, isBlank d = true) : Ends w rest :=
  fun _ d hd => not_wordChar_of_blank (h d hd)

end QueryTokenLemmas

open QueryTokenLemmas in
/-- A query text is read token by token, however it is laid out: `tag=todo` and `tag = todo` are the
same query. -/
theorem lexes_layout {ts : List (List Char × QueryTok)} {tail : List Char} (hspaced : Spaced ts)
    (hspelled : ∀ t ∈ ts, t.2.Spelled) (htail : ∀ c ∈ tail, isBlank c = true) :
    queryToks (layout ts ++ tail) = ts.map Prod.snd := by
  have hend : queryToks tail = [] := by
    have h := toks_blanks htail (by simp : ∀ c ∈ ([] : List Char).head?, isBlank c = false)
    rw [List.append_nil] at h
    exact h
  induction hspaced with
  | nil => exact hend
  | @one b t hb =>
    have ht := hspelled _ List.mem_cons_self
    have hends : Ends t.text tail := ends_of_head fun d hd => htail d (List.mem_of_mem_head? hd)
    have htok := toks_token hb ht hends
    simp only [layout, List.flatMap_cons, List.flatMap_nil, List.append_nil, htok, hend]
    rfl
  | @cons b b' t t' ts hb hword hrest ih =>
    have ht := hspelled _ List.mem_cons_self
    have ht' := hspelled _ (List.mem_cons_of_mem _ List.mem_cons_self)
    have hb' : ∀ c ∈ b', isBlank c = true := by
      cases hrest with
      | one hb' => exact hb'
      | cons hb' _ _ => exact hb'
    have hends : Ends t.text (layout ((b', t') :: ts) ++ tail) := by
      cases hbl : b' with
      | nil =>
        intro hw d hd
        obtain ⟨c, cs, htext, -, hsymbol⟩ := spelled_text ht'
        have hsep : t'.isWord = false := by
          by_contra h
          exact hword hw (Bool.eq_true_of_not_eq_false h) hbl
        simp only [layout, List.flatMap_cons, List.nil_append, htext, List.cons_append,
          List.head?_cons, Option.mem_def, Option.some.injEq] at hd
        exact hd ▸ hsymbol hsep
      | cons c cs =>
        refine ends_of_head fun d hd => ?_
        have hd : c = d := by simpa [layout] using hd
        exact hd ▸ hb' c (hbl ▸ List.mem_cons_self)
    have htok := toks_token hb ht hends
    rw [layout, List.flatMap_cons, ← layout, List.append_assoc, htok,
      ih fun t ht => hspelled t (List.mem_cons_of_mem _ ht)]
    rfl

end Everarch
