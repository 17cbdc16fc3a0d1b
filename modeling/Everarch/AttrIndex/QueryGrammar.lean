import Everarch.AttrIndex.QueryParser
import Mathlib.Data.List.TakeWhile

/-!
# The grammar of query texts

What the parser of query texts builds, for every text.

* `QueryParserLemmas.Viable`: what stands on the stack behind some tokens.
* `QueryParserLemmas.viable_shift`, `viable_reduce`: one step of the parser.
* `QueryParserLemmas.queryText_of_read`: what is read derives from the grammar.

Results: `query_parsed_iff`, `query_text_round_trip`.
-/

namespace Everarch

/-- The tokens that a condition is written with, in brackets where its place asks for them. -/
def QueryNode.toks : CondLevel → QueryNode → List QueryTok
  | _, .refCnd ref => [.ref, .eq, .string (fmtClaimRef ref)]
  | _, .eqCnd key value => [.string key.toList, .eq, .string value.toList]
  | _, .containsCnd key needle => [.string key.toList, .contains, .string needle.toList]
  | .simple, .boolAnd l r => .bOpen :: (l.toks .conj ++ .boolAnd :: r.toks .simple ++ [.bClose])
  | _, .boolAnd l r => l.toks .conj ++ .boolAnd :: r.toks .simple
  | .all, .boolOr l r => l.toks .all ++ .boolOr :: r.toks .conj
  | _, .boolOr l r => .bOpen :: (l.toks .all ++ .boolOr :: r.toks .conj ++ [.bClose])

namespace QueryParserLemmas

variable {env : QueryEnv} {s s' : List QuerySym} {t : QueryTok} {ts w : List QueryTok}

/-- Stacks that wait for a condition of a level, and the tokens they were built from. -/
inductive Ctx (env : QueryEnv) : CondLevel → List QuerySym → List QueryTok → Prop
  | start : Ctx env .all [] []
  | where_ {ws : List QueryTok} {sel : Option AttrSelector} (hs : SelectorText ws sel) :
    Ctx env .all [.tok .where_, .selector sel] (ws ++ [.where_])
  | bOpen {lvl : CondLevel} {s : List QuerySym} {w : List QueryTok} (h : Ctx env lvl s w) :
    Ctx env .all (.tok .bOpen :: s) (w ++ [.bOpen])
  | boolOr {s : List QuerySym} {w wl : List QueryTok} {l : QueryNode} (h : Ctx env .all s w)
    (hl : CondText env .all wl l) :
    Ctx env .conj (.tok .boolOr :: .cond l :: s) (w ++ (wl ++ [.boolOr]))
  | boolAnd {lvl : CondLevel} {s : List QuerySym} {w wl : List QueryTok} {l : QueryNode}
    (h : Ctx env lvl s w) (hlvl : lvl ≠ .simple) (hl : CondText env .conj wl l) :
    Ctx env .simple (.tok .boolAnd :: .cond l :: s) (w ++ (wl ++ [.boolAnd]))

/-- Stacks that wait for the options, with the query that these complete. -/
inductive Head (env : QueryEnv) :
    List QuerySym → List QueryTok → (Int → Int → Int → ParsedQuery) → Prop
  | bare {ws : List QueryTok} {sel : Option AttrSelector} (hs : SelectorText ws sel) :
    Head env [.selector sel] ws (buildAttrQuery sel none)
  | where_ {ws wc : List QueryTok} {sel : Option AttrSelector} {n : Option QueryNode}
    (hs : SelectorText ws sel) (hc : CondOrEmptyText env wc n) :
    Head env [.condOrEmpty n, .tok .where_, .selector sel] (ws ++ .where_ :: wc)
      (buildAttrQuery sel n)
  | cond {wc : List QueryTok} {n : QueryNode} (hc : CondText env .all wc n) :
    Head env [.condOrEmpty (some n)] wc (buildAttrQuery (some .none_) (some n))

/-- The stacks of the parser in front of a token, and the tokens they were built from. -/
inductive Viable (env : QueryEnv) (t : QueryTok) : List QuerySym → List QueryTok → Prop
  | operand {lvl s w} (h : Ctx env lvl s w) : Viable env t s w
  | ref {lvl s w} (h : Ctx env lvl s w) : Viable env t (.tok .ref :: s) (w ++ [.ref])
  | refEq {lvl s w} (h : Ctx env lvl s w) :
    Viable env t (.tok .eq :: .tok .ref :: s) (w ++ [.ref, .eq])
  | refString {lvl s w} (v : List Char) (h : Ctx env lvl s w) :
    Viable env t (.tok (.string v) :: .tok .eq :: .tok .ref :: s) (w ++ [.ref, .eq, .string v])
  | key {lvl s w} (k : List Char) (h : Ctx env lvl s w) :
    Viable env t (.tok (.string k) :: s) (w ++ [.string k])
  | keyEq {lvl s w} (k : List Char) (h : Ctx env lvl s w) :
    Viable env t (.tok .eq :: .tok (.string k) :: s) (w ++ [.string k, .eq])
  | keyContains {lvl s w} (k : List Char) (h : Ctx env lvl s w) :
    Viable env t (.tok .contains :: .tok (.string k) :: s) (w ++ [.string k, .contains])
  | eqString {lvl s w} (k v : List Char) (h : Ctx env lvl s w) :
    Viable env t (.tok (.string v) :: .tok .eq :: .tok (.string k) :: s)
      (w ++ [.string k, .eq, .string v])
  | containsString {lvl s w} (k v : List Char) (h : Ctx env lvl s w) :
    Viable env t (.tok (.string v) :: .tok .contains :: .tok (.string k) :: s)
      (w ++ [.string k, .contains, .string v])
  | bracket {lvl s w wn n} (h : Ctx env lvl s w) (hn : CondText env .all wn n) :
    Viable env t (.tok .bClose :: .cond n :: .tok .bOpen :: s) (w ++ .bOpen :: (wn ++ [.bClose]))
  | cond {lvl s w wn n} (h : Ctx env lvl s w) (hn : CondText env lvl wn n)
    (hand : t = .boolAnd → CondText env .conj wn n) : Viable env t (.cond n :: s) (w ++ wn)
  | select : Viable env t [.tok .select] [.select]
  | wildcard : Viable env t [.tok .wildcard, .tok .select] [.select, .wildcard]
  | head {s w f} (h : Head env s w f) : Viable env t s w
  | at_ {s w f} (h : Head env s w f) : Viable env t (.tok .at_ :: s) (w ++ [.at_])
  | atString {s w f} (v : List Char) (h : Head env s w f) :
    Viable env t (.tok (.string v) :: .tok .at_ :: s) (w ++ [.at_, .string v])
  | atExpr {s w wa f a} (h : Head env s w f)
    (ha : OptionText .at_ env.now (timeFromIso8601 env.timegm) wa a) :
    Viable env t (.atExpr a :: s) (w ++ wa)
  | limit {s w wa f a} (h : Head env s w f)
    (ha : OptionText .at_ env.now (timeFromIso8601 env.timegm) wa a) :
    Viable env t (.tok .limit :: .atExpr a :: s) (w ++ wa ++ [.limit])
  | limitString {s w wa f a} (v : List Char) (h : Head env s w f)
    (ha : OptionText .at_ env.now (timeFromIso8601 env.timegm) wa a) :
    Viable env t (.tok (.string v) :: .tok .limit :: .atExpr a :: s)
      (w ++ wa ++ [.limit, .string v])
  | limitExpr {s w wa wl f a l} (h : Head env s w f)
    (ha : OptionText .at_ env.now (timeFromIso8601 env.timegm) wa a)
    (hl : OptionText .limit defaultAttrQueryLimit sscanfInt wl l) :
    Viable env t (.limitExpr l :: .atExpr a :: s) (w ++ wa ++ wl)
  | offset {s w wa wl f a l} (h : Head env s w f)
    (ha : OptionText .at_ env.now (timeFromIso8601 env.timegm) wa a)
    (hl : OptionText .limit defaultAttrQueryLimit sscanfInt wl l) :
    Viable env t (.tok .offset :: .limitExpr l :: .atExpr a :: s) (w ++ wa ++ wl ++ [.offset])
  | offsetString {s w wa wl f a l} (v : List Char) (h : Head env s w f)
    (ha : OptionText .at_ env.now (timeFromIso8601 env.timegm) wa a)
    (hl : OptionText .limit defaultAttrQueryLimit sscanfInt wl l) :
    Viable env t (.tok (.string v) :: .tok .offset :: .limitExpr l :: .atExpr a :: s)
      (w ++ wa ++ wl ++ [.offset, .string v])
  | offsetExpr {s w wo f a l o} (h : Head env s w f) (ho : OptionsText env wo a l o) :
    Viable env t (.offsetExpr o :: .limitExpr l :: .atExpr a :: s) (w ++ wo)
  | query {w q} (hq : QueryText env w q) : Viable env t [.query q] w
  | queryEnd {w q} (hq : QueryText env w q) : Viable env t [.tok .end_, .query q] (w ++ [.end_])
  | emptyEnd : Viable env t [.tok .end_] [.end_]
  | line {w q} (hq : QueryText env w q) : Viable env t [.line q] (w ++ [.end_])

theorem simple_lifts {n : QueryNode} (h : CondText env .simple w n) (lvl : CondLevel) :
    CondText env lvl w n :=
  match lvl with
  | .simple => h
  | .conj => .conj h
  | .all => .all (.conj h)

theorem Head.completes {f : Int → Int → Int → ParsedQuery} (h : Head env s w f) {wo : List QueryTok}
    {a l o : Int} (ho : OptionsText env wo a l o) : QueryText env (w ++ wo) (f a l o) := by
  cases h with
  | bare hs => exact .bare hs ho
  | where_ hs hc => exact .where_ hs hc ho
  | cond hc => exact .cond hc ho

/-- A condition of one comparison or in brackets. -/
theorem viable_simple {lvl : CondLevel} {wn : List QueryTok} {n : QueryNode} (h : Ctx env lvl s w)
    (hn : CondText env .simple wn n) : Viable env t (.cond n :: s) (w ++ wn) :=
  .cond h (simple_lifts hn lvl) fun _ => .conj hn

/-- A reduction keeps the tokens. -/
theorem viable_reduce (h : Viable env t s w) (hshift : shifts s t = false) (hr : Reduced env s s') :
    Viable env t s' w := by
  cases h with
  | operand h =>
    cases h with
    | start => cases hr; exact .head (.bare .absent)
    | where_ hs => cases hr; exact .head (.where_ hs .absent)
    | bOpen _ => cases hr
    | boolOr _ _ => cases hr
    | boolAnd _ _ _ => cases hr
  | refString v h => cases hr with | ref hn => exact viable_simple h (.ref hn)
  | eqString k v h => cases hr; exact viable_simple h (.eq k v)
  | containsString k v h => cases hr; exact viable_simple h (.contains k v)
  | bracket h hn => cases hr; exact viable_simple h (.bracket hn)
  | @cond lvl s w wn n h hn hand =>
    cases h with
    | start => cases hr; exact .head (.cond hn)
    | @where_ ws sel hs =>
      cases hr
      rw [List.append_assoc]
      exact .head (.where_ hs (.given hn))
    | bOpen _ => cases hr
    | boolOr h hl =>
      cases hr
      simp only [List.append_assoc, List.singleton_append]
      have hnext : t ≠ .boolAnd := beq_eq_false_iff_ne.mp hshift
      exact .cond h (.or hl hn) fun ht => absurd ht hnext
    | @boolAnd lvl _ _ _ _ h hlvl hl =>
      cases hr
      simp only [List.append_assoc, List.singleton_append]
      have hboth := CondText.and hl hn
      cases lvl with
      | simple => exact absurd rfl hlvl
      | conj => exact .cond h hboth fun _ => hboth
      | all => exact .cond h (.all hboth) fun _ => hboth
  | key k h => cases h <;> cases hr
  | wildcard => cases hr; exact .head (.bare .all)
  | @head s w f h =>
    have hnow : s' = .atExpr env.now :: s := by
      cases h <;> cases hr <;> rfl
    subst hnow
    have hat := Viable.atExpr (t := t) h .absent
    rwa [List.append_nil] at hat
  | atString v h => cases hr with | at_ hv => exact .atExpr h (.given hv)
  | limitString v h ha => cases hr with | limit hv => exact .limitExpr h ha (.given hv)
  | offsetString v h ha hl =>
    cases hr with
    | offset hv =>
      simp only [List.append_assoc]
      exact .offsetExpr h ⟨_, _, _, (List.append_assoc ..).symm, ha, hl, .given hv⟩
  | @atExpr s w wa f a h ha =>
    cases hr
    have hlimit := Viable.limitExpr (t := t) h ha .absent
    rwa [List.append_nil] at hlimit
  | @limitExpr s w wa wl f a l h ha hl =>
    cases hr
    rw [List.append_assoc]
    exact .offsetExpr h ⟨wa, wl, [], (List.append_nil _).symm, ha, hl, .absent⟩
  | offsetExpr h ho =>
    have hq := h.completes ho
    cases h with
    | bare _ => cases hr; exact .query hq
    | where_ _ _ =>
      cases hr with
      | whereQuery => exact .query hq
      | condQuery _ _ _ _ _ hs => exact (hs _ _ rfl).elim
    | cond _ => cases hr; exact .query hq
  | queryEnd hq => cases hr; exact .line hq
  | emptyEnd =>
    cases hr
    exact .line (.bare .absent ⟨[], [], [], rfl, .absent, .absent, .absent⟩)
  | _ => cases hr

theorem exists_string (h : isString t = true) : ∃ v, t = .string v := by
  cases t <;> first | exact ⟨_, rfl⟩ | cases h

theorem Ctx.accepts_level {lvl : CondLevel} (h : Ctx env lvl s w) : accepts lvl s = true := by
  cases h <;> rfl

theorem operand_shift {lvl : CondLevel} (h : Ctx env lvl s w) (ht : opensCond t = true)
    (t' : QueryTok) : Viable env t' (.tok t :: s) (w ++ [t]) := by
  cases t with
  | ref => exact .ref h
  | bOpen => exact .operand (.bOpen h)
  | string k => exact .key k h
  | _ => cases ht

/-- `&&` behind a condition that it binds to. -/
theorem and_shift {lvl : CondLevel} {wn : List QueryTok} {n : QueryNode} (h : Ctx env lvl s w)
    (hlvl : lvl ≠ .simple) (hn : CondText env .conj wn n) (t' : QueryTok) :
    Viable env t' (.tok .boolAnd :: .cond n :: s) (w ++ wn ++ [.boolAnd]) := by
  rw [List.append_assoc]
  exact .operand (.boolAnd h hlvl hn)

theorem or_shift {wn : List QueryTok} {n : QueryNode} (h : Ctx env .all s w)
    (hn : CondText env .all wn n) (t' : QueryTok) :
    Viable env t' (.tok .boolOr :: .cond n :: s) (w ++ wn ++ [.boolOr]) := by
  rw [List.append_assoc]
  exact .operand (.boolOr h hn)

/-- A shift adds its token. -/
theorem viable_shift (h : Viable env t s w) (hs : shifts s t = true) (t' : QueryTok) :
    Viable env t' (.tok t :: s) (w ++ [t]) := by
  cases h with
  | operand h =>
    cases h with
    | start =>
      simp only [shifts, Bool.or_eq_true, beq_iff_eq] at hs
      rcases hs with (hs | rfl) | rfl
      · exact operand_shift .start hs t'
      · exact .select
      · exact .emptyEnd
    | where_ h => exact operand_shift (.where_ h) hs t'
    | bOpen h => exact operand_shift (.bOpen h) hs t'
    | boolOr h hl => exact operand_shift (.boolOr h hl) hs t'
    | boolAnd h hlvl hl => exact operand_shift (.boolAnd h hlvl hl) hs t'
  | ref h =>
    obtain rfl := beq_iff_eq.mp hs
    rw [List.append_assoc]
    exact .refEq h
  | refEq h =>
    obtain ⟨v, rfl⟩ := exists_string hs
    rw [List.append_assoc]
    exact .refString v h
  | key k h =>
    rw [shifts_key h.accepts_level, Bool.or_eq_true, beq_iff_eq, beq_iff_eq] at hs
    rw [List.append_assoc]
    rcases hs with rfl | rfl
    · exact .keyEq k h
    · exact .keyContains k h
  | keyEq k h =>
    obtain ⟨v, rfl⟩ := exists_string hs
    rw [List.append_assoc]
    exact .eqString k v h
  | keyContains k h =>
    obtain ⟨v, rfl⟩ := exists_string hs
    rw [List.append_assoc]
    exact .containsString k v h
  | @cond lvl s w wn n h hn hand =>
    cases h with
    | start =>
      simp only [shifts, Bool.or_eq_true, beq_iff_eq] at hs
      rcases hs with rfl | rfl
      · exact and_shift .start CondLevel.noConfusion (hand rfl) t'
      · exact or_shift .start hn t'
    | where_ h =>
      simp only [shifts, Bool.or_eq_true, beq_iff_eq] at hs
      rcases hs with rfl | rfl
      · exact and_shift (.where_ h) CondLevel.noConfusion (hand rfl) t'
      · exact or_shift (.where_ h) hn t'
    | bOpen h =>
      simp only [shifts, Bool.or_eq_true, beq_iff_eq] at hs
      rcases hs with (rfl | rfl) | rfl
      · exact and_shift (.bOpen h) CondLevel.noConfusion (hand rfl) t'
      · exact or_shift (.bOpen h) hn t'
      · simp only [List.append_assoc, List.singleton_append]
        exact .bracket h hn
    | boolOr h hl =>
      obtain rfl := beq_iff_eq.mp hs
      exact and_shift (.boolOr h hl) CondLevel.noConfusion (hand rfl) t'
    | boolAnd _ _ _ => cases hs
  | select =>
    obtain rfl := beq_iff_eq.mp hs
    exact .wildcard
  | head h =>
    cases h with
    | bare h =>
      simp only [shifts, Bool.or_eq_true, beq_iff_eq] at hs
      rcases hs with rfl | rfl
      · exact .operand (.where_ h)
      · exact .at_ (.bare h)
    | where_ h hc =>
      obtain rfl := beq_iff_eq.mp hs
      exact .at_ (.where_ h hc)
    | cond hc =>
      obtain rfl := beq_iff_eq.mp hs
      exact .at_ (.cond hc)
  | at_ h =>
    obtain ⟨v, rfl⟩ := exists_string hs
    rw [List.append_assoc]
    exact .atString v h
  | atExpr h ha =>
    obtain rfl := beq_iff_eq.mp hs
    exact .limit h ha
  | limit h ha =>
    obtain ⟨v, rfl⟩ := exists_string hs
    rw [List.append_assoc]
    exact .limitString v h ha
  | limitExpr h ha hl =>
    obtain rfl := beq_iff_eq.mp hs
    exact .offset h ha hl
  | offset h ha hl =>
    obtain ⟨v, rfl⟩ := exists_string hs
    rw [List.append_assoc]
    exact .offsetString v h ha hl
  | query hq =>
    obtain rfl := beq_iff_eq.mp hs
    exact .queryEnd hq
  | _ => cases hs

/-- A query is there once its end was read. -/
theorem query_of_stopped {e : QueryError} {q : ParsedQuery} (h : Viable env t s w)
    (hq : (stopped s e).query = some q) : ∃ v, w = v ++ [.end_] ∧ QueryText env v q := by
  unfold stopped at hq
  split at hq
  · obtain rfl := Option.some.inj hq
    cases h with
    | operand h => cases h
    | head h => cases h
    | line hq => exact ⟨_, rfl, hq⟩
  · cases hq

theorem viable_push (fuel : Nat) (h : Viable env t s w) :
    match yypushParse env fuel s t with
    | .ok s' => ∀ t', Viable env t' s' (w ++ [t])
    | .error r => ∀ q, r.query = some q → ∃ v, w = v ++ [.end_] ∧ QueryText env v q := by
  induction fuel generalizing s with
  | zero => exact fun q hq => query_of_stopped h hq
  | succ fuel ih =>
    rw [yypushParse]
    by_cases hs : shifts s t = true
    · rw [if_pos hs]
      exact viable_shift h hs
    · rw [if_neg hs]
      cases hreduce : reduce env s with
      | none => exact fun q hq => query_of_stopped h hq
      | some r =>
        cases r with
        | error e => exact fun q hq => query_of_stopped h hq
        | ok s' =>
          exact ih (viable_reduce h (Bool.eq_false_of_not_eq_true hs) (reduced_of_reduce hreduce))

/-- Where a query comes out, the tokens up to an end derive it. -/
theorem queryText_of_read {q : ParsedQuery} (h : ∀ t, Viable env t s w)
    (hq : (pushToks env s ts).query = some q) :
    ∃ v more, w ++ ts = v ++ .end_ :: more ∧ QueryText env v q := by
  induction ts generalizing s w with
  | nil => cases hq
  | cons t ts ih =>
    have hpush := viable_push (parseBudget s + 1) (h t)
    rw [pushToks] at hq
    cases hres : yypushParse env (parseBudget s + 1) s t with
    | error r =>
      rw [hres] at hq hpush
      obtain ⟨v, rfl, hv⟩ := hpush q hq
      exact ⟨v, t :: ts, by simp, hv⟩
    | ok s' =>
      rw [hres] at hq hpush
      obtain ⟨v, more, heq, hv⟩ := ih hpush hq
      exact ⟨v, more, by rw [← heq, List.append_assoc, List.singleton_append], hv⟩

theorem end_not_mem_cond {lvl : CondLevel} {n : QueryNode} (h : CondText env lvl w n) : .end_ ∉ w := by
  induction h with
  | ref _ => simp
  | eq k v => simp
  | contains k v => simp
  | bracket _ ih => simpa using ih
  | and _ _ ihl ihr => simpa using ⟨ihl, ihr⟩
  | or _ _ ihl ihr => simpa using ⟨ihl, ihr⟩
  | conj _ ih => exact ih
  | all _ ih => exact ih

theorem end_not_mem_query {q : ParsedQuery} (h : QueryText env w q) : .end_ ∉ w := by
  have hselector : ∀ {ws sel}, SelectorText ws sel → .end_ ∉ ws := by
    rintro ws sel (_ | _)
    · exact List.not_mem_nil
    · decide
  cases h with
  | bare hs hw => simpa using ⟨hselector hs, end_not_mem_options hw⟩
  | where_ hs hc hw =>
    have hcond : ∀ {wc n}, CondOrEmptyText env wc n → .end_ ∉ wc := by
      rintro wc n (_ | hc)
      · exact List.not_mem_nil
      · exact end_not_mem_cond hc
    simpa using ⟨hselector hs, hcond hc, end_not_mem_options hw⟩
  | cond hc hw => simpa using ⟨end_not_mem_cond hc, end_not_mem_options hw⟩

theorem takeWhile_end (hw : .end_ ∉ w) (more : List QueryTok) :
    (w ++ .end_ :: more).takeWhile (· ≠ QueryTok.end_) = w := by
  have hall : ∀ t ∈ w, decide (t ≠ QueryTok.end_) = true := fun t ht =>
    decide_eq_true fun h => hw (h ▸ ht)
  rw [List.takeWhile_append_of_pos hall]
  simp

theorem stopped_error (s : List QuerySym) (e : QueryError) : (stopped s e).error ≠ none := by
  unfold stopped
  split <;> exact Option.some_ne_none e

/-- A token is on the top, or the parser has stopped with an error. -/
theorem push_result (fuel : Nat) (s : List QuerySym) (t : QueryTok) :
    match yypushParse env fuel s t with
    | .ok s' => ∃ s'', s' = .tok t :: s''
    | .error r => r.error ≠ none := by
  induction fuel generalizing s with
  | zero => exact stopped_error s .syntaxError
  | succ fuel ih =>
    rw [yypushParse]
    by_cases hs : shifts s t = true
    · rw [if_pos hs]
      exact ⟨s, rfl⟩
    · rw [if_neg hs]
      cases reduce env s with
      | none => exact stopped_error s .syntaxError
      | some r =>
        cases r with
        | error e => exact stopped_error s e
        | ok s' => exact ih s'

/-- Nothing is shifted behind the end. -/
theorem stops_behind_end (h : Viable env t (.tok .end_ :: s) w) :
    (pushToks env (.tok .end_ :: s) (t :: ts)).error ≠ none := by
  cases h with
  | operand h => cases h
  | head h => cases h
  | queryEnd hq =>
    rw [push_reduce rfl rfl, push_end]
    exact Option.some_ne_none _
  | emptyEnd =>
    rw [push_reduce rfl rfl, push_end]
    exact Option.some_ne_none _

theorem pushToks_error (h : ∀ t, Viable env t s w) (ts : List QueryTok) :
    (pushToks env s (ts ++ [.end_, .end_])).error ≠ none := by
  induction ts generalizing s w with
  | nil =>
    have hres := @push_result env (parseBudget s + 1) s .end_
    have hviable := viable_push (parseBudget s + 1) (h .end_)
    rw [List.nil_append, pushToks]
    cases hpush : yypushParse env (parseBudget s + 1) s .end_ with
    | error r =>
      rw [hpush] at hres
      exact hres
    | ok s' =>
      rw [hpush] at hres hviable
      obtain ⟨s'', rfl⟩ := hres
      exact stops_behind_end (hviable .end_)
  | cons t ts ih =>
    have hres := @push_result env (parseBudget s + 1) s t
    have hviable := viable_push (parseBudget s + 1) (h t)
    rw [List.cons_append, pushToks]
    cases hpush : yypushParse env (parseBudget s + 1) s t with
    | error r =>
      rw [hpush] at hres
      exact hres
    | ok s' =>
      rw [hpush] at hviable
      exact ih hviable

/-- The text and the two tokens for its end are cut at the first end. -/
theorem cut_at_end (toks : List QueryTok) : ∃ t more, toks ++ [.end_, .end_] =
    toks.takeWhile (· ≠ .end_) ++ .end_ :: t :: more := by
  have hsplit := List.takeWhile_append_dropWhile (p := (· ≠ QueryTok.end_)) (l := toks)
  cases hrest : toks.dropWhile (· ≠ .end_) with
  | nil =>
    rw [hrest, List.append_nil] at hsplit
    exact ⟨.end_, [], by rw [hsplit]⟩
  | cons t' rest =>
    have hhead := List.head?_dropWhile_not (· ≠ QueryTok.end_) toks
    rw [hrest] at hhead
    obtain rfl : t' = .end_ := by simpa using hhead
    rw [hrest] at hsplit
    obtain ⟨t, more, hmore⟩ := List.exists_cons_of_ne_nil (by simp : rest ++ [.end_, .end_] ≠ [])
    refine ⟨t, more, ?_⟩
    conv_lhs => rw [← hsplit]
    rw [List.append_assoc, List.cons_append, hmore]

/-- What a condition is written with derives it. -/
theorem toks_derive (env : QueryEnv) (n : QueryNode) (lvl : CondLevel) :
    CondText env lvl (n.toks lvl) n := by
  induction n generalizing lvl with
  | refCnd ref =>
    have hparse : attrQueryRefCnd env (fmtClaimRef ref) = some (.refCnd ref) := by
      rw [attrQueryRefCnd, RefTextLemmas.parseClaimRef_fmtClaimRef]
    cases lvl <;> exact simple_lifts (.ref hparse) _
  | eqCnd key value =>
    have hleaf := @CondText.eq env key.toList value.toList
    rw [attrQueryEqCnd, String.ofList_toList, String.ofList_toList] at hleaf
    cases lvl <;> exact simple_lifts hleaf _
  | containsCnd key needle =>
    have hleaf := @CondText.contains env key.toList needle.toList
    rw [attrQueryContainsCnd, String.ofList_toList, String.ofList_toList] at hleaf
    cases lvl <;> exact simple_lifts hleaf _
  | boolAnd l r ihl ihr =>
    have hand := CondText.and (ihl .conj) (ihr .simple)
    cases lvl with
    | all => exact .all hand
    | conj => exact hand
    | simple => exact .bracket (.all hand)
  | boolOr l r ihl ihr =>
    have hor := CondText.or (ihl .all) (ihr .conj)
    cases lvl with
    | all => exact hor
    | conj => exact .conj (.bracket hor)
    | simple => exact .bracket hor

end QueryParserLemmas

open QueryParserLemmas in
/-- A query is built from a text exactly if the tokens of its first line derive it, with `&&` above
`||` and both to the left; nothing behind a line feed matters. The parser always stops, with a text
for the caller who gets no query. -/
theorem query_parsed_iff (env : QueryEnv) (text : List Char) :
    (attrParseQuery env text).error ≠ none ∧
      ∀ q, (attrParseQuery env text).query = some q ↔
        QueryText env ((queryToks text).takeWhile (· ≠ .end_)) q := by
  refine ⟨pushToks_error (fun t => .operand .start) _, fun q => ?_⟩
  obtain ⟨t, more, hcut⟩ := cut_at_end (queryToks text)
  have hfirst : .end_ ∉ (queryToks text).takeWhile (· ≠ .end_) := fun hmem => by
    simpa using List.mem_takeWhile_imp hmem
  unfold attrParseQuery
  constructor
  · intro hq
    obtain ⟨v, more', hv, hderives⟩ := queryText_of_read (w := []) (fun t => .operand .start) hq
    rw [List.nil_append, hcut] at hv
    have hsame := congrArg (List.takeWhile (· ≠ QueryTok.end_)) hv
    rw [takeWhile_end hfirst, takeWhile_end (end_not_mem_query hderives)] at hsame
    exact hsame ▸ hderives
  · intro hderives
    rw [hcut, queryText_read hderives]

open QueryParserLemmas in
/-- Tokens derive one query at most: the grammar of the parser is not ambiguous. -/
theorem queryText_unique {env : QueryEnv} {w : List QueryTok} {q q' : ParsedQuery}
    (h : QueryText env w q) (h' : QueryText env w q') : q = q' := by
  have hread : pushToks env [] (w ++ [.end_, .end_]) = ⟨some q, some .syntaxError⟩ :=
    queryText_read h
  rw [queryText_read h'] at hread
  simpa using (congrArg QueryResult.query hread).symm

open QueryParserLemmas in
/-- The tokens that a condition is written with, laid out in any way and followed by a time, a limit
and an offset, are read as this condition with these. -/
theorem query_text_round_trip (env : QueryEnv) (n : QueryNode) {a l o : Int} {va vl vo : List Char}
    (ha : timeFromIso8601 env.timegm va = some a) (hl : sscanfInt vl = some l)
    (ho : sscanfInt vo = some o) {ts : List (List Char × QueryTok)} {tail : List Char}
    (hts : ts.map Prod.snd = n.toks .all ++
      [.at_, .string va, .limit, .string vl, .offset, .string vo])
    (hspaced : Spaced ts) (hspelled : ∀ t ∈ ts, t.2.Spelled) (htail : ∀ c ∈ tail, isBlank c = true) :
    (attrParseQuery env (layout ts ++ tail)).query =
      some (buildAttrQuery (some .none_) (some n) a l o) := by
  have hderives : QueryText env (ts.map Prod.snd) (buildAttrQuery (some .none_) (some n) a l o) := by
    rw [hts]
    exact .cond (toks_derive env n .all) ⟨_, _, _, rfl, .given ha, .given hl, .given ho⟩
  rw [attrParseQuery, lexes_layout hspaced hspelled htail, queryText_read hderives]

/-- The tokens of `(a=b||c~d)&& e=f at 2024-01-01T00:00:00.000000Z limit 5 offset 10`. -/
def bracketsLayout : List (List Char × QueryTok) :=
  [([], .bOpen), ([], .string ['a']), ([], .eq), ([], .string ['b']), ([], .boolOr),
    ([], .string ['c']), ([], .contains), ([], .string ['d']), ([], .bClose), ([], .boolAnd),
    ([' '], .string ['e']), ([], .eq), ([], .string ['f']), ([' '], .at_),
    ([' '], .string "2024-01-01T00:00:00.000000Z".toList), ([' '], .limit), ([' '], .string ['5']),
    ([' '], .offset), ([' '], .string ['1', '0'])]

/-- A condition that needs its brackets, with everything that may follow. -/
theorem query_text_round_trip_brackets :
    (attrParseQuery ⟨0, fun _ => some 1704067200, Vector.replicate _ 0⟩
      (layout bracketsLayout ++ [' '])).query = some (buildAttrQuery (some .none_)
        (some (.boolAnd (.boolOr (.eqCnd "a" "b") (.containsCnd "c" "d")) (.eqCnd "e" "f")))
        1704067200000 5 10) := by
  have hspaced : Spaced bracketsLayout := by
    repeat' first | apply Spaced.cons | apply Spaced.one
    all_goals first | exact List.all_eq_true.mp (by decide) | decide
  have hword : ∀ s ∈ [['a'], ['b'], ['c'], ['d'], ['e'], ['f'], ['5'], ['1', '0'],
      "2024-01-01T00:00:00.000000Z".toList], (QueryTok.string s).Spelled := by
    have hcheck : ∀ s ∈ [['a'], ['b'], ['c'], ['d'], ['e'], ['f'], ['5'], ['1', '0'],
        "2024-01-01T00:00:00.000000Z".toList], s.head?.any isWordStart = true ∧
          s.all isWordChar = true ∧ s ∉ queryLiterals.map Prod.fst := by decide +kernel
    intro s hs
    obtain ⟨hstart, hall, hkey⟩ := hcheck s hs
    cases s with
    | nil => cases hstart
    | cons c cs =>
      exact ⟨⟨c, cs, rfl, by simpa using hstart,
        fun d hd => List.all_eq_true.mp hall d (List.mem_cons_of_mem c hd)⟩, hkey⟩
  have hspelled : ∀ t ∈ bracketsLayout, t.2.Spelled := by
    simp only [bracketsLayout, List.forall_mem_cons]
    refine ⟨trivial, hword _ (by simp), trivial, hword _ (by simp), trivial, hword _ (by simp),
      trivial, hword _ (by simp), trivial, trivial, hword _ (by simp), trivial, hword _ (by simp),
      trivial, hword _ (by simp), trivial, hword _ (by simp), trivial, hword _ (by simp), ?_⟩
    exact fun t ht => absurd ht List.not_mem_nil
  exact @query_text_round_trip ⟨0, fun _ => some 1704067200, Vector.replicate _ 0⟩
    (.boolAnd (.boolOr (.eqCnd "a" "b") (.containsCnd "c" "d")) (.eqCnd "e" "f"))
    1704067200000 5 10 "2024-01-01T00:00:00.000000Z".toList ['5'] ['1', '0'] (by decide +kernel)
    (by decide +kernel) (by decide +kernel) bracketsLayout [' '] (by decide +kernel) hspaced
    hspelled (List.all_eq_true.mp (by decide))

end Everarch
