import Everarch.AttrIndex.Query

/-!
# Placeholders and bound values

The text of a query and its parameters come out of two traversals of the same tree, one through
`append_cnd` and one through `bind`, which counts the columns.

* `PlaceholderLemmas.Marked.append`: what stands in front of the placeholders of a text is found
  again wherever the text stands;
* `PlaceholderLemmas.bindTo_eq`: a node binds its values one after the other and stops at the first
  that SQLite refuses;
* `placeholders_aligned`: the `i`-th bound value is the one that the words in front of the `i`-th
  placeholder ask for.
-/

namespace Everarch

open Sql

/-! ## Binding -/

/-- A statement while it is bound: the calls of `sqlite3_bind_*` with their column, and `column`. -/
structure BindState where
  calls : List (Nat × Value)
  column : Nat

/-- `sqlite3_bind_*(stmt, (*column)++, value)`, which SQLite may refuse. -/
def sqliteBind (accepts : Nat → Value → Bool) (v : Value) (st : BindState) : Res × BindState :=
  (if accepts st.column v then .ok else .error, ⟨st.calls ++ [(st.column, v)], st.column + 1⟩)

/-- Calls one after the other, up to the first that fails. -/
def bindAll (accepts : Nat → Value → Bool) : List Value → BindState → Res × BindState
  | [], st => (.ok, st)
  | v :: vs, st =>
    match sqliteBind accepts v st with
    | (.ok, st) => bindAll accepts vs st
    | (_, st) => (.error, st)

/-- `bind` of a node. -/
def QueryNode.bindTo (accepts : Nat → Value → Bool) (t : Int) :
    QueryNode → BindState → Res × BindState
  | .refCnd ref, st => bindAll accepts [.blob ref.toList] st
  | .eqCnd key value, st => bindAll accepts [.text key, .text value, .int t, .int t] st
  | .containsCnd key needle, st => bindAll accepts [.text key, .text needle, .int t, .int t] st
  | .boolAnd l r, st =>
    match l.bindTo accepts t st with
    | (.ok, st) => r.bindTo accepts t st
    | (_, st) => (.error, st)
  | .boolOr l r, st =>
    match l.bindTo accepts t st with
    | (.ok, st) => r.bindTo accepts t st
    | (_, st) => (.error, st)

/-- The calls of `evr_attr_query_claims`. -/
def AttrQuery.bindTo (accepts : Nat → Value → Bool) (q : AttrQuery) : Res × BindState :=
  match bindAll accepts [.int q.effectiveTime, .int q.effectiveTime] ⟨[], 1⟩ with
  | (.ok, st) =>
    let bound : Res × BindState := match q.root with
      | none => (.ok, st)
      | some root => root.bindTo accepts q.effectiveTime st
    match bound with
    | (.ok, st) => bindAll accepts [.int q.limit, .int q.offset] st
    | (_, st) => (.error, st)
  | (_, st) => (.error, st)

/-! ## What placeholders stand for -/

/-- What a placeholder stands for. -/
inductive Purpose where
  | createdUntil
  | archivedUntil
  | ref
  | key
  | value
  | needle
  | validFrom
  | validUntil
  | limit
  | offset
deriving DecidableEq, Repr

/-- The words in front of the placeholder. -/
def Purpose.words : Purpose → List Char
  | .createdUntil => "cs.created <= ".toList
  | .archivedUntil => "ca.valid_until <= ".toList
  | .ref => "c.seed = ".toList
  | .key => "where key = ".toList
  | .value => "val_str = ".toList
  | .needle => "glob(lower(\"*\" || ".toList
  | .validFrom => "valid_from <= ".toList
  | .validUntil => "(valid_until > ".toList
  | .limit => " limit ".toList
  | .offset => " offset ".toList

/-- The leaves of a condition from left to right. -/
def QueryNode.leaves : QueryNode → List QueryNode
  | .boolAnd l r => l.leaves ++ r.leaves
  | .boolOr l r => l.leaves ++ r.leaves
  | leaf => [leaf]

/-- What a leaf asks for, in the order of its text. -/
def QueryNode.asks (t : Int) : QueryNode → List (Purpose × Value)
  | .refCnd ref => [(.ref, .blob ref.toList)]
  | .eqCnd key value =>
    [(.key, .text key), (.value, .text value), (.validFrom, .int t), (.validUntil, .int t)]
  | .containsCnd key needle =>
    [(.key, .text key), (.needle, .text needle), (.validFrom, .int t), (.validUntil, .int t)]
  | _ => []

/-- The leaves of a query. -/
def AttrQuery.leaves (q : AttrQuery) : List QueryNode :=
  match q.root with
  | none => []
  | some root => root.leaves

/-- What a query asks for: the effective time twice, then what each leaf asks for, then the limit
and the offset. -/
def AttrQuery.asks (q : AttrQuery) : List (Purpose × Value) :=
  [(.createdUntil, .int q.effectiveTime), (.archivedUntil, .int q.effectiveTime)] ++
    q.leaves.flatMap (QueryNode.asks q.effectiveTime) ++
    [(.limit, .int q.limit), (.offset, .int q.offset)]

/-- The text in front of the `i`-th placeholder, counted from the left. -/
def InFrontOf (text : List Char) (i : Nat) (before : List Char) : Prop :=
  ∃ after, text = before ++ '?' :: after ∧ before.count '?' = i

/-- The placeholders of a text and what the words in front of them ask for. -/
structure Marked (ps : List Purpose) (text : List Char) : Prop where
  count : text.count '?' = ps.length
  words : ∀ i p, ps[i]? = some p → ∃ before, InFrontOf text i before ∧ p.words <:+ before

/-- A part of a text with `n` placeholders to its left. -/
def StandsBehind (part : List Char) (n : Nat) (text : List Char) : Prop :=
  ∃ before after, text = before ++ part ++ after ∧ before.count '?' = n

/-! ## Placeholders of texts -/

theorem Marked.append {ps qs : List Purpose} {a b : List Char} (ha : Marked ps a)
    (hb : Marked qs b) : Marked (ps ++ qs) (a ++ b) := by
  refine ⟨?_, fun i p hp => ?_⟩
  · rw [List.count_append, ha.count, hb.count, List.length_append]
  · by_cases hi : i < ps.length
    · rw [List.getElem?_append_left hi] at hp
      obtain ⟨before, ⟨after, rfl, hcount⟩, hwords⟩ := ha.words i p hp
      refine ⟨before, ⟨after ++ b, ?_, hcount⟩, hwords⟩
      rw [List.append_assoc, List.cons_append]
    · have hle : ps.length ≤ i := Nat.le_of_not_lt hi
      rw [List.getElem?_append_right hle] at hp
      obtain ⟨before, ⟨after, rfl, hcount⟩, hwords⟩ := hb.words _ p hp
      refine ⟨a ++ before, ⟨after, ?_, ?_⟩, hwords.trans (List.suffix_append a before)⟩
      · rw [List.append_assoc]
      · rw [List.count_append, ha.count, hcount]
        omega

theorem Marked.append_text {ps qs : List Purpose} {a b : String} (ha : Marked ps a.toList)
    (hb : Marked qs b.toList) : Marked (ps ++ qs) (a ++ b).toList := by
  rw [String.toList_append]
  exact ha.append hb

/-- A text without placeholders. -/
theorem Marked.plain {text : List Char} (h : text.count '?' = 0) : Marked [] text :=
  ⟨h, fun _ _ hp => absurd hp (by simp)⟩

/-- Words with their placeholder. -/
theorem Marked.one {p : Purpose} {words : List Char} (h : words.count '?' = 0)
    (hwords : p.words <:+ words) : Marked [p] (words ++ ['?']) := by
  refine ⟨by simp [h], fun i q hq => ?_⟩
  cases i with
  | zero =>
    cases hq
    exact ⟨words, ⟨[], rfl, h⟩, hwords⟩
  | succ i => cases hq

/-- The words in front of the placeholders of a text, from the characters since the last one. -/
def checkMarks : List (List Char) → List Char → List Char → Bool
  | [], _, cs => cs.count '?' = 0
  | _ :: _, _, [] => false
  | w :: ws, seen, c :: cs =>
    if c = '?' then w.isSuffixOf seen && checkMarks ws [] cs
    else checkMarks (w :: ws) (seen ++ [c]) cs

theorem Marked.of_check {ps : List Purpose} {ws : List (List Char)} {seen cs : List Char}
    (hps : List.Forall₂ (fun p w => p.words = (String.ofList w).toList) ps ws)
    (hseen : seen.count '?' = 0) (h : checkMarks ws seen cs = true) : Marked ps (seen ++ cs) := by
  induction cs generalizing ps ws seen with
  | nil =>
    cases hps with
    | nil => exact Marked.plain (by rw [List.append_nil]; exact hseen)
    | cons _ _ => cases h
  | cons c cs ih =>
    cases hps with
    | nil =>
      refine Marked.plain ?_
      rw [List.count_append, hseen, of_decide_eq_true h]
    | cons hp hrest =>
      rw [checkMarks] at h
      split at h
      · rename_i hmark
        obtain ⟨hsuf, hcheck⟩ := Bool.and_eq_true_iff.mp h
        rw [String.toList_ofList] at hp
        have hone := Marked.one hseen (hp ▸ List.isSuffixOf_iff_suffix.mp hsuf)
        have hboth := hone.append (ih hrest rfl hcheck)
        rw [hmark]
        simpa using hboth
      · rename_i hne
        have hstep := ih (.cons hp hrest) (by simp [hseen, hne]) h
        simpa using hstep

/-- Literals are checked character by character. -/
theorem Marked.literal {ps : List Purpose} {ws : List (List Char)} {cs : List Char}
    (hps : List.Forall₂ (fun p w => p.words = (String.ofList w).toList) ps ws)
    (h : checkMarks ws [] cs = true) : Marked ps (String.ofList cs).toList := by
  rw [String.toList_ofList]
  exact Marked.of_check hps rfl h

theorem StandsBehind.append_left {part a b : List Char} {n : Nat} (h : StandsBehind part n b) :
    StandsBehind part (a.count '?' + n) (a ++ b) := by
  obtain ⟨before, after, rfl, rfl⟩ := h
  refine ⟨a ++ before, after, ?_, List.count_append⟩
  simp only [List.append_assoc]

theorem StandsBehind.append_right {part a : List Char} {n : Nat} (h : StandsBehind part n a)
    (b : List Char) : StandsBehind part n (a ++ b) := by
  obtain ⟨before, after, rfl, rfl⟩ := h
  refine ⟨before, after ++ b, ?_, rfl⟩
  simp only [List.append_assoc]

namespace PlaceholderLemmas

/-- The last five characters of the words. -/
def ending : Purpose → List Char
  | .createdUntil => ['d', ' ', '<', '=', ' ']
  | .archivedUntil => ['l', ' ', '<', '=', ' ']
  | .ref => ['e', 'd', ' ', '=', ' ']
  | .key => ['e', 'y', ' ', '=', ' ']
  | .value => ['t', 'r', ' ', '=', ' ']
  | .needle => ['"', ' ', '|', '|', ' ']
  | .validFrom => ['m', ' ', '<', '=', ' ']
  | .validUntil => ['i', 'l', ' ', '>', ' ']
  | .limit => ['i', 'm', 'i', 't', ' ']
  | .offset => ['f', 's', 'e', 't', ' ']

theorem ending_suffix (p : Purpose) : ending p <:+ p.words := by
  have hcheck : ∀ {e cs : List Char}, e <:+ cs → e <:+ (String.ofList cs).toList := by
    intro e cs h
    rwa [String.toList_ofList]
  cases p <;> exact hcheck (by decide)

/-- A purpose is known by its words. -/
theorem purpose_unique {p p' : Purpose} {before : List Char} (h : p.words <:+ before)
    (h' : p'.words <:+ before) : p = p' := by
  have hlen : ∀ p, (ending p).length = 5 := by
    intro p
    cases p <;> rfl
  have heq : ending p = ending p' :=
    (List.suffix_of_suffix_length_le ((ending_suffix p).trans h) ((ending_suffix p').trans h')
      (by rw [hlen, hlen])).eq_of_length (by rw [hlen, hlen])
  cases p <;> cases p' <;> first | rfl | exact absurd heq (by decide)

/-! ## The texts of a query -/

theorem marked_bool {l r joinStr : String} {ps qs : List Purpose}
    (hjoin : Marked [] joinStr.toList) (hl : Marked ps l.toList) (hr : Marked qs r.toList) :
    Marked (ps ++ qs) (appendBool l r joinStr).toList := by
  have hopen : Marked [] "(".toList := Marked.literal .nil (by decide)
  have hclose : Marked [] ")".toList := Marked.literal .nil (by decide)
  have h := (((hopen.append_text hl).append_text hjoin).append_text hr).append_text hclose
  simpa [appendBool] using h

/-- The placeholders of a node ask for what its leaves ask for. -/
theorem marked_appendCnd (t : Int) (node : QueryNode) :
    Marked ((node.leaves.flatMap (QueryNode.asks t)).map Prod.fst) node.appendCnd.toList := by
  induction node with
  | refCnd ref => exact Marked.literal (.cons rfl .nil) (by decide)
  | eqCnd key value =>
    show Marked [.key, .value, .validFrom, .validUntil] (QueryNode.eqCnd key value).appendCnd.toList
    apply Marked.literal (.cons rfl (.cons rfl (.cons rfl (.cons rfl .nil))))
    decide +kernel
  | containsCnd key needle =>
    show Marked [.key, .needle, .validFrom, .validUntil]
      (QueryNode.containsCnd key needle).appendCnd.toList
    apply Marked.literal (.cons rfl (.cons rfl (.cons rfl (.cons rfl .nil))))
    decide +kernel
  | boolAnd l r ihl ihr =>
    rw [QueryNode.leaves, List.flatMap_append, List.map_append]
    exact marked_bool (Marked.literal .nil (by decide)) ihl ihr
  | boolOr l r ihl ihr =>
    rw [QueryNode.leaves, List.flatMap_append, List.map_append]
    exact marked_bool (Marked.literal .nil (by decide)) ihl ihr

theorem marked_sqlPrefix : Marked [.createdUntil, .archivedUntil] sqlPrefix.toList := by
  have hclaim : Marked [] "select distinct seed from claim c ".toList :=
    Marked.literal .nil (by decide)
  have hset : Marked [] "inner join claim_set cs ".toList := Marked.literal .nil (by decide)
  have hwhere : Marked [] "where cs.ref = ".toList := Marked.literal .nil (by decide)
  have hown : Marked [] (sqlExtractBlobRef "c.ref").toList := by
    have hsubstr : Marked [] "substr(".toList := Marked.literal .nil (by decide)
    have hcolumn : Marked [] "c.ref".toList := Marked.literal .nil (by decide)
    have hstart : Marked [] ", 0, ".toList := Marked.literal .nil (by decide)
    have hlen : Marked [] "(224 / 8) + 1".toList := Marked.literal .nil (by decide)
    have hclose : Marked [] ")".toList := Marked.literal .nil (by decide)
    exact (((hsubstr.append_text hcolumn).append_text hstart).append_text hlen).append_text hclose
  have hcreated : Marked [.createdUntil] " and cs.created <= ?".toList :=
    Marked.literal (.cons rfl .nil) (by decide)
  have harchived : Marked [.archivedUntil] " and c.seed not in (select ca.seed from claim_archive ca where ca.seed = c.seed and ca.valid_until <= ?)".toList :=
    Marked.literal (.cons rfl .nil) (by decide +kernel)
  exact ((((hclaim.append_text hset).append_text hwhere).append_text hown).append_text
    hcreated).append_text harchived

theorem marked_sqlSuffix : Marked [.limit, .offset] sqlSuffix.toList :=
  Marked.literal (.cons rfl (.cons rfl .nil)) (by decide)

theorem marked_query (q : AttrQuery) :
    Marked (q.asks.map Prod.fst) (attrBuildSqlQuery q.root).toList := by
  unfold AttrQuery.asks AttrQuery.leaves attrBuildSqlQuery
  rw [List.map_append, List.map_append]
  cases q.root with
  | none => exact marked_sqlPrefix.append_text marked_sqlSuffix
  | some root =>
    have hsep : Marked [] " and ".toList := Marked.literal .nil (by decide)
    exact ((marked_sqlPrefix.append_text hsep).append_text
      (marked_appendCnd q.effectiveTime root)).append_text marked_sqlSuffix

/-! ## The texts of the leaves -/

theorem leaves_leaf {node leaf : QueryNode} (h : leaf ∈ node.leaves) : leaf.leaves = [leaf] := by
  induction node with
  | refCnd ref =>
    obtain rfl := List.mem_singleton.mp h
    rfl
  | eqCnd key value =>
    obtain rfl := List.mem_singleton.mp h
    rfl
  | containsCnd key needle =>
    obtain rfl := List.mem_singleton.mp h
    rfl
  | boolAnd l r ihl ihr => exact (List.mem_append.mp h).elim ihl ihr
  | boolOr l r ihl ihr => exact (List.mem_append.mp h).elim ihl ihr

/-- The leaves of the right side stand behind the placeholders of the left side. -/
theorem standsBehind_bool {t : Int} {l r leaf : QueryNode} {joinStr : String}
    (hjoin : joinStr.toList.count '?' = 0)
    (ihl : ∀ {ls rs : List QueryNode}, l.leaves = ls ++ leaf :: rs → StandsBehind
      leaf.appendCnd.toList (ls.flatMap (QueryNode.asks t)).length l.appendCnd.toList)
    (ihr : ∀ {ls rs : List QueryNode}, r.leaves = ls ++ leaf :: rs → StandsBehind
      leaf.appendCnd.toList (ls.flatMap (QueryNode.asks t)).length r.appendCnd.toList)
    {ls rs : List QueryNode} (h : l.leaves ++ r.leaves = ls ++ leaf :: rs) :
    StandsBehind leaf.appendCnd.toList (ls.flatMap (QueryNode.asks t)).length
      (appendBool l.appendCnd r.appendCnd joinStr).toList := by
  have htext : (appendBool l.appendCnd r.appendCnd joinStr).toList = "(".toList ++
      (l.appendCnd.toList ++ (joinStr.toList ++ (r.appendCnd.toList ++ ")".toList))) := by
    simp [appendBool, String.toList_append]
  have hopen : "(".toList.count '?' = 0 := (Marked.literal .nil (by decide)).count
  have hleft := (marked_appendCnd t l).count
  rw [List.length_map] at hleft
  have hright : ∀ as, ls = l.leaves ++ as → r.leaves = as ++ leaf :: rs → StandsBehind
      leaf.appendCnd.toList (ls.flatMap (QueryNode.asks t)).length
      (appendBool l.appendCnd r.appendCnd joinStr).toList := by
    intro as hls hr
    have hin := (((ihr hr).append_right ")".toList).append_left (a := joinStr.toList)).append_left
      (a := l.appendCnd.toList) |>.append_left (a := "(".toList)
    rw [hopen, hjoin, hleft, Nat.zero_add, Nat.zero_add, ← List.length_append,
      ← List.flatMap_append, ← hls] at hin
    rw [htext]
    exact hin
  rcases List.append_eq_append_iff.mp h with ⟨as, hls, hr⟩ | ⟨as, hl, hrs⟩
  · exact hright as hls hr
  · cases as with
    | nil => exact hright [] (by rw [hl, List.append_nil, List.append_nil]) hrs.symm
    | cons a as =>
      obtain ⟨rfl, -⟩ := List.cons.inj hrs
      have hin := ((ihl hl).append_right (joinStr.toList ++ (r.appendCnd.toList ++ ")".toList)))
        |>.append_left (a := "(".toList)
      rw [hopen, Nat.zero_add] at hin
      rw [htext]
      exact hin

/-- The text of a leaf stands behind the placeholders of the leaves to its left. -/
theorem standsBehind_leaf (t : Int) (node : QueryNode) {ls rs : List QueryNode} {leaf : QueryNode}
    (h : node.leaves = ls ++ leaf :: rs) :
    StandsBehind leaf.appendCnd.toList (ls.flatMap (QueryNode.asks t)).length
      node.appendCnd.toList := by
  have hsingle : ∀ {a : QueryNode} {ls rs : List QueryNode}, [a] = ls ++ leaf :: rs →
      StandsBehind leaf.appendCnd.toList (ls.flatMap (QueryNode.asks t)).length
        a.appendCnd.toList := by
    intro a ls rs hsplit
    cases ls with
    | nil =>
      obtain ⟨rfl, -⟩ := List.cons.inj hsplit
      exact ⟨[], [], by simp, rfl⟩
    | cons b ls => exact absurd (List.cons.inj hsplit).2 (by simp)
  induction node generalizing ls rs with
  | refCnd ref => exact hsingle h
  | eqCnd key value => exact hsingle h
  | containsCnd key needle => exact hsingle h
  | boolAnd l r ihl ihr => exact standsBehind_bool (Marked.literal .nil (by decide)).count ihl ihr h
  | boolOr l r ihl ihr => exact standsBehind_bool (Marked.literal .nil (by decide)).count ihl ihr h

theorem standsBehind_query (q : AttrQuery) {ls rs : List QueryNode} {leaf : QueryNode}
    (h : q.leaves = ls ++ leaf :: rs) :
    StandsBehind leaf.appendCnd.toList
      (2 + (ls.flatMap (QueryNode.asks q.effectiveTime)).length)
      (attrBuildSqlQuery q.root).toList := by
  unfold AttrQuery.leaves at h
  cases hroot : q.root with
  | none =>
    rw [hroot] at h
    exact absurd h (by simp)
  | some root =>
    rw [hroot] at h
    have hstart : (sqlPrefix.toList ++ " and ".toList).count '?' = 2 := by
      have hsep : " and ".toList.count '?' = 0 := (Marked.literal .nil (by decide)).count
      rw [List.count_append, marked_sqlPrefix.count, hsep]
      rfl
    have hin := ((standsBehind_leaf q.effectiveTime root h).append_left
      (a := sqlPrefix.toList ++ " and ".toList)).append_right sqlSuffix.toList
    rw [hstart] at hin
    have htext : ∀ a b c d : String, (a ++ b ++ c ++ d).toList =
        (a.toList ++ b.toList) ++ c.toList ++ d.toList := by
      intro a b c d
      rw [String.toList_append, String.toList_append, String.toList_append]
    show StandsBehind _ _ (sqlPrefix ++ " and " ++ root.appendCnd ++ sqlSuffix).toList
    rw [htext]
    exact hin

/-! ## Binding -/

theorem bindAll_append (accepts : Nat → Value → Bool) (vs ws : List Value) (st : BindState) :
    bindAll accepts (vs ++ ws) st =
      match bindAll accepts vs st with
      | (.ok, st) => bindAll accepts ws st
      | (_, st) => (.error, st) := by
  induction vs generalizing st with
  | nil => rfl
  | cons v vs ih =>
    rw [List.cons_append, bindAll, bindAll]
    unfold sqliteBind
    cases accepts st.column v with
    | false => rfl
    | true => exact ih _

/-- A node binds its values one after the other. -/
theorem bindTo_eq (accepts : Nat → Value → Bool) (t : Int) (node : QueryNode) (st : BindState) :
    node.bindTo accepts t st = bindAll accepts (node.bind t) st := by
  induction node generalizing st with
  | refCnd ref => rfl
  | eqCnd key value => rfl
  | containsCnd key needle => rfl
  | boolAnd l r ihl ihr =>
    rw [QueryNode.bindTo, QueryNode.bind, bindAll_append, ihl]
    split
    · exact ihr _
    · rfl
  | boolOr l r ihl ihr =>
    rw [QueryNode.bindTo, QueryNode.bind, bindAll_append, ihl]
    split
    · exact ihr _
    · rfl

theorem query_bindTo_eq (accepts : Nat → Value → Bool) (q : AttrQuery) :
    q.bindTo accepts = bindAll accepts q.params ⟨[], 1⟩ := by
  unfold AttrQuery.bindTo AttrQuery.params
  rw [bindAll_append, bindAll_append]
  cases bindAll accepts [.int q.effectiveTime, .int q.effectiveTime] ⟨[], 1⟩ with
  | mk r st =>
    cases r <;> cases q.root <;> first | rfl | simp only [bindTo_eq]

/-- The calls are made with columns that count up, and end at the first that fails. -/
theorem bindAll_calls {accepts : Nat → Value → Bool} {vs : List Value} {st st' : BindState}
    {r : Res} (h : bindAll accepts vs st = (r, st')) :
    ∃ n ≤ vs.length, st'.calls = st.calls ++ ((vs.take n).zipIdx st.column).map Prod.swap ∧
      (r = .ok → n = vs.length) := by
  induction vs generalizing st with
  | nil =>
    cases h
    exact ⟨0, Nat.le_refl 0, by simp, fun _ => rfl⟩
  | cons v vs ih =>
    rw [bindAll] at h
    unfold sqliteBind at h
    cases haccept : accepts st.column v with
    | false =>
      simp only [haccept] at h
      cases h
      exact ⟨1, by simp, by simp, fun hok => Res.noConfusion hok⟩
    | true =>
      simp only [haccept] at h
      obtain ⟨n, hn, hcalls, hok⟩ := ih h
      refine ⟨n + 1, Nat.succ_le_succ hn, ?_, fun hr => congrArg Nat.succ (hok hr)⟩
      rw [hcalls]
      simp

theorem bind_eq_asks (t : Int) (node : QueryNode) :
    node.bind t = (node.leaves.flatMap (QueryNode.asks t)).map Prod.snd := by
  induction node with
  | refCnd ref => rfl
  | eqCnd key value => rfl
  | containsCnd key needle => rfl
  | boolAnd l r ihl ihr =>
    rw [QueryNode.bind, QueryNode.leaves, List.flatMap_append, List.map_append, ihl, ihr]
  | boolOr l r ihl ihr =>
    rw [QueryNode.bind, QueryNode.leaves, List.flatMap_append, List.map_append, ihl, ihr]

theorem params_eq_asks (q : AttrQuery) : q.params = q.asks.map Prod.snd := by
  unfold AttrQuery.params AttrQuery.asks AttrQuery.leaves
  rw [List.map_append, List.map_append]
  cases q.root with
  | none => rfl
  | some root => simp only [bind_eq_asks]; rfl

end PlaceholderLemmas

open PlaceholderLemmas

/-- Whatever SQLite accepts, the `i`-th call that binds a value binds column `i`, and its value is
the one that the words in front of the `i`-th placeholder of the text ask for: two effective times,
what each leaf asks for from left to right, the limit and the offset. The text of each leaf stands
behind the placeholders of those before it and has the placeholders of its own values. There are as
many placeholders as values. -/
theorem placeholders_aligned (accepts : Nat → Value → Bool) (q : AttrQuery) :
    (attrBuildSqlQuery q.root).toList.count '?' = q.asks.length ∧
      ((q.bindTo accepts).1 = .ok → (q.bindTo accepts).2.calls.length = q.asks.length) ∧
      (∀ (i : Nat) (call : Nat × Value), (q.bindTo accepts).2.calls[i]? = some call →
        ∃ p v before, q.asks[i]? = some (p, v) ∧ call = (i + 1, v) ∧
          InFrontOf (attrBuildSqlQuery q.root).toList i before ∧
          ∀ p' : Purpose, p'.words <:+ before ↔ p' = p) ∧
      ∀ (ls rs : List QueryNode) (leaf : QueryNode), q.leaves = ls ++ leaf :: rs →
        StandsBehind leaf.appendCnd.toList
          (2 + (ls.flatMap (QueryNode.asks q.effectiveTime)).length)
          (attrBuildSqlQuery q.root).toList ∧
        Marked ((leaf.asks q.effectiveTime).map Prod.fst) leaf.appendCnd.toList := by
  have hmarked := marked_query q
  have hrun := query_bindTo_eq accepts q
  generalize q.bindTo accepts = out at hrun ⊢
  obtain ⟨r, st⟩ := out
  obtain ⟨n, -, hcalls, hok⟩ := bindAll_calls hrun.symm
  rw [params_eq_asks] at hcalls hok
  rw [List.nil_append] at hcalls
  simp only at hcalls ⊢
  refine ⟨by rw [hmarked.count, List.length_map], fun hr => ?_, fun i call hcall => ?_,
    fun ls rs leaf h => ⟨standsBehind_query q h, ?_⟩⟩
  · rw [hcalls, List.length_map, List.length_zipIdx, hok hr, List.take_length, List.length_map]
  · rw [hcalls, List.getElem?_map, List.getElem?_zipIdx, Option.map_map, Option.map_eq_some_iff]
      at hcall
    obtain ⟨v, hv, rfl⟩ := hcall
    have hask : (q.asks.map Prod.snd)[i]? = some v := by
      rw [List.getElem?_take] at hv
      split at hv
      · exact hv
      · cases hv
    rw [List.getElem?_map, Option.map_eq_some_iff] at hask
    obtain ⟨⟨p, _⟩, hp, rfl⟩ := hask
    obtain ⟨before, hbefore, hwords⟩ := hmarked.words i p (by rw [List.getElem?_map, hp]; rfl)
    refine ⟨p, _, before, hp, congrArg (·, _) (Nat.add_comm 1 i), hbefore, fun p' => ?_⟩
    exact ⟨fun h => purpose_unique h hwords, fun h => h ▸ hwords⟩
  · have hleaf : leaf.leaves = [leaf] := by
      unfold AttrQuery.leaves at h
      cases hroot : q.root with
      | none =>
        rw [hroot] at h
        exact absurd h (by simp)
      | some root =>
        rw [hroot] at h
        have hmem : leaf ∈ ls ++ leaf :: rs := List.mem_append_right ls List.mem_cons_self
        rw [← h] at hmem
        exact leaves_leaf hmem
    have hmark := marked_appendCnd q.effectiveTime leaf
    rw [hleaf, List.flatMap_singleton] at hmark
    exact hmark

end Everarch
