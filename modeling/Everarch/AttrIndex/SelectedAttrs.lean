import Everarch.AttrIndex.HttpSearch
import Everarch.AttrIndex.Table

/-!
# The attributes of search results

`evr_attr_query_claims` copies the attributes of a result into two buffers and passes pointers to
them on. Both are allocated once, have a fixed size and are used again for the next result.

* `SelectedAttrsLemmas.fill_of_fits`, `SelectedAttrsLemmas.fill_of_full`: attributes are copied as
  long as there is room.
* `SelectedAttrsLemmas.tuples_of_packed`: what the pointers point to.

Results: `selected_attrs_passed`.
-/

namespace Everarch

/-! ## The buffers -/

/-- `evr_collect_selected_attrs_attrs_size` in tuples, `evr_collect_selected_attrs_data_size`. -/
def selectedAttrsLen : Nat := 2000
def selectedDataSize : Nat := 2000 * 2 * 32

/-- The string at an offset. -/
def cStringAt (data : List Char) (p : Nat) : List Char :=
  (data.drop p).takeWhile (· ≠ '\x00')

theorem notMem_cStringAt (data : List Char) (p : Nat) : '\x00' ∉ cStringAt data p :=
  fun h => absurd (List.mem_takeWhile_imp h) (by decide)

/-- The text of a column, which its first zero byte ends. -/
def columnText (s : String) : List Char :=
  cStringAt (s.toUTF8.data.toList.map fun b => Char.ofNat b.toNat) 0

/-- A row of `find_seed_attrs`. -/
def columnAttr (row : String × String) : SearchAttr :=
  ⟨columnText row.1, columnText row.2, notMem_cStringAt _ _, notMem_cStringAt _ _⟩

/-- `attrs` and `data` of `struct evr_collect_selected_attrs_ctx`. The pointers of a tuple stand as
offsets in `data`. -/
structure SelectBuffers where
  attrs : List (Nat × Nat)
  data : List Char
  attrsPos : Nat
  dataPos : Nat
  attrs_length : attrs.length = selectedAttrsLen
  data_length : data.length = selectedDataSize
  attrs_room : attrsPos ≤ selectedAttrsLen
  data_room : dataPos ≤ selectedDataSize

namespace SelectBuffers

/-- `evr_reset_buf_pos`. -/
def reset (b : SelectBuffers) : SelectBuffers :=
  { b with
    attrsPos := 0
    dataPos := 0
    attrs_room := Nat.zero_le _
    data_room := Nat.zero_le _ }

/-- The strings of an attribute with their ends. -/
def packedAttr (a : SearchAttr) : List Char :=
  a.key ++ '\x00' :: a.val ++ ['\x00']

/-- The end of `evr_collect_selected_attrs_visitor`. -/
def push (b : SelectBuffers) (a : SearchAttr) (hattrs : b.attrsPos + 1 ≤ selectedAttrsLen)
    (hdata : b.dataPos + (packedAttr a).length ≤ selectedDataSize) : SelectBuffers where
  attrs := b.attrs.set b.attrsPos (b.dataPos, b.dataPos + a.key.length + 1)
  data := b.data.take b.dataPos ++ packedAttr a ++ b.data.drop (b.dataPos + (packedAttr a).length)
  attrsPos := b.attrsPos + 1
  dataPos := b.dataPos + (packedAttr a).length
  attrs_length := by rw [List.length_set, b.attrs_length]
  data_length := by
    have hlength := b.data_length
    rw [List.length_append, List.length_append, List.length_take, List.length_drop, hlength,
      Nat.min_eq_left b.data_room]
    exact Nat.add_sub_of_le hdata
  attrs_room := hattrs
  data_room := hdata

/-- `evr_collect_selected_attrs_visitor` on allocated buffers. -/
def collect (b : SelectBuffers) (a : SearchAttr) : Option SelectBuffers :=
  if h : b.attrsPos + 1 ≤ selectedAttrsLen ∧
      b.dataPos + (packedAttr a).length ≤ selectedDataSize then
    some (b.push a h.1 h.2)
  else none

/-- A tuple as it is read. -/
def tupleAt (data : List Char) (p : Nat × Nat) : SearchAttr :=
  ⟨cStringAt data p.1, cStringAt data p.2, notMem_cStringAt _ _, notMem_cStringAt _ _⟩

/-- The tuples that are passed on. -/
def tuples (b : SelectBuffers) : List SearchAttr :=
  (b.attrs.take b.attrsPos).map (tupleAt b.data)

end SelectBuffers

/-! ## The rows of a query -/

/-- Whether the database can be opened a second time, and the memory for the buffers. -/
structure SelectEnv where
  forks : Bool
  alloc : Option SelectBuffers

/-- `struct evr_collect_selected_attrs_ctx`. -/
structure SelectCtx where
  forked : Bool
  buffers : Option SelectBuffers

/-- A row of the statement, and the tables when its attributes are read. They are read over another
connection, and may have changed since the row before. -/
structure QueryRow where
  seed : ClaimRef
  db : AttrIndexDb

namespace SelectCtx

def initial : SelectCtx := ⟨false, none⟩

def reset (ctx : SelectCtx) : SelectCtx :=
  { ctx with buffers := ctx.buffers.map .reset }

def tuples (ctx : SelectCtx) : List SearchAttr :=
  ctx.buffers.elim [] SelectBuffers.tuples

/-- `evr_visit_attr_query` with `evr_collect_selected_attrs_visitor`. -/
def visitAttrQuery (env : SelectEnv) : List SearchAttr → SelectCtx → Option SelectCtx
  | [], ctx => some ctx
  | a :: attrs, ctx =>
    match ctx.buffers.or (env.alloc.map .reset) with
    | none => none
    | some b =>
      match b.collect a with
      | none => none
      | some b => visitAttrQuery env attrs { ctx with buffers := some b }

/-- `evr_collect_selected_attrs`. -/
def collectSelectedAttrs (env : SelectEnv) (q : ParsedQuery) (row : QueryRow) (ctx : SelectCtx) :
    Option SelectCtx :=
  match q.selector with
  | some .all =>
    if ctx.forked || env.forks then
      visitAttrQuery env ((getSeedAttrs row.db q.query.effectiveTime row.seed).map columnAttr)
        { ctx with forked := true }
    else none
  | _ => some ctx

end SelectCtx

/-- The loop of `evr_attr_query_claims` over the rows of its statement, which comes to its end or
not. -/
def queryRows {σ : Type} (env : SelectEnv) (q : ParsedQuery) (visit : σ → SearchResult → Bool × σ)
    (ended : Bool) : List QueryRow → SelectCtx → σ → Bool × σ
  | [], _, s => (ended, s)
  | row :: rows, ctx, s =>
    match ctx.reset.collectSelectedAttrs env q row with
    | none => (false, s)
    | some ctx =>
      match visit s ⟨row.seed, ctx.tuples⟩ with
      | (false, s) => (false, s)
      | (true, s) => queryRows env q visit ended rows ctx s

/-- `evr_attr_query_claims`. -/
def attrQueryClaimRows {σ : Type} (query : QueryEnv) (env : SelectEnv)
    (statement : ParsedQuery → List QueryRow × Bool) (queryStr : List Char)
    (status : σ → Option QueryError → Bool × σ) (visit : σ → SearchResult → Bool × σ) (s : σ) :
    Bool × σ :=
  match attrParseQuery query queryStr with
  | ⟨none, error⟩ => status s (some (error.getD .syntaxError))
  | ⟨some q, _⟩ =>
    match status s none with
    | (false, s) => (false, s)
    | (true, s) => queryRows env q visit (statement q).2 (statement q).1 .initial s

/-! ## What is found -/

/-- The attributes that a query selects of a row. -/
def selectedAttrs (q : ParsedQuery) (row : QueryRow) : List SearchAttr :=
  match q.selector with
  | some .all => (getSeedAttrs row.db q.query.effectiveTime row.seed).map columnAttr
  | _ => []

namespace SelectEnv

/-- There is room for the attributes. Without any the buffers are not needed. -/
def holds (env : SelectEnv) (attrs : List SearchAttr) : Bool :=
  attrs.isEmpty || env.alloc.isSome && attrs.length ≤ selectedAttrsLen &&
    (attrs.flatMap SelectBuffers.packedAttr).length ≤ selectedDataSize

/-- A row that the query does not fail on. -/
def answers (env : SelectEnv) (q : ParsedQuery) (row : QueryRow) : Bool :=
  (q.selector ≠ some .all || env.forks) && env.holds (selectedAttrs q row)

/-- The results of the rows up to the first one that a query fails on, and whether there is none and
the statement comes to its end. -/
def found (env : SelectEnv) (q : ParsedQuery) (rows : List QueryRow × Bool) :
    List SearchResult × Bool :=
  ((rows.1.takeWhile (env.answers q)).map fun row => ⟨row.seed, selectedAttrs q row⟩,
    rows.1.all (env.answers q) && rows.2)

end SelectEnv

namespace SelectedAttrsLemmas

open SelectBuffers SelectCtx

variable {b : SelectBuffers} {a : SearchAttr} {attrs : List SearchAttr} {ctx : SelectCtx}
  {env : SelectEnv} {q : ParsedQuery} {row : QueryRow}

/-! ### Buffers that show attributes -/

/-- The pointers to attributes that are packed from an offset on. -/
def offsets (p : Nat) : List SearchAttr → List (Nat × Nat)
  | [] => []
  | a :: attrs => (p, p + a.key.length + 1) :: offsets (p + (packedAttr a).length) attrs

/-- Buffers with these attributes at their start. -/
structure Packed (b : SelectBuffers) (attrs : List SearchAttr) : Prop where
  attrsPos : b.attrsPos = attrs.length
  dataPos : b.dataPos = (attrs.flatMap packedAttr).length
  pointers : b.attrs.take b.attrsPos = offsets 0 attrs
  strings : b.data.take b.dataPos = attrs.flatMap packedAttr

/-- There is room for all of them. -/
def Fits (attrs : List SearchAttr) : Prop :=
  attrs.length ≤ selectedAttrsLen ∧ (attrs.flatMap packedAttr).length ≤ selectedDataSize

theorem offsets_append (p : Nat) (attrs attrs' : List SearchAttr) :
    offsets p (attrs ++ attrs') =
      offsets p attrs ++ offsets (p + (attrs.flatMap packedAttr).length) attrs' := by
  induction attrs generalizing p with
  | nil => rfl
  | cons a attrs ih =>
    rw [List.cons_append, offsets, offsets, ih, List.flatMap_cons, List.length_append,
      List.cons_append, Nat.add_assoc p (packedAttr a).length]

theorem cStringAt_append {s : List Char} (h : '\x00' ∉ s) (front rest : List Char) :
    cStringAt (front ++ (s ++ '\x00' :: rest)) front.length = s := by
  rw [cStringAt, List.drop_left, List.takeWhile_append_of_pos]
  · simp
  · intro c hc
    simpa using fun heq : c = '\x00' => h (heq ▸ hc)

theorem tupleAt_packedAttr (a : SearchAttr) (front rest : List Char) :
    tupleAt (front ++ (packedAttr a ++ rest)) (front.length, front.length + a.key.length + 1) = a := by
  have hkey : cStringAt (front ++ (packedAttr a ++ rest)) front.length = a.key := by
    rw [packedAttr, List.append_assoc, List.append_assoc]
    exact cStringAt_append a.key_terminated front _
  have hval : cStringAt (front ++ (packedAttr a ++ rest)) (front.length + a.key.length + 1) =
      a.val := by
    have hsplit : front ++ (packedAttr a ++ rest) =
        (front ++ a.key ++ ['\x00']) ++ (a.val ++ '\x00' :: rest) := by
      simp [packedAttr]
    have hlength : front.length + a.key.length + 1 = (front ++ a.key ++ ['\x00']).length := by
      rw [List.length_append, List.length_append, List.length_singleton]
    rw [hsplit, hlength]
    exact cStringAt_append a.val_terminated _ _
  unfold tupleAt
  cases a
  simp only [SearchAttr.mk.injEq]
  exact ⟨hkey, hval⟩

theorem map_tupleAt_offsets (attrs : List SearchAttr) (front rest : List Char) :
    (offsets front.length attrs).map (tupleAt (front ++ (attrs.flatMap packedAttr ++ rest))) =
      attrs := by
  induction attrs generalizing front with
  | nil => rfl
  | cons a attrs ih =>
    have htail := ih (front ++ packedAttr a)
    rw [List.length_append, List.append_assoc] at htail
    rw [offsets, List.map_cons, List.flatMap_cons, List.append_assoc, tupleAt_packedAttr, htail]

/-- The pointers point to the attributes, whatever stands behind them in the buffers. -/
theorem tuples_of_packed (h : Packed b attrs) : b.tuples = attrs := by
  have hread := map_tupleAt_offsets attrs [] (b.data.drop b.dataPos)
  rw [List.nil_append, ← h.strings, List.take_append_drop] at hread
  rw [SelectBuffers.tuples, h.pointers]
  exact hread

theorem packed_reset (b : SelectBuffers) : Packed b.reset [] :=
  ⟨rfl, rfl, rfl, rfl⟩

theorem fits_of_packed (h : Packed b attrs) : Fits attrs :=
  ⟨h.attrsPos ▸ b.attrs_room, h.dataPos ▸ b.data_room⟩

theorem packed_push (h : Packed b attrs) (hattrs : b.attrsPos + 1 ≤ selectedAttrsLen)
    (hdata : b.dataPos + (packedAttr a).length ≤ selectedDataSize) :
    Packed (b.push a hattrs hdata) (attrs ++ [a]) := by
  have htake : (b.data.take b.dataPos).length = b.dataPos := by
    rw [List.length_take, b.data_length, Nat.min_eq_left b.data_room]
  refine ⟨?_, ?_, ?_, ?_⟩
  · simp [push, h.attrsPos]
  · simp [push, h.dataPos]
  · have hlt : b.attrsPos < b.attrs.length := by
      rw [b.attrs_length]
      exact hattrs
    simp only [push]
    rw [List.take_add_one, List.take_set_of_le (Nat.le_refl _), h.pointers,
      List.getElem?_set_self hlt, offsets_append, ← h.dataPos, Nat.zero_add]
    rfl
  · simp only [push]
    rw [List.append_assoc, List.take_append, htake, Nat.add_sub_cancel_left,
      List.take_of_length_le (by rw [htake]; exact Nat.le_add_right _ _),
      List.take_left, h.strings]
    simp

theorem fits_append (h : Packed b attrs) (a : SearchAttr) :
    Fits (attrs ++ [a]) ↔ b.attrsPos + 1 ≤ selectedAttrsLen ∧
      b.dataPos + (packedAttr a).length ≤ selectedDataSize := by
  rw [Fits, h.attrsPos, h.dataPos, List.flatMap_append, List.length_append, List.length_append,
    List.flatMap_singleton]
  rfl

theorem collect_of_fits (h : Packed b attrs) (hfits : Fits (attrs ++ [a])) :
    ∃ b', b.collect a = some b' ∧ Packed b' (attrs ++ [a]) := by
  have hroom := (fits_append h a).mp hfits
  exact ⟨_, dif_pos hroom, packed_push h hroom.1 hroom.2⟩

theorem collect_of_full (h : Packed b attrs) (hfull : ¬ Fits (attrs ++ [a])) :
    b.collect a = none :=
  dif_neg fun hroom => hfull ((fits_append h a).mpr hroom)

theorem Fits.front {attrs attrs' : List SearchAttr} (h : Fits (attrs ++ attrs')) : Fits attrs := by
  rw [Fits, List.flatMap_append, List.length_append, List.length_append] at h
  exact ⟨(Nat.le_add_right _ _).trans h.1, (Nat.le_add_right _ _).trans h.2⟩

/-! ### Rows -/

/-- Attributes are copied behind others where all of them fit. -/
theorem fill_of_fits {before : List SearchAttr} (hbuffers : ctx.buffers = some b)
    (h : Packed b before) (hfits : Fits (before ++ attrs)) :
    ∃ b', visitAttrQuery env attrs ctx = some ⟨ctx.forked, some b'⟩ ∧ Packed b' (before ++ attrs) := by
  induction attrs generalizing ctx b before with
  | nil =>
    refine ⟨b, ?_, (List.append_nil before).symm ▸ h⟩
    rw [visitAttrQuery, ← hbuffers]
  | cons a attrs ih =>
    rw [List.append_cons] at hfits ⊢
    obtain ⟨b', hcollect, hpacked⟩ := collect_of_fits h hfits.front
    obtain ⟨b'', hvisit, hpacked'⟩ := @ih b' ⟨ctx.forked, some b'⟩ _ rfl hpacked hfits
    refine ⟨b'', ?_, hpacked'⟩
    rw [visitAttrQuery, hbuffers, Option.some_or]
    simp only [hcollect]
    exact hvisit

theorem fill_of_full {before : List SearchAttr} (hbuffers : ctx.buffers = some b)
    (h : Packed b before) (hfull : ¬ Fits (before ++ attrs)) :
    visitAttrQuery env attrs ctx = none := by
  induction attrs generalizing ctx b before with
  | nil => exact absurd ((List.append_nil before).symm ▸ fits_of_packed h) hfull
  | cons a attrs ih =>
    rw [visitAttrQuery, hbuffers, Option.some_or]
    cases hcollect : b.collect a with
    | none => simp only [hcollect]
    | some b' =>
      have hfits : Fits (before ++ [a]) := by
        by_contra hfull
        rw [collect_of_full h hfull] at hcollect
        cases hcollect
      obtain ⟨b'', hcollect', hpacked⟩ := collect_of_fits h hfits
      rw [hcollect] at hcollect'
      obtain rfl := Option.some.inj hcollect'
      rw [List.append_cons] at hfull
      simp only [hcollect]
      exact @ih b' ⟨ctx.forked, some b'⟩ _ rfl hpacked hfull

/-- What was opened or allocated for a row can be. -/
structure Kept (env : SelectEnv) (ctx : SelectCtx) : Prop where
  forks : ctx.forked = true → env.forks = true
  alloc : ctx.buffers.isSome = true → env.alloc.isSome = true

theorem kept_initial : Kept env .initial :=
  ⟨fun h => absurd h Bool.false_ne_true, fun h => absurd h Bool.false_ne_true⟩

theorem holds_iff (hattrs : attrs ≠ []) :
    env.holds attrs = true ↔ env.alloc.isSome = true ∧ Fits attrs := by
  cases attrs with
  | nil => exact absurd rfl hattrs
  | cons a attrs => simp [SelectEnv.holds, Fits, and_assoc]

/-- Buffers for the next row. -/
def Clear (ctx : SelectCtx) : Prop :=
  ∀ b ∈ ctx.buffers, Packed b []

theorem visitAttrQuery_buffers (h : ctx.buffers.or (env.alloc.map .reset) = some b) (a : SearchAttr)
    (attrs : List SearchAttr) :
    visitAttrQuery env (a :: attrs) ctx = visitAttrQuery env (a :: attrs) ⟨ctx.forked, some b⟩ := by
  rw [visitAttrQuery, visitAttrQuery, h, Option.some_or]

theorem exists_buffers (hclear : Clear ctx) (halloc : env.alloc.isSome = true) :
    ∃ b, ctx.buffers.or (env.alloc.map .reset) = some b ∧ Packed b [] := by
  cases hbuffers : ctx.buffers with
  | some b => exact ⟨b, rfl, hclear b hbuffers⟩
  | none =>
    obtain ⟨b, hb⟩ := Option.isSome_iff_exists.mp halloc
    exact ⟨b.reset, by rw [hb]; rfl, packed_reset b⟩

theorem visitAttrQuery_of_holds (kept : Kept env ctx) (hclear : Clear ctx)
    (hholds : env.holds attrs = true) :
    ∃ ctx', visitAttrQuery env attrs ctx = some ctx' ∧ ctx'.tuples = attrs ∧ Kept env ctx' := by
  cases attrs with
  | nil =>
    refine ⟨ctx, rfl, ?_, kept⟩
    cases hbuffers : ctx.buffers with
    | none => rw [SelectCtx.tuples, hbuffers]; rfl
    | some b =>
      rw [SelectCtx.tuples, hbuffers]
      exact tuples_of_packed (hclear b hbuffers)
  | cons a attrs =>
    obtain ⟨halloc, hfits⟩ := (holds_iff (List.cons_ne_nil a attrs)).mp hholds
    obtain ⟨b, hb, hpacked⟩ := exists_buffers hclear halloc
    obtain ⟨b', hvisit, hpacked'⟩ := @fill_of_fits b (a :: attrs) ⟨ctx.forked, some b⟩ env [] rfl
      hpacked hfits
    exact ⟨_, (visitAttrQuery_buffers hb a attrs).trans hvisit, tuples_of_packed hpacked',
      kept.forks, fun _ => halloc⟩

theorem visitAttrQuery_of_not_holds (kept : Kept env ctx) (hclear : Clear ctx)
    (hholds : env.holds attrs = false) : visitAttrQuery env attrs ctx = none := by
  cases attrs with
  | nil => cases hholds
  | cons a attrs =>
    cases halloc : env.alloc with
    | none =>
      have hbuffers : ctx.buffers = none := by
        cases hbuffers : ctx.buffers with
        | none => rfl
        | some b =>
          have hsome := kept.alloc (by rw [hbuffers]; rfl)
          rw [halloc] at hsome
          cases hsome
      rw [visitAttrQuery, hbuffers, halloc]
      rfl
    | some alloc =>
      have hsome : env.alloc.isSome = true := by rw [halloc]; rfl
      obtain ⟨b, hb, hpacked⟩ := exists_buffers hclear hsome
      rw [visitAttrQuery_buffers hb]
      refine fill_of_full rfl hpacked fun hfits => ?_
      rw [(holds_iff (List.cons_ne_nil a attrs)).mpr ⟨hsome, hfits⟩] at hholds
      cases hholds

theorem Kept.reset (kept : Kept env ctx) : Kept env ctx.reset :=
  ⟨kept.forks, fun h => kept.alloc (by rwa [SelectCtx.reset, Option.isSome_map] at h)⟩

theorem clear_reset (ctx : SelectCtx) : Clear ctx.reset := by
  intro b hb
  obtain ⟨b', -, rfl⟩ := Option.map_eq_some_iff.mp hb
  exact packed_reset b'

/-- A row is answered with its attributes, or the query fails on it. -/
theorem collect_row (kept : Kept env ctx) (q : ParsedQuery) (row : QueryRow) :
    (env.answers q row = true ∧ ∃ ctx', ctx.reset.collectSelectedAttrs env q row = some ctx' ∧
      ctx'.tuples = selectedAttrs q row ∧ Kept env ctx') ∨
    env.answers q row = false ∧ ctx.reset.collectSelectedAttrs env q row = none := by
  have hkept := kept.reset
  have hclear := clear_reset ctx
  have hnone : ∃ ctx', visitAttrQuery env [] ctx.reset = some ctx' ∧ ctx'.tuples = [] ∧ Kept env ctx' :=
    visitAttrQuery_of_holds hkept hclear rfl
  rw [SelectEnv.answers, collectSelectedAttrs, selectedAttrs]
  cases hselector : q.selector with
  | none => exact .inl ⟨rfl, hnone⟩
  | some selector =>
    cases selector with
    | none_ => exact .inl ⟨rfl, hnone⟩
    | all =>
      cases hforks : env.forks with
      | false =>
        have hforked : ctx.reset.forked = false := by
          cases hforked : ctx.reset.forked with
          | false => rfl
          | true => exact absurd (hforks ▸ hkept.forks hforked) Bool.false_ne_true
        refine .inr ⟨rfl, ?_⟩
        rw [hforked]
        rfl
      | true =>
        have hopen : Kept env { ctx.reset with forked := true } := ⟨fun _ => hforks, hkept.alloc⟩
        simp only [Bool.or_true, if_true]
        cases hholds : env.holds
            ((getSeedAttrs row.db q.query.effectiveTime row.seed).map columnAttr) with
        | false => exact .inr ⟨rfl, visitAttrQuery_of_not_holds hopen hclear hholds⟩
        | true => exact .inl ⟨rfl, visitAttrQuery_of_holds hopen hclear hholds⟩

theorem queryRows_eq {σ : Type} (visit : σ → SearchResult → Bool × σ) (ended : Bool) (s : σ)
    (rows : List QueryRow) (kept : Kept env ctx) :
    queryRows env q visit ended rows ctx s =
      match visitEach visit s (env.found q (rows, ended)).1 with
      | (false, s) => (false, s)
      | (true, s) => ((env.found q (rows, ended)).2, s) := by
  induction rows generalizing ctx s with
  | nil => rfl
  | cons row rows ih =>
    rw [queryRows, SelectEnv.found, List.takeWhile_cons, List.all_cons]
    obtain ⟨hanswers, ctx', hcollect, htuples, hkept⟩ | ⟨hanswers, hcollect⟩ :=
      collect_row kept q row
    · simp only [hcollect, htuples, hanswers, if_true, List.map_cons, visitEach, Bool.true_and]
      cases hvisit : visit s ⟨row.seed, selectedAttrs q row⟩ with
      | mk ok s' =>
        cases ok with
        | false => rfl
        | true => exact ih s' hkept
    · simp only [hcollect, hanswers]
      rfl

end SelectedAttrsLemmas

open SelectedAttrsLemmas in
/-- A query with its two buffers does the same as one that has the attributes of each row in a list
of its own, up to the first row of which the attributes do not fit. -/
theorem selected_attrs_passed {σ : Type} (search : SearchEnv) (env : SelectEnv)
    (statement : ParsedQuery → List QueryRow × Bool) (queryStr : List Char)
    (status : σ → Option QueryError → Bool × σ) (visit : σ → SearchResult → Bool × σ) (s : σ) :
    attrQueryClaimRows search.query env statement queryStr status visit s =
      attrQueryClaims { search with rows := fun q => env.found q (statement q) } queryStr status
        visit s := by
  rw [attrQueryClaimRows, attrQueryClaims]
  cases attrParseQuery search.query queryStr with
  | mk q error =>
    cases q with
    | none => rfl
    | some q =>
      cases hstatus : status s none with
      | mk ok s' =>
        dsimp only
        cases ok with
        | false => rfl
        | true => exact queryRows_eq visit (statement q).2 s' (statement q).1 kept_initial

end Everarch
