import Everarch.AttrIndex.QueryParser
import Everarch.Client.SearchResults
import Everarch.FileMem
import Everarch.Httpd

/-!
# The search over HTTP

The HTTP requests of evr-attr-index.c. The results of a search are collected in a file in memory
before anything is answered.

* `HttpSearchLemmas.visitEach_spec`: results are collected as long as they fit.

Results: `http_search_answers`.
-/

namespace Everarch

/-! ## Searching -/

/-- What the search finds where it runs: the index that was built last, whether its database is
opened and closed, the results of a query and whether the statement came to its end, the text
of an error, and memory. -/
structure SearchEnv where
  query : QueryEnv
  currentIndex : Res
  dbOpens : Bool
  dbCloses : Bool
  rows : ParsedQuery → List SearchResult × Bool
  errorText : QueryError → List Char
  heap : AuthToken
  mem : Nat → Char

/-- `visit` for one row after the other, until it fails. -/
def visitEach {σ : Type} (visit : σ → SearchResult → Bool × σ) (s : σ) :
    List SearchResult → Bool × σ
  | [] => (true, s)
  | row :: rows =>
    match visit s row with
    | (false, s) => (false, s)
    | (true, s) => visitEach visit s rows

/-- `evr_attr_query_claims`, with the statement and the attributes of its rows taken together. -/
def attrQueryClaims {σ : Type} (env : SearchEnv) (queryStr : List Char)
    (status : σ → Option QueryError → Bool × σ) (visit : σ → SearchResult → Bool × σ) (s : σ) :
    Bool × σ :=
  match attrParseQuery env.query queryStr with
  | ⟨none, error⟩ => status s (some (error.getD .syntaxError))
  | ⟨some q, _⟩ =>
    match status s none with
    | (false, s) => (false, s)
    | (true, s) =>
      match visitEach visit s (env.rows q).1 with
      | (false, s) => (false, s)
      | (true, s) => ((env.rows q).2, s)

/-- `struct evr_search_ctx` over a file in memory. -/
structure HttpSearchCtx where
  fm : FileMem Char
  parseRes : Res

/-- `evr_httpd_handle_search_status`. -/
def httpdHandleSearchStatus (env : SearchEnv) (ctx : HttpSearchCtx) (error : Option QueryError) :
    Bool × HttpSearchCtx :=
  match error with
  | none => (true, { ctx with parseRes := .ok })
  | some e =>
    ((ctx.fm.write (some env.mem) (env.errorText e)).1,
      ⟨(ctx.fm.write (some env.mem) (env.errorText e)).2, .error⟩)

/-- `evr_respond_search_result`. A file in memory takes all of a write or nothing. -/
def httpdRespondSearchResult (env : SearchEnv) (ctx : HttpSearchCtx) (r : SearchResult) :
    Bool × HttpSearchCtx :=
  ((ctx.fm.write (some env.mem) (respondSearchResult r)).1,
    { ctx with fm := (ctx.fm.write (some env.mem) (respondSearchResult r)).2 })

def searchInitialSize : Nat := 64 * 1024
def searchMaxSize : Nat := 1 * 1024 * 1024

/-- The content of a file in memory. -/
def FileMem.text (fm : FileMem Char) : List Char :=
  (List.range fm.usedSize).map fm.data

/-- `evr_httpd_handle_search`. -/
def httpdHandleSearch (env : SearchEnv) (q : Option (List Char)) : HttpResponse :=
  match env.currentIndex with
  | .end_ => ⟨503, "Service is being stopped".toList⟩
  | .ok =>
    if !env.dbOpens then httpdServerError
    else
      match attrQueryClaims env (q.getD []) (httpdHandleSearchStatus env)
          (httpdRespondSearchResult env)
          ⟨.init env.mem searchInitialSize searchMaxSize, .ok⟩ with
      | (false, _) => httpdServerError
      | (true, ctx) =>
        if !env.dbCloses then httpdServerError
        else if ctx.parseRes = .ok then ⟨200, ctx.fm.text⟩
        else ⟨400, ctx.fm.text⟩
  | _ => httpdServerError

/-- `evr_attr_index_handle_http_request`. -/
def attrIndexHandleHttpRequest (env : SearchEnv) (authToken : AuthToken) (req : HttpRequest) :
    HttpResponse :=
  match httpdCheckAuthentication env.heap authToken req.headers with
  | .userDataInvalid => httpdUnauthorized
  | .ok =>
    if req.method = "GET".toList ∧ req.url = "/search".toList then httpdHandleSearch env req.q
    else httpdNotFound
  | _ => httpdServerError

/-- All that a query finds, as text. -/
def SearchEnv.found (env : SearchEnv) (q : ParsedQuery) : List Char :=
  (env.rows q).1.flatMap respondSearchResult

/-- The text that answers a query that is not one. -/
def SearchEnv.complaint (env : SearchEnv) (q : Option (List Char)) : List Char :=
  env.errorText ((attrParseQuery env.query (q.getD [])).error.getD .syntaxError)

namespace HttpSearchLemmas

open FileMemLemmas

variable {env : SearchEnv}

/-! ## Results in memory -/

/-- A file to which everything was written at its end. -/
def Holds (fm : FileMem Char) (content : List Char) : Prop :=
  ∃ room, Shows searchMaxSize fm ⟨content, content.length, room⟩

theorem holds_write {fm : FileMem Char} {content : List Char} (h : Holds fm content)
    (mem : Nat → Char) (text : List Char) :
    if (content ++ text).length ≤ searchMaxSize then
      (fm.write (some mem) text).1 = true ∧ Holds (fm.write (some mem) text).2 (content ++ text)
    else (fm.write (some mem) text).1 = false := by
  obtain ⟨room, h⟩ := h
  have hroom : room ≤ searchMaxSize := h.room
  have hwrite := shows_write h (some mem) text
  have hend : MemFile.write searchMaxSize ⟨content, content.length, room⟩ text =
      ⟨content ++ text, (content ++ text).length,
        (MemFile.write searchMaxSize ⟨content, content.length, room⟩ text).room⟩ := by
    rw [MemFile.write, List.take_length, List.length_append]
  rw [hend] at hwrite
  rw [List.length_append]
  dsimp only at hwrite
  split
  · rename_i hfits
    rw [if_pos (.inr ⟨rfl, hfits⟩)] at hwrite
    exact ⟨hwrite.1, _, hwrite.2⟩
  · rename_i hfull
    rw [if_neg fun hdone => hfull (hdone.elim (·.trans hroom) (·.2))] at hwrite
    exact congrArg Prod.fst hwrite

/-- Results one after the other, as long as all of them fit. -/
theorem visitEach_spec {ctx : HttpSearchCtx} {content : List Char} (h : Holds ctx.fm content)
    (rows : List SearchResult) :
    if (content ++ rows.flatMap respondSearchResult).length ≤ searchMaxSize then
      (visitEach (httpdRespondSearchResult env) ctx rows).1 = true ∧
        Holds (visitEach (httpdRespondSearchResult env) ctx rows).2.fm
          (content ++ rows.flatMap respondSearchResult) ∧
        (visitEach (httpdRespondSearchResult env) ctx rows).2.parseRes = ctx.parseRes
    else (visitEach (httpdRespondSearchResult env) ctx rows).1 = false := by
  induction rows generalizing ctx content with
  | nil =>
    have hfits : content.length ≤ searchMaxSize := by
      obtain ⟨room, h⟩ := h
      rw [← h.length]
      exact (h.used.trans h.alloc.le).trans h.room
    rw [List.flatMap_nil, List.append_nil, if_pos hfits]
    exact ⟨rfl, h, rfl⟩
  | cons row rows ih =>
    have hwrite := holds_write h env.mem (respondSearchResult row)
    have hrest := @ih ⟨(ctx.fm.write (some env.mem) (respondSearchResult row)).2, ctx.parseRes⟩
      (content ++ respondSearchResult row)
    rw [List.append_assoc, ← List.flatMap_cons] at hrest
    unfold visitEach
    split at hwrite
    · have hvisit : httpdRespondSearchResult env ctx row =
          (true, ⟨(ctx.fm.write (some env.mem) (respondSearchResult row)).2, ctx.parseRes⟩) := by
        rw [httpdRespondSearchResult, hwrite.1]
      rw [hvisit]
      exact hrest hwrite.2
    · rename_i hfull
      have hvisit : httpdRespondSearchResult env ctx row =
          (false, ⟨(ctx.fm.write (some env.mem) (respondSearchResult row)).2, ctx.parseRes⟩) := by
        rw [httpdRespondSearchResult, hwrite]
      rw [hvisit, if_neg]
      intro hfits
      refine hfull (Nat.le_trans ?_ hfits)
      rw [List.flatMap_cons, ← List.append_assoc, @List.length_append _ (content ++ _)]
      exact Nat.le_add_right _ _

theorem text_of_holds {fm : FileMem Char} {content : List Char} (h : Holds fm content) :
    fm.text = content :=
  have ⟨_, hshows⟩ := h
  shows_content hshows

theorem holds_init (mem : Nat → Char) : Holds (.init mem searchInitialSize searchMaxSize) [] :=
  ⟨_, shows_init mem (by decide)⟩

end HttpSearchLemmas

/-- What the search needs besides a query. -/
structure SearchEnv.Serves (env : SearchEnv) : Prop where
  index : env.currentIndex = .ok
  opens : env.dbOpens = true
  closes : env.dbCloses = true

namespace HttpSearchLemmas

open FileMemLemmas HttpdLemmas

variable {env : SearchEnv} {q : Option (List Char)}

/-- The query with its results written to an empty file. -/
def runSearch (env : SearchEnv) (q : Option (List Char)) : Bool × HttpSearchCtx :=
  attrQueryClaims env (q.getD []) (httpdHandleSearchStatus env) (httpdRespondSearchResult env)
    ⟨.init env.mem searchInitialSize searchMaxSize, .ok⟩

theorem runSearch_parsed {query : ParsedQuery}
    (h : (attrParseQuery env.query (q.getD [])).query = some query) :
    if (env.rows query).2 = true ∧ (env.found query).length ≤ searchMaxSize then
      (runSearch env q).1 = true ∧ (runSearch env q).2.parseRes = .ok ∧
        (runSearch env q).2.fm.text = env.found query
    else (runSearch env q).1 = false := by
  generalize hctx : (⟨.init env.mem searchInitialSize searchMaxSize, .ok⟩ : HttpSearchCtx) = ctx
  have hempty : Holds ctx.fm [] := hctx ▸ holds_init env.mem
  have hstatus : httpdHandleSearchStatus env ctx none = (true, ctx) := by
    rw [← hctx, httpdHandleSearchStatus]
  have hvisit := @visitEach_spec env _ _ hempty (env.rows query).1
  rw [List.nil_append] at hvisit
  rw [runSearch, attrQueryClaims, hctx]
  cases hparse : attrParseQuery env.query (q.getD []) with
  | mk parsed error =>
    rw [hparse] at h
    obtain rfl := h
    dsimp only
    rw [hstatus]
    dsimp only
    cases hvisited : visitEach (httpdRespondSearchResult env) ctx (env.rows query).1 with
    | mk done visited =>
      rw [hvisited] at hvisit
      split at hvisit
      · rename_i hfits
        obtain ⟨rfl, hholds, hres⟩ := hvisit
        dsimp only
        split
        · rename_i hall
          exact ⟨hall.1, by rw [hres, ← hctx], text_of_holds hholds⟩
        · rename_i hall
          exact Bool.eq_false_iff.mpr fun hdone => hall ⟨hdone, hfits⟩
      · rename_i hfull
        obtain rfl : done = false := hvisit
        rw [if_neg fun hall => hfull hall.2]

theorem runSearch_unparsed (h : (attrParseQuery env.query (q.getD [])).query = none) :
    if (env.complaint q).length ≤ searchMaxSize then
      (runSearch env q).1 = true ∧ (runSearch env q).2.parseRes = .error ∧
        (runSearch env q).2.fm.text = env.complaint q
    else (runSearch env q).1 = false := by
  have hrun : runSearch env q = httpdHandleSearchStatus env
      ⟨.init env.mem searchInitialSize searchMaxSize, .ok⟩
      (some ((attrParseQuery env.query (q.getD [])).error.getD .syntaxError)) := by
    rw [runSearch, attrQueryClaims]
    cases hparse : attrParseQuery env.query (q.getD []) with
    | mk parsed error =>
      rw [hparse] at h
      obtain rfl := h
      rfl
  have hwrite := holds_write (holds_init env.mem) env.mem (env.complaint q)
  rw [List.nil_append] at hwrite
  rw [hrun]
  split at hwrite
  · rename_i hfits
    rw [if_pos hfits]
    exact ⟨hwrite.1, rfl, text_of_holds hwrite.2⟩
  · rename_i hfull
    rw [if_neg hfull]
    exact hwrite

/-- Without what it needs the search answers with a server error or that it ends. -/
theorem handleSearch_of_not_serves (h : ¬ env.Serves) :
    httpdHandleSearch env q = httpdServerError ∨ (httpdHandleSearch env q).status = 503 := by
  unfold httpdHandleSearch
  split
  · exact .inr rfl
  · rename_i hindex
    split
    · exact .inl rfl
    · rename_i hopens
      split
      · exact .inl rfl
      · split
        · exact .inl rfl
        · rename_i hcloses
          exact absurd ⟨hindex, by simpa using hopens, by simpa using hcloses⟩ h
  · exact .inl rfl

theorem handleSearch_of_serves (h : env.Serves) :
    httpdHandleSearch env q =
      if (runSearch env q).1 = false then httpdServerError
      else if (runSearch env q).2.parseRes = .ok then ⟨200, (runSearch env q).2.fm.text⟩
      else ⟨400, (runSearch env q).2.fm.text⟩ := by
  rw [httpdHandleSearch, h.index, h.opens, h.closes, runSearch]
  rw [Bool.not_true, if_neg Bool.false_ne_true]
  cases attrQueryClaims env (q.getD []) (httpdHandleSearchStatus env)
      (httpdRespondSearchResult env) ⟨.init env.mem searchInitialSize searchMaxSize, .ok⟩ with
  | mk done ctx =>
    cases done with
    | false => rfl
    | true => rfl

theorem handleSearch_parsed (hserves : env.Serves) {query : ParsedQuery}
    (h : (attrParseQuery env.query (q.getD [])).query = some query) :
    httpdHandleSearch env q =
      if (env.rows query).2 = true ∧ (env.found query).length ≤ searchMaxSize then
        ⟨200, env.found query⟩
      else httpdServerError := by
  have hrun := runSearch_parsed h
  rw [handleSearch_of_serves hserves]
  split at hrun
  · rename_i hall
    obtain ⟨hdone, hres, htext⟩ := hrun
    rw [if_pos hall, hdone, if_neg Bool.false_ne_true.symm, if_pos hres, htext]
  · rename_i hall
    rw [if_neg hall, if_pos hrun]

theorem handleSearch_unparsed (hserves : env.Serves)
    (h : (attrParseQuery env.query (q.getD [])).query = none) :
    httpdHandleSearch env q =
      if (env.complaint q).length ≤ searchMaxSize then ⟨400, env.complaint q⟩
      else httpdServerError := by
  have hrun := runSearch_unparsed h
  rw [handleSearch_of_serves hserves]
  split at hrun
  · rename_i hfits
    obtain ⟨hdone, hres, htext⟩ := hrun
    rw [if_pos hfits, hdone, if_neg Bool.false_ne_true.symm, hres, if_neg (by decide), htext]
  · rename_i hfull
    rw [if_neg hfull, if_pos hrun]

theorem serves_of_status {status : Nat} (h : (httpdHandleSearch env q).status = status)
    (herror : status ≠ 500) (hends : status ≠ 503) : env.Serves := by
  by_contra hnot
  rcases handleSearch_of_not_serves (q := q) hnot with hres | hres
  · rw [hres] at h
    exact herror h.symm
  · exact hends (h.symm.trans hres)

theorem handleSearch_status_ne_401 : (httpdHandleSearch env q).status ≠ 401 := by
  by_cases hserves : env.Serves
  · rw [handleSearch_of_serves hserves]
    split
    · simp
    · split
      · simp
      · simp
  · rcases handleSearch_of_not_serves (q := q) hserves with hres | hres
    · simp [hres]
    · simp [hres]

theorem handleSearch_ok_iff {body : List Char} :
    httpdHandleSearch env q = ⟨200, body⟩ ↔
      env.Serves ∧ ∃ query, (attrParseQuery env.query (q.getD [])).query = some query ∧
        (env.rows query).2 = true ∧ (env.found query).length ≤ searchMaxSize ∧
        body = env.found query := by
  constructor
  · intro hres
    have hserves : env.Serves :=
      serves_of_status (congrArg HttpResponse.status hres) (by simp) (by simp)
    refine ⟨hserves, ?_⟩
    cases hparse : (attrParseQuery env.query (q.getD [])).query with
    | none =>
      rw [handleSearch_unparsed hserves hparse] at hres
      split at hres
      · exact absurd (congrArg HttpResponse.status hres) (by simp)
      · exact absurd (congrArg HttpResponse.status hres) (by simp)
    | some query =>
      rw [handleSearch_parsed hserves hparse] at hres
      split at hres
      · rename_i hall
        exact ⟨query, rfl, hall.1, hall.2, (congrArg HttpResponse.body hres).symm⟩
      · exact absurd (congrArg HttpResponse.status hres) (by simp)
  · rintro ⟨hserves, query, hparse, hrows, hfits, rfl⟩
    rw [handleSearch_parsed hserves hparse, if_pos ⟨hrows, hfits⟩]

theorem handleSearch_bad_iff {body : List Char} :
    httpdHandleSearch env q = ⟨400, body⟩ ↔
      env.Serves ∧ (attrParseQuery env.query (q.getD [])).query = none ∧
        (env.complaint q).length ≤ searchMaxSize ∧ body = env.complaint q := by
  constructor
  · intro hres
    have hserves : env.Serves :=
      serves_of_status (congrArg HttpResponse.status hres) (by simp) (by simp)
    refine ⟨hserves, ?_⟩
    cases hparse : (attrParseQuery env.query (q.getD [])).query with
    | some query =>
      rw [handleSearch_parsed hserves hparse] at hres
      split at hres
      · exact absurd (congrArg HttpResponse.status hres) (by simp)
      · exact absurd (congrArg HttpResponse.status hres) (by simp)
    | none =>
      rw [handleSearch_unparsed hserves hparse] at hres
      split at hres
      · rename_i hfits
        exact ⟨rfl, hfits, (congrArg HttpResponse.body hres).symm⟩
      · exact absurd (congrArg HttpResponse.status hres) (by simp)
  · rintro ⟨hserves, hparse, hfits, rfl⟩
    rw [handleSearch_unparsed hserves hparse, if_pos hfits]

variable {authToken : AuthToken} {req : HttpRequest}

theorem handleRequest_of_authorized (h : req.Authorized env.heap authToken) :
    attrIndexHandleHttpRequest env authToken req =
      if req.method = "GET".toList ∧ req.url = "/search".toList then httpdHandleSearch env req.q
      else httpdNotFound := by
  rw [attrIndexHandleHttpRequest, checkAuthentication_of_authorized h]

theorem handleRequest_of_unauthorized (h : ¬ req.Authorized env.heap authToken) :
    attrIndexHandleHttpRequest env authToken req = httpdUnauthorized := by
  rw [attrIndexHandleHttpRequest, checkAuthentication_of_unauthorized h]

/-- A request that is answered from the search passed the check and names it. -/
theorem handleRequest_search_iff {response : HttpResponse} (hunauthorized : response.status ≠ 401)
    (hunknown : response.status ≠ 404) :
    attrIndexHandleHttpRequest env authToken req = response ↔
      req.Authorized env.heap authToken ∧ req.method = "GET".toList ∧
        req.url = "/search".toList ∧ httpdHandleSearch env req.q = response := by
  constructor
  · intro hres
    by_cases hauth : req.Authorized env.heap authToken
    · rw [handleRequest_of_authorized hauth] at hres
      split at hres
      · rename_i hsearch
        exact ⟨hauth, hsearch.1, hsearch.2, hres⟩
      · exact absurd (congrArg HttpResponse.status hres).symm hunknown
    · rw [handleRequest_of_unauthorized hauth] at hres
      exact absurd (congrArg HttpResponse.status hres).symm hunauthorized
  · rintro ⟨hauth, hmethod, hurl, hres⟩
    rw [handleRequest_of_authorized hauth, if_pos ⟨hmethod, hurl⟩, hres]

end HttpSearchLemmas

open HttpSearchLemmas HttpdLemmas in
/-- A search is answered with all that its query finds, within the limit, or with the complaint
about the query, and only to who knows the token. -/
theorem http_search_answers (env : SearchEnv) (authToken : AuthToken) (req : HttpRequest)
    (body : List Char) :
    (attrIndexHandleHttpRequest env authToken req = ⟨200, body⟩ ↔
      req.Authorized env.heap authToken ∧ req.method = "GET".toList ∧
        req.url = "/search".toList ∧ env.Serves ∧
        ∃ query, (attrParseQuery env.query (req.q.getD [])).query = some query ∧
          (env.rows query).2 = true ∧ (env.found query).length ≤ searchMaxSize ∧
          body = env.found query) ∧
    (attrIndexHandleHttpRequest env authToken req = ⟨400, body⟩ ↔
      req.Authorized env.heap authToken ∧ req.method = "GET".toList ∧
        req.url = "/search".toList ∧ env.Serves ∧
        (attrParseQuery env.query (req.q.getD [])).query = none ∧
        (env.complaint req.q).length ≤ searchMaxSize ∧ body = env.complaint req.q) ∧
    ((attrIndexHandleHttpRequest env authToken req).status = 401 ↔
      ¬ req.Authorized env.heap authToken) := by
  refine ⟨?_, ?_, ?_⟩
  · rw [handleRequest_search_iff (by simp) (by simp), handleSearch_ok_iff]
  · rw [handleRequest_search_iff (by simp) (by simp), handleSearch_bad_iff]
  · constructor
    · intro hstatus hauth
      rw [handleRequest_of_authorized hauth] at hstatus
      split at hstatus
      · exact handleSearch_status_ne_401 hstatus
      · exact absurd hstatus (by decide)
    · intro hauth
      rw [handleRequest_of_unauthorized hauth, httpdUnauthorized_status]

end Everarch
