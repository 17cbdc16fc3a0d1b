import Mathlib.Data.List.DropRight
import Everarch.Cli.BoundedRead
import Everarch.Httpd

/-!
# Uploads over HTTP

evr-upload-httpd.c. The body of a request is written to the standard input of `evr post-file` as it
arrives, and what that prints is the response.

* `UploadLemmas.runPieces_eq`: the pieces of a body until the first one that is not taken.
* `UploadLemmas.readOutput_eq`: the output is read to its end if it is smaller than the first
  buffer for it.

Results: `upload_answers`.
-/

namespace Everarch

/-- The commands that can be started: whether one starts, whether it takes the last one of the pieces
that were written to it, whether its input is closed, whether a read of its output fails, what it
prints for a whole input and how many bytes each read of that gets, and the status it exits with.
A page has 4096 bytes or more. -/
structure UploadEnv where
  spawns : List (List Char) → Bool
  takes : List (List Char) → List Bytes → Bool
  closes : Bool
  reads : Bool
  prints : List (List Char) → Bytes → Bytes
  chunks : List Nat
  status : List (List Char) → Bytes → Int
  heap : AuthToken
  pageSize : Nat
  pageSize_ge : 4096 ≤ pageSize

/-- `struct evr_file_upload_ctx`: the command and the pieces that were written to it. -/
structure UploadCtx where
  argv : List (List Char)
  written : List Bytes

/-- What a call of the handler ends with. A response is the last call of its request. -/
inductive UploadAnswer where
  | more (ctx : UploadCtx)
  | response (r : HttpResponse)
  | doubleFree

/-- `evr_cli_argv`. -/
def evrCliArgv (fileName : List Char) : List (List Char) :=
  ["evr".toList, "post-file".toList, "-t".toList, fileName]

/-- The response without trailing white space. -/
def trimEnd (text : List Char) : List Char :=
  text.rdropWhile isSpaceChar

/-- `sizeof(struct dynamic_array)`. -/
def dynamicArrayStructSize : Nat := 24

/-- The size that `alloc_dynamic_array(0)` allocates for data. -/
def UploadEnv.bufSize (env : UploadEnv) : Nat :=
  env.pageSize - dynamicArrayStructSize

/-- What is read of the output of the command. -/
def readOutput (env : UploadEnv) (ctx : UploadCtx) : Res × Bytes :=
  let (res, buf, _) := readFd ⟨[], env.bufSize⟩
    ⟨env.prints ctx.argv ctx.written.flatten, env.chunks⟩ (max 256 env.bufSize)
  if env.reads then (res, buf.data) else (.error, [])

/-- `evr_http_upload_handle_file_upload` after the last piece. Output that is white space only is
released twice. -/
def uploadFinish (env : UploadEnv) (ctx : UploadCtx) : UploadAnswer :=
  if !env.closes then .response httpdServerError
  else
    let (res, buf) := readOutput env ctx
    -- evr_ok means that there may be more
    if res ≠ .end_ then .response httpdServerError
    else if env.status ctx.argv ctx.written.flatten ≠ 0 then .response httpdServerError
    else if buf = [] then .response httpdServerError
    else if trimEnd (bytesText buf) = [] then .doubleFree
    else .response ⟨200, trimEnd (bytesText buf)⟩

/-- `evr_http_upload_handle_file_upload`. -/
def httpUploadHandleFileUpload (env : UploadEnv) (fileName : List Char) (uploadData : Bytes)
    (conCls : Option UploadCtx) : UploadAnswer :=
  match conCls with
  | none =>
    if env.spawns (evrCliArgv fileName) then .more ⟨evrCliArgv fileName, []⟩
    else .response httpdServerError
  | some ctx =>
    if uploadData ≠ [] then
      if env.takes ctx.argv (ctx.written ++ [uploadData]) then
        .more { ctx with written := ctx.written ++ [uploadData] }
      else .response httpdServerError
    else uploadFinish env ctx

/-- `evr_files_url_prefix`. -/
def filesUrlPrefix : List Char := "/files/".toList

/-- `evr_http_upload_handle_request`. -/
def httpUploadHandleRequest (env : UploadEnv) (authToken : AuthToken) (req : HttpRequest)
    (uploadData : Bytes) (conCls : Option UploadCtx) : UploadAnswer :=
  match httpdCheckAuthentication env.heap authToken req.headers with
  | .userDataInvalid => .response httpdUnauthorized
  | .ok =>
    if req.method = "POST".toList ∧ filesUrlPrefix <+: req.url then
      httpUploadHandleFileUpload env (req.url.drop filesUrlPrefix.length) uploadData conCls
    else .response httpdNotFound
  | _ => .response httpdServerError

/-- The calls for the rest of a body and the one at its end. -/
def uploadPieces (env : UploadEnv) (authToken : AuthToken) (req : HttpRequest) (ctx : UploadCtx) :
    List Bytes → UploadAnswer
  | [] => httpUploadHandleRequest env authToken req [] (some ctx)
  | data :: rest =>
    match httpUploadHandleRequest env authToken req data (some ctx) with
    | .more ctx => uploadPieces env authToken req ctx rest
    | answer => answer

/-- The calls for a request, the first one for its headers. -/
def uploadRequest (env : UploadEnv) (authToken : AuthToken) (req : HttpRequest)
    (pieces : List Bytes) : UploadAnswer :=
  match httpUploadHandleRequest env authToken req [] none with
  | .more ctx => uploadPieces env authToken req ctx pieces
  | answer => answer

/-- The command took every piece after those already written. -/
def UploadEnv.TakesAll (env : UploadEnv) (ctx : UploadCtx) (pieces : List Bytes) : Prop :=
  ∀ front, front ≠ [] → front <+: pieces → env.takes ctx.argv (ctx.written ++ front) = true

/-- The output of the command for a body, as text. -/
def UploadEnv.output (env : UploadEnv) (name : List Char) (pieces : List Bytes) : List Char :=
  bytesText (env.prints (evrCliArgv name) pieces.flatten)

/-- The request uploads its body under the name, and the command succeeds. Output that fills the
buffer is not read to its end. -/
structure UploadEnv.Uploads (env : UploadEnv) (req : HttpRequest) (pieces : List Bytes)
    (name : List Char) : Prop where
  method : req.method = "POST".toList
  url : req.url = filesUrlPrefix ++ name
  spawns : env.spawns (evrCliArgv name) = true
  takes : env.TakesAll ⟨evrCliArgv name, []⟩ pieces
  closes : env.closes = true
  reads : env.reads = true
  status : env.status (evrCliArgv name) pieces.flatten = 0
  fits : (env.prints (evrCliArgv name) pieces.flatten).length < env.bufSize

namespace UploadLemmas

open HttpdLemmas

variable {env : UploadEnv} {authToken : AuthToken} {req : HttpRequest} {name : List Char}
  {ctx : UploadCtx} {pieces : List Bytes}

theorem handleRequest_of_authorized (hauth : req.Authorized env.heap authToken)
    (hmethod : req.method = "POST".toList) (hurl : req.url = filesUrlPrefix ++ name) (data : Bytes)
    (conCls : Option UploadCtx) :
    httpUploadHandleRequest env authToken req data conCls =
      httpUploadHandleFileUpload env name data conCls := by
  rw [httpUploadHandleRequest, checkAuthentication_of_authorized hauth]
  dsimp only
  rw [if_pos ⟨hmethod, hurl ▸ List.prefix_append _ _⟩, hurl, List.drop_left]

/-- A request that is no upload is answered by its first call. -/
theorem request_of_not_upload
    (h : ¬ (req.Authorized env.heap authToken ∧ req.method = "POST".toList ∧
      filesUrlPrefix <+: req.url)) :
    ∃ r, r.status ≠ 200 ∧ uploadRequest env authToken req pieces = .response r := by
  by_cases hauth : req.Authorized env.heap authToken
  · refine ⟨httpdNotFound, by simp, ?_⟩
    have hno : ¬ (req.method = "POST".toList ∧ filesUrlPrefix <+: req.url) :=
      fun hyes => h ⟨hauth, hyes⟩
    rw [uploadRequest, httpUploadHandleRequest, checkAuthentication_of_authorized hauth]
    dsimp only
    rw [if_neg hno]
  · refine ⟨httpdUnauthorized, by simp, ?_⟩
    rw [uploadRequest, httpUploadHandleRequest, checkAuthentication_of_unauthorized hauth]

theorem takesAll_cons {data : Bytes} {rest : List Bytes} :
    env.TakesAll ctx (data :: rest) ↔ env.takes ctx.argv (ctx.written ++ [data]) = true ∧
      env.TakesAll { ctx with written := ctx.written ++ [data] } rest := by
  constructor
  · intro h
    refine ⟨h [data] (List.cons_ne_nil _ _) ⟨rest, rfl⟩, ?_⟩
    intro front _ hfront
    have hlong := h (data :: front) (List.cons_ne_nil _ _) (List.cons_prefix_cons.mpr ⟨rfl, hfront⟩)
    rwa [List.append_assoc]
  · rintro ⟨hfirst, hrest⟩ front hne hfront
    cases front with
    | nil => exact absurd rfl hne
    | cons d front =>
      obtain ⟨rfl, htail⟩ := List.cons_prefix_cons.mp hfront
      by_cases hnil : front = []
      · rwa [hnil]
      · have hlong := hrest front hnil htail
        rwa [List.append_assoc] at hlong

/-- The pieces of a body go to the command, up to the first one that it does not take. -/
theorem runPieces_eq (hauth : req.Authorized env.heap authToken)
    (hmethod : req.method = "POST".toList) (hurl : req.url = filesUrlPrefix ++ name)
    (hpieces : ∀ p ∈ pieces, p ≠ []) :
    (env.TakesAll ctx pieces → uploadPieces env authToken req ctx pieces =
      uploadFinish env { ctx with written := ctx.written ++ pieces }) ∧
    (¬ env.TakesAll ctx pieces → uploadPieces env authToken req ctx pieces =
      .response httpdServerError) := by
  induction pieces generalizing ctx with
  | nil =>
    constructor
    · intro _
      rw [uploadPieces, handleRequest_of_authorized hauth hmethod hurl, List.append_nil,
        httpUploadHandleFileUpload, if_neg (fun h => h rfl)]
    · intro hnot
      refine absurd (fun front hne hfront => ?_) hnot
      exact absurd (List.prefix_nil.mp hfront) hne
  | cons data rest ih =>
    have hdata : data ≠ [] := hpieces data List.mem_cons_self
    have hrest : ∀ p ∈ rest, p ≠ [] := fun p hp => hpieces p (List.mem_cons_of_mem _ hp)
    rw [uploadPieces, handleRequest_of_authorized hauth hmethod hurl, httpUploadHandleFileUpload,
      if_pos hdata, takesAll_cons]
    by_cases htakes : env.takes ctx.argv (ctx.written ++ [data]) = true
    · rw [if_pos htakes]
      have hrun := @ih { ctx with written := ctx.written ++ [data] } hrest
      rw [List.append_assoc] at hrun
      constructor
      · rintro ⟨-, hall⟩
        exact hrun.1 hall
      · intro hnot
        exact hrun.2 fun hall => hnot ⟨htakes, hall⟩
    · rw [if_neg htakes]
      exact ⟨fun hall => absurd hall.1 htakes, fun _ => rfl⟩

/-- No response other than a success. -/
def UploadAnswer.Done : UploadAnswer → Prop
  | .more _ => False
  | .response r => r.status = 200
  | .doubleFree => True

theorem request_iff (hpieces : ∀ p ∈ pieces, p ≠ []) {answer : UploadAnswer}
    (hdone : UploadAnswer.Done answer) :
    uploadRequest env authToken req pieces = answer ↔
      req.Authorized env.heap authToken ∧ ∃ name, req.method = "POST".toList ∧
        req.url = filesUrlPrefix ++ name ∧ env.spawns (evrCliArgv name) = true ∧
        env.TakesAll ⟨evrCliArgv name, []⟩ pieces ∧
        uploadFinish env ⟨evrCliArgv name, pieces⟩ = answer := by
  have hnever : ∀ {r : HttpResponse}, r.status ≠ 200 → UploadAnswer.response r ≠ answer := by
    rintro r hstatus rfl
    exact hstatus hdone
  by_cases hupload : req.Authorized env.heap authToken ∧ req.method = "POST".toList ∧
      filesUrlPrefix <+: req.url
  · obtain ⟨hauth, hmethod, name, hurl⟩ := hupload
    have hname : ∀ other, req.url = filesUrlPrefix ++ other → other = name := fun other h =>
      List.append_cancel_left (h.symm.trans hurl.symm)
    have hrun := @runPieces_eq _ _ _ _ ⟨evrCliArgv name, []⟩ _ hauth hmethod hurl.symm hpieces
    rw [uploadRequest, handleRequest_of_authorized hauth hmethod hurl.symm,
      httpUploadHandleFileUpload]
    by_cases hspawns : env.spawns (evrCliArgv name) = true
    · rw [if_pos hspawns]
      dsimp only
      by_cases htakes : env.TakesAll ⟨evrCliArgv name, []⟩ pieces
      · rw [hrun.1 htakes]
        constructor
        · intro hfinish
          exact ⟨hauth, name, hmethod, hurl.symm, hspawns, htakes, hfinish⟩
        · rintro ⟨-, other, -, hother, -, -, hfinish⟩
          rwa [hname other hother] at hfinish
      · rw [hrun.2 htakes]
        constructor
        · intro herror
          exact absurd herror (hnever (by simp))
        · rintro ⟨-, other, -, hother, -, hall, -⟩
          rw [hname other hother] at hall
          exact absurd hall htakes
    · rw [if_neg hspawns]
      constructor
      · intro herror
        exact absurd herror (hnever (by simp))
      · rintro ⟨-, other, -, hother, hstarts, -⟩
        rw [hname other hother] at hstarts
        exact absurd hstarts hspawns
  · obtain ⟨r, hstatus, hres⟩ := @request_of_not_upload _ _ _ pieces hupload
    rw [hres]
    constructor
    · intro herror
      exact absurd herror (hnever hstatus)
    · rintro ⟨hauth, name, hmethod, hurl, -⟩
      exact absurd ⟨hauth, hmethod, hurl ▸ List.prefix_append _ _⟩ hupload

theorem readOutput_eq (env : UploadEnv) (ctx : UploadCtx) :
    ((readOutput env ctx).1 = .end_ ↔
        env.reads = true ∧ (env.prints ctx.argv ctx.written.flatten).length < env.bufSize) ∧
      ((readOutput env ctx).1 = .end_ →
        (readOutput env ctx).2 = env.prints ctx.argv ctx.written.flatten) := by
  have hsize : 256 ≤ env.bufSize := by
    have hpage := env.pageSize_ge
    unfold UploadEnv.bufSize dynamicArrayStructSize
    omega
  have hread := @BoundedReadLemmas.readFd_space ⟨[], env.bufSize⟩
    ⟨env.prints ctx.argv ctx.written.flatten, env.chunks⟩ env.bufSize (by omega) (Nat.zero_add _)
  unfold readOutput
  rw [Nat.max_eq_right hsize]
  dsimp only at hread ⊢
  split
  · next hreads => exact ⟨hread.1.trans (and_iff_right hreads).symm, hread.2⟩
  · next hreads => exact ⟨iff_of_false Res.noConfusion fun h => hreads h.1, Res.noConfusion⟩

theorem finish_iff {answer : UploadAnswer} (hdone : UploadAnswer.Done answer) :
    uploadFinish env ctx = answer ↔ env.closes = true ∧ env.reads = true ∧
      (env.prints ctx.argv ctx.written.flatten).length < env.bufSize ∧
      env.status ctx.argv ctx.written.flatten = 0 ∧ env.prints ctx.argv ctx.written.flatten ≠ [] ∧
      (if trimEnd (bytesText (env.prints ctx.argv ctx.written.flatten)) = [] then .doubleFree
        else .response ⟨200, trimEnd (bytesText (env.prints ctx.argv ctx.written.flatten))⟩) =
          answer := by
  have hnever : UploadAnswer.response httpdServerError ≠ answer := by
    rintro rfl
    exact absurd hdone (by simp [UploadAnswer.Done])
  obtain ⟨hended, hall⟩ := readOutput_eq env ctx
  unfold uploadFinish
  dsimp only
  split
  · rename_i hcloses
    refine iff_of_false hnever fun h => ?_
    rw [h.1] at hcloses
    exact absurd hcloses (by decide)
  · rename_i hcloses
    split
    · rename_i hreads
      exact iff_of_false hnever fun h => hreads (hended.mpr ⟨h.2.1, h.2.2.1⟩)
    · rename_i hreads
      obtain ⟨hread, hfits⟩ := hended.mp (not_not.mp hreads)
      rw [hall (not_not.mp hreads)]
      split
      · rename_i hstatus
        exact iff_of_false hnever fun h => hstatus h.2.2.2.1
      · rename_i hstatus
        split
        · rename_i hprints
          exact iff_of_false hnever fun h => h.2.2.2.2.1 hprints
        · rename_i hprints
          constructor
          · intro h
            exact ⟨by simpa using hcloses, hread, hfits, not_not.mp hstatus, hprints, h⟩
          · intro h
            exact h.2.2.2.2.2

theorem bytesText_eq_nil {bs : Bytes} : bytesText bs = [] ↔ bs = [] :=
  List.map_eq_nil_iff

theorem trimEnd_eq_iff {text body : List Char} (hbody : body ≠ []) :
    trimEnd text = body ↔ ∃ blank, text = body ++ blank ∧ (∀ c ∈ blank, isSpaceChar c = true) ∧
      ∀ c ∈ body.getLast?, isSpaceChar c = false := by
  constructor
  · rintro rfl
    refine ⟨text.rtakeWhile isSpaceChar, (List.rdropWhile_append_rtakeWhile ..).symm,
      fun c hc => List.mem_rtakeWhile_imp hc, ?_⟩
    intro c hc
    rw [List.getLast?_eq_getLast_of_ne_nil hbody] at hc
    obtain rfl := Option.some.inj hc
    exact Bool.eq_false_iff.mpr (List.rdropWhile_last_not _ _ hbody)
  · rintro ⟨blank, rfl, hblank, hlast⟩
    have hdrop : trimEnd (body ++ blank) = trimEnd body := by
      rw [trimEnd, trimEnd, List.rdropWhile, List.rdropWhile, List.reverse_append,
        List.dropWhile_append_of_pos fun c hc => hblank c (List.mem_reverse.mp hc)]
    rw [hdrop]
    refine List.rdropWhile_eq_self_iff.mpr fun hne => ?_
    rw [hlast _ (List.getLast?_eq_getLast_of_ne_nil hne)]
    exact Bool.false_ne_true

end UploadLemmas

open UploadLemmas in
/-- A request is answered with what the command prints for the whole body, however the body arrives,
if the command takes all of it, prints less than the buffer for its output takes and succeeds;
output that is white space only is released twice. -/
theorem upload_answers (env : UploadEnv) (authToken : AuthToken) (req : HttpRequest)
    (pieces : List Bytes) (hpieces : ∀ p ∈ pieces, p ≠ []) :
    (∀ body, uploadRequest env authToken req pieces = .response ⟨200, body⟩ ↔
      req.Authorized env.heap authToken ∧ ∃ name, env.Uploads req pieces name ∧ body ≠ [] ∧
        ∃ blank, env.output name pieces = body ++ blank ∧
          (∀ c ∈ blank, isSpaceChar c = true) ∧ ∀ c ∈ body.getLast?, isSpaceChar c = false) ∧
    (uploadRequest env authToken req pieces = .doubleFree ↔
      req.Authorized env.heap authToken ∧ ∃ name, env.Uploads req pieces name ∧
        env.output name pieces ≠ [] ∧
        ∀ c ∈ env.output name pieces, isSpaceChar c = true) := by
  constructor
  · intro body
    rw [request_iff hpieces (show UploadAnswer.Done (.response ⟨200, body⟩) from rfl)]
    refine and_congr_right fun _ => exists_congr fun name => ?_
    rw [finish_iff (show UploadAnswer.Done (.response ⟨200, body⟩) from rfl)]
    constructor
    · rintro ⟨hmethod, hurl, hspawns, htakes, hcloses, hreads, hfits, hstatus, -, hanswer⟩
      refine ⟨⟨hmethod, hurl, hspawns, htakes, hcloses, hreads, hstatus, hfits⟩, ?_⟩
      split at hanswer
      · exact absurd hanswer (by simp)
      · rename_i hne
        obtain rfl : trimEnd _ = body :=
          congrArg HttpResponse.body (UploadAnswer.response.inj hanswer)
        exact ⟨hne, (trimEnd_eq_iff hne).mp rfl⟩
    · rintro ⟨⟨hmethod, hurl, hspawns, htakes, hcloses, hreads, hstatus, hfits⟩, hne, hprints⟩
      have htrim := (trimEnd_eq_iff hne).mpr hprints
      obtain ⟨blank, hsome, -, -⟩ := hprints
      refine ⟨hmethod, hurl, hspawns, htakes, hcloses, hreads, hfits, hstatus, ?_, ?_⟩
      · intro hnone
        have hempty : env.output name pieces = [] := bytesText_eq_nil.mpr hnone
        rw [hsome] at hempty
        exact List.append_ne_nil_of_left_ne_nil hne _ hempty
      · have htrim' : trimEnd (bytesText (env.prints (evrCliArgv name) pieces.flatten)) = body :=
          htrim
        dsimp only
        rw [htrim', if_neg hne]
  · rw [request_iff hpieces (show UploadAnswer.Done .doubleFree from trivial)]
    refine and_congr_right fun _ => exists_congr fun name => ?_
    rw [finish_iff (show UploadAnswer.Done .doubleFree from trivial)]
    constructor
    · rintro ⟨hmethod, hurl, hspawns, htakes, hcloses, hreads, hfits, hstatus, hprints, hanswer⟩
      refine ⟨⟨hmethod, hurl, hspawns, htakes, hcloses, hreads, hstatus, hfits⟩,
        fun hempty => hprints (bytesText_eq_nil.mp hempty), ?_⟩
      split at hanswer
      · rename_i hblank
        exact List.rdropWhile_eq_nil_iff.mp hblank
      · exact absurd hanswer (by simp)
    · rintro ⟨⟨hmethod, hurl, hspawns, htakes, hcloses, hreads, hstatus, hfits⟩, hprints, hblank⟩
      exact ⟨hmethod, hurl, hspawns, htakes, hcloses, hreads, hfits, hstatus,
        fun hempty => hprints (bytesText_eq_nil.mpr hempty),
        if_pos (List.rdropWhile_eq_nil_iff.mpr hblank)⟩

/-- A command that takes everything and prints a line. -/
def printingLine : UploadEnv where
  spawns := fun _ => true
  takes := fun _ _ => true
  closes := true
  reads := true
  prints := fun _ _ => [0x72, 0x65, 0x66, 0x0a]
  chunks := [3]
  status := fun _ _ => 0
  heap := Vector.replicate _ 0
  pageSize := 4096
  pageSize_ge := Nat.le_refl _

/-- A request with the token of which all bytes are zero. -/
def postRequest : HttpRequest where
  headers := [("Authorization".toList, httpdBearer ++ fmtAuthToken (Vector.replicate _ 0))]
  method := "POST".toList
  url := "/files/a".toList
  q := none

theorem upload_answers_line :
    (∀ p ∈ [[(0x68 : UInt8)]], p ≠ []) ∧
    uploadRequest printingLine (Vector.replicate _ 0) postRequest [[0x68]] =
      .response ⟨200, "ref".toList⟩ := by
  have hpieces : ∀ p ∈ [[(0x68 : UInt8)]], p ≠ [] := by decide
  refine ⟨hpieces, ((upload_answers _ _ _ _ hpieces).1 _).mpr ⟨?_, "a".toList, ?_, by decide, ?_⟩⟩
  · exact ⟨_, List.mem_singleton_self _, RefTextLemmas.parseAuthTokenInto_fmtAuthToken _ _⟩
  · exact ⟨rfl, rfl, rfl, fun _ _ _ => rfl, rfl, rfl, rfl, by decide⟩
  · refine ⟨['\n'], rfl, List.all_eq_true.mp (by decide), ?_⟩
    intro c hc
    obtain rfl : 'f' = c := Option.some.inj hc
    decide

end Everarch
