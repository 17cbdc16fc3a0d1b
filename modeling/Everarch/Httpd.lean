import Everarch.RefTexts

/-!
# HTTP requests and who may make them

httpd.c. A request passes with the token of the server in some header.

* `HttpdLemmas.checkAuthentication_of_authorized`, `HttpdLemmas.checkAuthentication_of_unauthorized`:
  the two outcomes of the check.
-/

namespace Everarch

structure HttpRequest where
  headers : List (List Char × List Char)
  method : List Char
  url : List Char
  /-- The value of the argument `q`. -/
  q : Option (List Char)

structure HttpResponse where
  status : Nat
  body : List Char
deriving DecidableEq

/-- `evr_httpd_bearer`. -/
def httpdBearer : List Char := "Bearer AT".toList

/-- `evr_httpd_check_authentication` with `evr_httpd_authentication_header_it`, which reads a token
into the memory `heap`. -/
def httpdCheckAuthentication (heap authToken : AuthToken) : List (List Char × List Char) → Res
  | [] => .userDataInvalid
  | (key, value) :: rest =>
    if key ≠ "Authorization".toList then httpdCheckAuthentication heap authToken rest
    else if ¬ httpdBearer <+: value then httpdCheckAuthentication heap authToken rest
    else
      match parseAuthTokenInto heap (value.drop httpdBearer.length) with
      | (.ok, token) =>
        if authToken ≠ token then httpdCheckAuthentication heap authToken rest else .ok
      | _ => httpdCheckAuthentication heap authToken rest

def httpdUnauthorized : HttpResponse :=
  ⟨401, "No Bearer Authorization header with valid auth-token provided".toList⟩

def httpdNotFound : HttpResponse := ⟨404, "Endpoint not found".toList⟩

def httpdServerError : HttpResponse := ⟨500, "Internal server error".toList⟩

/-- The header that lets a request pass. -/
def HttpRequest.Authorized (heap authToken : AuthToken) (req : HttpRequest) : Prop :=
  ∃ tokenStr, ("Authorization".toList, httpdBearer ++ tokenStr) ∈ req.headers ∧
    parseAuthTokenInto heap tokenStr = (.ok, authToken)

namespace HttpdLemmas

variable {heap authToken : AuthToken}

@[simp] theorem httpdUnauthorized_status : httpdUnauthorized.status = 401 := rfl

@[simp] theorem httpdNotFound_status : httpdNotFound.status = 404 := rfl

@[simp] theorem httpdServerError_status : httpdServerError.status = 500 := rfl

theorem checkAuthentication_ok_iff {headers : List (List Char × List Char)} :
    httpdCheckAuthentication heap authToken headers = .ok ↔
      ∃ tokenStr, ("Authorization".toList, httpdBearer ++ tokenStr) ∈ headers ∧
        parseAuthTokenInto heap tokenStr = (.ok, authToken) := by
  induction headers with
  | nil => simp [httpdCheckAuthentication]
  | cons header rest ih =>
    obtain ⟨key, value⟩ := header
    -- A header that is passed over is not the one.
    have hpass : (∀ tokenStr, (key, value) = ("Authorization".toList, httpdBearer ++ tokenStr) →
        parseAuthTokenInto heap tokenStr ≠ (.ok, authToken)) →
        (httpdCheckAuthentication heap authToken rest = .ok ↔ ∃ tokenStr,
          ("Authorization".toList, httpdBearer ++ tokenStr) ∈ (key, value) :: rest ∧
            parseAuthTokenInto heap tokenStr = (.ok, authToken)) := by
      intro hnot
      rw [ih]
      constructor
      · rintro ⟨tokenStr, hmem, hparse⟩
        exact ⟨tokenStr, List.mem_cons_of_mem _ hmem, hparse⟩
      · rintro ⟨tokenStr, hmem, hparse⟩
        rcases List.mem_cons.mp hmem with heq | hmem
        · exact absurd hparse (hnot tokenStr heq.symm)
        · exact ⟨tokenStr, hmem, hparse⟩
    unfold httpdCheckAuthentication
    split
    · rename_i hkey
      exact hpass fun tokenStr heq => absurd (congrArg Prod.fst heq) hkey
    · rename_i hkey
      split
      · rename_i hbearer
        refine hpass fun tokenStr heq => absurd ?_ hbearer
        have hvalue : value = httpdBearer ++ tokenStr := congrArg Prod.snd heq
        rw [hvalue]
        exact List.prefix_append _ _
      · rename_i hbearer
        obtain ⟨text, rfl⟩ := not_not.mp hbearer
        obtain rfl := not_not.mp hkey
        rw [List.drop_left]
        have hsame : ∀ {tokenStr},
            (("Authorization".toList, httpdBearer ++ text) : List Char × List Char) =
              ("Authorization".toList, httpdBearer ++ tokenStr) → text = tokenStr := fun heq =>
          List.append_cancel_left (congrArg Prod.snd heq)
        split
        · rename_i token hparse
          split
          · rename_i hne
            refine hpass fun tokenStr heq hparse' => hne ?_
            rw [← hsame heq, hparse] at hparse'
            exact (congrArg Prod.snd hparse').symm
          · rename_i heq
            obtain rfl := not_not.mp heq
            exact iff_of_true rfl ⟨text, List.mem_cons_self, hparse⟩
        · rename_i hnone
          refine hpass fun tokenStr heq hparse' => ?_
          rw [← hsame heq] at hparse'
          exact hnone _ hparse'

theorem checkAuthentication_cases (headers : List (List Char × List Char)) :
    httpdCheckAuthentication heap authToken headers = .ok ∨
      httpdCheckAuthentication heap authToken headers = .userDataInvalid := by
  induction headers with
  | nil => exact .inr rfl
  | cons header rest ih =>
    obtain ⟨key, value⟩ := header
    unfold httpdCheckAuthentication
    split
    · exact ih
    · split
      · exact ih
      · split
        · split
          · exact ih
          · exact .inl rfl
        · exact ih

variable {req : HttpRequest}

theorem checkAuthentication_of_authorized (h : req.Authorized heap authToken) :
    httpdCheckAuthentication heap authToken req.headers = .ok :=
  checkAuthentication_ok_iff.mpr h

theorem checkAuthentication_of_unauthorized (h : ¬ req.Authorized heap authToken) :
    httpdCheckAuthentication heap authToken req.headers = .userDataInvalid :=
  (checkAuthentication_cases req.headers).resolve_left fun hok =>
    h (checkAuthentication_ok_iff.mp hok)

end HttpdLemmas

end Everarch
