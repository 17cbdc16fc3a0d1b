import Everarch.AttrIndex.Gate
import Everarch.RefTexts

/-!
# Credentials

The tokens and certificates that a client is started with, auth.c and evr-tls.c, how the client picks
those of a server, and how the two servers check the token.

* `CredentialLemmas.findCfg_iff`: of the entries for a server the last one is found.
* `CredentialLemmas.parseOptions_chains`: what the options leave behind.

Results: `credentials_meet`.
-/

namespace Everarch

/-! ## Entries for servers -/

/-- `struct evr_auth_token_cfg` with a token and `struct evr_cert_cfg` with a path. -/
structure ServerCfg where
  host : Bytes
  port : Bytes
  value : Bytes
deriving DecidableEq

/-- The loop of `evr_find_auth_token` and `evr_find_cert`. -/
def findCfg (host port : Bytes) : List ServerCfg → Option Bytes
  | [] => none
  | cfg :: next =>
    if port ≠ cfg.port then findCfg host port next
    else if host ≠ cfg.host then findCfg host port next
    else some cfg.value

/-- `evr_find_auth_token`. -/
def findAuthToken (chain : List ServerCfg) (host port : Bytes) : Option Bytes :=
  findCfg host port chain

/-- `evr_find_cert`. -/
def findCert (chain : List ServerCfg) (host port : Bytes) : Option Bytes :=
  findCfg host port chain

/-- `evr_push_auth_token`. -/
def pushAuthToken (chain : List ServerCfg) (host port tokenStr : Bytes) : Option (List ServerCfg) :=
  match parseAuthToken tokenStr with
  | none => none
  | some token => some (⟨host, port, token⟩ :: chain)

/-- `evr_push_cert`. -/
def pushCert (chain : List ServerCfg) (host port certPath : Bytes) : List ServerCfg :=
  ⟨host, port, certPath⟩ :: chain

/-- What stands between the fragments of an option. -/
def colon : UInt8 := 0x3a

/-- `evr_parse_and_push_auth_token`. -/
def parseAndPushAuthToken (chain : List ServerCfg) (tokenSpec : Bytes) : Option (List ServerCfg) :=
  match splitN 3 tokenSpec colon with
  | some [host, port, tokenStr] => pushAuthToken chain host port tokenStr
  | _ => none

/-- `evr_parse_and_push_cert`. -/
def parseAndPushCert (chain : List ServerCfg) (certSpec : Bytes) : Option (List ServerCfg) :=
  match splitN 3 certSpec colon with
  | some [host, port, certPath] => some (pushCert chain host port certPath)
  | _ => none

/-! ## The client -/

/-- The options of `evr` that give credentials. -/
inductive CredentialOption where
  | authToken (spec : Bytes)
  | sslCert (spec : Bytes)

/-- The credentials of `struct cli_cfg`. -/
structure CliCredentials where
  authTokens : List ServerCfg
  sslCerts : List ServerCfg
deriving DecidableEq

/-- The credentials before any option. -/
def initialCredentials (storagePath indexPath : Bytes) : CliCredentials where
  authTokens := []
  sslCerts := pushCert (pushCert [] (text "localhost") (text "2361") storagePath)
    (text "localhost") (text "2362") indexPath

/-- `parse_opt` for these options. -/
def parseOpt (cfg : CliCredentials) : CredentialOption → Option CliCredentials
  | .authToken spec =>
    (parseAndPushAuthToken cfg.authTokens spec).map fun chain => { cfg with authTokens := chain }
  | .sslCert spec =>
    (parseAndPushCert cfg.sslCerts spec).map fun chain => { cfg with sslCerts := chain }

/-- The options of the configuration files and then those of the command line. -/
def parseOptions (cfg : CliCredentials) : List CredentialOption → Option CliCredentials
  | [] => some cfg
  | opt :: opts =>
    match parseOpt cfg opt with
    | none => none
    | some cfg => parseOptions cfg opts

/-- `evr_auth_type_token`. -/
def authTypeToken : UInt8 := 1

/-- `evr_write_auth_token`. -/
def writeAuthToken (token : Bytes) : Bytes :=
  authTypeToken :: token

/-- `evr_fmt_auth_token` as bytes. -/
def tokenDigits (token : Bytes) : Bytes :=
  (token.flatMap fmtHexByte).map fun c => UInt8.ofNat c.toNat

/-- What `evr_attri_write_auth_token` writes before the end of the line. -/
def attriAuthLine (token : Bytes) : Bytes :=
  text "a token " ++ tokenDigits token

/-- `evr_connect_to_storage` and `evr_connect_to_index` up to what they write. `tls` is whether a
server shows a certificate that is verified with the one at the path. -/
def connectWith (write : Bytes → Bytes) (tls : Bytes → Bytes → Bytes → Bool) (cfg : CliCredentials)
    (host port : Bytes) : Option Bytes :=
  match findAuthToken cfg.authTokens host port with
  | none => none
  | some token =>
    match findCert cfg.sslCerts host port with
    | none => none
    | some certPath => if tls host port certPath then some (write token) else none

/-- `evr_connect_to_storage`. -/
def connectToStorage (tls : Bytes → Bytes → Bytes → Bool) (cfg : CliCredentials)
    (host port : Bytes) : Option Bytes :=
  connectWith writeAuthToken tls cfg host port

/-- `evr_connect_to_index`. -/
def connectToIndex (tls : Bytes → Bytes → Bytes → Bool) (cfg : CliCredentials)
    (host port : Bytes) : Option Bytes :=
  connectWith (fun token => attriAuthLine token ++ text "\n") tls cfg host port

/-! ## The storage server -/

/-- `evr_authenticate_client` of the storage server on the bytes that arrived, with the bytes behind
those it reads. None while it waits for more of them. -/
def authenticateClient (authToken received : Bytes) (ended : Bool) : Option Res × Bytes :=
  if received.length < 1 + authTokenSize then (if ended then some .error else none, [])
  else if received.getD 0 0 ≠ authTypeToken then
    (some .userDataInvalid, received.drop (1 + authTokenSize))
  else if authToken ≠ (received.drop 1).take authTokenSize then
    (some .userDataInvalid, received.drop (1 + authTokenSize))
  else (some .ok, received.drop (1 + authTokenSize))

/-! ## What the options say -/

/-- The entry of an option that gives a token. -/
def CredentialOption.token? : CredentialOption → Option ServerCfg
  | .authToken spec =>
    match spec.splitOn colon with
    | [host, port, tokenStr] => (parseAuthToken tokenStr).map fun token => ⟨host, port, token⟩
    | _ => none
  | .sslCert _ => none

/-- The entry of an option that gives a certificate. -/
def CredentialOption.cert? : CredentialOption → Option ServerCfg
  | .authToken _ => none
  | .sslCert spec =>
    match spec.splitOn colon with
    | [host, port, certPath] => some ⟨host, port, certPath⟩
    | _ => none

/-- The certificates without any option. -/
def defaultCerts (storagePath indexPath : Bytes) : List ServerCfg :=
  [⟨text "localhost", text "2361", storagePath⟩, ⟨text "localhost", text "2362", indexPath⟩]

/-- The last entry for a server. -/
def LastFor (entries : List ServerCfg) (host port value : Bytes) : Prop :=
  ∃ before after, entries = before ++ ⟨host, port, value⟩ :: after ∧
    ∀ e ∈ after, ¬ (e.host = host ∧ e.port = port)

namespace CredentialLemmas

open GateLemmas RefTextLemmas

variable {host port value token : Bytes} {entries : List ServerCfg} {cfg cfg' : CliCredentials}
  {opts : List CredentialOption}

theorem findCfg_eq_some_iff :
    findCfg host port entries = some value ↔ ∃ newer older,
      entries = newer ++ ⟨host, port, value⟩ :: older ∧
        ∀ e ∈ newer, ¬ (e.host = host ∧ e.port = port) := by
  induction entries with
  | nil => simp [findCfg]
  | cons e rest ih =>
    -- An entry for another server is one of those before the one that is found.
    have hskip : ¬ (e.host = host ∧ e.port = port) →
        (findCfg host port rest = some value ↔ ∃ newer older,
          e :: rest = newer ++ ⟨host, port, value⟩ :: older ∧
            ∀ e ∈ newer, ¬ (e.host = host ∧ e.port = port)) := by
      intro hother
      rw [ih]
      constructor
      · rintro ⟨newer, older, rfl, hnewer⟩
        refine ⟨e :: newer, older, rfl, fun e' he' => ?_⟩
        rcases List.mem_cons.mp he' with rfl | he'
        · exact hother
        · exact hnewer e' he'
      · rintro ⟨newer, older, hsplit, hnewer⟩
        cases newer with
        | nil =>
          obtain ⟨rfl, -⟩ := List.cons.inj hsplit
          exact absurd ⟨rfl, rfl⟩ hother
        | cons e' newer =>
          obtain ⟨-, hrest⟩ := List.cons.inj hsplit
          exact ⟨newer, older, hrest, fun e he => hnewer e (List.mem_cons_of_mem _ he)⟩
    unfold findCfg
    split
    · rename_i hport
      exact hskip fun h => hport h.2.symm
    · rename_i hport
      split
      · rename_i hhost
        exact hskip fun h => hhost h.1.symm
      · rename_i hhost
        obtain ⟨ehost, eport, evalue⟩ := e
        obtain rfl : host = ehost := not_not.mp hhost
        obtain rfl : port = eport := not_not.mp hport
        constructor
        · intro h
          obtain rfl := Option.some.inj h
          exact ⟨[], rest, rfl, fun e he => absurd he List.not_mem_nil⟩
        · rintro ⟨newer, older, hsplit, hnewer⟩
          cases newer with
          | nil =>
            obtain ⟨heq, -⟩ := List.cons.inj hsplit
            exact congrArg (fun e => some (ServerCfg.value e)) heq
          | cons e' newer =>
            obtain ⟨rfl, -⟩ := List.cons.inj hsplit
            exact absurd ⟨rfl, rfl⟩ (hnewer _ List.mem_cons_self)

/-- The newest entry is the first one of a chain. -/
theorem findCfg_iff : findCfg host port entries.reverse = some value ↔
    LastFor entries host port value := by
  rw [findCfg_eq_some_iff]
  constructor
  · rintro ⟨newer, older, hrev, hnewer⟩
    refine ⟨older.reverse, newer.reverse, ?_, fun e he => hnewer e (List.mem_reverse.mp he)⟩
    rw [← List.reverse_reverse entries, hrev]
    simp
  · rintro ⟨before, after, rfl, hafter⟩
    refine ⟨after.reverse, before.reverse, by simp, fun e he => hafter e (List.mem_reverse.mp he)⟩

/-- Three fragments, or none. -/
theorem splitN_three (s : Bytes) :
    splitN 3 s colon = if (s.splitOn colon).length = 3 then some (s.splitOn colon) else none := by
  unfold splitN
  by_cases hlen : (s.splitOn colon).length = 3
  · rw [if_pos hlen, if_neg (by simp [hlen])]
  · rw [if_neg hlen, if_pos (.inr hlen)]

theorem parseAndPushAuthToken_eq {chain : List ServerCfg} {spec : Bytes} :
    parseAndPushAuthToken chain spec =
      (CredentialOption.token? (.authToken spec)).map (· :: chain) := by
  rw [parseAndPushAuthToken, splitN_three, CredentialOption.token?]
  match spec.splitOn colon with
  | [] => rfl
  | [_] => rfl
  | [_, _] => rfl
  | [host, port, tokenStr] =>
    rw [if_pos (show [host, port, tokenStr].length = 3 from rfl)]
    dsimp only
    rw [pushAuthToken]
    cases parseAuthToken tokenStr with
    | none => rfl
    | some token => rfl
  | _ :: _ :: _ :: _ :: _ => simp

theorem parseAndPushCert_eq {chain : List ServerCfg} {spec : Bytes} :
    parseAndPushCert chain spec = (CredentialOption.cert? (.sslCert spec)).map (· :: chain) := by
  rw [parseAndPushCert, splitN_three, CredentialOption.cert?]
  match spec.splitOn colon with
  | [] => rfl
  | [_] => rfl
  | [_, _] => rfl
  | [_, _, _] => rfl
  | _ :: _ :: _ :: _ :: _ => simp

/-- Every option leaves its entry in front of those before it. -/
theorem parseOptions_chains (h : parseOptions cfg opts = some cfg') :
    cfg'.authTokens = (opts.filterMap CredentialOption.token?).reverse ++ cfg.authTokens ∧
      cfg'.sslCerts = (opts.filterMap CredentialOption.cert?).reverse ++ cfg.sslCerts := by
  induction opts generalizing cfg with
  | nil =>
    obtain rfl := Option.some.inj h
    exact ⟨rfl, rfl⟩
  | cons opt opts ih =>
    rw [parseOptions] at h
    cases hopt : parseOpt cfg opt with
    | none =>
      rw [hopt] at h
      cases h
    | some next =>
      rw [hopt] at h
      obtain ⟨htokens, hcerts⟩ := ih h
      rw [htokens, hcerts]
      cases opt with
      | authToken spec =>
        rw [parseOpt, parseAndPushAuthToken_eq] at hopt
        cases htoken : CredentialOption.token? (.authToken spec) with
        | none =>
          rw [htoken] at hopt
          cases hopt
        | some e =>
          rw [htoken] at hopt
          obtain rfl := Option.some.inj hopt
          rw [List.filterMap_cons_some htoken,
            List.filterMap_cons_none (show CredentialOption.cert? (.authToken spec) = none from rfl)]
          simp
      | sslCert spec =>
        rw [parseOpt, parseAndPushCert_eq] at hopt
        cases hcert : CredentialOption.cert? (.sslCert spec) with
        | none =>
          rw [hcert] at hopt
          cases hopt
        | some e =>
          rw [hcert] at hopt
          obtain rfl := Option.some.inj hopt
          rw [List.filterMap_cons_some hcert,
            List.filterMap_cons_none (show CredentialOption.token? (.sslCert spec) = none from rfl)]
          simp

theorem length_of_parseAuthToken {s : Bytes} (h : parseAuthToken s = some token) :
    token.length = authTokenSize := by
  rw [parseAuthToken_eq (Vector.replicate _ 0)] at h
  split at h
  · obtain rfl := Option.some.inj h
    exact Vector.length_toList
  · cases h

/-- Every token that an option gives is as long as tokens are. -/
theorem length_of_lastFor
    (h : LastFor (opts.filterMap CredentialOption.token?) host port token) :
    token.length = authTokenSize := by
  obtain ⟨before, after, hsplit, -⟩ := h
  have hmem : (⟨host, port, token⟩ : ServerCfg) ∈ opts.filterMap CredentialOption.token? := by
    rw [hsplit]
    exact List.mem_append_right _ List.mem_cons_self
  obtain ⟨opt, -, hopt⟩ := List.mem_filterMap.mp hmem
  cases opt with
  | authToken spec =>
    unfold CredentialOption.token? at hopt
    dsimp only at hopt
    split at hopt
    · obtain ⟨parsed, hparse, heq⟩ := Option.map_eq_some_iff.mp hopt
      obtain rfl : parsed = token := congrArg ServerCfg.value heq
      exact length_of_parseAuthToken hparse
    · cases hopt
  | sslCert spec => cases hopt

/-! ## Both ends -/

theorem connectWith_eq_some_iff {write : Bytes → Bytes} {tls : Bytes → Bytes → Bytes → Bool}
    {sent : Bytes} :
    connectWith write tls cfg host port = some sent ↔
      ∃ token path, findAuthToken cfg.authTokens host port = some token ∧
        findCert cfg.sslCerts host port = some path ∧ tls host port path = true ∧
        write token = sent := by
  unfold connectWith
  cases htoken : findAuthToken cfg.authTokens host port with
  | none => simp
  | some token =>
    cases hcert : findCert cfg.sslCerts host port with
    | none => simp
    | some path =>
      dsimp only
      split
      · rename_i htls
        simp [htls]
      · rename_i htls
        simp [htls]

/-- The storage server takes the bytes of the token and leaves the others. -/
theorem authenticateClient_iff {authToken rest : Bytes} {ended : Bool}
    (hlen : token.length = authTokenSize) :
    authenticateClient authToken (writeAuthToken token ++ rest) ended = (some .ok, rest) ↔
      token = authToken := by
  have hlong : ¬ (writeAuthToken token ++ rest).length < 1 + authTokenSize := by
    rw [List.length_append, writeAuthToken, List.length_cons, hlen]
    omega
  have htake : ((writeAuthToken token ++ rest).drop 1).take authTokenSize = token := by
    rw [← hlen]
    exact List.take_left
  have hdrop : (writeAuthToken token ++ rest).drop (1 + authTokenSize) = rest := by
    rw [← hlen, Nat.add_comm]
    exact List.drop_left
  have htype : (writeAuthToken token ++ rest).getD 0 0 = authTypeToken := rfl
  rw [authenticateClient, if_neg hlong, htype, if_neg (not_not.mpr rfl), htake, hdrop]
  split
  · rename_i hne
    exact iff_of_false (by simp) fun h => hne h.symm
  · rename_i heq
    exact iff_of_true rfl (not_not.mp heq).symm

theorem toNat_of_mem_digits {c : Char} (h : c ∈ token.flatMap fmtHexByte) :
    0x21 ≤ c.toNat ∧ c.toNat < 0x80 := by
  obtain ⟨b, -, hc⟩ := List.mem_flatMap.mp h
  have hdigit : ∀ n, 0x21 ≤ (fmtHexDigit n).toNat ∧ (fmtHexDigit n).toNat < 0x80 := by
    intro n
    have h : ∀ m : Fin 16, 0x21 ≤ (fmtHexDigit m).toNat ∧ (fmtHexDigit m).toNat < 0x80 := by
      decide +kernel
    have hn := h ⟨n % 16, Nat.mod_lt _ (by decide)⟩
    rwa [show fmtHexDigit (n % 16) = fmtHexDigit n by
      unfold fmtHexDigit
      rw [Nat.mod_mod]] at hn
  simp only [fmtHexByte, List.mem_cons, List.not_mem_nil, or_false] at hc
  rcases hc with rfl | rfl
  · exact hdigit _
  · exact hdigit _

/-- No digit is a space, the end of a line or the end of a text. -/
theorem digit_ne {b : UInt8} (h : b ∈ tokenDigits token) : 0x21 ≤ b.toNat := by
  obtain ⟨c, hc, rfl⟩ := List.mem_map.mp h
  obtain ⟨hlow, hhigh⟩ := toNat_of_mem_digits hc
  rwa [UInt8.toNat_ofNat_of_lt' (Nat.lt_trans hhigh (by decide))]

theorem bytesText_tokenDigits : bytesText (tokenDigits token) = token.flatMap fmtHexByte := by
  rw [bytesText, tokenDigits, List.map_map]
  refine (List.map_congr_left fun c hc => ?_).trans (List.map_id _)
  have hlt : c.toNat < UInt8.size :=
    Nat.lt_trans (toNat_of_mem_digits hc).2 (by decide)
  rw [Function.comp_apply, UInt8.toNat_ofNat_of_lt' hlt, Char.ofNat_toNat]
  rfl

theorem parseAuthToken_tokenDigits (hlen : token.length = authTokenSize) :
    parseAuthToken (tokenDigits token) = some token := by
  have hvec : (⟨token.toArray, hlen⟩ : AuthToken).toList = token := rfl
  have hparse := parseAuthTokenInto_fmtAuthToken (Vector.replicate _ 0) ⟨token.toArray, hlen⟩
  rw [fmtAuthToken, hvec] at hparse
  rw [parseAuthToken_eq (Vector.replicate _ 0), bytesText_tokenDigits, hparse, if_pos rfl, hvec]

theorem cString_attriAuthLine : cString (attriAuthLine token) = attriAuthLine token := by
  refine List.takeWhile_eq_self_iff.mpr fun b hb => ?_
  rcases List.mem_append.mp hb with hb | hb
  · have hprefix : ∀ b ∈ text "a token ", decide (b ≠ 0) = true := by decide +kernel
    exact hprefix b hb
  · refine decide_eq_true fun hzero => ?_
    have hlow := digit_ne hb
    rw [hzero] at hlow
    exact absurd hlow (by decide)

theorem newline_not_mem_attriAuthLine : (0x0a : UInt8) ∉ attriAuthLine token := by
  intro hb
  rcases List.mem_append.mp hb with hb | hb
  · exact absurd hb (by decide)
  · exact absurd (digit_ne hb) (by decide)

theorem authLine_attriAuthLine_iff {authToken : Bytes} (hlen : token.length = authTokenSize) :
    AuthLine authToken (attriAuthLine token) ↔ token = authToken := by
  constructor
  · rintro ⟨tokenStr, hline, -, hparse⟩
    rw [cString_attriAuthLine] at hline
    obtain rfl : tokenDigits token = tokenStr := List.append_cancel_left hline
    rw [parseAuthToken_tokenDigits hlen] at hparse
    exact Option.some.inj hparse
  · rintro rfl
    refine ⟨tokenDigits token, cString_attriAuthLine, fun hb => ?_, parseAuthToken_tokenDigits hlen⟩
    exact absurd (digit_ne hb) (by decide)

theorem workCmd_authenticated_iff {Ix : Type} {server : IndexServer Ix} {ix : Ix} {writable : Bool}
    {line : Bytes} :
    (workCmd server ix [] false writable line).authenticated = true ↔
      AuthLine server.authToken line := by
  by_cases hline : AuthLine server.authToken line
  · rw [workCmd_authLine hline]
    exact iff_of_true rfl hline
  · have hrefused := (@workCmd_unauthenticated _ _ _ ix ix [] writable hline).2.2
    rw [hrefused]
    exact iff_of_false Bool.false_ne_true hline

end CredentialLemmas

open CredentialLemmas in
/-- A client is let in by a server if and only if the last token it was given for the server is the
one of the server, and the last certificate is one that the server is verified with. -/
theorem credentials_meet {opts : List CredentialOption} {cfg : CliCredentials}
    {storagePath indexPath : Bytes}
    (hopts : parseOptions (initialCredentials storagePath indexPath) opts = some cfg)
    (tls : Bytes → Bytes → Bytes → Bool) (host port : Bytes) :
    let tokens := opts.filterMap CredentialOption.token?
    let certs := defaultCerts storagePath indexPath ++ opts.filterMap CredentialOption.cert?
    (∀ authToken rest ended,
      (∃ sent, connectToStorage tls cfg host port = some sent ∧
        authenticateClient authToken (sent ++ rest) ended = (some .ok, rest)) ↔
      LastFor tokens host port authToken ∧ ∃ path, LastFor certs host port path ∧
        tls host port path = true) ∧
    (∀ (Ix : Type) (server : IndexServer Ix) (ix : Ix) (writable : Bool),
      (∃ line, connectToIndex tls cfg host port = some (line ++ text "\n") ∧
        (0x0a : UInt8) ∉ line ∧
        (workCmd server ix [] false writable line).authenticated = true) ↔
      LastFor tokens host port server.authToken ∧ ∃ path, LastFor certs host port path ∧
        tls host port path = true) := by
  intro tokens certs
  obtain ⟨htokens, hcerts⟩ := parseOptions_chains hopts
  have htoken : ∀ token, findAuthToken cfg.authTokens host port = some token ↔
      LastFor tokens host port token := fun token => by
    rw [htokens, show (initialCredentials storagePath indexPath).authTokens = [] from rfl,
      List.append_nil]
    exact findCfg_iff
  have hcert : ∀ path, findCert cfg.sslCerts host port = some path ↔
      LastFor certs host port path := fun path => by
    rw [hcerts, show (initialCredentials storagePath indexPath).sslCerts =
      (defaultCerts storagePath indexPath).reverse from rfl, ← List.reverse_append]
    exact findCfg_iff
  constructor
  · intro authToken rest ended
    constructor
    · rintro ⟨sent, hsent, haccepted⟩
      obtain ⟨token, path, hfound, hpath, htls, rfl⟩ := connectWith_eq_some_iff.mp hsent
      have hlast := (htoken token).mp hfound
      obtain rfl := (authenticateClient_iff (length_of_lastFor hlast)).mp haccepted
      exact ⟨hlast, path, (hcert path).mp hpath, htls⟩
    · rintro ⟨hlast, path, hpath, htls⟩
      exact ⟨writeAuthToken authToken,
        connectWith_eq_some_iff.mpr
          ⟨authToken, path, (htoken _).mpr hlast, (hcert path).mpr hpath, htls, rfl⟩,
        (authenticateClient_iff (length_of_lastFor hlast)).mpr rfl⟩
  · intro Ix server ix writable
    constructor
    · rintro ⟨line, hsent, -, haccepted⟩
      obtain ⟨token, path, hfound, hpath, htls, hwrite⟩ := connectWith_eq_some_iff.mp hsent
      have hlast := (htoken token).mp hfound
      obtain rfl := List.append_cancel_right hwrite
      have hline := workCmd_authenticated_iff.mp haccepted
      obtain rfl := (authLine_attriAuthLine_iff (length_of_lastFor hlast)).mp hline
      exact ⟨hlast, path, (hcert path).mp hpath, htls⟩
    · rintro ⟨hlast, path, hpath, htls⟩
      have hline := (authLine_attriAuthLine_iff (length_of_lastFor hlast)).mpr rfl
      exact ⟨attriAuthLine server.authToken,
        connectWith_eq_some_iff.mpr
          ⟨server.authToken, path, (htoken _).mpr hlast, (hcert path).mpr hpath, htls, rfl⟩,
        newline_not_mem_attriAuthLine, workCmd_authenticated_iff.mpr hline⟩

/-- A token of which all bytes are zero, for the storage server. -/
def zeroTokenOptions : List CredentialOption :=
  [.authToken (text "localhost:2361:" ++ tokenDigits (List.replicate 32 0))]

theorem credentials_meet_zero :
    parseOptions (initialCredentials [] []) zeroTokenOptions =
      some ⟨[⟨text "localhost", text "2361", List.replicate 32 0⟩],
        (defaultCerts [] []).reverse⟩ ∧
    ∃ sent, connectToStorage (fun _ _ _ => true)
        ⟨[⟨text "localhost", text "2361", List.replicate 32 0⟩], (defaultCerts [] []).reverse⟩
        (text "localhost") (text "2361") = some sent ∧
      authenticateClient (List.replicate 32 0) (sent ++ [0x01]) true = (some .ok, [0x01]) := by
  have hopts : parseOptions (initialCredentials [] []) zeroTokenOptions =
      some ⟨[⟨text "localhost", text "2361", List.replicate 32 0⟩],
        (defaultCerts [] []).reverse⟩ := by
    decide +kernel
  refine ⟨hopts, ((credentials_meet hopts (fun _ _ _ => true) _ _).1 _ _ _).mpr ⟨?_, [], ?_, rfl⟩⟩
  · exact ⟨[], [], by decide +kernel, fun e he => absurd he List.not_mem_nil⟩
  · refine ⟨[], [⟨text "localhost", text "2362", []⟩], by decide +kernel, ?_⟩
    decide

end Everarch
