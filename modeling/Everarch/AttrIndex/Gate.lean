import Everarch.Keys
import Everarch.Lib.Bytes
import Everarch.Lib.Run
import Mathlib.Data.List.Basic
import Mathlib.Data.List.TakeWhile

/-!
# The commands of evr-attr-index

A connection of evr-attr-index takes one command a line. The commands that look at the index need an
authenticated connection.

* `IndexConn.scan`: the loop of `evr_connection_worker` over the bytes that it has read.
* `workCmd`: `evr_work_cmd`, with the four commands that look at the index as a parameter.
* `opening`: the lines up to the first one that authenticates, each with its answer.

Result: `index_gate`.
-/

namespace Everarch

/-! ## Texts -/

/-- The bytes of a text in ASCII. -/
def text (s : String) : Bytes :=
  s.toList.map fun c => UInt8.ofNat c.toNat

/-- The space between a command and its arguments. -/
def space : UInt8 := 0x20

/-- `evr_split_n`. -/
def splitN (fragmentsLen : Nat) (s : Bytes) (sep : UInt8) : Option (List Bytes) :=
  if fragmentsLen = 0 ∨ (s.splitOn sep).length ≠ fragmentsLen then none else some (s.splitOn sep)

/-- `sizeof(evr_auth_token)`. -/
def authTokenSize : Nat := 32

/-- `evr_parse_auth_token`. -/
def parseAuthToken (s : Bytes) : Option Bytes :=
  if s.length ≠ 2 * authTokenSize then none
  else
    (List.range authTokenSize).mapM fun i =>
      let buf := [s.getD (2 * i) 0, s.getD (2 * i + 1) 0]
      (sscanfHex 2 (buf.map fun b => Char.ofNat b.toNat)).map UInt8.ofNat

/-! ## Commands -/

/-- The commands that look at the index. -/
inductive IndexCmd where
  /-- `evr_work_search_cmd` -/
  | search
  /-- `evr_list_claims_for_seed` -/
  | listClaims
  /-- `evr_watch_index` -/
  | watch
  /-- `evr_describe_index` -/
  | describe
deriving DecidableEq

/-- What the process is started with, and what the commands answer. They depend on the index and on
the commands before them, and may crash. -/
structure IndexServer (Ix : Type) where
  authToken : Bytes
  packageString : Bytes
  serve : Ix → List (IndexCmd × Option Bytes) → IndexCmd → Option Bytes → Bytes × Option Res

/-- What comes of a line: the result of `evr_work_cmd`, none if it crashes, the bytes that are sent,
the command that looked at the index, and the new state of the connection. -/
structure Worked where
  res : Option Res
  sent : Bytes
  served : Option (IndexCmd × Option Bytes)
  authenticated : Bool

/-- Writes to the client, all of which fail once it is gone. -/
def respond (writable : Bool) (data : Bytes) : Option Res × Bytes :=
  if writable then (some .ok, data) else (some .error, [])

/-- `evr_respond_status`. -/
def respStatus (ok : Bool) (msg : Option Bytes) : Bytes :=
  text (if ok then "OK" else "ERROR") ++ (msg.elim [] fun msg => space :: msg) ++ text "\n"

/-- `evr_respond_message_end`. -/
def respMessageEnd : Bytes := text "\n"

/-- `evr_respond_help`. The text is sent with the zero at its end. -/
def respHelp (packageString : Bytes) : Bytes :=
  respStatus true none ++ packageString ++ text "\n" ++
    text "These commands are defined.\n" ++
    text "exit - closes the conneciton\n" ++
    text "help - shows this help message\n" ++
    text "a TOKEN - authenticates with given token.\n" ++
    text "s QUERY - searches for claims matching the given query. Requires authentication.\n" ++
    text "c REF - lists all claims referencing the given seed claim. Requires authentication.\n" ++
    text "w - watch for changes within the index\n" ++
    text "i - describe the currently used index\n" ++ [0] ++ respMessageEnd

/-- `evr_work_authenticate_cmd`. -/
def workAuthenticateCmd (authToken argsStr : Bytes) : Res :=
  match splitN 2 argsStr space with
  | some [method, tokenStr] =>
    if method ≠ text "token" then .error
    else
      match parseAuthToken tokenStr with
      | none => .error
      | some clientToken => if clientToken ≠ authToken then .error else .ok
  | _ => .error

/-- The command of an authenticated connection. -/
def indexCmd? (cmd : Bytes) : Option IndexCmd :=
  if cmd = text "s" then some .search
  else if cmd = text "c" then some .listClaims
  else if cmd = text "w" then some .watch
  else if cmd = text "i" then some .describe
  else none

/-- `evr_work_cmd`. `evr_split_n` is called with a null pointer for an authenticate command without
arguments. -/
def workCmd {Ix : Type} (server : IndexServer Ix) (ix : Ix)
    (served : List (IndexCmd × Option Bytes)) (authenticated writable : Bool) (query : Bytes) :
    Worked :=
  let line := cString query
  let cmd := line.takeWhile fun b => b ≠ space
  let args := if space ∈ line then some (line.drop (cmd.length + 1)) else none
  if cmd = text "a" then
    match args with
    | none => ⟨none, [], none, authenticated⟩
    | some args =>
      let res := workAuthenticateCmd server.authToken args
      ⟨some res, [], none, authenticated || res = .ok⟩
  else
    match if authenticated then indexCmd? cmd else none with
    | some k =>
      let (data, res) := server.serve ix served k args
      if writable then ⟨res, data, some (k, args), authenticated⟩
      else ⟨some .error, [], some (k, args), authenticated⟩
    | none =>
      if cmd = text "exit" then ⟨some .end_, [], none, authenticated⟩
      else if cmd = text "?" ∨ cmd = text "help" then
        let (res, sent) := respond writable (respHelp server.packageString)
        ⟨res, sent, none, authenticated⟩
      else
        let (res, sent) := respond writable
          (respStatus false (some (text "No such command.")) ++ respMessageEnd)
        ⟨res, sent, none, authenticated⟩

/-! ## Connections -/

/-- A line that was worked on. -/
structure WorkedLine where
  line : Bytes
  sent : Bytes
  served : Option (IndexCmd × Option Bytes)

inductive ConnEnd where
  | closed
  | crashed
deriving DecidableEq

/-- `evr_connection_worker` and what the client has sent. The bytes of `query_str` before
`query_scanned` have no newline. -/
structure IndexConn where
  pending : Bytes
  query : Bytes
  authenticated : Bool
  writable : Bool
  log : List WorkedLine
  ended : Option ConnEnd

inductive IndexConnEvent where
  /-- the client sends a chunk -/
  | send (data : Bytes)
  /-- the worker reads, and gets at most one byte more than this -/
  | read (n : Nat)
  /-- the read fails or comes to the end -/
  | hangUp
  /-- the client takes no more bytes -/
  | gone
  /-- the process is asked to stop -/
  | stop

/-- `sizeof(query_str)`. -/
def queryStrSize : Nat := 8 * 1024

namespace IndexConn

variable {Ix : Type} (server : IndexServer Ix) (ix : Ix)

/-- `evr_connection_worker` at its start. -/
def start : IndexConn :=
  ⟨[], [], false, true, [], none⟩

/-- The commands so far that looked at the index. -/
def served (c : IndexConn) : List (IndexCmd × Option Bytes) :=
  c.log.filterMap WorkedLine.served

/-- A newline ends the line in `query_str`. -/
def work (c : IndexConn) : IndexConn :=
  let w := workCmd server ix c.served c.authenticated c.writable c.query
  { c with
    query := []
    authenticated := w.authenticated
    log := c.log ++ [⟨c.query, w.sent, w.served⟩]
    ended := w.res.elim (some .crashed) fun res => if res = .ok then none else some .closed }

/-- The loop over the bytes of a read. What is behind a line is moved to the start of
`query_str`. -/
def scan (c : IndexConn) : Bytes → IndexConn
  | [] => c
  | b :: rest =>
    if c.ended ≠ none then c
    else if b ≠ 0x0a then scan { c with query := c.query ++ [b] } rest
    else scan (c.work server ix) rest

/-- One step of the client or of the worker. -/
def next (c : IndexConn) (e : IndexConnEvent) : IndexConn :=
  if c.ended ≠ none then c
  else
    match e with
    | .send data => { c with pending := c.pending ++ data }
    | .read n =>
      let maxRead := queryStrSize - c.query.length
      if maxRead = 0 then { c with ended := some .closed }
      else
        let bytesRead := min (n + 1) maxRead
        { c with pending := c.pending.drop bytesRead }.scan server ix (c.pending.take bytesRead)
    | .hangUp => { c with ended := some .closed }
    | .gone => { c with writable := false }
    | .stop => { c with ended := some .closed }

end IndexConn

/-! ## Authentication -/

/-- A line `a token T` with the configured token. -/
def AuthLine (authToken line : Bytes) : Prop :=
  ∃ tokenStr, cString line = text "a token " ++ tokenStr ∧ space ∉ tokenStr ∧
    parseAuthToken tokenStr = some authToken

instance (authToken line : Bytes) : Decidable (AuthLine authToken line) :=
  decidable_of_iff (text "a token " <+: cString line ∧ space ∉ (cString line).drop 8 ∧
    parseAuthToken ((cString line).drop 8) = some authToken) <| by
    constructor
    · rintro ⟨⟨tokenStr, htoken⟩, hspace, hparse⟩
      have hdrop : (cString line).drop 8 = tokenStr := by
        rw [← htoken]
        rfl
      rw [hdrop] at hspace hparse
      exact ⟨tokenStr, htoken.symm, hspace, hparse⟩
    · rintro ⟨tokenStr, htoken, hspace, hparse⟩
      have hdrop : (cString line).drop 8 = tokenStr := by
        rw [htoken]
        rfl
      rw [hdrop]
      exact ⟨⟨tokenStr, htoken.symm⟩, hspace, hparse⟩

/-- The lines before the first one with the configured token. -/
def opening (authToken : Bytes) (log : List WorkedLine) : List WorkedLine :=
  log.takeWhile fun w => ¬AuthLine authToken w.line

/-- What is sent before that line. -/
def sentBefore (authToken : Bytes) (log : List WorkedLine) : Bytes :=
  (opening authToken log).flatMap WorkedLine.sent

/-- A line with an authenticate command and its arguments that does not authenticate. -/
def FailedAuth (authToken line : Bytes) : Prop :=
  text "a " <+: line ∧ ¬AuthLine authToken line

namespace GateLemmas

variable {authToken line : Bytes}

theorem text_token_no_space : space ∉ text "token" := by decide

theorem length_splitOn_pos (s : Bytes) (sep : UInt8) : 0 < (s.splitOn sep).length :=
  List.length_pos_iff.mpr (List.splitOn_ne_nil sep s)

/-- Two fragments are what is before and behind the only separator. -/
theorem splitN_two {s method tokenStr : Bytes} {sep : UInt8}
    (h : splitN 2 s sep = some [method, tokenStr]) :
    s = method ++ sep :: tokenStr ∧ sep ∉ tokenStr := by
  have hsplit : s.splitOn sep = [method, tokenStr] := by
    unfold splitN at h
    split at h
    · cases h
    · exact Option.some.inj h
  have hs : s = method ++ sep :: tokenStr := by
    rw [← @List.intercalate_splitOn _ s _ _ sep, hsplit]
    simp [List.intercalate]
  refine ⟨hs, fun hmem => ?_⟩
  obtain ⟨before, after, rfl⟩ := List.append_of_mem hmem
  have hlen := congrArg List.length hsplit
  rw [hs, List.splitOn_append_cons_self, List.splitOn_append_cons_self, List.length_append,
    List.length_append] at hlen
  have hmethod := length_splitOn_pos method sep
  have hbefore := length_splitOn_pos before sep
  have hafter := length_splitOn_pos after sep
  have htwo : [method, before ++ sep :: after].length = 2 := rfl
  omega

/-- The arguments of an authenticate command that succeeds. -/
theorem workAuthenticateCmd_ok_iff {argsStr : Bytes} :
    workAuthenticateCmd authToken argsStr = .ok ↔
      ∃ tokenStr, argsStr = text "token" ++ space :: tokenStr ∧ space ∉ tokenStr ∧
        parseAuthToken tokenStr = some authToken := by
  constructor
  · intro h
    unfold workAuthenticateCmd at h
    split at h
    · next method tokenStr hsplit =>
      split at h
      · cases h
      · next hmethod =>
        split at h
        · cases h
        · next clientToken hparse =>
          split at h
          · cases h
          · next htoken =>
            obtain ⟨hargs, hspace⟩ := splitN_two hsplit
            rw [not_not.mp hmethod] at hargs
            exact ⟨tokenStr, hargs, hspace, hparse.trans (congrArg some (not_not.mp htoken))⟩
    · cases h
  · rintro ⟨tokenStr, rfl, hspace, hparse⟩
    have hsplit : splitN 2 (text "token" ++ space :: tokenStr) space =
        some [text "token", tokenStr] := by
      unfold splitN
      rw [List.splitOn_append_cons_self_of_not_mem text_token_no_space,
        List.splitOn_eq_singleton hspace]
      rfl
    unfold workAuthenticateCmd
    rw [hsplit]
    dsimp only
    rw [if_neg (not_not_intro rfl), hparse]
    exact if_neg (not_not_intro rfl)

/-! ## A line -/

section Line

variable {Ix : Type} {server : IndexServer Ix} {ix ix' : Ix}
  {served : List (IndexCmd × Option Bytes)} {authenticated writable : Bool}

/-- The part of a line that `evr_work_cmd` splits at its first space. -/
theorem takeWhile_auth (argsStr : Bytes) :
    (text "a " ++ argsStr).takeWhile (fun b => b ≠ space) = text "a" := rfl

theorem split_at_space (l : Bytes) (h : space ∈ l) :
    l = l.takeWhile (fun b => b ≠ space) ++
      space :: l.drop ((l.takeWhile fun b => b ≠ space).length + 1) := by
  induction l with
  | nil => cases h
  | cons b l ih =>
    by_cases hb : b = space
    · rw [List.takeWhile_cons_of_neg (by simp [hb]), hb]
      rfl
    · rw [List.takeWhile_cons_of_pos (by simp [hb])]
      have hl : space ∈ l := (List.mem_cons.mp h).resolve_left (Ne.symm hb)
      exact congrArg (b :: ·) (ih hl)

/-- An authenticate command with arguments. -/
theorem workCmd_auth {argsStr : Bytes} (h : cString line = text "a " ++ argsStr) :
    workCmd server ix served authenticated writable line =
      ⟨some (workAuthenticateCmd server.authToken argsStr), [], none,
        authenticated || workAuthenticateCmd server.authToken argsStr = .ok⟩ := by
  have hspace : space ∈ text "a " ++ argsStr := List.mem_append_left _ (by decide)
  unfold workCmd
  simp only [h, takeWhile_auth, if_true, if_pos hspace]
  rfl

theorem cString_auth (h : text "a " <+: line) :
    ∃ argsStr, cString line = text "a " ++ argsStr := by
  obtain ⟨rest, rfl⟩ := h
  exact ⟨cString rest, rfl⟩

theorem authLine_iff {argsStr : Bytes} (h : cString line = text "a " ++ argsStr) :
    AuthLine authToken line ↔ workAuthenticateCmd authToken argsStr = .ok := by
  have hprefix (tokenStr : Bytes) :
      text "a token " ++ tokenStr = text "a " ++ (text "token" ++ space :: tokenStr) := rfl
  rw [workAuthenticateCmd_ok_iff]
  unfold AuthLine
  simp only [h, hprefix, List.append_cancel_left_eq]

/-- The line with the configured token. -/
theorem workCmd_authLine (h : AuthLine server.authToken line) :
    workCmd server ix served authenticated writable line = ⟨some .ok, [], none, true⟩ := by
  obtain ⟨tokenStr, hline, -⟩ := id h
  have hargs : cString line = text "a " ++ (text "token" ++ space :: tokenStr) := hline
  rw [workCmd_auth hargs, (authLine_iff hargs).mp h]
  simp

theorem workCmd_failedAuth (h : FailedAuth server.authToken line) :
    ∃ res, (workCmd server ix served authenticated writable line).res = some res ∧ res ≠ .ok := by
  obtain ⟨argsStr, hargs⟩ := cString_auth h.1
  rw [workCmd_auth hargs]
  exact ⟨_, rfl, fun hok => h.2 ((authLine_iff hargs).mpr hok)⟩

/-- Without authentication a line is worked on without the index, and does not authenticate unless
it has the token. -/
theorem workCmd_unauthenticated (h : ¬AuthLine server.authToken line) :
    workCmd server ix served false writable line = workCmd server ix' served false writable line ∧
      (workCmd server ix served false writable line).served = none ∧
      (workCmd server ix served false writable line).authenticated = false := by
  by_cases hcmd : (cString line).takeWhile (fun b => b ≠ space) = text "a"
  · by_cases hspace : space ∈ cString line
    · have hargs := split_at_space _ hspace
      rw [hcmd] at hargs
      have hrefused := mt (authLine_iff hargs).mpr h
      rw [workCmd_auth hargs, workCmd_auth hargs]
      exact ⟨rfl, rfl, by simpa using hrefused⟩
    · unfold workCmd
      simp only [hcmd, if_true, if_neg hspace]
      exact ⟨trivial, trivial, trivial⟩
  · unfold workCmd
    simp only [if_neg hcmd, Bool.false_eq_true, if_false]
    refine ⟨trivial, ?_, ?_⟩
    · split
      · rfl
      · split
        · rfl
        · rfl
    · split
      · rfl
      · split
        · rfl
        · rfl

end Line

/-! ## Two runs -/

/-- Worked on without authentication. -/
def Unserved (authToken : Bytes) (w : WorkedLine) : Prop :=
  ¬AuthLine authToken w.line ∧ w.served = none

/-- Two connections with the same client: the same, or both behind the same line with the
configured token. -/
def Agree (authToken : Bytes) (c c' : IndexConn) : Prop :=
  (c = c' ∧ c.authenticated = false ∧ ∀ w ∈ c.log, Unserved authToken w) ∨
    ∃ before w after after', c.log = before ++ w :: after ∧ c'.log = before ++ w :: after' ∧
      (∀ v ∈ before, Unserved authToken v) ∧ AuthLine authToken w.line

theorem opening_eq {before after : List WorkedLine} {w : WorkedLine}
    (hbefore : ∀ v ∈ before, Unserved authToken v) (hw : AuthLine authToken w.line) :
    opening authToken (before ++ w :: after) = before := by
  unfold opening
  rw [List.takeWhile_append_of_pos fun v hv => decide_eq_true (hbefore v hv).1,
    List.takeWhile_cons_of_neg (by simpa using hw), List.append_nil]

theorem opening_eq_self {log : List WorkedLine} (h : ∀ v ∈ log, Unserved authToken v) :
    opening authToken log = log :=
  List.takeWhile_eq_self_iff.mpr fun v hv => decide_eq_true (h v hv).1

theorem Agree.opening {c c' : IndexConn} (h : Agree authToken c c') :
    Everarch.opening authToken c.log = Everarch.opening authToken c'.log ∧
      ∀ w ∈ Everarch.opening authToken c.log, w.served = none := by
  rcases h with ⟨rfl, -, hlog⟩ | ⟨before, w, after, after', hlog, hlog', hbefore, hw⟩
  · rw [opening_eq_self hlog]
    exact ⟨rfl, fun w hw => (hlog w hw).2⟩
  · rw [hlog, hlog', opening_eq hbefore hw, opening_eq hbefore hw]
    exact ⟨rfl, fun v hv => (hbefore v hv).2⟩

section Run

variable {Ix : Type} {server : IndexServer Ix} {ix ix' : Ix} {c c' : IndexConn}

/-- Behind the line with the token the two may differ. -/
theorem Agree.behind {d d' : IndexConn}
    (h : ∃ before w after after', c.log = before ++ w :: after ∧ c'.log = before ++ w :: after' ∧
      (∀ v ∈ before, Unserved authToken v) ∧ AuthLine authToken w.line)
    (hd : c.log <+: d.log) (hd' : c'.log <+: d'.log) : Agree authToken d d' := by
  obtain ⟨before, w, after, after', hlog, hlog', hbefore, hw⟩ := h
  obtain ⟨more, hmore⟩ := hd
  obtain ⟨more', hmore'⟩ := hd'
  refine .inr ⟨before, w, after ++ more, after' ++ more', ?_, ?_, hbefore, hw⟩
  · rw [← hmore, hlog, List.append_assoc, List.cons_append]
  · rw [← hmore', hlog', List.append_assoc, List.cons_append]

theorem agree_work (h : Agree server.authToken c c') :
    Agree server.authToken (c.work server ix) (c'.work server ix') := by
  rcases h with ⟨rfl, hauth, hlog⟩ | hbehind
  · by_cases hline : AuthLine server.authToken c.query
    · refine .inr ⟨c.log, ⟨c.query, [], none⟩, [], [], ?_, ?_, hlog, hline⟩
      · simp only [IndexConn.work, workCmd_authLine hline]
      · simp only [IndexConn.work, workCmd_authLine hline]
    · have hsame := @workCmd_unauthenticated _ _ server ix ix' c.served c.writable hline
      refine .inl ⟨?_, ?_, ?_⟩
      · simp only [IndexConn.work, hauth, hsame.1]
      · simp only [IndexConn.work, hauth, hsame.2.2]
      · intro w hw
        simp only [IndexConn.work, hauth, List.mem_append, List.mem_singleton] at hw
        rcases hw with hold | rfl
        · exact hlog w hold
        · exact ⟨hline, hsame.2.1⟩
  · exact .behind hbehind (List.prefix_append ..) (List.prefix_append ..)

theorem log_scan (data : Bytes) (c : IndexConn) : c.log <+: (c.scan server ix data).log := by
  induction data generalizing c with
  | nil => exact List.prefix_refl _
  | cons b rest ih =>
    unfold IndexConn.scan
    split
    · exact List.prefix_refl _
    · split
      · exact ih { c with query := c.query ++ [b] }
      · exact (List.prefix_append c.log _).trans (ih (c.work server ix))

theorem log_next (c : IndexConn) (e : IndexConnEvent) : c.log <+: (c.next server ix e).log := by
  unfold IndexConn.next
  split
  · exact List.prefix_refl _
  · cases e with
    | read n =>
      dsimp only
      split
      · exact List.prefix_refl _
      · exact log_scan _ { c with pending := c.pending.drop _ }
    | send data => exact List.prefix_refl _
    | hangUp => exact List.prefix_refl _
    | gone => exact List.prefix_refl _
    | stop => exact List.prefix_refl _

theorem agree_scan (data : Bytes) (h : Agree server.authToken c c') :
    Agree server.authToken (c.scan server ix data) (c'.scan server ix' data) := by
  induction data generalizing c c' with
  | nil => exact h
  | cons b rest ih =>
    rcases h with ⟨rfl, hauth, hlog⟩ | hbehind
    · unfold IndexConn.scan
      split
      · exact .inl ⟨rfl, hauth, hlog⟩
      · split
        · exact ih (.inl ⟨rfl, hauth, hlog⟩)
        · exact ih (agree_work (.inl ⟨rfl, hauth, hlog⟩))
    · exact .behind hbehind (log_scan _ _) (log_scan _ _)

theorem agree_next (h : Agree server.authToken c c') (e : IndexConnEvent) :
    Agree server.authToken (c.next server ix e) (c'.next server ix' e) := by
  rcases h with ⟨rfl, hauth, hlog⟩ | hbehind
  · unfold IndexConn.next
    split
    · exact .inl ⟨rfl, hauth, hlog⟩
    · cases e with
      | read n =>
        dsimp only
        split
        · exact .inl ⟨rfl, hauth, hlog⟩
        · exact agree_scan _ (.inl ⟨rfl, hauth, hlog⟩)
      | send data => exact .inl ⟨rfl, hauth, hlog⟩
      | hangUp => exact .inl ⟨rfl, hauth, hlog⟩
      | gone => exact .inl ⟨rfl, hauth, hlog⟩
      | stop => exact .inl ⟨rfl, hauth, hlog⟩
  · exact .behind hbehind (log_next _ _) (log_next _ _)

/-! ## Failed authentication -/

/-- A failed authentication has closed the connection. -/
def FailsClosed (authToken : Bytes) (c : IndexConn) : Prop :=
  ∀ w ∈ c.log, FailedAuth authToken w.line → c.ended = some .closed

theorem failsClosed_work (h : FailsClosed server.authToken c) (hrun : ¬c.ended ≠ none) :
    FailsClosed server.authToken (c.work server ix) := by
  intro w hw hfailed
  rcases List.mem_append.mp hw with hold | hnew
  · exact absurd (h w hold hfailed) (by simp [not_not.mp hrun])
  · rw [List.mem_singleton.mp hnew] at hfailed
    obtain ⟨res, hres, hbad⟩ :=
      @workCmd_failedAuth _ _ server ix c.served c.authenticated c.writable hfailed
    simp only [IndexConn.work, hres, Option.elim_some, if_neg hbad]

theorem failsClosed_scan (data : Bytes) (h : FailsClosed server.authToken c) :
    FailsClosed server.authToken (c.scan server ix data) := by
  induction data generalizing c with
  | nil => exact h
  | cons b rest ih =>
    unfold IndexConn.scan
    split
    · exact h
    · next hrun =>
      split
      · exact ih h
      · exact ih (failsClosed_work h hrun)

theorem failsClosed_next (h : FailsClosed server.authToken c) (e : IndexConnEvent) :
    FailsClosed server.authToken (c.next server ix e) := by
  unfold IndexConn.next
  split
  · exact h
  · cases e with
    | read n =>
      dsimp only
      split
      · exact fun _ _ _ => rfl
      · exact failsClosed_scan _ h
    | send data => exact h
    | hangUp => exact fun _ _ _ => rfl
    | gone => exact h
    | stop => exact fun _ _ _ => rfl

end Run

end GateLemmas

/-! ## Results -/

open GateLemmas

/-- Whatever a client sends, in whatever chunks: what it gets before its line with the configured
token does not depend on the index, no command before that line has looked at the index, and an
authenticate command with other arguments has closed the connection. -/
theorem index_gate {Ix : Type} (server : IndexServer Ix) (ix ix' : Ix)
    (events : List IndexConnEvent) :
    let c := exec (IndexConn.next server ix) IndexConn.start events
    let c' := exec (IndexConn.next server ix') IndexConn.start events
    sentBefore server.authToken c.log = sentBefore server.authToken c'.log ∧
      (∀ w ∈ opening server.authToken c.log, w.served = none) ∧
      ∀ w ∈ c.log, FailedAuth server.authToken w.line → c.ended = some .closed := by
  have hagree : Agree server.authToken
      (exec (IndexConn.next server ix) IndexConn.start events)
      (exec (IndexConn.next server ix') IndexConn.start events) :=
    exec_rel (Agree server.authToken) (.inl ⟨rfl, rfl, fun w hw => absurd hw List.not_mem_nil⟩)
      fun _ _ e h => agree_next h e
  obtain ⟨hopening, hserved⟩ := hagree.opening
  refine ⟨?_, hserved, ?_⟩
  · unfold sentBefore
    rw [hopening]
  · exact exec_invariant (FailsClosed server.authToken) (fun w hw => absurd hw List.not_mem_nil)
      fun _ e h => failsClosed_next h e

end Everarch
