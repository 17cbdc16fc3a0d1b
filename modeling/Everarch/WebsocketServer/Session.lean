import Everarch.Lib.Bytes
import Everarch.Lib.Run

/-!
# A connection of the websocket server

`handleSocket` of server.js: the commands of one connection, the jobs they start and the answers
that are sent. Answers are sent while the socket is open; `send` of the ws package drops what is
given to it later.

* `WsSession.next`: one message, one event of a running job, or the end of the socket.
* `SessionLemmas.handleMsg_handled`, `handleEmission_emitted`: what each of them does.
* `SessionLemmas.gateKept`: what is behind everything that a session holds.

Results: `session_gate`.
-/

namespace Everarch

/-! ## Messages -/

/-- An entry of `config.user`. -/
structure WsUser where
  password : Option String
  signingKey : Option String
deriving DecidableEq, Repr

/-- The filter of a watch command, or one that `buildModifiedClaimSetFilter` throws at. -/
inductive WsFilter where
  | absent
  | namespace_ (ns : String)
  | refused
deriving DecidableEq, Repr

/-- The properties of a message other than its channel. -/
inductive WsCmd where
  | auth (type user : String) (password : Option String)
  | watch (lastModifiedAfter flags : Nat) (filter : WsFilter)
  | getVerify (ref : String) (withMeta : Bool)
  | signPut (body : String)
  | listUsers
  | other
deriving DecidableEq, Repr

/-- A message of a client. The channel is whatever the client puts there. -/
structure WsMsg (κ : Type) where
  ch : κ
  cmd : WsCmd
deriving DecidableEq

/-- The `status` of an answer with the properties that come with it. -/
inductive WsStatus where
  | unknown
  | authenticated
  | unauthenticated
  | blobModified (ref : String) (lastModified : Nat)
  | get (body : Bytes) (metadata : Option (List (String × String)))
  | put (ref : String)
  | users (names : List String)
  | error (errorCode : Nat)
deriving DecidableEq, Repr

structure WsAnswer (κ : Type) where
  ch : κ
  status : WsStatus
deriving DecidableEq

/-- What is run for a command: `watch`, `getAndVerify` and `signAndPut` with their arguments. -/
inductive WsJob where
  | watch (lastModifiedAfter flags : Nat) (filter : WsFilter)
  | getAndVerify (ref : String) (withMeta : Bool)
  | signAndPut (body : String) (signingKey : Option String)
deriving DecidableEq, Repr

/-- What the observable of a job emits or ends with. An error is one of the child process with
its exit code or any other. -/
inductive WsEmission where
  | modified (ref : String) (lastModified : Nat)
  | blob (body : Bytes) (metadata : Option (List (String × String)))
  | stored (ref : String)
  | completed
  | childFailed (exitCode : Nat)
  | failed
deriving DecidableEq, Repr

/-! ## The connection -/

inductive WsSocket where
  | open_
  | closing
  | closed
deriving DecidableEq, Repr

/-- A subscription that `mergeMap` holds for a message. -/
structure WsSubscription (κ : Type) where
  msg : WsMsg κ
  active : Bool

/-- The variables of `handleSocket`, what was sent and which jobs were started. -/
structure WsSession (κ : Type) where
  authenticatedUser : Option WsUser
  subscriptions : List (WsSubscription κ)
  socket : WsSocket
  sent : List (WsAnswer κ)
  jobs : List WsJob

/-- `config.user` in the order of its keys, and `sort` of an array of strings. -/
structure WsConfig where
  user : List (String × WsUser)
  sort : List String → List String

inductive WsEvent (κ : Type) where
  /-- A message, none where `JSON.parse` or reading `cmd` throws. -/
  | message (msg : Option (WsMsg κ))
  | emission (n : Nat) (e : WsEmission)
  | close

namespace WsSession

variable {κ : Type}

def initial : WsSession κ :=
  ⟨none, [], .open_, [], []⟩

/-- `send`. -/
def send (ch : κ) (status : WsStatus) (s : WsSession κ) : WsSession κ :=
  if s.socket = .open_ then { s with sent := s.sent ++ [⟨ch, status⟩] } else s

/-- `socket.close`. -/
def closeSocket (s : WsSession κ) : WsSession κ :=
  { s with socket := if s.socket = .open_ then .closing else s.socket }

/-- The connection ends: all subscriptions are given up. -/
def teardown (s : WsSession κ) : WsSession κ :=
  { s with
    socket := .closed
    subscriptions := s.subscriptions.map fun sub => { sub with active := false } }

/-- A job that a command starts, with its subscription. -/
def start (msg : WsMsg κ) (job : WsJob) (s : WsSession κ) : WsSession κ :=
  { s with subscriptions := s.subscriptions ++ [⟨msg, true⟩], jobs := s.jobs ++ [job] }

/-- The user whose password a message of type `basic` has. -/
def basicUser (config : WsConfig) (type user : String) (password : Option String) : Option WsUser :=
  if type = "basic" then (config.user.lookup user).filter fun u => u.password = password else none

/-- The `switch` over `msg.cmd`. -/
def handleMsg (config : WsConfig) (msg : WsMsg κ) (s : WsSession κ) : WsSession κ :=
  match msg.cmd with
  | .other => s.send msg.ch .unknown
  | .auth type user password =>
    match basicUser config type user password with
    | some u => { s with authenticatedUser := some u }.send msg.ch .authenticated
    | none => ({ s with authenticatedUser := none }.send msg.ch .unauthenticated).closeSocket
  | .watch lastModifiedAfter flags filter =>
    match s.authenticatedUser with
    | none => s.send msg.ch .unauthenticated
    | some _ =>
      if filter = .refused then s.teardown else s.start msg (.watch lastModifiedAfter flags filter)
  | .getVerify ref withMeta =>
    match s.authenticatedUser with
    | none => s.send msg.ch .unauthenticated
    | some _ => s.start msg (.getAndVerify ref withMeta)
  | .signPut body =>
    match s.authenticatedUser with
    | none => s.send msg.ch .unauthenticated
    | some u => s.start msg (.signAndPut body u.signingKey)
  | .listUsers =>
    match s.authenticatedUser with
    | none => s.send msg.ch .unauthenticated
    | some _ => s.send msg.ch (.users (config.sort (config.user.map Prod.fst)))

/-- The answer to what a job emits, where there is one: the last `tap` of each command and
`sendErrorOnError`. -/
def emissionStatus : WsCmd → WsEmission → Option WsStatus
  | .watch _ _ _, .modified ref lastModified => some (.blobModified ref lastModified)
  | .getVerify _ withMeta, .blob body metadata =>
    some (.get body (if withMeta then metadata else none))
  | .signPut _, .stored ref => some (.put ref)
  | _, .childFailed exitCode => some (.error exitCode)
  | _, .failed => some (.error 1)
  | _, _ => none

/-- What the job of a command can emit. `getAndVerify` and `signAndPut` emit once or fail. -/
def canEmit : WsCmd → WsEmission → Bool
  | .watch _ _ _, .modified _ _ => true
  | .watch _ _ _, .completed => true
  | .getVerify _ _, .blob _ _ => true
  | .signPut _, .stored _ => true
  | _, .childFailed _ => true
  | _, .failed => true
  | _, _ => false

/-- Whether a job ends with an emission: what `getAndVerify` and `signAndPut` emit is their last. -/
def endsWith : WsEmission → Bool
  | .modified _ _ => false
  | _ => true

/-- The subscription with number `n` after an emission. -/
def settle (n : Nat) (sub : WsSubscription κ) (e : WsEmission) (s : WsSession κ) : WsSession κ :=
  if endsWith e then
    { s with subscriptions := s.subscriptions.set n { sub with active := false } }
  else s

/-- What the job of subscription `n` emits. -/
def handleEmission (n : Nat) (e : WsEmission) (s : WsSession κ) : WsSession κ :=
  match s.subscriptions[n]? with
  | none => s
  | some sub =>
    if sub.active && canEmit sub.msg.cmd e then
      match emissionStatus sub.msg.cmd e with
      | none => s.settle n sub e
      | some status => (s.settle n sub e).send sub.msg.ch status
    else s

/-- One event of the connection. -/
def next (config : WsConfig) (s : WsSession κ) : WsEvent κ → WsSession κ
  | .message msg =>
    if s.socket = .closed then s
    else
      match msg with
      | none => s.teardown
      | some msg => s.handleMsg config msg
  | .emission n e => s.handleEmission n e
  | .close => s.teardown

end WsSession

/-! ## What a session keeps -/

/-- The statuses that anybody may see. -/
def WsStatus.isPublic : WsStatus → Bool
  | .unknown | .authenticated | .unauthenticated => true
  | _ => false

/-- The statuses that answer a command. -/
def WsCmd.Answers : WsCmd → WsStatus → Prop
  | .other, .unknown => True
  | .auth _ _ _, .authenticated => True
  | .watch _ _ _, .blobModified _ _ => True
  | .getVerify _ withMeta, .get _ metadata => metadata.isSome → withMeta = true
  | .signPut _, .put _ => True
  | .listUsers, .users _ => True
  | .watch _ _ _, .error _ => True
  | .getVerify _ _, .error _ => True
  | .signPut _, .error _ => True
  | .other, _ => False
  | _, .unauthenticated => True
  | _, _ => False

/-- The job of a command of this user. -/
def WsCmd.jobOf (u : WsUser) : WsCmd → Option WsJob
  | .watch lastModifiedAfter flags filter => some (.watch lastModifiedAfter flags filter)
  | .getVerify ref withMeta => some (.getAndVerify ref withMeta)
  | .signPut body => some (.signAndPut body u.signingKey)
  | _ => none

/-- A message was received, in a state with this property. -/
def Received {κ : Type} (config : WsConfig) (es : List (WsEvent κ)) (msg : WsMsg κ)
    (P : WsSession κ → Prop) : Prop :=
  ∃ before after, es = before ++ .message (some msg) :: after ∧
    P (exec (WsSession.next config) .initial before)

namespace SessionLemmas

open WsSession

variable {κ : Type} {config : WsConfig} {s : WsSession κ} {e : WsEvent κ} {es : List (WsEvent κ)}
  {msg : WsMsg κ} {a : WsAnswer κ} {P : WsSession κ → Prop}

theorem received_snoc (h : Received config es msg P) (e : WsEvent κ) :
    Received config (es ++ [e]) msg P := by
  obtain ⟨before, after, rfl, hP⟩ := h
  exact ⟨before, after ++ [e], by simp, hP⟩

theorem received_last (h : P (exec (next config) .initial es)) :
    Received config (es ++ [.message (some msg)]) msg P :=
  ⟨es, [], rfl, h⟩

theorem mem_send {ch : κ} {status : WsStatus} (h : a ∈ (s.send ch status).sent) :
    a ∈ s.sent ∨ a = ⟨ch, status⟩ := by
  unfold send at h
  split at h
  · simpa using h
  · exact .inl h

@[simp] theorem send_subscriptions (ch : κ) (status : WsStatus) :
    (s.send ch status).subscriptions = s.subscriptions := by
  unfold send
  split <;> rfl

@[simp] theorem send_jobs (ch : κ) (status : WsStatus) : (s.send ch status).jobs = s.jobs := by
  unfold send
  split <;> rfl

@[simp] theorem send_user (ch : κ) (status : WsStatus) :
    (s.send ch status).authenticatedUser = s.authenticatedUser := by
  unfold send
  split <;> rfl

@[simp] theorem send_socket (ch : κ) (status : WsStatus) : (s.send ch status).socket = s.socket := by
  unfold send
  split <;> rfl

@[simp] theorem settle_socket (s : WsSession κ) (n : Nat) (sub : WsSubscription κ) (e : WsEmission) :
    (s.settle n sub e).socket = s.socket := by
  unfold settle
  split <;> rfl

@[simp] theorem settle_sent (s : WsSession κ) (n : Nat) (sub : WsSubscription κ) (e : WsEmission) :
    (s.settle n sub e).sent = s.sent := by
  unfold settle
  split <;> rfl

/-- What a message does: an answer with a status, a job with its subscription, a failed
authentication, or the end of the connection. -/
inductive Handled (config : WsConfig) (msg : WsMsg κ) (s : WsSession κ) : WsSession κ → Prop
  | answer (status : WsStatus) (h : msg.cmd.Answers status)
    (hpublic : status.isPublic = true ∨ s.authenticatedUser ≠ none) :
    Handled config msg s (s.send msg.ch status)
  | login {type user : String} {password : Option String} {u : WsUser}
    (hcmd : msg.cmd = .auth type user password) (hu : basicUser config type user password = some u) :
    Handled config msg s ({ s with authenticatedUser := some u }.send msg.ch .authenticated)
  | refused {type user : String} {password : Option String}
    (hcmd : msg.cmd = .auth type user password) (hu : basicUser config type user password = none) :
    Handled config msg s
      ({ s with authenticatedUser := none }.send msg.ch .unauthenticated).closeSocket
  | start {u : WsUser} {job : WsJob} (hu : s.authenticatedUser = some u)
    (hjob : msg.cmd.jobOf u = some job) : Handled config msg s (s.start msg job)
  | crash {lastModifiedAfter flags : Nat} (hcmd : msg.cmd = .watch lastModifiedAfter flags .refused)
    (hu : s.authenticatedUser ≠ none) : Handled config msg s s.teardown

theorem handleMsg_handled (config : WsConfig) (msg : WsMsg κ) (s : WsSession κ) :
    Handled config msg s (s.handleMsg config msg) := by
  have hdenied : msg.cmd.Answers .unauthenticated → s.authenticatedUser = none →
      Handled config msg s (s.send msg.ch .unauthenticated) :=
    fun h _ => .answer .unauthenticated h (.inl rfl)
  unfold handleMsg
  cases hcmd : msg.cmd with
  | other => exact .answer .unknown (by rw [hcmd]; trivial) (.inl rfl)
  | auth type user password =>
    dsimp only
    cases hu : basicUser config type user password with
    | none => exact .refused hcmd hu
    | some u => exact .login hcmd hu
  | watch lastModifiedAfter flags filter =>
    cases hu : s.authenticatedUser with
    | none => exact hdenied (by rw [hcmd]; trivial) hu
    | some u =>
      dsimp only
      split
      · rename_i hfilter
        subst hfilter
        exact .crash hcmd (by simp [hu])
      · exact .start hu (by rw [hcmd]; rfl)
  | getVerify ref withMeta =>
    cases hu : s.authenticatedUser with
    | none => exact hdenied (by rw [hcmd]; trivial) hu
    | some u => exact .start hu (by rw [hcmd]; rfl)
  | signPut body =>
    cases hu : s.authenticatedUser with
    | none => exact hdenied (by rw [hcmd]; trivial) hu
    | some u => exact .start hu (by rw [hcmd]; rfl)
  | listUsers =>
    cases hu : s.authenticatedUser with
    | none => exact hdenied (by rw [hcmd]; trivial) hu
    | some u => exact .answer _ (by rw [hcmd]; trivial) (.inr (by simp [hu]))

theorem emissionStatus_answers {cmd : WsCmd} {e : WsEmission} {status : WsStatus}
    (hcan : canEmit cmd e = true) (h : emissionStatus cmd e = some status)
    (hjob : ∃ u, cmd.jobOf u ≠ none) : cmd.Answers status := by
  obtain ⟨u, hu⟩ := hjob
  cases cmd with
  | watch _ _ _ => cases e <;> cases h <;> trivial
  | getVerify ref withMeta =>
    cases e with
    | blob body metadata =>
      cases h
      cases withMeta
      · exact fun h => absurd h (by simp)
      · exact fun _ => rfl
    | _ => cases h <;> trivial
  | signPut _ => cases e <;> cases h <;> trivial
  | _ => exact absurd rfl hu

/-- What an emission does: nothing, where the job has ended or does not emit this, or it may end
the job and may be answered. -/
inductive Emitted (n : Nat) (e : WsEmission) (s : WsSession κ) : WsSession κ → Prop
  | ignored : Emitted n e s s
  | quiet {sub : WsSubscription κ} (hsub : s.subscriptions[n]? = some sub) (hactive : sub.active = true)
    (hcan : canEmit sub.msg.cmd e = true) (hstatus : emissionStatus sub.msg.cmd e = none) :
    Emitted n e s (s.settle n sub e)
  | answer {sub : WsSubscription κ} {status : WsStatus} (hsub : s.subscriptions[n]? = some sub)
    (hactive : sub.active = true) (hcan : canEmit sub.msg.cmd e = true)
    (hstatus : emissionStatus sub.msg.cmd e = some status) :
    Emitted n e s ((s.settle n sub e).send sub.msg.ch status)

theorem handleEmission_emitted (n : Nat) (e : WsEmission) (s : WsSession κ) :
    Emitted n e s (s.handleEmission n e) := by
  unfold handleEmission
  cases hsub : s.subscriptions[n]? with
  | none => exact .ignored
  | some sub =>
    dsimp only
    by_cases hcan : (sub.active && canEmit sub.msg.cmd e) = true
    · rw [if_pos hcan]
      obtain ⟨hactive, hemit⟩ := Bool.and_eq_true_iff.mp hcan
      cases hstatus : emissionStatus sub.msg.cmd e with
      | none => exact .quiet hsub hactive hemit hstatus
      | some status => exact .answer hsub hactive hemit hstatus
    · rw [if_neg hcan]
      exact .ignored

end SessionLemmas

/-- What is behind everything that a session holds: a message that was received when it might. -/
structure GateKept {κ : Type} (config : WsConfig) (es : List (WsEvent κ)) (s : WsSession κ) :
    Prop where
  sent : ∀ a ∈ s.sent, ∃ msg, Received config es msg (fun s' =>
    a.status.isPublic = true ∨ s'.authenticatedUser ≠ none) ∧ a.ch = msg.ch ∧
      msg.cmd.Answers a.status
  subscriptions : ∀ sub ∈ s.subscriptions, ∃ u,
    Received config es sub.msg (fun s' => s'.authenticatedUser = some u) ∧ sub.msg.cmd.jobOf u ≠ none
  jobs : ∀ job ∈ s.jobs, ∃ msg u,
    Received config es msg (fun s' => s'.authenticatedUser = some u) ∧ msg.cmd.jobOf u = some job
  user : ∀ u, s.authenticatedUser = some u → ∃ ch type user password,
    Received config es ⟨ch, .auth type user password⟩ (fun _ => True) ∧
      WsSession.basicUser config type user password = some u

section GateKept

open SessionLemmas WsSession

variable {κ : Type} {config : WsConfig} {s : WsSession κ} {es : List (WsEvent κ)} {msg : WsMsg κ}

theorem GateKept.snoc (h : GateKept config es s) (e : WsEvent κ) : GateKept config (es ++ [e]) s where
  sent a ha := by
    obtain ⟨msg, hmsg, hfits⟩ := h.sent a ha
    exact ⟨msg, received_snoc hmsg e, hfits⟩
  subscriptions sub hsub := by
    obtain ⟨u, hu, hjob⟩ := h.subscriptions sub hsub
    exact ⟨u, received_snoc hu e, hjob⟩
  jobs job hjob := by
    obtain ⟨msg, u, hu, hof⟩ := h.jobs job hjob
    exact ⟨msg, u, received_snoc hu e, hof⟩
  user u hu := by
    obtain ⟨ch, type, user, password, hmsg, hbasic⟩ := h.user u hu
    exact ⟨ch, type, user, password, received_snoc hmsg e, hbasic⟩

theorem GateKept.send (h : GateKept config es s) {status : WsStatus}
    (hmsg : Received config es msg fun s' =>
      status.isPublic = true ∨ s'.authenticatedUser ≠ none)
    (hfits : msg.cmd.Answers status) : GateKept config es (s.send msg.ch status) where
  sent a ha := by
    rcases mem_send ha with ha | rfl
    · exact h.sent a ha
    · exact ⟨msg, hmsg, rfl, hfits⟩
  subscriptions := by rw [send_subscriptions]; exact h.subscriptions
  jobs := by rw [send_jobs]; exact h.jobs
  user := by rw [send_user]; exact h.user

theorem GateKept.deactivate (h : GateKept config es s) {subs : List (WsSubscription κ)}
    (hsubs : ∀ sub ∈ subs, ∃ sub' ∈ s.subscriptions, sub.msg = sub'.msg) (socket : WsSocket) :
    GateKept config es { s with socket := socket, subscriptions := subs } where
  sent := h.sent
  subscriptions sub hsub := by
    obtain ⟨sub', hsub', hmsg⟩ := hsubs sub hsub
    rw [hmsg]
    exact h.subscriptions sub' hsub'
  jobs := h.jobs
  user := h.user

theorem GateKept.teardown (h : GateKept config es s) : GateKept config es s.teardown := by
  refine h.deactivate ?_ .closed
  intro sub hsub
  obtain ⟨sub', hsub', rfl⟩ := List.mem_map.mp hsub
  exact ⟨sub', hsub', rfl⟩

/-- A subscription that ends or does not. -/
theorem GateKept.settle (h : GateKept config es s) {n : Nat} {sub : WsSubscription κ}
    (hsub : s.subscriptions[n]? = some sub) (e : WsEmission) :
    GateKept config es (s.settle n sub e) := by
  unfold WsSession.settle
  split
  · refine h.deactivate (fun sub' hsub' => ?_) s.socket
    rcases List.mem_or_eq_of_mem_set hsub' with hsub' | rfl
    · exact ⟨sub', hsub', rfl⟩
    · exact ⟨sub, List.mem_of_getElem? hsub, rfl⟩
  · exact h

end GateKept

namespace SessionLemmas

open WsSession

variable {κ : Type} {config : WsConfig} {s : WsSession κ} {e : WsEvent κ} {es : List (WsEvent κ)}
  {msg : WsMsg κ}

/-- A message. -/
theorem gateKept_handled {s' : WsSession κ} (h : GateKept config es s)
    (hs : exec (next config) .initial es = s) (hmsg : Handled config msg s s') :
    GateKept config (es ++ [.message (some msg)]) s' := by
  have hold := h.snoc (.message (some msg))
  cases hmsg with
  | answer status hfits hpublic => exact hold.send (received_last (hs ▸ hpublic)) hfits
  | @login type user password u hcmd hu =>
    have hnew : GateKept config (es ++ [.message (some msg)])
        { s with authenticatedUser := some u } :=
      ⟨hold.sent, hold.subscriptions, hold.jobs, fun u' hu' => by
        obtain rfl := Option.some.inj hu'
        exact ⟨msg.ch, type, user, password, hcmd ▸ received_last trivial, hu⟩⟩
    exact hnew.send (received_last (.inl rfl)) (by rw [hcmd]; trivial)
  | refused hcmd hu =>
    have hnew : GateKept config (es ++ [.message (some msg)]) { s with authenticatedUser := none } :=
      ⟨hold.sent, hold.subscriptions, hold.jobs, fun u' hu' => by cases hu'⟩
    have hsent := @GateKept.send _ _ _ _ _ hnew .unauthenticated (received_last (.inl rfl))
      (by rw [hcmd]; trivial)
    exact hsent.deactivate (fun sub hsub => ⟨sub, hsub, rfl⟩) _
  | @start u job hu hjob =>
    have hreceived : Received config (es ++ [.message (some msg)]) msg
        (fun s' => s'.authenticatedUser = some u) := received_last (hs ▸ hu)
    refine ⟨hold.sent, fun sub hsub => ?_, fun job' hjob' => ?_, hold.user⟩
    · rcases List.mem_append.mp hsub with hsub | hsub
      · exact hold.subscriptions sub hsub
      · rw [List.mem_singleton.mp hsub]
        exact ⟨u, hreceived, by rw [hjob]; exact Option.some_ne_none job⟩
    · rcases List.mem_append.mp hjob' with hjob' | hjob'
      · exact hold.jobs job' hjob'
      · rw [List.mem_singleton.mp hjob']
        exact ⟨msg, u, hreceived, hjob⟩
  | crash _ _ => exact hold.teardown

/-- What a job emits. -/
theorem gateKept_emission (h : GateKept config es s) (n : Nat) (e : WsEmission) :
    GateKept config es (s.handleEmission n e) := by
  have hemitted := handleEmission_emitted n e s
  generalize s.handleEmission n e = s' at hemitted ⊢
  cases hemitted with
  | ignored => exact h
  | quiet hsub _ _ _ => exact h.settle hsub e
  | answer hsub _ hcan hstatus =>
    obtain ⟨u, ⟨before, after, hes, hu⟩, hjob⟩ := h.subscriptions _ (List.mem_of_getElem? hsub)
    exact (h.settle hsub e).send ⟨before, after, hes, .inr (by simp [hu])⟩
      (emissionStatus_answers hcan hstatus ⟨u, hjob⟩)

theorem gateKept (config : WsConfig) (es : List (WsEvent κ)) :
    GateKept config es (exec (next config) .initial es) := by
  induction es using List.reverseRecOn with
  | nil =>
    exact ⟨fun a ha => absurd ha List.not_mem_nil, fun sub hsub => absurd hsub List.not_mem_nil,
      fun job hjob => absurd hjob List.not_mem_nil, fun u hu => by cases hu⟩
  | append_singleton es e ih =>
    rw [exec_append_singleton]
    cases e with
    | message msg =>
      unfold next
      dsimp only
      split
      · exact ih.snoc _
      · cases msg with
        | none => exact (ih.snoc _).teardown
        | some msg => exact gateKept_handled ih rfl (handleMsg_handled config msg _)
    | emission n e => exact (gateKept_emission ih n e).snoc _
    | close => exact (ih.snoc _).teardown

theorem sent_send_of_not_open (h : s.socket ≠ .open_) (ch : κ) (status : WsStatus) :
    (s.send ch status).sent = s.sent := by
  rw [send, if_neg h]

theorem closeSocket_not_open (s : WsSession κ) : s.closeSocket.socket ≠ .open_ := by
  unfold closeSocket
  dsimp only
  split
  · exact WsSocket.noConfusion
  · assumption

/-- A socket that is not open stays so, and nothing more is sent. -/
theorem next_sent_of_not_open (config : WsConfig) (h : s.socket ≠ .open_) (e : WsEvent κ) :
    (next config s e).socket ≠ .open_ ∧ (next config s e).sent = s.sent := by
  cases e with
  | message msg =>
    unfold next
    dsimp only
    split
    · exact ⟨h, rfl⟩
    · cases msg with
      | none => exact ⟨WsSocket.noConfusion, rfl⟩
      | some msg =>
        have hhandled := handleMsg_handled config msg s
        dsimp only
        generalize s.handleMsg config msg = s' at hhandled ⊢
        cases hhandled with
        | answer status _ _ => exact ⟨by rwa [send_socket], sent_send_of_not_open h _ _⟩
        | @login type user password u _ _ =>
          have hnot : { s with authenticatedUser := some u }.socket ≠ .open_ := h
          exact ⟨by rwa [send_socket], sent_send_of_not_open hnot _ _⟩
        | refused _ _ =>
          have hnot : { s with authenticatedUser := none }.socket ≠ .open_ := h
          exact ⟨closeSocket_not_open _, sent_send_of_not_open hnot _ _⟩
        | start _ _ => exact ⟨h, rfl⟩
        | crash _ _ => exact ⟨WsSocket.noConfusion, rfl⟩
  | emission n e =>
    have hemitted := handleEmission_emitted n e s
    unfold next
    dsimp only
    generalize s.handleEmission n e = s' at hemitted ⊢
    cases hemitted with
    | ignored => exact ⟨h, rfl⟩
    | quiet _ _ _ _ => exact ⟨by rwa [settle_socket], settle_sent _ _ _ _⟩
    | @answer sub status _ _ _ _ =>
      have hsocket : (s.settle n sub e).socket ≠ .open_ := by rwa [settle_socket]
      exact ⟨by rwa [send_socket], (sent_send_of_not_open hsocket _ _).trans (settle_sent _ _ _ _)⟩
  | close => exact ⟨WsSocket.noConfusion, rfl⟩

end SessionLemmas

open SessionLemmas in
/-- Whatever a client sends and however jobs run: every answer goes to the channel of a command that
it may answer, and anything but a refusal, the status unknown or the answer to an authentication
belongs to a command that came from an authenticated user; every job that was started is the job of
such a command, with the signing key of that user; a user is authenticated by his own password; and
after an authentication that fails nothing is sent any more. -/
theorem session_gate {κ : Type} (config : WsConfig) (es : List (WsEvent κ)) :
    GateKept config es (exec (WsSession.next config) .initial es) ∧
      ∀ before msg after type user password, es = before ++ .message (some msg) :: after →
        msg.cmd = .auth type user password →
        WsSession.basicUser config type user password = none →
        (exec (WsSession.next config) .initial before).socket ≠ .closed →
          (exec (WsSession.next config) .initial es).sent =
            (exec (WsSession.next config) .initial (before ++ [.message (some msg)])).sent := by
  refine ⟨gateKept config es, ?_⟩
  rintro before msg after type user password rfl hcmd hu hsocket
  rw [← List.singleton_append, ← List.append_assoc, exec_append]
  have hclosed : (exec (WsSession.next config) .initial (before ++ [.message (some msg)])).socket ≠
      .open_ := by
    rw [exec_append_singleton, WsSession.next, if_neg hsocket]
    rw [WsSession.handleMsg, hcmd]
    simp only [hu]
    exact closeSocket_not_open _
  generalize exec (WsSession.next config) .initial (before ++ [.message (some msg)]) = s at hclosed ⊢
  refine (exec_invariant (fun s' : WsSession κ => s'.socket ≠ .open_ ∧ s'.sent = s.sent)
    ⟨hclosed, rfl⟩ ?_).2
  rintro s' e ⟨hnot, hsent⟩
  have hnext := next_sent_of_not_open config hnot e
  exact ⟨hnext.1, hnext.2.trans hsent⟩

end Everarch
