import Everarch.WebsocketServer.Session

/-!
# The channels of a websocket connection

An `EvrConnection` of the websocket client and the server that it is connected to. The client numbers
its commands and listens for answers with the number of a command. Messages arrive in the order
they were sent, answers are made in any order.

* `ChannelLemmas.pending_handled`, `pending_emitted`: the answers to a channel and the jobs that
  will still answer it, counted together.
* `ChannelLemmas.linked`: what holds of a client and its server together.

Results: `channels_keep_apart`.
-/

namespace Everarch

/-! ## The client and its server -/

/-- The commands that `_send` was given, how many of their messages have reached the server, the
server's side of the connection, and how many of its answers have reached the client. -/
structure WsLink where
  commands : List WsCmd
  handled : Nat
  server : WsSession Nat
  delivered : Nat

inductive WsLinkEvent where
  | send (cmd : WsCmd)
  | serve
  | emission (n : Nat) (e : WsEmission)
  | deliver
  | close

namespace WsLink

def initial : WsLink :=
  ⟨[], 0, .initial, 0⟩

/-- `_send`: the channels count from one. -/
def channel (n : Nat) : Nat := n + 1

/-- One event of the client, the server or the network. -/
def next (config : WsConfig) (st : WsLink) : WsLinkEvent → WsLink
  | .send cmd => { st with commands := st.commands ++ [cmd] }
  | .serve =>
    match st.commands[st.handled]? with
    | none => st
    | some cmd =>
      { st with
        handled := st.handled + 1
        server := st.server.next config (.message (some ⟨channel st.handled, cmd⟩)) }
  | .emission n e => { st with server := st.server.next config (.emission n e) }
  | .deliver =>
    if st.delivered < st.server.sent.length then { st with delivered := st.delivered + 1 } else st
  | .close => { st with server := st.server.next config .close }

/-- The answers that the observable of `_fetch` for command `n` has passed on. -/
def responses (st : WsLink) (n : Nat) : List WsStatus :=
  ((st.server.sent.take st.delivered).filter (·.ch = channel n)).map (·.status)

end WsLink

/-- A watch command is answered again and again, any other once. -/
def WsCmd.isWatch : WsCmd → Bool
  | .watch _ _ _ => true
  | _ => false

/-- Whether a job may still answer a channel. -/
def WsSession.runs {κ : Type} [DecidableEq κ] (s : WsSession κ) (ch : κ) : Bool :=
  s.subscriptions.any fun sub => sub.active && sub.msg.ch == ch

namespace ChannelLemmas

open WsSession SessionLemmas WsLink

section Pending

variable {κ : Type} [DecidableEq κ] {config : WsConfig} {s s' : WsSession κ} {ch : κ} {msg : WsMsg κ}

/-- The answers to a channel and the jobs that may still answer it. -/
def pending (s : WsSession κ) (ch : κ) : Nat :=
  s.sent.countP (fun a => a.ch = ch) +
    s.subscriptions.countP fun sub => sub.active && decide (sub.msg.ch = ch)

theorem pending_send (s : WsSession κ) (ch' ch : κ) (status : WsStatus) :
    pending (s.send ch' status) ch =
      pending s ch + if s.socket = .open_ ∧ ch' = ch then 1 else 0 := by
  unfold pending
  rw [send_subscriptions, send]
  split
  · rename_i hopen
    by_cases hch : ch' = ch
    · simp [hopen, hch]
      omega
    · simp [hch]
  · rename_i hopen
    simp [hopen]

theorem pending_teardown (s : WsSession κ) (ch : κ) : pending s.teardown ch ≤ pending s ch := by
  have hnone : s.teardown.subscriptions.countP
      (fun sub => sub.active && decide (sub.msg.ch = ch)) = 0 := by
    simp [teardown, List.countP_map]
  unfold pending
  rw [hnone, show s.teardown.sent = s.sent from rfl]
  exact Nat.le_add_right _ _

theorem pending_start (s : WsSession κ) (msg : WsMsg κ) (job : WsJob) (ch : κ) :
    pending (s.start msg job) ch = pending s ch + if msg.ch = ch then 1 else 0 := by
  unfold pending start
  rw [List.countP_append, ← Nat.add_assoc]
  simp [List.countP_singleton]

/-- A message adds an answer or a job to its own channel, unless the connection ends. -/
theorem pending_handled (h : Handled config msg s s') (ch : κ) :
    pending s' ch ≤ pending s ch + (if msg.ch = ch then 1 else 0) ∧
      (s'.socket = .open_ → pending s' ch = pending s ch + if msg.ch = ch then 1 else 0) := by
  have hsend : ∀ (s₁ : WsSession κ) status, pending s₁ ch = pending s ch →
      pending (s₁.send msg.ch status) ch ≤ pending s ch + (if msg.ch = ch then 1 else 0) ∧
        ((s₁.send msg.ch status).socket = .open_ →
          pending (s₁.send msg.ch status) ch = pending s ch + if msg.ch = ch then 1 else 0) := by
    intro s₁ status hs₁
    rw [pending_send, send_socket, hs₁]
    refine ⟨Nat.add_le_add_left ?_ _, fun hopen => by simp [hopen]⟩
    split
    · rename_i hboth
      rw [if_pos hboth.2]
    · exact Nat.zero_le _
  cases h with
  | answer status _ _ => exact hsend s status rfl
  | @login type user password u _ _ => exact hsend { s with authenticatedUser := some u } _ rfl
  | refused _ _ =>
    refine ⟨(hsend { s with authenticatedUser := none } .unauthenticated rfl).1, fun hopen => ?_⟩
    exact absurd hopen (closeSocket_not_open _)
  | @start u job _ _ =>
    rw [pending_start]
    exact ⟨Nat.le_refl _, fun _ => rfl⟩
  | crash _ _ =>
    exact ⟨(pending_teardown s ch).trans (Nat.le_add_right _ _), fun hopen => nomatch hopen⟩

/-- A job that ends leaves the channel of its command. -/
theorem pending_settle {n : Nat} {sub : WsSubscription κ} (hsub : s.subscriptions[n]? = some sub)
    (hactive : sub.active = true) (e : WsEmission) (ch : κ) :
    pending (s.settle n sub e) ch + (if endsWith e = true ∧ sub.msg.ch = ch then 1 else 0) =
      pending s ch := by
  obtain ⟨hn, hget⟩ := List.getElem?_eq_some_iff.mp hsub
  unfold settle
  cases hends : endsWith e with
  | false => simp
  | true =>
    unfold pending
    simp only [if_true, true_and]
    rw [List.countP_set hn, hget]
    by_cases hch : sub.msg.ch = ch
    · have hpos : 0 < s.subscriptions.countP fun sub => sub.active && decide (sub.msg.ch = ch) :=
        List.countP_pos_iff.mpr ⟨sub, List.mem_of_getElem? hsub, by simp [hactive, hch]⟩
      simp [hactive, hch]
      omega
    · simp [hch]

/-- What the job of a command other than watch emits ends it and is answered. -/
theorem canEmit_once {cmd : WsCmd} {e : WsEmission} (hwatch : cmd.isWatch = false)
    (hcan : canEmit cmd e = true) : endsWith e = true ∧ emissionStatus cmd e ≠ none := by
  cases cmd with
  | watch _ _ _ => cases hwatch
  | _ => cases e <;> simp_all [canEmit, endsWith, emissionStatus]

/-- An emission of a job that answers once: the job becomes the answer. -/
theorem pending_emitted {n : Nat} {e : WsEmission} (h : Emitted n e s s') (ch : κ)
    (honce : ∀ sub ∈ s.subscriptions, sub.msg.ch = ch → sub.msg.cmd.isWatch = false) :
    pending s' ch ≤ pending s ch ∧ (s.socket = .open_ → pending s' ch = pending s ch) := by
  cases h with
  | ignored => exact ⟨Nat.le_refl _, fun _ => rfl⟩
  | @quiet sub hsub hactive hcan hstatus =>
    have hsettle := pending_settle hsub hactive e ch
    have hother : sub.msg.ch ≠ ch := fun hch =>
      (canEmit_once (honce sub (List.mem_of_getElem? hsub) hch) hcan).2 hstatus
    rw [if_neg fun hboth => hother hboth.2, Nat.add_zero] at hsettle
    exact ⟨hsettle.le, fun _ => hsettle⟩
  | @answer sub status hsub hactive hcan hstatus =>
    have hsettle := pending_settle hsub hactive e ch
    rw [pending_send, ← hsettle, settle_socket]
    by_cases hch : sub.msg.ch = ch
    · have hends := (canEmit_once (honce sub (List.mem_of_getElem? hsub) hch) hcan).1
      rw [if_pos (⟨hends, hch⟩ : endsWith e = true ∧ sub.msg.ch = ch)]
      refine ⟨Nat.add_le_add_left ?_ _, fun hopen => by rw [if_pos ⟨hopen, hch⟩]⟩
      split <;> decide
    · rw [if_neg fun hboth => hch hboth.2, if_neg fun hboth => hch hboth.2]
      exact ⟨Nat.le_refl _, fun _ => rfl⟩

end Pending

section Steps

variable {κ : Type} {config : WsConfig} {s s' : WsSession κ} {msg : WsMsg κ}

theorem send_keeps (s : WsSession κ) (ch : κ) (status : WsStatus) :
    s.sent <+: (s.send ch status).sent := by
  unfold send
  split
  · exact List.prefix_append _ _
  · exact List.prefix_rfl

theorem handled_keeps (h : Handled config msg s s') : s.sent <+: s'.sent := by
  cases h with
  | answer status _ _ => exact send_keeps s _ _
  | @login type user password u _ _ => exact send_keeps { s with authenticatedUser := some u } _ _
  | refused _ _ => exact send_keeps { s with authenticatedUser := none } _ _
  | start _ _ => exact List.prefix_rfl
  | crash _ _ => exact List.prefix_rfl

theorem emitted_keeps {n : Nat} {e : WsEmission} (h : Emitted n e s s') : s.sent <+: s'.sent := by
  cases h with
  | ignored => exact List.prefix_rfl
  | quiet _ _ _ _ => exact (settle_sent s n _ e).symm ▸ List.prefix_rfl
  | @answer sub status _ _ _ _ =>
    have hsend := send_keeps (s.settle n sub e) sub.msg.ch status
    rwa [settle_sent] at hsend

/-- What is sent for a message goes to its channel. -/
theorem handled_sent (h : Handled config msg s s') :
    ∀ a ∈ s'.sent, a ∈ s.sent ∨ a.ch = msg.ch ∧ msg.cmd.Answers a.status := by
  intro a ha
  have hsend : ∀ (s₁ : WsSession κ) status, s₁.sent = s.sent → msg.cmd.Answers status →
      a ∈ (s₁.send msg.ch status).sent → a ∈ s.sent ∨ a.ch = msg.ch ∧ msg.cmd.Answers a.status := by
    intro s₁ status hs₁ hanswers ha
    rcases mem_send ha with ha | rfl
    · exact .inl (hs₁ ▸ ha)
    · exact .inr ⟨rfl, hanswers⟩
  cases h with
  | answer status hanswers _ => exact hsend s status rfl hanswers ha
  | @login type user password u hcmd _ =>
    exact hsend { s with authenticatedUser := some u } _ rfl (by rw [hcmd]; trivial) ha
  | refused hcmd _ =>
    exact hsend { s with authenticatedUser := none } _ rfl (by rw [hcmd]; trivial) ha
  | start _ _ => exact .inl ha
  | crash _ _ => exact .inl ha

theorem handled_subscriptions (h : Handled config msg s s') :
    ∀ sub ∈ s'.subscriptions, (∃ sub' ∈ s.subscriptions, sub.msg = sub'.msg) ∨
      sub.msg = msg ∧ ∃ u, msg.cmd.jobOf u ≠ none := by
  intro sub hsub
  cases h with
  | answer status _ _ => exact .inl ⟨sub, by rwa [send_subscriptions] at hsub, rfl⟩
  | login _ _ => exact .inl ⟨sub, by rwa [send_subscriptions] at hsub, rfl⟩
  | refused _ _ =>
    rw [closeSocket, send_subscriptions] at hsub
    exact .inl ⟨sub, hsub, rfl⟩
  | @start u job _ hjob =>
    rcases List.mem_append.mp hsub with hsub | hsub
    · exact .inl ⟨sub, hsub, rfl⟩
    · rw [List.mem_singleton.mp hsub]
      exact .inr ⟨rfl, u, by rw [hjob]; exact Option.some_ne_none job⟩
  | crash _ _ =>
    obtain ⟨sub', hsub', rfl⟩ := List.mem_map.mp hsub
    exact .inl ⟨sub', hsub', rfl⟩

theorem settle_subscriptions {n : Nat} {sub : WsSubscription κ}
    (hsub : s.subscriptions[n]? = some sub) (e : WsEmission) :
    ∀ sub₁ ∈ (s.settle n sub e).subscriptions, ∃ sub' ∈ s.subscriptions, sub₁.msg = sub'.msg := by
  intro sub₁ hsub₁
  unfold settle at hsub₁
  split at hsub₁
  · rcases List.mem_or_eq_of_mem_set hsub₁ with hsub₁ | rfl
    · exact ⟨sub₁, hsub₁, rfl⟩
    · exact ⟨sub, List.mem_of_getElem? hsub, rfl⟩
  · exact ⟨sub₁, hsub₁, rfl⟩

theorem emitted_subscriptions {n : Nat} {e : WsEmission} (h : Emitted n e s s') :
    ∀ sub ∈ s'.subscriptions, ∃ sub' ∈ s.subscriptions, sub.msg = sub'.msg := by
  cases h with
  | ignored => exact fun sub hsub => ⟨sub, hsub, rfl⟩
  | quiet hsub _ _ _ => exact settle_subscriptions hsub e
  | answer hsub _ _ _ =>
    rw [send_subscriptions]
    exact settle_subscriptions hsub e

/-- What is sent for an emission goes to the channel of the command that the job is for. -/
theorem emitted_sent {n : Nat} {e : WsEmission} (h : Emitted n e s s')
    (hjobs : ∀ sub ∈ s.subscriptions, ∃ u, sub.msg.cmd.jobOf u ≠ none) :
    ∀ a ∈ s'.sent, a ∈ s.sent ∨
      ∃ sub ∈ s.subscriptions, a.ch = sub.msg.ch ∧ sub.msg.cmd.Answers a.status := by
  intro a ha
  cases h with
  | ignored => exact .inl ha
  | quiet _ _ _ _ => exact .inl (by rwa [settle_sent] at ha)
  | @answer sub status hsub _ hcan hstatus =>
    have hmem := List.mem_of_getElem? hsub
    rcases mem_send ha with ha | rfl
    · exact .inl (by rwa [settle_sent] at ha)
    · exact .inr ⟨sub, hmem, rfl, emissionStatus_answers hcan hstatus (hjobs sub hmem)⟩

/-- A socket that is open was open before. -/
theorem handled_open (h : Handled config msg s s') (hopen : s'.socket = .open_) :
    s.socket = .open_ := by
  cases h with
  | answer status _ _ => rwa [send_socket] at hopen
  | login _ _ => rwa [send_socket] at hopen
  | refused _ _ => exact absurd hopen (closeSocket_not_open _)
  | start _ _ => exact hopen
  | crash _ _ => cases hopen

theorem emitted_open {n : Nat} {e : WsEmission} (h : Emitted n e s s')
    (hopen : s'.socket = .open_) : s.socket = .open_ := by
  cases h with
  | ignored => exact hopen
  | quiet _ _ _ _ => rwa [settle_socket] at hopen
  | answer _ _ _ _ => rwa [send_socket, settle_socket] at hopen

end Steps

end ChannelLemmas

/-! ## What holds of a client and its server together -/

/-- Everything that the server holds belongs to a command that it was given, and the answers and
jobs of a command that is answered once are at most one. -/
structure WsLink.Linked (st : WsLink) : Prop where
  handled : st.handled ≤ st.commands.length
  delivered : st.delivered ≤ st.server.sent.length
  sent : ∀ a ∈ st.server.sent, ∃ n cmd, n < st.handled ∧ st.commands[n]? = some cmd ∧
    a.ch = WsLink.channel n ∧ cmd.Answers a.status
  subscriptions : ∀ sub ∈ st.server.subscriptions, ∃ n cmd, n < st.handled ∧
    st.commands[n]? = some cmd ∧ sub.msg = ⟨WsLink.channel n, cmd⟩ ∧ ∃ u, cmd.jobOf u ≠ none
  pending : ∀ n cmd, st.commands[n]? = some cmd → cmd.isWatch = false →
    ChannelLemmas.pending st.server (WsLink.channel n) ≤ (if n < st.handled then 1 else 0) ∧
      (st.server.socket = .open_ →
        ChannelLemmas.pending st.server (WsLink.channel n) = if n < st.handled then 1 else 0)

section Linked

open ChannelLemmas SessionLemmas WsLink

variable {config : WsConfig} {st : WsLink}

theorem WsLink.channel_inj {n m : Nat} : channel n = channel m ↔ n = m :=
  Nat.succ_inj

/-- One more command, not yet on its way. -/
theorem WsLink.Linked.send (h : Linked st) (cmd : WsCmd) :
    Linked { st with commands := st.commands ++ [cmd] } := by
  have hkeep : ∀ {n : Nat} {cmd' : WsCmd}, st.commands[n]? = some cmd' →
      (st.commands ++ [cmd])[n]? = some cmd' := fun hn =>
    (List.getElem?_append_left (List.getElem?_eq_some_iff.mp hn).1).trans hn
  refine ⟨h.handled.trans (by simp), h.delivered, fun a ha => ?_, fun sub hsub => ?_,
    fun n cmd' hn hw => ?_⟩
  · obtain ⟨n, cmd', hlt, hn, hfits⟩ := h.sent a ha
    exact ⟨n, cmd', hlt, hkeep hn, hfits⟩
  · obtain ⟨n, cmd', hlt, hn, hfits⟩ := h.subscriptions sub hsub
    exact ⟨n, cmd', hlt, hkeep hn, hfits⟩
  · by_cases hlt : n < st.commands.length
    · exact h.pending n cmd' ((List.getElem?_append_left hlt).symm.trans hn) hw
    · have hnone : ChannelLemmas.pending st.server (channel n) = 0 := by
        rw [ChannelLemmas.pending, Nat.add_eq_zero_iff, List.countP_eq_zero, List.countP_eq_zero]
        refine ⟨fun a ha hch => ?_, fun sub hsub hch => ?_⟩
        · obtain ⟨m, _, hm, _, hach, _⟩ := h.sent a ha
          have hmn := channel_inj.mp (hach.symm.trans (of_decide_eq_true hch))
          exact hlt (hmn ▸ hm.trans_le h.handled)
        · obtain ⟨m, _, hm, _, hsub, _⟩ := h.subscriptions sub hsub
          have hch := of_decide_eq_true (Bool.and_eq_true_iff.mp hch).2
          rw [hsub] at hch
          exact hlt (channel_inj.mp hch ▸ hm.trans_le h.handled)
      have hnot : ¬n < st.handled := fun hn => hlt (hn.trans_le h.handled)
      dsimp only
      rw [hnone, if_neg hnot]
      exact ⟨Nat.le_refl _, fun _ => rfl⟩

/-- The next command reaches the server, which handles it or is closed. -/
theorem WsLink.Linked.serve (h : Linked st) {cmd : WsCmd} {s' : WsSession Nat}
    (hcmd : st.commands[st.handled]? = some cmd)
    (hs : s' = st.server ∧ st.server.socket = .closed ∨
      Handled config ⟨channel st.handled, cmd⟩ st.server s') :
    Linked { st with handled := st.handled + 1, server := s' } := by
  obtain ⟨hlt, -⟩ := List.getElem?_eq_some_iff.mp hcmd
  have hnew : st.handled < st.handled + 1 := Nat.lt_succ_self _
  refine ⟨hlt, ?_, fun a ha => ?_, fun sub hsub => ?_, fun n cmd' hn hw => ?_⟩
  · rcases hs with ⟨rfl, -⟩ | hs
    · exact h.delivered
    · exact h.delivered.trans (handled_keeps hs).length_le
  · have hold : a ∈ st.server.sent ∨ a.ch = channel st.handled ∧ cmd.Answers a.status := by
      rcases hs with ⟨rfl, -⟩ | hs
      · exact .inl ha
      · exact handled_sent hs a ha
    rcases hold with ha | hfits
    · obtain ⟨n, cmd', hn, hfits⟩ := h.sent a ha
      exact ⟨n, cmd', hn.trans hnew, hfits⟩
    · exact ⟨st.handled, cmd, hnew, hcmd, hfits⟩
  · have hold : (∃ sub' ∈ st.server.subscriptions, sub.msg = sub'.msg) ∨
        sub.msg = ⟨channel st.handled, cmd⟩ ∧ ∃ u, cmd.jobOf u ≠ none := by
      rcases hs with ⟨rfl, -⟩ | hs
      · exact .inl ⟨sub, hsub, rfl⟩
      · exact handled_subscriptions hs sub hsub
    rcases hold with ⟨sub', hsub', hmsg⟩ | hfits
    · obtain ⟨n, cmd', hn, hcmd', hfits⟩ := h.subscriptions sub' hsub'
      exact ⟨n, cmd', hn.trans hnew, hcmd', hmsg ▸ hfits⟩
    · exact ⟨st.handled, cmd, hnew, hcmd, hfits⟩
  · have hold := h.pending n cmd' hn hw
    have hbound : (if n < st.handled + 1 then 1 else 0) =
        (if n < st.handled then 1 else 0) + if channel st.handled = channel n then 1 else 0 := by
      simp only [channel_inj]
      split <;> split <;> split <;> omega
    dsimp only
    rw [hbound]
    rcases hs with ⟨rfl, hclosed⟩ | hs
    · exact ⟨hold.1.trans (Nat.le_add_right _ _), fun hopen => by rw [hclosed] at hopen; cases hopen⟩
    · have hpending := pending_handled hs (channel n)
      refine ⟨hpending.1.trans (Nat.add_le_add_right hold.1 _), fun hopen => ?_⟩
      rw [hpending.2 hopen, hold.2 (handled_open hs hopen)]

/-- A job emits. -/
theorem WsLink.Linked.emission (h : Linked st) {n : Nat} {e : WsEmission} {s' : WsSession Nat}
    (hs : Emitted n e st.server s') : Linked { st with server := s' } := by
  refine ⟨h.handled, h.delivered.trans (emitted_keeps hs).length_le, fun a ha => ?_,
    fun sub hsub => ?_, fun m cmd hm hw => ?_⟩
  · have hjobs : ∀ sub ∈ st.server.subscriptions, ∃ u, sub.msg.cmd.jobOf u ≠ none := by
      intro sub hsub
      obtain ⟨_, _, _, _, hmsg, hjob⟩ := h.subscriptions sub hsub
      rwa [hmsg]
    rcases emitted_sent hs hjobs a ha with ha | ⟨sub, hsub, hch, hfits⟩
    · exact h.sent a ha
    · obtain ⟨m, cmd, hm, hcmd, hmsg, _⟩ := h.subscriptions sub hsub
      rw [hmsg] at hch hfits
      exact ⟨m, cmd, hm, hcmd, hch, hfits⟩
  · obtain ⟨sub', hsub', hmsg⟩ := emitted_subscriptions hs sub hsub
    rw [hmsg]
    exact h.subscriptions sub' hsub'
  · have honce : ∀ sub ∈ st.server.subscriptions, sub.msg.ch = channel m →
        sub.msg.cmd.isWatch = false := by
      intro sub hsub hch
      obtain ⟨m', cmd', _, hcmd', hmsg, _⟩ := h.subscriptions sub hsub
      rw [hmsg] at hch ⊢
      rw [channel_inj.mp hch, hm] at hcmd'
      exact Option.some.inj hcmd' ▸ hw
    have hpending := pending_emitted hs (channel m) honce
    have hold := h.pending m cmd hm hw
    refine ⟨hpending.1.trans hold.1, fun hopen => ?_⟩
    have hbefore := emitted_open hs hopen
    exact (hpending.2 hbefore).trans (hold.2 hbefore)

theorem WsLink.Linked.teardown (h : Linked st) : Linked { st with server := st.server.teardown } where
  handled := h.handled
  delivered := h.delivered
  sent := h.sent
  subscriptions sub hsub := by
    obtain ⟨sub', hsub', rfl⟩ := List.mem_map.mp hsub
    exact h.subscriptions sub' hsub'
  pending n cmd hn hw :=
    ⟨(pending_teardown st.server _).trans (h.pending n cmd hn hw).1, fun hopen => nomatch hopen⟩

theorem ChannelLemmas.linked (config : WsConfig) (es : List WsLinkEvent) :
    Linked (exec (WsLink.next config) .initial es) := by
  refine exec_invariant Linked ⟨Nat.le_refl _, Nat.le_refl _, nofun, nofun, nofun⟩ ?_
  intro st e h
  cases e with
  | send cmd => exact h.send cmd
  | serve =>
    unfold WsLink.next
    dsimp only
    cases hcmd : st.commands[st.handled]? with
    | none => exact h
    | some cmd =>
      refine @WsLink.Linked.serve config st h cmd _ hcmd ?_
      rw [WsSession.next]
      split
      · rename_i hclosed
        exact .inl ⟨rfl, hclosed⟩
      · exact .inr (handleMsg_handled config _ _)
  | emission n e => exact h.emission (handleEmission_emitted n e _)
  | deliver =>
    unfold WsLink.next
    dsimp only
    split
    · rename_i hlt
      exact ⟨h.handled, hlt, h.sent, h.subscriptions, h.pending⟩
    · exact h
  | close => exact h.teardown

end Linked

/-- Whatever is sent and however jobs run and messages arrive: what the observable of a command
passes on answers that command. A command other than watch is answered at most once, and exactly
once as long as the socket stays open, when the server has handled it, its job has ended and all
answers have arrived. -/
theorem channels_keep_apart (config : WsConfig) (es : List WsLinkEvent) (n : Nat) :
    (∀ status ∈ (exec (WsLink.next config) .initial es).responses n, ∃ cmd,
      (exec (WsLink.next config) .initial es).commands[n]? = some cmd ∧ cmd.Answers status) ∧
    ∀ cmd, (exec (WsLink.next config) .initial es).commands[n]? = some cmd →
      cmd.isWatch = false →
        ((exec (WsLink.next config) .initial es).responses n).length ≤ 1 ∧
        ((exec (WsLink.next config) .initial es).server.socket = .open_ →
          n < (exec (WsLink.next config) .initial es).handled →
          (exec (WsLink.next config) .initial es).server.runs (WsLink.channel n) = false →
          (exec (WsLink.next config) .initial es).delivered =
            (exec (WsLink.next config) .initial es).server.sent.length →
          ((exec (WsLink.next config) .initial es).responses n).length = 1) := by
  have hlinked := ChannelLemmas.linked config es
  generalize exec (WsLink.next config) .initial es = st at hlinked ⊢
  refine ⟨fun status hstatus => ?_, fun cmd hcmd hw => ⟨?_, fun hopen hn hruns hall => ?_⟩⟩
  · obtain ⟨a, ha, rfl⟩ := List.mem_map.mp hstatus
    obtain ⟨ha, hch⟩ := List.mem_filter.mp ha
    obtain ⟨m, cmd, _, hcmd, hach, hfits⟩ := hlinked.sent a (List.mem_of_mem_take ha)
    have hmn := WsLink.channel_inj.mp (hach.symm.trans (of_decide_eq_true hch))
    exact ⟨cmd, hmn ▸ hcmd, hfits⟩
  · calc (st.responses n).length
        = (st.server.sent.take st.delivered).countP (·.ch = WsLink.channel n) := by
          rw [WsLink.responses, List.length_map, List.countP_eq_length_filter]
      _ ≤ st.server.sent.countP (·.ch = WsLink.channel n) :=
          (List.take_sublist _ _).countP_le
      _ ≤ ChannelLemmas.pending st.server (WsLink.channel n) := Nat.le_add_right _ _
      _ ≤ 1 := (hlinked.pending n cmd hcmd hw).1.trans (by split <;> decide)
  · have hpending := (hlinked.pending n cmd hcmd hw).2 hopen
    have hjobs : st.server.subscriptions.countP
        (fun sub => sub.active && decide (sub.msg.ch = WsLink.channel n)) = 0 :=
      List.countP_eq_zero.mpr fun sub hsub => by
        have hsub := List.any_eq_false.mp hruns sub hsub
        simpa using hsub
    rw [if_pos hn, ChannelLemmas.pending, hjobs, Nat.add_zero] at hpending
    rw [WsLink.responses, List.length_map, ← List.countP_eq_length_filter, hall, List.take_length]
    exact hpending

end Everarch
