import Everarch.AttrIndex.Gate

/-!
# The accesses to a command line

`evr_work_cmd` and the parsers that it calls, one access to the line after the other. A pointer
is null or an index into the line, which ends with a zero; any access through it that misses the
line is a fault.

* `LinesLemmas.runs_splitN`, `LinesLemmas.runs_parseAuthToken`, `LinesLemmas.runs_parseClaimRef`:
  the parsers stay within a line that they get a pointer into.
* `LinesLemmas.workCmd_faults_iff`: the one line that `evr_work_authenticate_cmd` gets no pointer
  for.

Result: `command_lines_survivable_iff`.
-/

namespace Everarch

/-! ## Memory -/

/-- An access that must not happen. -/
inductive LineFault where
  | nullPointer
  | outside
deriving DecidableEq

/-- Code that works on a line. -/
abbrev LineM := StateT Bytes (Except LineFault)

/-- A pointer into the line, or null. -/
abbrev LinePtr := Option Nat

namespace Line

def fault {α : Type} (f : LineFault) : LineM α :=
  fun _ => .error f

def add (p : LinePtr) (n : Nat) : LinePtr :=
  p.map (· + n)

/-- `*p`. -/
def peek : LinePtr → LineM UInt8
  | none => fault .nullPointer
  | some i => fun buf =>
    match buf[i]? with
    | none => .error .outside
    | some b => .ok (b, buf)

/-- `*p = b`. -/
def poke (p : LinePtr) (b : UInt8) : LineM Unit :=
  match p with
  | none => fault .nullPointer
  | some i => fun buf => if i < buf.length then .ok ((), buf.set i b) else .error .outside

/-- What C's string functions read from `p` on, which needs a zero somewhere. -/
def string : LinePtr → LineM Bytes
  | none => fault .nullPointer
  | some i => fun buf =>
    if 0 ∈ buf.drop i then .ok (cString (buf.drop i), buf) else .error .outside

/-- `strlen`. -/
def strlen (p : LinePtr) : LineM Nat :=
  return (← string p).length

/-- `strcmp(p, s) == 0`. -/
def strEq (p : LinePtr) (s : Bytes) : LineM Bool :=
  return (← string p) = s

/-- `index`. -/
def index (p : LinePtr) (c : UInt8) : LineM LinePtr := do
  let s ← string p
  return if c ∈ s then add p (s.idxOf c) else none

/-! ## Parsers -/

/-- The loop of `evr_split_n` over the bytes that are left. -/
def splitNLoop (fragmentsLen : Nat) (sep : UInt8) :
    Nat → LinePtr → List LinePtr → LineM (Option (List LinePtr))
  | 0, _, fragments => return if fragments.length ≠ fragmentsLen then none else some fragments
  | left + 1, cs, fragments => do
    if (← peek cs) = sep then
      if fragmentsLen ≤ fragments.length then return none
      poke cs 0
      splitNLoop fragmentsLen sep left (add cs 1) (fragments ++ [add cs 1])
    else splitNLoop fragmentsLen sep left (add cs 1) fragments

/-- `evr_split_n`. -/
def splitN (fragmentsLen : Nat) (s : LinePtr) (sep : UInt8) : LineM (Option (List LinePtr)) := do
  if fragmentsLen = 0 then return none
  splitNLoop fragmentsLen sep ((← strlen s) + 1) s [s]

/-- The loop of `evr_parse_auth_token` over the bytes of the token. -/
def parseAuthTokenLoop (s : LinePtr) : List Nat → LineM (Option Bytes)
  | [] => return some []
  | i :: is => do
    let buf := [← peek (add s (2 * i)), ← peek (add s (2 * i + 1))]
    match sscanfHex 2 (buf.map fun b => Char.ofNat b.toNat) with
    | none => return none
    | some v => return (← parseAuthTokenLoop s is).map (UInt8.ofNat v :: ·)

/-- `evr_parse_auth_token`. -/
def parseAuthToken (s : LinePtr) : LineM (Option Bytes) := do
  if (← strlen s) ≠ 2 * authTokenSize then return none
  parseAuthTokenLoop s (List.range authTokenSize)

/-- `memcpy` from the line. -/
def memcpy (p : LinePtr) : List Nat → LineM Bytes
  | [] => return []
  | i :: is => do
    let b ← peek (add p i)
    return b :: (← memcpy p is)

/-- `evr_parse_claim_ref`. What it copies is parsed outside of the line. -/
def parseClaimRef (fmtRef : LinePtr) : LineM Res := do
  if (← strlen fmtRef) ≠ claimRefStrLen then return .error
  let _ ← memcpy fmtRef (List.range blobRefStrLen)
  let s := add fmtRef blobRefStrLen
  if (← string s).take 1 ≠ text "-" then return .error
  match sscanfHex 4 ((← string (add s 1)).map fun b => Char.ofNat b.toNat) with
  | none => return .error
  | some _ => return .ok

/-! ## Commands -/

/-- `evr_work_authenticate_cmd`. -/
def workAuthenticateCmd (authToken : Bytes) (authenticated : Bool) (argsStr : LinePtr) :
    LineM (Res × Bool) := do
  match ← splitN 2 argsStr space with
  | some [method, token] =>
    if !(← strEq method (text "token")) then return (.error, authenticated)
    match ← parseAuthToken token with
    | none => return (.error, authenticated)
    | some clientToken =>
      if clientToken ≠ authToken then return (.error, authenticated) else return (.ok, true)
  | _ => return (.error, authenticated)

/-- `evr_list_claims_for_seed`, with the result of what comes behind its argument. -/
def listClaimsForSeed (served : Res) (seedRefStr : LinePtr) : LineM Res := do
  match seedRefStr with
  -- an empty string takes the place of the null pointer
  | none => return .error
  | some i => if (← parseClaimRef (some i)) ≠ .ok then return .error else return served

/-- `evr_work_cmd` behind the authenticate command. `evr_work_search_cmd` puts an empty string in
the place of a null pointer as well. -/
def workOtherCmd (authenticated : Bool) (served : Res) (args : LinePtr) : LineM (Res × Bool) := do
  let cmd ← string (some 0)
  if authenticated ∧ cmd = text "s" then return (served, authenticated)
  else if authenticated ∧ cmd = text "c" then
    return (← listClaimsForSeed served args, authenticated)
  else if authenticated ∧ (cmd = text "w" ∨ cmd = text "i") then return (served, authenticated)
  else if cmd = text "exit" then return (.end_, authenticated)
  else return (served, authenticated)

/-- `evr_work_cmd`. `served` is what comes of the commands and the responses behind the parsers. -/
def workCmd (authToken : Bytes) (authenticated : Bool) (served : Res) : LineM (Res × Bool) := do
  let blank ← index (some 0) space
  if blank.isSome then poke blank 0
  let args := add blank 1
  if ← strEq (some 0) (text "a") then workAuthenticateCmd authToken authenticated args
  else workOtherCmd authenticated served args

end Line

/-! ## Connections -/

/-- A line that the client has sent, and what comes of its command behind the parsers. -/
structure LineInput where
  line : Bytes
  served : Res

/-- A connection whose worker takes one line after the other. -/
structure LineConn where
  authenticated : Bool
  ended : Bool
  fault : Option LineFault

/-- A new connection. -/
def LineConn.start : LineConn :=
  ⟨false, false, none⟩

/-- The worker takes a line, whose newline has become a zero. -/
def LineConn.work (authToken : Bytes) (s : LineConn) (i : LineInput) : LineConn :=
  if s.ended || s.fault.isSome then s
  else
    match Line.workCmd authToken s.authenticated i.served (i.line ++ [0]) with
    | .error f => { s with fault := some f }
    | .ok ((res, authenticated), _) => ⟨authenticated, res ≠ .ok, none⟩

/-- The line is no authenticate command without an argument. -/
def HasArgument (line : Bytes) : Prop :=
  cString line ≠ text "a"

namespace LinesLemmas

open Line

/-! ## Code that runs without a fault -/

section Runs

variable {α β : Type} {m : LineM α} {f : α → LineM β} {buf : Bytes}

/-- The code comes to an end without a fault, with `Q`. -/
def Runs (m : LineM α) (buf : Bytes) (Q : α → Bytes → Prop) : Prop :=
  ∃ a buf', m buf = .ok (a, buf') ∧ Q a buf'

theorem runs_pure {Q : α → Bytes → Prop} {a : α} (h : Q a buf) : Runs (pure a) buf Q :=
  ⟨a, buf, rfl, h⟩

theorem runs_bind {P : α → Bytes → Prop} {Q : β → Bytes → Prop} (hm : Runs m buf P)
    (hf : ∀ a buf', P a buf' → Runs (f a) buf' Q) : Runs (m >>= f) buf Q := by
  obtain ⟨a, buf', hrun, hP⟩ := hm
  obtain ⟨b, buf'', hrun', hQ⟩ := hf a buf' hP
  refine ⟨b, buf'', ?_, hQ⟩
  show (m buf).bind _ = _
  rw [hrun]
  exact hrun'

theorem Runs.imp {P Q : α → Bytes → Prop} (h : Runs m buf P) (hPQ : ∀ a buf', P a buf' → Q a buf') :
    Runs m buf Q := by
  obtain ⟨a, buf', hrun, hP⟩ := h
  exact ⟨a, buf', hrun, hPQ a buf' hP⟩

theorem bind_ok {a : α} {buf' : Bytes} (h : m buf = .ok (a, buf')) : (m >>= f) buf = f a buf' := by
  show (m buf).bind _ = _
  rw [h]
  rfl

end Runs

/-! ## Within a line -/

/-- A line with its zero at `n`. -/
structure Ends (n : Nat) (buf : Bytes) : Prop where
  length : buf.length = n + 1
  zero : buf[n]? = some 0

/-- The pointer is one into the line. -/
def PtrIn (n : Nat) (p : LinePtr) : Prop :=
  ∃ i ≤ n, p = some i

variable {n i : Nat} {buf : Bytes}

theorem ends_line (line : Bytes) : Ends line.length (line ++ [0]) :=
  ⟨List.length_append, by simp⟩

theorem zero_mem_drop (h : Ends n buf) (hi : i ≤ n) : 0 ∈ buf.drop i := by
  refine List.mem_iff_getElem?.mpr ⟨n - i, ?_⟩
  rw [List.getElem?_drop, Nat.add_sub_cancel' hi]
  exact h.zero

/-- A string ends before the zero of the line, or there. -/
theorem string_eq (h : Ends n buf) (hi : i ≤ n) :
    string (some i) buf = .ok (cString (buf.drop i), buf) ∧
      i + (cString (buf.drop i)).length ≤ n := by
  refine ⟨if_pos (zero_mem_drop h hi), ?_⟩
  have hlt : (cString (buf.drop i)).length < (buf.drop i).length := by
    refine Nat.lt_of_le_of_ne (List.takeWhile_prefix _).length_le fun heq => ?_
    have hall := (List.takeWhile_prefix (l := buf.drop i) fun b => decide (b ≠ 0)).eq_of_length heq
    have hzero : 0 ∈ cString (buf.drop i) := by
      rw [cString, hall]
      exact zero_mem_drop h hi
    simpa using List.mem_takeWhile_imp hzero
  rw [List.length_drop, h.length] at hlt
  omega

theorem runs_string (h : Ends n buf) (hi : i ≤ n) :
    Runs (string (some i)) buf fun s buf' => buf' = buf ∧ i + s.length ≤ n :=
  ⟨_, buf, (string_eq h hi).1, rfl, (string_eq h hi).2⟩

theorem runs_strlen (h : Ends n buf) (hi : i ≤ n) :
    Runs (strlen (some i)) buf fun len buf' => buf' = buf ∧ i + len ≤ n :=
  runs_bind (runs_string h hi) fun _ _ hs => runs_pure hs

theorem runs_strEq (h : Ends n buf) (hi : i ≤ n) (s : Bytes) :
    Runs (strEq (some i) s) buf fun _ buf' => buf' = buf :=
  runs_bind (runs_string h hi) fun _ _ hs => runs_pure hs.1

theorem runs_peek (h : Ends n buf) (hi : i ≤ n) :
    Runs (peek (some i)) buf fun b buf' => buf' = buf ∧ buf[i]? = some b := by
  have hlt : i < buf.length := h.length ▸ Nat.lt_succ_of_le hi
  refine ⟨buf[i], buf, ?_, rfl, List.getElem?_eq_getElem hlt⟩
  show (match buf[i]? with | none => _ | some b => _) = _
  rw [List.getElem?_eq_getElem hlt]

theorem runs_poke (h : Ends n buf) (hi : i ≤ n) :
    Runs (poke (some i) 0) buf fun _ buf' => Ends n buf' := by
  have hlt : i < buf.length := h.length ▸ Nat.lt_succ_of_le hi
  refine ⟨(), buf.set i 0, if_pos hlt, List.length_set.trans h.length, ?_⟩
  rw [List.getElem?_set]
  split
  · rfl
  · exact h.zero

/-! ## Parsers -/

/-- The bytes that are left end with the zero, which is no separator. -/
theorem runs_splitNLoop (fragmentsLen : Nat) {sep : UInt8} (hsep : sep ≠ 0) {left : Nat}
    (h : Ends n buf) (hleft : i + left ≤ n + 1) {fragments : List LinePtr}
    (hfragments : ∀ p ∈ fragments, PtrIn n p) :
    Runs (splitNLoop fragmentsLen sep left (some i) fragments) buf fun res buf' =>
      Ends n buf' ∧ ∀ ps ∈ res, ∀ p ∈ ps, PtrIn n p := by
  induction left generalizing i buf fragments with
  | zero =>
    refine runs_pure ⟨h, ?_⟩
    split
    · exact fun _ hps => by cases hps
    · rintro _ ⟨⟩
      exact hfragments
  | succ left ih =>
    unfold splitNLoop
    refine runs_bind (runs_peek h (by omega)) ?_
    rintro b _ ⟨rfl, hget⟩
    split
    · next hb =>
      have hi : i < n := by
        refine Nat.lt_of_le_of_ne (by omega) fun heq => hsep ?_
        rw [heq, h.zero, Option.some.injEq] at hget
        exact hb.symm.trans hget.symm
      split
      · exact runs_pure ⟨h, fun _ hps => by cases hps⟩
      · refine runs_bind (runs_poke h (Nat.le_of_lt hi)) fun _ _ h' => ?_
        refine ih (i := i + 1) h' (by omega) fun p hp => ?_
        rcases List.mem_append.mp hp with hp | hp
        · exact hfragments p hp
        · exact ⟨i + 1, hi, List.mem_singleton.mp hp⟩
    · exact ih (i := i + 1) h (by omega) hfragments

theorem runs_splitN (fragmentsLen : Nat) {sep : UInt8} (hsep : sep ≠ 0) (h : Ends n buf)
    (hi : i ≤ n) :
    Runs (Line.splitN fragmentsLen (some i) sep) buf fun res buf' =>
      Ends n buf' ∧ ∀ ps ∈ res, ∀ p ∈ ps, PtrIn n p := by
  unfold Line.splitN
  split
  · exact runs_pure ⟨h, fun _ hps => by cases hps⟩
  · refine runs_bind (runs_strlen h hi) ?_
    rintro len _ ⟨rfl, hlen⟩
    refine runs_splitNLoop fragmentsLen hsep h (by omega) fun p hp => ?_
    exact ⟨i, hi, List.mem_singleton.mp hp⟩

theorem parseAuthTokenLoop_cons (s : LinePtr) (k : Nat) (is : List Nat) :
    parseAuthTokenLoop s (k :: is) = (do
      let buf := [← peek (add s (2 * k)), ← peek (add s (2 * k + 1))]
      match sscanfHex 2 (buf.map fun b => Char.ofNat b.toNat) with
      | none => return none
      | some v => return (← parseAuthTokenLoop s is).map (UInt8.ofNat v :: ·)) := (rfl)

theorem runs_parseAuthTokenLoop (h : Ends n buf) {is : List Nat}
    (his : ∀ k ∈ is, i + (2 * k + 1) ≤ n) :
    Runs (parseAuthTokenLoop (some i) is) buf fun _ buf' => buf' = buf := by
  induction is with
  | nil => exact runs_pure rfl
  | cons k is ih =>
    have hk := his k List.mem_cons_self
    rw [parseAuthTokenLoop_cons]
    refine runs_bind (runs_peek h (show i + 2 * k ≤ n by omega)) ?_
    rintro b _ ⟨rfl, -⟩
    refine runs_bind (runs_peek h (show i + (2 * k + 1) ≤ n from hk)) ?_
    rintro b' _ ⟨rfl, -⟩
    dsimp only
    split
    · exact runs_pure rfl
    · refine runs_bind (ih fun k' hk' => his k' (List.mem_cons_of_mem _ hk')) fun _ _ heq => ?_
      exact runs_pure heq

theorem runs_parseAuthToken (h : Ends n buf) (hi : i ≤ n) :
    Runs (Line.parseAuthToken (some i)) buf fun _ buf' => buf' = buf := by
  unfold Line.parseAuthToken
  refine runs_bind (runs_strlen h hi) ?_
  rintro len _ ⟨rfl, hlen⟩
  split
  · exact runs_pure rfl
  · next hfull =>
    refine runs_parseAuthTokenLoop h fun k hk => ?_
    rw [List.mem_range] at hk
    omega

theorem runs_memcpy (h : Ends n buf) {is : List Nat} (his : ∀ k ∈ is, i + k ≤ n) :
    Runs (memcpy (some i) is) buf fun _ buf' => buf' = buf := by
  induction is with
  | nil => exact runs_pure rfl
  | cons k is ih =>
    unfold memcpy
    refine runs_bind (runs_peek h (his k List.mem_cons_self)) ?_
    rintro b _ ⟨rfl, -⟩
    refine runs_bind (ih fun k' hk' => his k' (List.mem_cons_of_mem _ hk')) fun _ _ heq => ?_
    exact runs_pure heq

theorem runs_parseClaimRef (h : Ends n buf) (hi : i ≤ n) :
    Runs (Line.parseClaimRef (some i)) buf fun _ buf' => buf' = buf := by
  have hlens : blobRefStrLen + 1 ≤ claimRefStrLen := by decide
  unfold Line.parseClaimRef
  refine runs_bind (runs_strlen h hi) ?_
  rintro len _ ⟨rfl, hlen⟩
  split
  · exact runs_pure rfl
  · next hfull =>
    have hcopied : ∀ k ∈ List.range blobRefStrLen, i + k ≤ n := fun k hk => by
      rw [List.mem_range] at hk
      omega
    refine runs_bind (runs_memcpy h hcopied) ?_
    rintro _ _ rfl
    refine runs_bind (runs_string h (show i + blobRefStrLen ≤ n by omega)) ?_
    rintro s _ ⟨rfl, -⟩
    split
    · exact runs_pure rfl
    · refine runs_bind (runs_string h (show i + blobRefStrLen + 1 ≤ n by omega)) ?_
      rintro s' _ ⟨rfl, -⟩
      split
      · exact runs_pure rfl
      · exact runs_pure rfl

/-! ## Commands -/

theorem runs_workAuthenticateCmd (authToken : Bytes) (authenticated : Bool) (h : Ends n buf)
    (hi : i ≤ n) :
    Runs (Line.workAuthenticateCmd authToken authenticated (some i)) buf fun _ _ => True := by
  unfold Line.workAuthenticateCmd
  refine runs_bind (runs_splitN 2 (by decide) h hi) ?_
  rintro res buf' ⟨h', hps⟩
  split
  · next method token =>
    obtain ⟨j, hj, rfl⟩ := hps _ rfl method List.mem_cons_self
    obtain ⟨k, hk, rfl⟩ := hps _ rfl token (List.mem_cons_of_mem _ List.mem_cons_self)
    refine runs_bind (runs_strEq h' hj _) ?_
    rintro eq _ rfl
    split
    · exact runs_pure trivial
    · refine runs_bind (runs_parseAuthToken h' hk) ?_
      rintro clientToken _ rfl
      split
      · exact runs_pure trivial
      · split
        · exact runs_pure trivial
        · exact runs_pure trivial
  · exact runs_pure trivial

theorem runs_listClaimsForSeed (served : Res) (h : Ends n buf) {p : LinePtr}
    (hp : p = none ∨ PtrIn n p) : Runs (listClaimsForSeed served p) buf fun _ _ => True := by
  rcases hp with rfl | ⟨i, hi, rfl⟩
  · exact runs_pure trivial
  · refine runs_bind (runs_parseClaimRef h hi) fun res _ _ => ?_
    split
    · exact runs_pure trivial
    · exact runs_pure trivial

theorem runs_workOtherCmd (authenticated : Bool) (served : Res) (h : Ends n buf) {args : LinePtr}
    (hargs : args = none ∨ PtrIn n args) :
    Runs (workOtherCmd authenticated served args) buf fun _ _ => True := by
  unfold workOtherCmd
  refine runs_bind (runs_string h (Nat.zero_le n)) ?_
  rintro cmd _ ⟨rfl, -⟩
  split
  · exact runs_pure trivial
  · split
    · exact runs_bind (runs_listClaimsForSeed served h hargs) fun _ _ _ => runs_pure trivial
    · split
      · exact runs_pure trivial
      · split
        · exact runs_pure trivial
        · exact runs_pure trivial

/-- A line of which nothing but `a` is left has no argument, and the authenticate command gets a
null pointer. Any other line is worked on within its bytes. -/
theorem workCmd_faults_iff (authToken : Bytes) (authenticated : Bool) (served : Res)
    (line : Bytes) :
    (∃ f, Line.workCmd authToken authenticated served (line ++ [0]) = .error f) ↔
      cString line = text "a" := by
  have hends := ends_line line
  have hstring := (string_eq hends (Nat.zero_le _)).1
  have hcut : cString ((line ++ [0]).drop 0) = cString line := by
    rw [List.drop_zero, cString, cString, List.takeWhile_append]
    split
    · next hall =>
      rw [List.takeWhile_cons_of_neg (by decide), List.append_nil]
      exact ((List.takeWhile_prefix _).eq_of_length hall).symm
    · rfl
  rw [hcut] at hstring
  have hindex : index (some 0) space (line ++ [0]) = .ok (if space ∈ cString line then
      add (some 0) ((cString line).idxOf space) else none, line ++ [0]) := bind_ok hstring
  by_cases hspace : space ∈ cString line
  · -- the argument starts behind the blank
    have hne : cString line ≠ text "a" := fun heq => by
      rw [heq] at hspace
      exact absurd hspace (by decide)
    refine iff_of_false ?_ hne
    rw [if_pos hspace] at hindex
    have hlt : (cString line).idxOf space < line.length :=
      Nat.lt_of_lt_of_le (List.idxOf_lt_length_of_mem hspace) (List.takeWhile_prefix _).length_le
    have hruns : Runs (Line.workCmd authToken authenticated served) (line ++ [0])
        fun _ _ => True := by
      unfold Line.workCmd
      have hblank : Runs (index (some 0) space) (line ++ [0]) fun p buf' =>
          p = add (some 0) ((cString line).idxOf space) ∧ buf' = line ++ [0] :=
        ⟨_, _, hindex, rfl, rfl⟩
      refine runs_bind hblank ?_
      rintro _ _ ⟨rfl, rfl⟩
      refine runs_bind (runs_poke hends (show 0 + (cString line).idxOf space ≤ line.length by
        omega)) fun _ buf' h' => ?_
      have hargs : PtrIn line.length (add (add (some 0) ((cString line).idxOf space)) 1) :=
        ⟨0 + (cString line).idxOf space + 1, by omega, rfl⟩
      refine runs_bind (runs_strEq h' (Nat.zero_le _) _) ?_
      rintro eq _ rfl
      split
      · obtain ⟨j, hj, heq⟩ := hargs
        rw [heq]
        exact runs_workAuthenticateCmd authToken authenticated h' hj
      · exact runs_workOtherCmd authenticated served h' (.inr hargs)
    obtain ⟨_, _, hrun, -⟩ := hruns
    rintro ⟨f, hf⟩
    rw [hrun] at hf
    cases hf
  · rw [if_neg hspace] at hindex
    have heq : strEq (some 0) (text "a") (line ++ [0]) =
        .ok (decide (cString line = text "a"), line ++ [0]) := bind_ok hstring
    have hwork : Line.workCmd authToken authenticated served (line ++ [0]) =
        (if cString line = text "a" then
          Line.workAuthenticateCmd authToken authenticated none (line ++ [0])
        else workOtherCmd authenticated served none (line ++ [0])) := by
      unfold Line.workCmd
      refine (bind_ok hindex).trans ((bind_ok heq).trans ?_)
      by_cases ha : cString line = text "a"
      · simp only [ha, decide_true, if_true]
        rfl
      · simp only [ha, decide_false, if_false]
        rfl
    rw [hwork]
    by_cases ha : cString line = text "a"
    · rw [if_pos ha]
      exact iff_of_true ⟨.nullPointer, rfl⟩ ha
    · rw [if_neg ha]
      obtain ⟨_, _, hrun, -⟩ := runs_workOtherCmd authenticated served hends (.inl rfl)
      refine iff_of_false ?_ ha
      rintro ⟨f, hf⟩
      rw [hrun] at hf
      cases hf

/-- The gate without the accesses crashes on the same lines. -/
theorem workCmd_crashes_iff {Ix : Type} (server : IndexServer Ix) (ix : Ix)
    (served : List (IndexCmd × Option Bytes)) (writable : Bool) (res : Res) (line : Bytes) :
    (Everarch.workCmd server ix served false writable line).res = none ↔
      ∃ f, Line.workCmd server.authToken false res (line ++ [0]) = .error f := by
  rw [workCmd_faults_iff]
  have hrespond (data : Bytes) : (respond writable data).1 ≠ none := by
    unfold respond
    split <;> exact Option.some_ne_none _
  unfold Everarch.workCmd
  dsimp only
  by_cases hspace : space ∈ cString line
  · have hne : cString line ≠ text "a" := fun heq => by
      rw [heq] at hspace
      exact absurd hspace (by decide)
    rw [if_pos hspace]
    refine iff_of_false ?_ hne
    split
    · exact Option.some_ne_none _
    · simp only [Bool.false_eq_true, if_false]
      split_ifs
      · exact id
      · exact hrespond _
      · exact hrespond _
  · have hcmd : (cString line).takeWhile (fun b => b ≠ space) = cString line :=
      List.takeWhile_eq_self_iff.mpr fun b hb => decide_eq_true (ne_of_mem_of_not_mem hb hspace)
    rw [if_neg hspace, hcmd]
    by_cases ha : cString line = text "a"
    · rw [if_pos ha]
      exact iff_of_true rfl ha
    · rw [if_neg ha]
      refine iff_of_false ?_ ha
      simp only [Bool.false_eq_true, if_false]
      split_ifs
      · exact id
      · exact hrespond _
      · exact hrespond _

end LinesLemmas

open LinesLemmas

/-- However a client puts its lines together, no access of a command misses its line in any state
if and only if no line that is worked on is an authenticate command without an argument. -/
theorem command_lines_survivable_iff (authToken : Bytes) (inputs : List LineInput) :
    (∀ before, before <+: inputs →
      (exec (LineConn.work authToken) .start before).fault = none) ↔
    Along (LineConn.work authToken) (fun s i => s.ended = false → HasArgument i.line) .start
      inputs := by
  refine invariant_iff_along (fun s : LineConn => s.fault = none) rfl fun before i _ hbefore => ?_
  rw [exec_append_singleton]
  generalize exec (LineConn.work authToken) .start before = s at hbefore ⊢
  have hfaults := workCmd_faults_iff authToken s.authenticated i.served i.line
  unfold LineConn.work HasArgument
  rw [hbefore, Option.isSome_none, Bool.or_false]
  by_cases hended : s.ended = true
  · simp [hended, hbefore]
  · rw [if_neg hended]
    rw [Bool.not_eq_true] at hended
    cases hrun : Line.workCmd authToken s.authenticated i.served (i.line ++ [0]) with
    | error f => simp [hended, hfaults.mp ⟨f, hrun⟩]
    | ok r =>
      have hne : cString i.line ≠ text "a" := fun ha => by
        obtain ⟨f, hf⟩ := hfaults.mpr ha
        rw [hrun] at hf
        cases hf
      simp [hne]

/-- The letter a on a line of its own, from a client that has not authenticated. -/
theorem bare_authenticate_faults :
    ¬∀ before, before <+: [LineInput.mk (text "a") .ok] →
      (exec (LineConn.work (List.replicate 32 0)) .start before).fault = none := by
  intro h
  exact absurd (h _ (List.prefix_refl _)) (by decide)

end Everarch
