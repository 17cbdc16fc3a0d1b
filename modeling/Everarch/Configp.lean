import Everarch.Lib.Bytes

/-!
# Config files

configp.c reads a config file with a machine over its characters, which hands one option after the
other to the parser of the command line options. The file is opened under the one name that its name
expands to, its reads do not fail and it can be closed.

* `configpStep`: one character. What a read returns is a list of them.
* `ConfigpLemmas.reads_eq`: the machine does not see where one read ends and the next begins.
* `ConfigpLemmas.run_line`: a line of a file that is well formed takes the machine from one start of
  a line to the next.

Result: `config_roundTrip`.
-/

namespace Everarch

/-! ## Options -/

/-- The codes of configp.c. -/
inductive ConfigRes where
  | ok
  | error
  | noSuchFile
deriving DecidableEq

/-- The part of `struct argp_option` that config files use. -/
structure ArgpOption where
  name : Bytes
  key : Int

/-- `struct configp`, with the options in front of the one without a name. The parser works on the
input `σ` and says if it returned 0. -/
structure Configp (σ : Type) where
  options : List ArgpOption
  parser : Int → Bytes → σ → Bool × σ

/-- `configp_find_option`. -/
def configpFindOption (options : List ArgpOption) (key : Bytes) : Option ArgpOption :=
  options.find? fun it => it.name = key

variable {σ : Type}

/-- `configp_consume_arg`, with whether it returned 0. -/
def configpConsumeArg (p : Configp σ) (key val : Bytes) (input : σ) : Bool × σ :=
  match configpFindOption p.options key with
  | none => (false, input)
  | some opt => p.parser opt.key val input

/-! ## Characters -/

inductive ConfigState where
  | whitespace
  | comment
  | key
  | postKey
  | preVal
  | val
deriving DecidableEq

/-- `is_key_char`. -/
def isKeyChar (c : UInt8) : Bool :=
  ('a'.toUInt8 ≤ c && c ≤ 'z'.toUInt8) || c = '-'.toUInt8

/-- `is_inline_whitespace_char`. -/
def isInlineWhitespaceChar (c : UInt8) : Bool :=
  c = ' '.toUInt8 || c = '\n'.toUInt8

/-- A call of `configp_consume_arg`. -/
structure ConfigCall where
  key : Bytes
  val : Bytes
  lineNo : Nat
deriving DecidableEq

/-- The variables of `configp_parse_file`: what stands in `key` before `keyp` and in `val` before
`valp`, and the calls that it has made. -/
structure ConfigScan (σ : Type) where
  state : ConfigState
  lineNo : Nat
  colNo : Nat
  key : Bytes
  val : Bytes
  input : σ
  calls : List ConfigCall

/-- `push_char` for `key`. -/
def ConfigScan.pushKey (s : ConfigScan σ) (c : UInt8) : Except (ConfigScan σ) (ConfigScan σ) :=
  if s.key.length = 256 then .error s else .ok { s with key := s.key ++ [c] }

/-- `push_char` for `val`. -/
def ConfigScan.pushVal (s : ConfigScan σ) (c : UInt8) : Except (ConfigScan σ) (ConfigScan σ) :=
  if s.val.length = 4096 then .error s else .ok { s with val := s.val ++ [c] }

/-- The end of a value. -/
def ConfigScan.consume (p : Configp σ) (s : ConfigScan σ) :
    Except (ConfigScan σ) (ConfigScan σ) := do
  let s ← s.pushKey 0
  let s ← s.pushVal 0
  let (accepted, input) := configpConsumeArg p (cString s.key) (cString s.val) s.input
  let s := { s with
    input := input
    calls := s.calls ++ [⟨cString s.key, cString s.val, s.lineNo⟩] }
  if accepted then .ok { s with key := [], val := [], state := .whitespace } else .error s

/-- The `switch` of `configp_parse_file`. -/
def configpSwitch (p : Configp σ) (s : ConfigScan σ) (b : UInt8) :
    Except (ConfigScan σ) (ConfigScan σ) :=
  match s.state with
  | .whitespace =>
    if b = '#'.toUInt8 then .ok { s with state := .comment }
    else if isInlineWhitespaceChar b || b = '\n'.toUInt8 then .ok s
    else if isKeyChar b then ({ s with state := .key }).pushKey b
    else .error s
  | .comment => if b = '\n'.toUInt8 then .ok { s with state := .whitespace } else .ok s
  | .key =>
    if isKeyChar b then s.pushKey b
    else if b = ' '.toUInt8 then .ok { s with state := .postKey }
    else if b = '='.toUInt8 then .ok { s with state := .val }
    else .error s
  | .postKey => if b = '='.toUInt8 then .ok { s with state := .preVal } else .error s
  | .preVal =>
    if isInlineWhitespaceChar b || b = '\n'.toUInt8 then .ok s
    else ({ s with state := .val }).pushVal b
  | .val => if isInlineWhitespaceChar b || b = '\n'.toUInt8 then s.consume p else s.pushVal b

/-- The place of the next character. -/
def ConfigScan.advance (b : UInt8) (s : ConfigScan σ) : ConfigScan σ :=
  if b = '\n'.toUInt8 then { s with lineNo := s.lineNo + 1, colNo := 0 }
  else { s with colNo := s.colNo + 1 }

def configpStep (p : Configp σ) (s : ConfigScan σ) (b : UInt8) :
    Except (ConfigScan σ) (ConfigScan σ) :=
  (configpSwitch p s b).map (ConfigScan.advance b)

/-- The reads of a file up to its end. -/
def configpReads (p : Configp σ) :
    List Bytes → ConfigScan σ → Except (ConfigScan σ) (ConfigScan σ)
  | [], s => .ok s
  | buf :: reads, s =>
    if buf = [] then .ok s
    else do
      let s ← buf.foldlM (configpStep p) s
      configpReads p reads s

/-! ## Files -/

/-- What opening a config file gives. -/
inductive ConfigOpen where
  | opened (reads : List Bytes)
  | noEntry
  | failed

structure ConfigOutcome (σ : Type) where
  res : ConfigRes
  input : σ
  calls : List ConfigCall

/-- `configp_parse_file` for a name that expands to `words` names. -/
def configpParseFile (p : Configp σ) (words : Nat) (file : ConfigOpen) (input : σ) :
    ConfigOutcome σ :=
  if words ≠ 1 then ⟨.error, input, []⟩
  else
    match file with
    | .noEntry => ⟨.noSuchFile, input, []⟩
    | .failed => ⟨.error, input, []⟩
    | .opened reads =>
      match configpReads p reads ⟨.whitespace, 1, 0, [], [], input, []⟩ with
      | .error s => ⟨.error, s.input, s.calls⟩
      | .ok s => ⟨if s.state = .whitespace then .ok else .error, s.input, s.calls⟩

/-! ## What is written -/

/-- A line of a config file. -/
inductive ConfigLine where
  | entry (key val : Bytes) (spaced : Bool)
  | comment (text : Bytes)
  | blank

namespace ConfigLine

def render : ConfigLine → Bytes
  | .entry key val false => key ++ '='.toUInt8 :: val ++ ['\n'.toUInt8]
  | .entry key val true =>
    key ++ [' '.toUInt8, '='.toUInt8, ' '.toUInt8] ++ val ++ ['\n'.toUInt8]
  | .comment text => '#'.toUInt8 :: text ++ ['\n'.toUInt8]
  | .blank => ['\n'.toUInt8]

/-- Keys of 1 to 255 characters, values of at most 4095, and something behind a space. -/
def WellFormed : ConfigLine → Prop
  | .entry key val spaced =>
    (1 ≤ key.length ∧ key.length ≤ 255 ∧ ∀ c ∈ key, isKeyChar c = true) ∧
      (val.length ≤ 4095 ∧ ∀ c ∈ val, c ≠ ' '.toUInt8 ∧ c ≠ '\n'.toUInt8 ∧ c ≠ 0) ∧
      (spaced = true → val ≠ [])
  | .comment text => '\n'.toUInt8 ∉ text
  | .blank => True

/-- The calls for the lines from `lineNo` on. -/
def calls : Nat → List ConfigLine → List ConfigCall
  | _, [] => []
  | lineNo, .entry key val _ :: ls => ⟨key, val, lineNo⟩ :: calls (lineNo + 1) ls
  | lineNo, _ :: ls => calls (lineNo + 1) ls

/-- The entries of the lines. -/
def entries (ls : List ConfigLine) : List (Bytes × Bytes) :=
  ls.filterMap fun
    | .entry key val _ => some (key, val)
    | _ => none

end ConfigLine

/-- The input when all entries have been accepted. -/
def consumeAll (p : Configp σ) : List (Bytes × Bytes) → σ → Option σ
  | [], input => some input
  | (key, val) :: es, input =>
    match configpConsumeArg p key val input with
    | (true, input) => consumeAll p es input
    | (false, _) => none

namespace ConfigpLemmas

open ConfigLine

variable {p : Configp σ} {n col : Nat} {k v : Bytes} {input input' : σ} {cs : List ConfigCall}
  {c : UInt8}

/-- The machine does not see where a read ends. -/
theorem reads_eq (p : Configp σ) {reads : List Bytes} (hreads : ∀ buf ∈ reads, buf ≠ [])
    (s : ConfigScan σ) : configpReads p reads s = reads.flatten.foldlM (configpStep p) s := by
  induction reads generalizing s with
  | nil => rfl
  | cons buf reads ih =>
    obtain ⟨hbuf, hrest⟩ := List.forall_mem_cons.mp hreads
    rw [configpReads, if_neg hbuf, List.flatten_cons, List.foldlM_append]
    exact bind_congr fun s => ih hrest s

theorem keyChar_ne {c c' : UInt8} (h : isKeyChar c = true) (h' : isKeyChar c' = false) :
    c ≠ c' := by
  rintro rfl
  rw [h] at h'
  cases h'

theorem cString_zero (h : 0 ∉ k) : cString (k ++ [0]) = k := by
  have hall : ∀ b ∈ k, decide (b ≠ 0) = true := by
    intro b hb
    exact decide_eq_true fun hzero => h (hzero ▸ hb)
  rw [cString, List.takeWhile_append_of_pos hall]
  exact List.append_nil k

/-! ## Single characters -/

theorem step_start (hc : isKeyChar c = true) :
    configpStep p ⟨.whitespace, n, col, [], v, input, cs⟩ c =
      .ok ⟨.key, n, col + 1, [c], v, input, cs⟩ := by
  have hsign : c ≠ '#'.toUInt8 := keyChar_ne hc (by decide)
  have hspace : c ≠ ' '.toUInt8 := keyChar_ne hc (by decide)
  have hline : c ≠ '\n'.toUInt8 := keyChar_ne hc (by decide)
  simp [configpStep, configpSwitch, isInlineWhitespaceChar, hc, hsign, hspace, hline,
    ConfigScan.pushKey, ConfigScan.advance, Except.map]

theorem step_key (hc : isKeyChar c = true) (hk : k.length < 256) :
    configpStep p ⟨.key, n, col, k, v, input, cs⟩ c =
      .ok ⟨.key, n, col + 1, k ++ [c], v, input, cs⟩ := by
  have hline : c ≠ '\n'.toUInt8 := keyChar_ne hc (by decide)
  simp [configpStep, configpSwitch, hc, hline, ConfigScan.pushKey, Nat.ne_of_lt hk,
    ConfigScan.advance, Except.map]

theorem step_val (hspace : c ≠ ' '.toUInt8) (hline : c ≠ '\n'.toUInt8) (hv : v.length < 4096) :
    configpStep p ⟨.val, n, col, k, v, input, cs⟩ c =
      .ok ⟨.val, n, col + 1, k, v ++ [c], input, cs⟩ := by
  simp [configpStep, configpSwitch, isInlineWhitespaceChar, hspace, hline, ConfigScan.pushVal,
    Nat.ne_of_lt hv, ConfigScan.advance, Except.map]

theorem step_preVal (hspace : c ≠ ' '.toUInt8) (hline : c ≠ '\n'.toUInt8) :
    configpStep p ⟨.preVal, n, col, k, [], input, cs⟩ c =
      .ok ⟨.val, n, col + 1, k, [c], input, cs⟩ := by
  simp [configpStep, configpSwitch, isInlineWhitespaceChar, hspace, hline, ConfigScan.pushVal,
    ConfigScan.advance, Except.map]

/-- The newline behind a value, where the entry is accepted. -/
theorem step_end (hk : k.length ≤ 255) (hv : v.length ≤ 4095) (hkzero : 0 ∉ k) (hvzero : 0 ∉ v)
    (haccept : configpConsumeArg p k v input = (true, input')) :
    configpStep p ⟨.val, n, col, k, v, input, cs⟩ '\n'.toUInt8 =
      .ok ⟨.whitespace, n + 1, 0, [], [], input', cs ++ [⟨k, v, n⟩]⟩ := by
  have hkroom : k.length ≠ 256 := by omega
  have hvroom : v.length ≠ 4096 := by omega
  simp [configpStep, configpSwitch, isInlineWhitespaceChar, ConfigScan.consume, ConfigScan.pushKey,
    ConfigScan.pushVal, hkroom, hvroom, cString_zero hkzero, cString_zero hvzero, haccept,
    ConfigScan.advance, Except.map, bind, Except.bind]

/-! ## Words -/

theorem run_cons {s s' : ConfigScan σ} (h : configpStep p s c = .ok s') (bs : Bytes) :
    (c :: bs).foldlM (configpStep p) s = bs.foldlM (configpStep p) s' := by
  rw [List.foldlM_cons, h]
  rfl

theorem run_append {s s' : ConfigScan σ} {bs : Bytes} (h : bs.foldlM (configpStep p) s = .ok s')
    (bs' : Bytes) : (bs ++ bs').foldlM (configpStep p) s = bs'.foldlM (configpStep p) s' := by
  rw [List.foldlM_append, h]
  rfl

theorem run_key {ks : Bytes} (hks : ∀ c ∈ ks, isKeyChar c = true)
    (hlen : k.length + ks.length ≤ 256) :
    ks.foldlM (configpStep p) ⟨.key, n, col, k, v, input, cs⟩ =
      .ok ⟨.key, n, col + ks.length, k ++ ks, v, input, cs⟩ := by
  induction ks generalizing k col with
  | nil => rw [List.append_nil]; rfl
  | cons c ks ih =>
    obtain ⟨hc, hrest⟩ := List.forall_mem_cons.mp hks
    rw [List.length_cons] at hlen
    rw [run_cons (step_key hc (by omega))]
    refine (ih hrest (by rw [List.length_append, List.length_singleton]; omega)).trans ?_
    rw [List.append_assoc, List.length_cons, Nat.add_right_comm, ← Nat.add_assoc]
    rfl

theorem run_val {vs : Bytes} (hvs : ∀ c ∈ vs, c ≠ ' '.toUInt8 ∧ c ≠ '\n'.toUInt8 ∧ c ≠ 0)
    (hlen : v.length + vs.length ≤ 4096) :
    vs.foldlM (configpStep p) ⟨.val, n, col, k, v, input, cs⟩ =
      .ok ⟨.val, n, col + vs.length, k, v ++ vs, input, cs⟩ := by
  induction vs generalizing v col with
  | nil => rw [List.append_nil]; rfl
  | cons c vs ih =>
    obtain ⟨⟨hspace, hline, -⟩, hrest⟩ := List.forall_mem_cons.mp hvs
    rw [List.length_cons] at hlen
    rw [run_cons (step_val hspace hline (by omega))]
    refine (ih hrest (by rw [List.length_append, List.length_singleton]; omega)).trans ?_
    rw [List.append_assoc, List.length_cons, Nat.add_right_comm, ← Nat.add_assoc]
    rfl

/-- What a comment says is skipped. -/
theorem run_comment {text : Bytes} (htext : '\n'.toUInt8 ∉ text) :
    text.foldlM (configpStep p) ⟨.comment, n, col, k, v, input, cs⟩ =
      .ok ⟨.comment, n, col + text.length, k, v, input, cs⟩ := by
  induction text generalizing col with
  | nil => rfl
  | cons c text ih =>
    obtain ⟨hne, hrest⟩ := not_or.mp (mt List.mem_cons.mpr htext)
    have hstep : configpStep p ⟨.comment, n, col, k, v, input, cs⟩ c =
        .ok ⟨.comment, n, col + 1, k, v, input, cs⟩ := by
      simp [configpStep, configpSwitch, Ne.symm hne, ConfigScan.advance, Except.map]
    rw [run_cons hstep]
    refine (ih hrest).trans ?_
    rw [List.length_cons, Nat.add_right_comm, ← Nat.add_assoc]

/-- A key, from the start of its line. -/
theorem run_name {key : Bytes} (hpos : 1 ≤ key.length) (hlen : key.length ≤ 255)
    (hkey : ∀ c ∈ key, isKeyChar c = true) :
    key.foldlM (configpStep p) ⟨.whitespace, n, 0, [], [], input, cs⟩ =
      .ok ⟨.key, n, key.length, key, [], input, cs⟩ := by
  cases key with
  | nil => exact absurd hpos (by decide)
  | cons c key =>
    obtain ⟨hc, hrest⟩ := List.forall_mem_cons.mp hkey
    rw [List.length_cons] at hlen
    rw [run_cons (step_start hc)]
    refine (run_key hrest (by rw [List.length_singleton]; omega)).trans ?_
    rw [List.length_cons, Nat.zero_add, Nat.add_comm]
    rfl

/-! ## Lines -/

/-- A value and the end of its line, where the entry is accepted. -/
theorem run_rest {val : Bytes} (pre : Bytes) (hk : k.length ≤ 255)
    (hkey : ∀ c ∈ k, isKeyChar c = true)
    (hlen : val.length ≤ 4095) (hval : ∀ c ∈ val, c ≠ ' '.toUInt8 ∧ c ≠ '\n'.toUInt8 ∧ c ≠ 0)
    (hpre : pre <+: val)
    (haccept : configpConsumeArg p k val input = (true, input')) :
    (val.drop pre.length ++ ['\n'.toUInt8]).foldlM (configpStep p)
        ⟨.val, n, col, k, pre, input, cs⟩ =
      .ok ⟨.whitespace, n + 1, 0, [], [], input', cs ++ [⟨k, val, n⟩]⟩ := by
  obtain ⟨rest, rfl⟩ := hpre
  rw [List.length_append] at hlen
  rw [List.drop_left,
    run_append (run_val (fun c hc => hval c (List.mem_append_right _ hc)) (by omega))]
  have hkzero : 0 ∉ k := fun h => keyChar_ne (hkey 0 h) (by decide) rfl
  have hvzero : 0 ∉ pre ++ rest := fun h => (hval 0 h).2.2 rfl
  exact run_cons (step_end hk (by rw [List.length_append]; omega) hkzero hvzero haccept) []

/-- A line takes the machine from one start of a line to the next. -/
theorem run_line {line : ConfigLine} (hline : line.WellFormed)
    (haccept : consumeAll p (entries [line]) input = some input') :
    line.render.foldlM (configpStep p) ⟨.whitespace, n, 0, [], [], input, cs⟩ =
      .ok ⟨.whitespace, n + 1, 0, [], [], input', cs ++ ConfigLine.calls n [line]⟩ := by
  cases line with
  | blank =>
    cases haccept
    rw [show ConfigLine.calls n [.blank] = [] from rfl, List.append_nil]
    rfl
  | comment text =>
    cases haccept
    have hsign : configpStep p ⟨.whitespace, n, 0, [], [], input, cs⟩ '#'.toUInt8 =
        .ok ⟨.comment, n, 1, [], [], input, cs⟩ := rfl
    rw [render, List.cons_append, run_cons hsign, run_append (run_comment hline),
      show ConfigLine.calls n [.comment text] = [] from rfl, List.append_nil]
    rfl
  | entry key val spaced =>
    obtain ⟨⟨hpos, hlen, hkey⟩, ⟨hvlen, hval⟩, hspaced⟩ := hline
    have hconsume : configpConsumeArg p key val input = (true, input') := by
      generalize hout : configpConsumeArg p key val input = out
      obtain ⟨accepted, output⟩ := out
      simp only [entries, List.filterMap_cons, List.filterMap_nil, consumeAll, hout] at haccept
      cases accepted with
      | false => cases haccept
      | true =>
        cases haccept
        rfl
    have hname : ∀ bs, (key ++ bs).foldlM (configpStep p)
        ⟨.whitespace, n, 0, [], [], input, cs⟩ =
        bs.foldlM (configpStep p) ⟨.key, n, key.length, key, [], input, cs⟩ :=
      run_append (run_name hpos hlen hkey)
    cases spaced with
    | false =>
      have hsign : configpStep p ⟨.key, n, key.length, key, [], input, cs⟩ '='.toUInt8 =
          .ok ⟨.val, n, key.length + 1, key, [], input, cs⟩ := rfl
      rw [render, List.append_assoc, hname, List.cons_append, run_cons hsign]
      exact run_rest [] hlen hkey hvlen hval List.nil_prefix hconsume
    | true =>
      cases val with
      | nil => exact absurd rfl (hspaced rfl)
      | cons c val =>
        obtain ⟨hspace, hbreak, -⟩ := hval c List.mem_cons_self
        have hsign : [' '.toUInt8, '='.toUInt8, ' '.toUInt8].foldlM (configpStep p)
            ⟨.key, n, key.length, key, [], input, cs⟩ =
            .ok ⟨.preVal, n, key.length + 3, key, [], input, cs⟩ := rfl
        rw [render, List.append_assoc, List.append_assoc, hname, run_append hsign,
          List.cons_append, run_cons (step_preVal hspace hbreak)]
        exact run_rest [c] hlen hkey hvlen hval ⟨val, rfl⟩ hconsume

theorem consumeAll_append (es es' : List (Bytes × Bytes)) (input : σ) :
    consumeAll p (es ++ es') input = (consumeAll p es input).bind (consumeAll p es') := by
  induction es generalizing input with
  | nil => rfl
  | cons e es ih =>
    obtain ⟨key, val⟩ := e
    rw [List.cons_append, consumeAll, consumeAll]
    generalize configpConsumeArg p key val input = out
    obtain ⟨accepted, output⟩ := out
    cases accepted with
    | false => rfl
    | true => exact ih output

theorem calls_cons (n : Nat) (l : ConfigLine) (ls : List ConfigLine) :
    ConfigLine.calls n (l :: ls) = ConfigLine.calls n [l] ++ ConfigLine.calls (n + 1) ls := by
  cases l <;> rfl

theorem run_lines {ls : List ConfigLine} (hls : ∀ l ∈ ls, l.WellFormed)
    (haccept : consumeAll p (entries ls) input = some input') :
    (ls.flatMap render).foldlM (configpStep p) ⟨.whitespace, n, 0, [], [], input, cs⟩ =
      .ok ⟨.whitespace, n + ls.length, 0, [], [], input', cs ++ ConfigLine.calls n ls⟩ := by
  induction ls generalizing n input cs with
  | nil =>
    cases haccept
    rw [ConfigLine.calls, List.append_nil]
    rfl
  | cons l ls ih =>
    obtain ⟨hl, hrest⟩ := List.forall_mem_cons.mp hls
    have hsplit : entries (l :: ls) = entries [l] ++ entries ls :=
      @List.filterMap_append _ _ [l] ls _
    rw [hsplit, consumeAll_append, Option.bind_eq_some_iff] at haccept
    obtain ⟨input₁, hfirst, hthen⟩ := haccept
    rw [List.flatMap_cons, List.foldlM_append, run_line hl hfirst]
    refine (ih hrest hthen).trans ?_
    rw [calls_cons n l ls, List.append_assoc, List.length_cons, Nat.add_assoc, Nat.add_comm 1]

/-- The calls hand over the entries. -/
theorem map_calls (n : Nat) (ls : List ConfigLine) :
    ((ConfigLine.calls n ls).map fun c => (c.key, c.val)) = entries ls := by
  induction ls generalizing n with
  | nil => rfl
  | cons l ls ih =>
    have hrest := ih (n + 1)
    cases l with
    | entry key val spaced => exact congrArg ((key, val) :: ·) hrest
    | comment text => exact hrest
    | blank => exact hrest

end ConfigpLemmas

open ConfigpLemmas

/-- Lines that are well formed are read as they were written, however the reads cut them: the
entries, and nothing else, are handed over in their order and with the numbers of their lines, as
long as each of them is accepted. -/
theorem config_roundTrip (p : Configp σ) (lines : List ConfigLine)
    (hlines : ∀ l ∈ lines, l.WellFormed) (reads : List Bytes) (hreads : ∀ buf ∈ reads, buf ≠ [])
    (htext : reads.flatten = lines.flatMap ConfigLine.render) (input input' : σ)
    (haccept : consumeAll p (ConfigLine.entries lines) input = some input') :
    configpParseFile p 1 (.opened reads) input = ⟨.ok, input', ConfigLine.calls 1 lines⟩ ∧
      ((ConfigLine.calls 1 lines).map fun c => (c.key, c.val)) = ConfigLine.entries lines := by
  refine ⟨?_, map_calls 1 lines⟩
  have hrun := (reads_eq p hreads ⟨.whitespace, 1, 0, [], [], input, []⟩).trans
    ((congrArg _ htext).trans (run_lines hlines haccept))
  unfold configpParseFile
  rw [if_neg (by decide)]
  simp only [hrun, List.nil_append, if_true]

/-- A parser that takes each option and keeps its value. -/
def keepValues : Configp (List Bytes) :=
  ⟨[⟨['a'.toUInt8], 1⟩], fun _ val vals => (true, vals ++ [val])⟩

/-- A comment, an entry with spaces and one without a value, in reads of one and more bytes. -/
theorem config_roundTrip_two :
    configpParseFile keepValues 1 (.opened [['#'.toUInt8],
      ['\n'.toUInt8, 'a'.toUInt8, ' '.toUInt8, '='.toUInt8, ' '.toUInt8],
      [7, '\n'.toUInt8, 'a'.toUInt8], ['='.toUInt8, '\n'.toUInt8]]) [] =
      ⟨.ok, [[7], []], [⟨['a'.toUInt8], [7], 2⟩, ⟨['a'.toUInt8], [], 3⟩]⟩ :=
  (config_roundTrip keepValues [.comment [], .entry ['a'.toUInt8] [7] true,
    .entry ['a'.toUInt8] [] false]
    (by
      have hkey : ∀ c ∈ ['a'.toUInt8], isKeyChar c = true :=
        List.forall_mem_singleton.mpr (by decide)
      intro l hl
      rcases List.mem_cons.mp hl with rfl | hl
      · exact List.not_mem_nil
      rcases List.mem_cons.mp hl with rfl | hl
      · exact ⟨⟨by decide, by decide, hkey⟩,
          ⟨by decide, List.forall_mem_singleton.mpr (by decide)⟩, fun _ => by decide⟩
      · rw [List.mem_singleton.mp hl]
        exact ⟨⟨by decide, by decide, hkey⟩, ⟨by decide, fun c hc => absurd hc List.not_mem_nil⟩,
          fun h => Bool.noConfusion h⟩)
    _ (by decide) (by decide) [] [[7], []] (by decide)).1

end Everarch
