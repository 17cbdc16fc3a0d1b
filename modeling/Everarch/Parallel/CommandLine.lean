import Everarch.Lib.Bytes
import Mathlib.Data.List.TakeWhile

/-!
# The command line of evr-parallel

`evr_split_cmds` of evr-parallel.c: commands with their arguments, separated by semicolons. A command
may begin with a user to run as.

* `splitCmds_args`, `splitCmds_cmd`: one command is read.
* `splitCmds_commandLine`: a command line that was written is read back.
-/

namespace Everarch

/-- `struct evr_cmd` without its pid. -/
structure Cmd where
  runAsUser : Option Bytes
  args : List Bytes
deriving DecidableEq, Repr

def Cmd.empty : Cmd := ⟨none, []⟩

/-- A semicolon that is an argument of its own. -/
def cmdSeparator : Bytes := [59]

/-- The option of a command that names its user. -/
def userOption : Bytes := [45, 45, 117, 115, 101, 114]

/-- `evr_split_cmds` from the command `ca` on, with the commands before it. -/
def splitCmds (cmdsLen : Nat) (cmds : List Cmd) (ca : Cmd) : List Bytes → Option (List Cmd)
  | [] => some (cmds ++ [ca])
  | arg :: rest =>
    if arg = cmdSeparator then
      if cmds.length + 1 = cmdsLen then none
      else splitCmds cmdsLen (cmds ++ [ca]) .empty rest
    else if ca.args = [] then
      if arg = userOption then
        match rest with
        | [] => none
        | user :: rest => splitCmds cmdsLen cmds { ca with runAsUser := some user } rest
      else splitCmds cmdsLen cmds { ca with args := [arg] } rest
    else splitCmds cmdsLen cmds { ca with args := ca.args ++ [arg] } rest

/-- The commands that `evr_start_cmds` starts: those before the first without arguments. -/
def startedCmds (cmds : List Cmd) : List Cmd :=
  cmds.takeWhile fun cmd => cmd.args ≠ []

/-! ## Writing a command line -/

/-- A command that can be written: it has arguments, none of them a semicolon, and the first is
not the option. -/
def Cmd.Writable (cmd : Cmd) : Prop :=
  cmdSeparator ∉ cmd.args ∧ ∃ name args, cmd.args = name :: args ∧ name ≠ userOption

def Cmd.argv (cmd : Cmd) : List Bytes :=
  (match cmd.runAsUser with
    | none => []
    | some user => [userOption, user]) ++ cmd.args

def commandLine : List Cmd → List Bytes
  | [] => []
  | [cmd] => cmd.argv
  | cmd :: cmds => cmd.argv ++ cmdSeparator :: commandLine cmds

section Split

variable {cmdsLen : Nat} {cmds : List Cmd} {ca cmd : Cmd} {rest : List Bytes}

theorem splitCmds_separator : splitCmds cmdsLen cmds ca (cmdSeparator :: rest) =
    if cmds.length + 1 = cmdsLen then none else splitCmds cmdsLen (cmds ++ [ca]) .empty rest := by
  rw [splitCmds.eq_def]
  simp only [if_true]

/-- An argument where it is not the option. -/
theorem splitCmds_arg {arg : Bytes} (hsep : arg ≠ cmdSeparator)
    (harg : ca.args ≠ [] ∨ arg ≠ userOption) : splitCmds cmdsLen cmds ca (arg :: rest) =
      splitCmds cmdsLen cmds { ca with args := ca.args ++ [arg] } rest := by
  rw [splitCmds.eq_def]
  dsimp only
  rw [if_neg hsep]
  split
  · rename_i hempty
    rw [if_neg (harg.resolve_left fun h => h hempty), hempty]
    rfl
  · rfl

/-- Arguments of a command that has one already. -/
theorem splitCmds_args {args : List Bytes} (hca : ca.args ≠ []) (hargs : cmdSeparator ∉ args) :
    splitCmds cmdsLen cmds ca (args ++ rest) =
      splitCmds cmdsLen cmds { ca with args := ca.args ++ args } rest := by
  induction args generalizing ca with
  | nil => simp
  | cons arg args ih =>
    obtain ⟨harg, hargs⟩ := not_or.mp (List.mem_cons.not.mp hargs)
    have hlonger : { ca with args := ca.args ++ [arg] }.args ≠ [] := by simp
    rw [List.cons_append, splitCmds_arg (Ne.symm harg) (.inl hca), ih hlonger hargs]
    simp

theorem splitCmds_cmd (h : cmd.Writable) :
    splitCmds cmdsLen cmds .empty (cmd.argv ++ rest) = splitCmds cmdsLen cmds cmd rest := by
  obtain ⟨hsep, name, args, hargs, hname⟩ := h
  rw [hargs] at hsep
  obtain ⟨hsep, hrest⟩ := not_or.mp (List.mem_cons.not.mp hsep)
  -- The name is read for a command with or without a user.
  have hread : ∀ runAsUser, splitCmds cmdsLen cmds ⟨runAsUser, []⟩ (name :: args ++ rest) =
      splitCmds cmdsLen cmds ⟨runAsUser, name :: args⟩ rest := by
    intro runAsUser
    rw [List.cons_append, splitCmds_arg (Ne.symm hsep) (.inr hname),
      splitCmds_args (by simp) hrest]
    rfl
  obtain ⟨runAsUser, _⟩ := cmd
  obtain rfl := hargs
  cases runAsUser with
  | none => exact hread none
  | some user =>
    rw [Cmd.argv, List.append_assoc]
    show splitCmds cmdsLen cmds Cmd.empty (userOption :: user :: _) = _
    rw [splitCmds, if_neg (by decide), if_pos rfl]
    exact hread (some user)

theorem splitCmds_commandLine {before : List Cmd} (h : ∀ cmd ∈ cmds, cmd.Writable) (hne : cmds ≠ [])
    (hlen : before.length + cmds.length ≤ cmdsLen) :
    splitCmds cmdsLen before .empty (commandLine cmds) = some (before ++ cmds) := by
  induction cmds generalizing before with
  | nil => exact absurd rfl hne
  | cons cmd cmds ih =>
    have hcmd := h cmd List.mem_cons_self
    cases cmds with
    | nil =>
      have hread := @splitCmds_cmd cmdsLen before cmd [] hcmd
      rw [List.append_nil] at hread
      rw [commandLine, hread, splitCmds]
    | cons next cmds =>
      rw [List.length_cons, List.length_cons] at hlen
      have hrest := fun c hc => h c (List.mem_cons_of_mem _ hc)
      have hroom : (before ++ [cmd]).length + (next :: cmds).length ≤ cmdsLen := by
        rw [List.length_append, List.length_singleton, List.length_cons]
        omega
      have hline : commandLine (cmd :: next :: cmds) =
          cmd.argv ++ cmdSeparator :: commandLine (next :: cmds) := rfl
      rw [hline, splitCmds_cmd hcmd, splitCmds_separator, if_neg (by omega),
        ih hrest (List.cons_ne_nil _ _) hroom, List.append_assoc, List.singleton_append]

theorem startedCmds_writable (h : ∀ cmd ∈ cmds, cmd.Writable) : startedCmds cmds = cmds := by
  refine List.takeWhile_eq_self_iff.mpr fun cmd hcmd => ?_
  obtain ⟨-, name, args, hargs, -⟩ := h cmd hcmd
  simp [hargs]

end Split

end Everarch
