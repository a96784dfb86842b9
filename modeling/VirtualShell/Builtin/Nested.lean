import VirtualShell.Lexing.Quoting
import VirtualShell.Number.Reading
import VirtualShell.Shell.Builtin
import VirtualShell.Text.Identifier

/-!
# Commands that run lines: `source`, `.` and `xargs`

* `scriptLines` are the lines of a text that are run.
* `xargs` quotes every word of the lines that it builds, so each is read as the word it is.
-/

namespace VirtualShell

/-- The trimmed lines of a script that are neither blank nor comments. -/
def scriptLines (text : Bytes) : List Bytes :=
  ((Bytes.lines text).map Bytes.trim).filter fun line => !line.isEmpty && !isComment line

/-! ## Building lines -/

/-- The options of `xargs` and the command behind them. -/
structure XargsOptions where
  /-- How many items go into one line; all of them when there is no number. -/
  batch : Option Nat := none
  /-- The text that an item is put in the place of. -/
  marker : Bytes := []
  delimiter : UInt8 := Ascii.newline
  command : List Bytes := []

inductive XargsError
  | missingValue (letter : Bytes)
  | invalidBatch (text : Bytes)
  deriving DecidableEq

def XargsError.message : XargsError → Bytes
  | missingValue letter => ascii "option requires an argument -- '" ++ letter ++ ascii "'"
  | invalidBatch text => ascii "invalid number for -n option: '" ++ text ++ ascii "'"

namespace XargsOptions

/-- Takes an option with its value. -/
def apply (o : XargsOptions) (option value : Bytes) : Except XargsError XargsOptions :=
  if option = ascii "-n" then
    match parseInt value with
    | some n => if 0 < n then .ok { o with batch := some n.toNat } else .error (.invalidBatch value)
    | none => .error (.invalidBatch value)
  else if option = ascii "-I" then .ok { o with marker := value }
  else .ok { o with delimiter := value.headD Ascii.newline }

/-- Reads options up to the first word that is none. Without a command there is `echo`. -/
def read (o : XargsOptions) : List Bytes → Except XargsError XargsOptions
  | [] => .ok { o with command := [ascii "echo"] }
  | word :: rest =>
    let asCommand (words : List Bytes) : XargsOptions :=
      { o with command := if words.isEmpty then [ascii "echo"] else words }
    if word = ascii "--" then .ok (asCommand rest)
    else if word = ascii "-0" then read { o with delimiter := 0 } rest
    else if word = ascii "-n" ∨ word = ascii "-I" ∨ word = ascii "-d" then
      match rest with
      | [] => .error (.missingValue (word.drop 1))
      | value :: rest => do read (← o.apply word value) rest
    else .ok (asCommand (word :: rest))

/-- The items of a text: what is between delimiters, trimmed, unless nothing is left. -/
def items (o : XargsOptions) (text : Bytes) : List Bytes :=
  ((Bytes.fields o.delimiter text).map Bytes.trim).filter (fun item => !item.isEmpty)

/-- The list cut into pieces of a length, the last of which may be shorter. -/
def chunks (size : Nat) (l : List Bytes) : List (List Bytes) :=
  if size = 0 ∨ l = [] then (if l.isEmpty then [] else [l])
  else l.take size :: chunks size (l.drop size)
termination_by l.length
decreasing_by
  rename_i h
  rw [not_or] at h
  have : 0 < l.length := List.length_pos_iff.2 h.2
  rw [List.length_drop]
  omega

/-- The words of every line that is run for the items. -/
def lines (o : XargsOptions) (items : List Bytes) : List (List Bytes) :=
  if o.marker.isEmpty then
    (chunks (o.batch.getD items.length) items).map (o.command ++ ·)
  else items.map fun item => o.command.map (Bytes.replaceAll o.marker item)

end XargsOptions

namespace Builtin

open ShellAction

/-- Runs a line and passes on what it writes. -/
def passOn (execute : Bytes → ShellAction Captured) (line : Bytes) : ShellAction Int := do
  release (← execute line)

/-- Runs lines until the shell is asked to exit; gives the status of the last. -/
def runScript (execute : Bytes → ShellAction Int) (status : Int) : List Bytes → ShellAction Int
  | [] => return status
  | line :: rest => do
    let status ← execute line
    if (← session).exit.isSome then return status
    runScript execute status rest

/-- Runs lines to the last; gives its status. -/
def runAll (execute : Bytes → ShellAction Int) (status : Int) : List Bytes → ShellAction Int
  | [] => return status
  | line :: rest => do
    let status ← execute line
    runAll execute status rest

/-- Complains that there is nothing to run lines with. -/
def refuseLines (c : Call) : ShellAction Int := do
  c.complain .runtimeError (ascii "no interpreter available")
  return 1

/-- Runs the lines of a file in the session. -/
def sourceNamed (name : Bytes) : Builtin where
  name
  summary := ascii "run commands from a file"
  help := [
    ascii "Usage: source FILE",
    ascii "Execute each line of FILE in the current session.",
    ascii "Blank lines and lines starting with '#' are skipped."]
  answer c := do
    match c.arguments, c.runner with
    | [], _ => c.refuse 2 (ascii "missing file operand") [ascii "Usage: source FILE"]
    | _ :: _, none => refuseLines c
    | file :: _, some runner => do
      match ← readPath file with
      | .error fault => do
        reportFault c.name fault
        return 1
      | .ok text => do
        trace [.sourcing file]
        runScript (passOn runner.run) 0 (scriptLines text)

def source : Builtin := sourceNamed (ascii "source")

def dot : Builtin := sourceNamed (ascii ".")

def xargs : Builtin where
  name := ascii "xargs"
  summary := ascii "build command lines from input"
  help := [
    ascii "Usage: xargs [-n N] [-I STR] [-d DELIM] [-0] [COMMAND [ARG ...]]",
    ascii "Build command lines from standard input and run them.",
    ascii "Items are separated by newlines unless -d or -0 is given.",
    ascii "-n N passes at most N items per command.",
    ascii "-I STR runs COMMAND once per item, replacing STR in each argument.",
    ascii "COMMAND defaults to echo."]
  answer c := do
    match XargsOptions.read {} c.arguments with
    | .error e => c.refuse 1 e.message
    | .ok o =>
      match c.input, c.runner with
      | none, _ => c.refuse 1 (ascii "no stdin")
      | some _, none => refuseLines c
      | some text, some runner =>
        runAll (passOn runner.runApart) 0 ((o.lines (o.items text)).map commandLine)

end Builtin

end VirtualShell
