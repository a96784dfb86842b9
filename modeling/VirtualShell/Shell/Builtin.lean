import VirtualShell.Builtin.Registry
import VirtualShell.Shell.Action

/-!
# Built-in commands

A `Builtin` is a command with its help: it answers a `Call`, the words behind its name and what is
piped into it, with an action and a status. The first word `--help` or `-h` asks for the help lines
of every command.

* `Flags.read` reads the words of one-letter flags in front of the operands.
* `Call.readInputs` reads the files that are named, or what is piped in.
-/

namespace VirtualShell

/-- What lets a command run lines. -/
structure LineRunner where
  /-- Runs a line in the caller's session. -/
  run : Bytes → ShellAction Captured
  /-- Runs a line whose request to exit ends no more than the line. -/
  runApart : Bytes → ShellAction Captured
  /-- The commands there are, with their summaries. -/
  commands : Registry Bytes

/-- A command as it is called. -/
structure Call where
  name : Bytes
  arguments : List Bytes
  /-- What is piped or redirected into the command, if anything is. -/
  input : Option Bytes := none
  /-- Missing when the command is not called by a shell. -/
  runner : Option LineRunner := none

/-- A command of the shell itself. -/
structure Builtin where
  name : Bytes
  summary : Bytes
  help : List Bytes
  /-- What a call does that asks for no help. -/
  answer : Call → ShellAction Int

namespace Call

/-! ## Complaints -/

def complain (c : Call) (kind : ReportKind) (message : Bytes) (advice : List Bytes := []) :
    ShellAction Unit :=
  ShellAction.report { kind, command := c.name, message, advice }

/-- Complains about the call and ends with a status. -/
def refuse (c : Call) (status : Int) (message : Bytes) (advice : List Bytes := []) :
    ShellAction Int := do
  c.complain .invalidArgument message advice
  return status

/-- Where to look for more. -/
def helpAdvice (c : Call) : List Bytes :=
  [ascii "Try '" ++ c.name ++ ascii " --help' for more information."]

/-! ## Input -/

/-- What is piped in, nothing when nothing is. -/
def piped (c : Call) : Bytes := c.input.getD []

/-- The content of a file, a dash naming what is piped in. A file that cannot be read is complained
about. -/
def readInput (c : Call) (file : Bytes) : ShellAction (Option Bytes) := do
  if file = ascii "-" then return some c.piped
  match ← ShellAction.readPath file with
  | .ok content => return some content
  | .error fault => do
    ShellAction.reportFault c.name fault
    return none

/-- The contents of the files one behind another, of what is piped in when there are no files, and
whether all could be read. -/
def readInputs (c : Call) (files : List Bytes) : ShellAction (Bytes × Bool) := do
  if files.isEmpty then return (c.piped, true)
  let contents ← files.mapM c.readInput
  return (contents.flatMap (·.getD []), contents.all Option.isSome)

end Call

/-! ## Flags -/

/-- Flags and the operands behind them. -/
structure Flags where
  letters : Bytes := []
  operands : List Bytes := []
  deriving DecidableEq

namespace Flags

def has (f : Flags) (letter : Char) : Bool := f.letters.contains letter.toUInt8

/-- Reads words of flags up to `--`, which is dropped, or to the first operand. The error is the
first letter that is not allowed. -/
def read (allowed : Bytes) : List Bytes → Except UInt8 Flags
  | [] => .ok {}
  | word :: rest =>
    if word = ascii "--" then .ok { operands := rest }
    else match word with
      | Ascii.minus :: c :: letters => do
        match (c :: letters).find? (fun l => !allowed.contains l) with
        | some l => throw l
        | none =>
          let others ← read allowed rest
          return { others with letters := c :: letters ++ others.letters }
      | _ => .ok { operands := word :: rest }

end Flags

namespace Call

/-- Reads the flags of a call and goes on; a letter that is not allowed ends it with status 2. -/
def withFlags (c : Call) (allowed : String) (k : Flags → ShellAction Int) : ShellAction Int :=
  match Flags.read (ascii allowed) c.arguments with
  | .ok flags => k flags
  | .error letter =>
    c.refuse 2 (ascii "invalid option -- '" ++ [letter] ++ ascii "'") c.helpAdvice

/-- Goes on when there are enough operands; else the call ends with status 1. -/
def requiring (c : Call) (count : Nat) (operands : List Bytes) (k : ShellAction Int) :
    ShellAction Int :=
  if count ≤ operands.length then k
  else
    c.refuse 1
      (if operands.isEmpty then ascii "missing operand" else ascii "missing destination operand")
      c.helpAdvice

/-- Does something to each operand; the status is 1 when it failed for any. -/
def forOperands (c : Call) (f : Bytes → ShellAction (Outcome Unit)) (operands : List Bytes) :
    ShellAction Int :=
  ShellAction.forEach operands fun operand => do
    ShellAction.check c.name (← f operand)

end Call

namespace Builtin

/-- The first word asks for the help lines. -/
def asksForHelp (c : Call) : Bool :=
  match c.arguments with
  | word :: _ => word == ascii "--help" || word == ascii "-h"
  | [] => false

/-- Answers a call. -/
def invoke (b : Builtin) (c : Call) : ShellAction Int :=
  if asksForHelp c then do
    ShellAction.out (Bytes.unlines b.help)
    return 0
  else b.answer c

end Builtin

end VirtualShell
