import VirtualShell.Number.Reading
import VirtualShell.Shell.Builtin
import VirtualShell.Version

/-!
# Control: `true`, `false`, `exit`, `version` and `sleep`

* `readInterval?` reads a number of seconds with a unit behind it.
-/

namespace VirtualShell

/-- The seconds of a unit of time. -/
def secondsOfUnit? (c : UInt8) : Option Nat :=
  if c = 115 then some 1
  else if c = 109 then some 60
  else if c = 104 then some 3600
  else if c = 100 then some 86400
  else none

/-- Reads a finite, non-negative number with at most one letter of a unit behind it, as seconds. -/
def readInterval? (text : Bytes) : Option Binary := do
  let (value, rest) ← Binary.read? .double text
  let unit ← match rest with
    | [] => some 1
    | [c] => secondsOfUnit? c
    | _ => none
  if value.isFinite && !value.lt .zero then some (Binary.mul .double value (.ofInt unit)) else none

namespace Duration

/-- The whole seconds of a positive number and the nanoseconds behind them, cut off. -/
def ofSeconds? (x : Binary) : Option Duration :=
  if Binary.lt .zero x then
    let seconds := x.truncate.toNat
    let part := Binary.sub .double x (BinaryFormat.double.round false seconds 1)
    some ⟨seconds, (Binary.mul .double part (.ofInt 1000000000)).truncate.toNat⟩
  else none

end Duration

namespace Builtin

open ShellAction

def trueCommand : Builtin where
  name := ascii "true"
  summary := ascii "exit successfully"
  help := [
    ascii "Usage: true",
    ascii "Do nothing, successfully."]
  answer _ := return 0

def falseCommand : Builtin where
  name := ascii "false"
  summary := ascii "exit with status 1"
  help := [
    ascii "Usage: false",
    ascii "Do nothing, unsuccessfully."]
  answer _ := return 1

/-- Asks the shell to exit. -/
def requestExit (status : Int) : ShellAction Int := do
  modifySession ({ · with exit := some status })
  return status

def exit : Builtin where
  name := ascii "exit"
  summary := ascii "exit the shell"
  help := [
    ascii "Usage: exit [N]",
    ascii "Exit the shell with status N (default last command)."]
  answer c := do
    match c.arguments with
    | [] => requestExit (← session).lastStatus
    | [text] =>
      match parseInt text with
      | some n => requestExit (n % 256)
      | none =>
        c.complain .invalidArgument (text ++ ascii ": numeric argument required")
        requestExit 2
    | _ => c.refuse 1 (ascii "too many arguments")

def versionCommand : Builtin where
  name := ascii "version"
  summary := ascii "print the vsh version"
  help := [
    ascii "Usage: version",
    ascii "Print the vsh version."]
  answer _ := do
    out versionLine
    return 0

def sleep : Builtin where
  name := ascii "sleep"
  summary := ascii "pause for a number of seconds"
  help := [
    ascii "Usage: sleep NUMBER[SUFFIX] ...",
    ascii "Pause for the sum of the given durations.",
    ascii "SUFFIX is s (seconds, default), m (minutes), h (hours) or d (days)."]
  answer c := do
    if c.arguments.isEmpty then
      return ← c.refuse 1 (ascii "missing operand") [ascii "Usage: sleep NUMBER[SUFFIX]"]
    match c.arguments.find? (fun text => (readInterval? text).isNone) with
    | some text => c.refuse 1 (ascii "invalid time interval '" ++ text ++ ascii "'")
    | none =>
      let total := (c.arguments.filterMap readInterval?).foldl (Binary.add .double) .zero
      emit ((Duration.ofSeconds? total).toList.map .pause)
      return 0

end Builtin

end VirtualShell
