import VirtualShell.Shell.Builtin

/-!
# What commands there are: `which`, `type` and `help`
-/

namespace VirtualShell.Builtin

open ShellAction

/-- The name is that of a command. -/
def isKnown (c : Call) (name : Bytes) : Bool := c.runner.any fun r => r.commands.contains name

/-- Says something about each name; the names that nothing is to be said about are complained
about. -/
def describeNames (c : Call) (describe : Bytes → Option Bytes) (unknown : Bytes → Bytes) :
    ShellAction Int := do
  if c.arguments.isEmpty then return ← c.refuse 1 (ascii "missing command name")
  let status ← forEach c.arguments fun name => do
    if (describe name).isNone then c.complain .commandNotFound (unknown name)
    return (describe name).isSome
  out (Bytes.unlines (c.arguments.filterMap describe))
  return status

def which : Builtin where
  name := ascii "which"
  summary := ascii "locate a command"
  help := [
    ascii "Usage: which NAME ...",
    ascii "Print '<NAME>: vsh builtin' for every registered command."]
  answer c :=
    describeNames c
      (fun name => if isKnown c name then some (name ++ ascii ": vsh builtin") else none)
      (fun name => ascii "no " ++ name ++ ascii " in vsh")

def typeCommand : Builtin where
  name := ascii "type"
  summary := ascii "describe a command name"
  help := [
    ascii "Usage: type NAME ...",
    ascii "Describe how each NAME would be interpreted: alias or builtin."]
  answer c := do
    let aliases := (← session).aliases
    describeNames c
      (fun name =>
        match aliases.find? name with
        | some value => some (name ++ ascii " is aliased to '" ++ value ++ ascii "'")
        | none => if isKnown c name then some (name ++ ascii " is a shell builtin") else none)
      (fun name => name ++ ascii ": not found")

/-- A line for each command, the summaries below one another. -/
def commandLines (commands : Registry Bytes) : List Bytes :=
  let width := (commands.keys.map List.length).foldl max 0
  commands.entries.map fun e =>
    ascii "  " ++ e.1 ++ List.replicate (width - e.1.length + 2) Ascii.space ++ e.2

def helpCommand : Builtin where
  name := ascii "help"
  summary := ascii "list builtin commands"
  help := [
    ascii "Usage: help",
    ascii "List every builtin with a one-line summary.",
    ascii "Run 'COMMAND --help' for details on one command."]
  answer c := do
    match c.runner with
    | none => return 1
    | some runner => do
      out (Bytes.unlines (ascii "vsh builtins:" :: commandLines runner.commands))
      return 0

end VirtualShell.Builtin
