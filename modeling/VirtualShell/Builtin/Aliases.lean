import VirtualShell.Shell.Builtin

/-!
# Aliases: `alias` and `unalias`

The name of an alias is anything without an equals sign, quotes and blanks.
-/

namespace VirtualShell

/-- An alias as it is defined and shown. -/
structure Alias where
  name : Bytes
  value : Bytes
  deriving DecidableEq

namespace Alias

/-- A byte that no name of an alias holds. -/
def isForbidden (c : UInt8) : Bool :=
  c == Ascii.space || c == Ascii.tab || c == Ascii.newline || c == Ascii.quote
    || c == Ascii.doubleQuote

/-- Reads `NAME=VALUE`. -/
def read? (word : Bytes) : Option Alias :=
  match word.dropWhile (· != Ascii.equals) with
  | [] => none
  | _ :: value =>
    let name := word.takeWhile (· != Ascii.equals)
    if name.isEmpty || name.any isForbidden then none else some ⟨name, value⟩

def render (a : Alias) : Bytes :=
  ascii "alias " ++ a.name ++ ascii "='" ++ a.value ++ ascii "'\n"

end Alias

namespace Builtin

open ShellAction

/-- Defines or shows an alias; gives what is to be shown. -/
def defineAlias (c : Call) (word : Bytes) : ShellAction (Option Bytes) := do
  match Alias.read? word with
  | some a => do
    modifySession fun s => { s with aliases := s.aliases.insert a.name a.value }
    return some []
  | none =>
    match (← session).aliases.find? word with
    | some value => return some (Alias.render ⟨word, value⟩)
    | none => do
      c.complain .commandNotFound (word ++ ascii ": not found")
      return none

def aliasCommand : Builtin where
  name := ascii "alias"
  summary := ascii "define or list aliases"
  help := [
    ascii "Usage: alias [NAME[=VALUE] ...]",
    ascii "List or define aliases.",
    ascii "With no operands, display all aliases.",
    ascii "NAME=VALUE defines an alias, NAME shows its definition."]
  answer c := do
    if c.arguments.isEmpty then
      out ((← session).aliases.entries.flatMap fun e => Alias.render ⟨e.1, e.2⟩)
      return 0
    let shown ← c.arguments.mapM (defineAlias c)
    out (shown.flatMap (·.getD []))
    return statusOf (shown.map Option.isSome)

/-- Removes an alias. -/
def removeAlias (c : Call) (name : Bytes) : ShellAction Bool := do
  if (← session).aliases.contains name then
    modifySession fun s => { s with aliases := s.aliases.erase name }
    return true
  c.complain .commandNotFound (name ++ ascii ": not found")
  return false

def unalias : Builtin where
  name := ascii "unalias"
  summary := ascii "remove aliases"
  help := [
    ascii "Usage: unalias [-a] NAME [NAME ...]",
    ascii "Remove one or more aliases.",
    ascii "-a removes every alias."]
  answer c := do
    match c.arguments with
    | [] => c.refuse 1 (ascii "not enough arguments")
    | first :: _ =>
      if first = ascii "-a" then
        modifySession ({ · with aliases := ∅ })
        return 0
      forEach c.arguments (removeAlias c)

end Builtin

end VirtualShell
