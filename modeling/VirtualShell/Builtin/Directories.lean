import VirtualShell.Shell.Builtin

/-!
# The working directory: `cd` and `pwd`
-/

namespace VirtualShell.Builtin

open ShellAction

/-- Moves to the directory that a text names. -/
def moveTo (c : Call) (target : Bytes) : ShellAction Bool := do
  let moved := (← session).changeDirectory (← tree) target
  match moved with
  | .ok s => modifySession fun _ => s
  | .error _ => return ← check c.name moved
  return true

def cd : Builtin where
  name := ascii "cd"
  summary := ascii "change the working directory"
  help := [
    ascii "Usage: cd [DIR]",
    ascii "Change the current directory.",
    ascii "Use '-' to switch to the previous directory."]
  answer c := do
    if 1 < c.arguments.length then return ← c.refuse 2 (ascii "too many arguments")
    let s ← session
    let target := c.arguments.headD s.home
    if target = ascii "-" then
      let previous := s.valueOf (ascii "OLDPWD")
      if previous.isEmpty then
        c.complain .runtimeError (ascii "OLDPWD not set")
        return 1
      let moved ← moveTo c previous
      if moved then out ((← session).directory ++ [Ascii.newline])
      return statusOf [moved]
    return statusOf [← moveTo c target]

def pwd : Builtin where
  name := ascii "pwd"
  summary := ascii "print the working directory"
  help := [
    ascii "Usage: pwd",
    ascii "Print the current working directory."]
  answer _ := do
    out ((← session).directory ++ [Ascii.newline])
    return 0

end VirtualShell.Builtin
