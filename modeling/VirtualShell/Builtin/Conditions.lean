import VirtualShell.Condition.Expression
import VirtualShell.Shell.Builtin

/-!
# Conditions: `test` and `[`
-/

namespace VirtualShell.Builtin

open ShellAction

/-- Evaluates the words of a condition; no words make a false one. -/
def runCondition (c : Call) (words : List Bytes) : ShellAction Int := do
  if words.isEmpty then return 1
  let w ← world
  let probe (t : FileTest) (path : Bytes) : Bool := t.holds w.system.tree (w.session.resolve path)
  match Condition.evaluate probe words with
  | .ok value => return statusOf [value]
  | .error e => do
    c.complain .syntaxError e.message
    return 2

def conditionHelp : List Bytes := [
  ascii "Usage: test EXPR  or  [ EXPR ]",
  ascii "Evaluate a conditional expression.",
  ascii "Files: -e exists, -f regular file, -d directory, -L symlink, -s non-empty.",
  ascii "Strings: -z empty, -n non-empty, S1 = S2, S1 != S2.",
  ascii "Integers: -eq -ne -lt -le -gt -ge.",
  ascii "Combine with ! EXPR, ( EXPR ), EXPR -a EXPR, EXPR -o EXPR."]

def test : Builtin where
  name := ascii "test"
  summary := ascii "evaluate a conditional expression"
  help := conditionHelp
  answer c := runCondition c c.arguments

def bracket : Builtin where
  name := ascii "["
  summary := ascii "evaluate a conditional expression"
  help := conditionHelp
  answer c :=
    if c.arguments.getLast? = some (ascii "]") then runCondition c c.arguments.dropLast
    else do
      c.complain .syntaxError (ascii "missing ']'")
      return 2

end VirtualShell.Builtin
