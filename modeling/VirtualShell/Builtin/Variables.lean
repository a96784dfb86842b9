import VirtualShell.Shell.Builtin
import VirtualShell.Text.Identifier

/-!
# Variables: `export`, `unset`, `env`, `printenv` and `read`

* `readFields` shares a line out among names: one word each, and the rest of the line to the last.
-/

namespace VirtualShell

/-- The line without its escapes: a backslash gives way to the byte behind it. -/
def dropEscapes : Bytes → Bytes
  | Ascii.backslash :: c :: rest => c :: dropEscapes rest
  | c :: rest => c :: dropEscapes rest
  | [] => []

/-- Space and tab separate the words of a line that is read. -/
def isFieldBlank (c : UInt8) : Bool := c == Ascii.space || c == Ascii.tab

/-- What each of so many names gets of a line. -/
def readFields : Nat → Bytes → List Bytes
  | 0, _ => []
  | 1, line => [Bytes.trim (line.dropWhile isFieldBlank)]
  | count + 1, line =>
    let text := line.dropWhile isFieldBlank
    text.takeWhile (!isFieldBlank ·) :: readFields count (text.dropWhile (!isFieldBlank ·))

/-- The words of `read`. -/
structure ReadOptions where
  raw : Bool := false
  prompt : Bytes := []
  names : List Bytes := []

namespace ReadOptions

/-- Reads the options in front of the names; fails when `-p` comes last. -/
def read? (o : ReadOptions) : List Bytes → Option ReadOptions
  | [] => some o
  | word :: rest =>
    if word = ascii "-r" then read? { o with raw := true } rest
    else if word = ascii "-p" then
      match rest with
      | [] => none
      | prompt :: rest => read? { o with prompt } rest
    else if word = ascii "--" then some { o with names := rest }
    else some { o with names := word :: rest }

end ReadOptions

namespace Builtin

open ShellAction

def notIdentifier (name : Bytes) : Bytes :=
  ascii "'" ++ name ++ ascii "': not a valid identifier"

/-- Sets a variable, or makes sure that it is set. -/
def exportVariable (c : Call) (word : Bytes) : ShellAction Bool := do
  match Assignment.read? word with
  | some a => do
    modifySession (·.setVariable a.name a.value)
    return true
  | none =>
    if isIdentifier word then
      if !(← session).environment.contains word then modifySession (·.setVariable word [])
      return true
    c.complain .invalidArgument (notIdentifier word)
    return false

def exportCommand : Builtin where
  name := ascii "export"
  summary := ascii "set environment variables"
  help := [
    ascii "Usage: export [NAME[=VALUE] ...]",
    ascii "Set environment variables for this session.",
    ascii "With no operands, print every variable as 'export NAME=\"VALUE\"'."]
  answer c := do
    if c.arguments.isEmpty then
      out ((← session).environment.entries.flatMap fun e =>
        ascii "export " ++ e.1 ++ ascii "=\"" ++ e.2 ++ ascii "\"\n")
      return 0
    forEach c.arguments (exportVariable c)

/-- Removes a variable. -/
def unsetVariable (c : Call) (name : Bytes) : ShellAction Bool := do
  if isIdentifier name then
    modifySession (·.unsetVariable name)
    return true
  c.complain .invalidArgument (notIdentifier name)
  return false

def unset : Builtin where
  name := ascii "unset"
  summary := ascii "remove environment variables"
  help := [
    ascii "Usage: unset NAME ...",
    ascii "Remove environment variables."]
  answer c :=
    if c.arguments.isEmpty then c.refuse 1 (ascii "not enough arguments")
    else forEach c.arguments (unsetVariable c)

/-- Prints every variable as `NAME=VALUE`. -/
def printVariables : ShellAction Int := do
  out ((← session).environment.entries.flatMap fun e => e.1 ++ ascii "=" ++ e.2 ++ [Ascii.newline])
  return 0

def env : Builtin where
  name := ascii "env"
  summary := ascii "print the environment"
  help := [
    ascii "Usage: env",
    ascii "Print the session environment, one NAME=VALUE per line."]
  answer c :=
    if c.arguments.isEmpty then printVariables
    else c.refuse 2 (ascii "running commands is not supported")

def printenv : Builtin where
  name := ascii "printenv"
  summary := ascii "print environment values"
  help := [
    ascii "Usage: printenv [NAME ...]",
    ascii "Print the values of the named variables, or the whole environment.",
    ascii "Exit status is 1 when any NAME is not set."]
  answer c := do
    if c.arguments.isEmpty then return ← printVariables
    let environment := (← session).environment
    let values := c.arguments.map environment.find?
    out (Bytes.unlines (values.filterMap id))
    return statusOf (values.map Option.isSome)

/-- Sets the names to values, as many as there are of both. -/
def setAll (values : List (Bytes × Bytes)) : ShellAction Unit :=
  modifySession fun s => values.foldl (fun s e => s.setVariable e.1 e.2) s

def read : Builtin where
  name := ascii "read"
  summary := ascii "read a line into a variable"
  help := [
    ascii "Usage: read [-r] [-p PROMPT] [NAME ...]",
    ascii "Read one line of standard input and split it into words.",
    ascii "Each NAME gets one word and the last NAME gets the rest of the line.",
    ascii "With no NAME the line is stored in REPLY.",
    ascii "-r keeps backslashes literally, -p writes PROMPT to stderr first.",
    ascii "Exit status is 1 when no input is available."]
  answer c := do
    match ReadOptions.read? {} c.arguments with
    | none => c.refuse 2 (ascii "-p: option requires an argument")
    | some options =>
      match options.names.find? (!isIdentifier ·) with
      | some name => c.refuse 2 (notIdentifier name)
      | none =>
        if !options.prompt.isEmpty then err options.prompt
        if c.piped.isEmpty then
          setAll (options.names.map (·, []))
          return 1
        let line := c.piped.takeWhile (· != Ascii.newline)
        let line := if options.raw then line else dropEscapes line
        if options.names.isEmpty then setAll [(ascii "REPLY", line)]
        else setAll (options.names.zip (readFields options.names.length line))
        return 0

end Builtin

end VirtualShell
