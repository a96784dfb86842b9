import VirtualShell.Pattern.Syntax
import VirtualShell.Shell.Builtin
import VirtualShell.Tree.Visit

/-!
# Searching: `find`, `glob` and `grep`
-/

namespace VirtualShell

/-! ## Finding paths -/

/-- What `find` is to show. -/
structure FindFilter where
  pattern : Option Bytes := none
  kind : Option InodeKind := none

namespace FindFilter

def accepts (f : FindFilter) (name : Bytes) (kind : InodeKind) : Bool :=
  f.kind.all (· == kind) && f.pattern.all (Glob.accepts · name)

end FindFilter

inductive FindError
  | missingArgument (predicate : Bytes)
  | unknownKind (text : Bytes)
  | unknownPredicate (word : Bytes)
  deriving DecidableEq

def FindError.message : FindError → Bytes
  | missingArgument predicate => ascii "missing argument to '" ++ predicate ++ ascii "'"
  | unknownKind text => ascii "Unknown argument to -type: " ++ text
  | unknownPredicate word => ascii "unknown predicate '" ++ word ++ ascii "'"

namespace FindFilter

def kindOfLetter? (text : Bytes) : Option InodeKind :=
  if text = ascii "f" then some .file
  else if text = ascii "d" then some .directory
  else if text = ascii "l" then some .symlink
  else none

/-- Reads the words of `find`: predicates, of which the last of a sort counts, and roots. -/
def read (f : FindFilter) : List Bytes → Except FindError (FindFilter × List Bytes)
  | [] => .ok (f, [])
  | word :: rest =>
    if word = ascii "-name" then
      match rest with
      | [] => .error (.missingArgument word)
      | pattern :: rest => read { f with pattern := some pattern } rest
    else if word = ascii "-type" then
      match rest with
      | [] => .error (.missingArgument word)
      | text :: rest =>
        match kindOfLetter? text with
        | some kind => read { f with kind := some kind } rest
        | none => .error (.unknownKind text)
    else if word.head? = some Ascii.minus then .error (.unknownPredicate word)
    else do
      let (f, roots) ← read f rest
      return (f, word :: roots)

end FindFilter

/-- The texts that `find` shows for a root, the root first. -/
def Tree.find (tree : Tree) (f : FindFilter) (path shown : Bytes) : Outcome (List Bytes) := do
  let node ← tree.lstat path
  let top := if f.accepts (Path.base path) node.kind then [shown] else []
  if !node.isDirectory then return top
  let below := (tree.visit path shown).filter fun v => f.accepts v.entry.name v.entry.kind
  return top ++ below.map (·.shown)

/-! ## Finding lines -/

/-- How `grep` shows what it finds. -/
structure GrepOptions where
  invert : Bool := false
  number : Bool := false
  countOnly : Bool := false

namespace GrepOptions

/-- The lines selected, each with its number, which counts from one. -/
def select (o : GrepOptions) (regex : Regex) (lines : List Bytes) : List (Bytes × Nat) :=
  (lines.zipIdx 1).filter fun e => regex.searchIn e.1 != o.invert

/-- What is shown for a text: its selected lines, or their number. -/
def render (o : GrepOptions) (label : Bytes) (selected : List (Bytes × Nat)) : List Bytes :=
  if o.countOnly then [label ++ decimal selected.length]
  else selected.map fun e =>
    label ++ (if o.number then decimal e.2 ++ [Ascii.colon] else []) ++ e.1

end GrepOptions

namespace Builtin

open ShellAction

def find : Builtin where
  name := ascii "find"
  summary := ascii "search a directory tree"
  help := [
    ascii "Usage: find [PATH ...] [-name PATTERN] [-type f|d|l]",
    ascii "Recursively list paths below each PATH (default '.').",
    ascii "PATTERN is matched against the last path component."]
  answer c := do
    match FindFilter.read {} c.arguments with
    | .error e => c.refuse 1 e.message
    | .ok (f, roots) =>
      let roots := if roots.isEmpty then [ascii "."] else roots
      let found ← roots.mapM fun root => do
        let shown := (← tree).find f (← resolve root) root
        let good ← check c.name shown
        return ((shown.toOption.getD [] : List Bytes), good)
      out (Bytes.unlines (found.flatMap (·.1)))
      return statusOf (found.map (·.2))

def glob : Builtin where
  name := ascii "glob"
  summary := ascii "print paths matching a glob pattern"
  help := [
    ascii "Usage: glob PATTERN [BASE]",
    ascii "Print paths below BASE (default '.') matching PATTERN.",
    ascii "'*' and '?' match within one path segment, '**' across segments."]
  answer c := do
    match c.arguments with
    | [] => c.refuse 1 (ascii "missing pattern") [ascii "Usage: glob PATTERN [BASE]"]
    | pattern :: rest => do
      let base ← resolve (rest.headD (ascii "."))
      out (Bytes.unlines ((← tree).glob pattern base))
      return 0

/-- Searches the files and gives what is shown and how many lines are selected in each, or nothing
for a file that cannot be read. -/
def grepFiles (c : Call) (o : GrepOptions) (regex : Regex) (labelled : Bool) (files : List Bytes) :
    ShellAction (List (Option (List Bytes × Nat))) :=
  files.mapM fun file => do
    match ← c.readInput file with
    | none => return none
    | some text =>
      let selected := o.select regex (Bytes.lines text)
      let label := if labelled then file ++ [Ascii.colon] else []
      return some (o.render label selected, selected.length)

def grep : Builtin where
  name := ascii "grep"
  summary := ascii "print lines matching a pattern"
  help := [
    ascii "Usage: grep [-i] [-v] [-n] [-c] PATTERN [FILE ...]",
    ascii "Print lines matching PATTERN (ECMAScript regular expression).",
    ascii "-i ignores case, -v inverts, -n numbers lines, -c counts matches.",
    ascii "Exit status is 0 if a line was selected, 1 if none, 2 on error."]
  answer c := c.withFlags "ivncE" fun flags => do
    match flags.operands with
    | [] =>
      c.refuse 2 (ascii "missing pattern")
        [ascii "Usage: grep [-i] [-v] [-n] [-c] PATTERN [FILE ...]"]
    | pattern :: files =>
      match Regex.read? (flags.has 'i') pattern with
      | none => c.refuse 2 (ascii "invalid pattern: " ++ StoreFault.unnamedCause)
      | some regex => do
        let o : GrepOptions :=
          { invert := flags.has 'v', number := flags.has 'n', countOnly := flags.has 'c' }
        let inputs := if files.isEmpty then [ascii "-"] else files
        let found ← grepFiles c o regex (1 < files.length) inputs
        out (Bytes.unlines (found.flatMap fun f => (f.map (·.1)).getD []))
        if found.any Option.isNone then return 2
        return statusOf [found.any fun f => f.any (0 < ·.2)]

end Builtin

end VirtualShell
