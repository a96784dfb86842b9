import VirtualShell.Shell.Builtin

/-!
# Parts of paths: `basename` and `dirname`
-/

namespace VirtualShell

namespace Path

/-- The path without slashes at its end; of slashes alone one is left. -/
def dropTrailingSlashes (path : Bytes) : Bytes :=
  let shorter := Bytes.dropTrailing (· == Ascii.slash) path
  if shorter.isEmpty then path.take 1 else shorter

/-- The last component of a path as written; `/` for the root. -/
def fileName (path : Bytes) : Bytes :=
  let path := dropTrailingSlashes path
  if path = root then root
  else match Bytes.splitAtLast? Ascii.slash path with
    | some (_, name) => name
    | none => path

/-- The path as written without its last component; `.` where there is no other. -/
def directoryName (path : Bytes) : Bytes :=
  match Bytes.splitAtLast? Ascii.slash (dropTrailingSlashes path) with
  | none => ascii "."
  | some (before, _) =>
    let directory := dropTrailingSlashes before
    if directory.isEmpty then root else directory

/-- The name without a suffix, unless that is all of it. -/
def dropSuffix (suffix name : Bytes) : Bytes :=
  if suffix.length < name.length ∧ suffix.isSuffixOf name then
    name.take (name.length - suffix.length)
  else name

end Path

namespace Builtin

open ShellAction

def basename : Builtin where
  name := ascii "basename"
  summary := ascii "strip directory from a path"
  help := [
    ascii "Usage: basename NAME [SUFFIX]",
    ascii "Print NAME with leading directories and an optional SUFFIX removed."]
  answer c := do
    match c.arguments with
    | [] => c.refuse 1 (ascii "missing operand")
    | path :: rest => do
      out (Path.dropSuffix (rest.headD []) (Path.fileName path) ++ [Ascii.newline])
      return 0

def dirname : Builtin where
  name := ascii "dirname"
  summary := ascii "strip the last component from a path"
  help := [
    ascii "Usage: dirname NAME",
    ascii "Print NAME with its last component removed."]
  answer c := do
    match c.arguments with
    | [] => c.refuse 1 (ascii "missing operand")
    | path :: _ => do
      out (Path.directoryName path ++ [Ascii.newline])
      return 0

end Builtin

end VirtualShell
