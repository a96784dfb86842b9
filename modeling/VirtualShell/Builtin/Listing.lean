import VirtualShell.Calendar
import VirtualShell.Shell.Builtin
import VirtualShell.Tree.Mode

/-!
# Showing records: `ls` and `stat`
-/

namespace VirtualShell

namespace Inode

/-- The letter of the kind and the nine letters of the permissions. -/
def permissions (node : Inode) : Bytes := node.kind.letter :: Mode.permissions node.mode

/-- An arrow and the target of a link. -/
def arrow (node : Inode) : Bytes :=
  if node.isSymlink then ascii " -> " ++ node.content else []

/-- The line of a long listing under a name. -/
def longLine (node : Inode) (now : Int) (name : Bytes) : Bytes :=
  Bytes.join [Ascii.space] [
    node.permissions,
    decimal node.uid.toNat,
    decimal node.gid.toNat,
    Bytes.padLeft 8 Ascii.space (decimal node.size),
    Timestamp.renderShort now node.modified,
    name ++ node.arrow]

/-- All that is known about a record. -/
def describe (node : Inode) : Bytes :=
  Bytes.unlines [
    ascii "  File: " ++ node.path ++ node.arrow,
    ascii "  Size: " ++ decimal node.size ++ ascii "\tType: " ++ node.kind.name,
    ascii "Access: (" ++ Mode.octal node.mode ++ ascii "/" ++ node.permissions ++ ascii ")  Uid: "
      ++ decimal node.uid.toNat ++ ascii "  Gid: " ++ decimal node.gid.toNat,
    ascii "Access: " ++ Timestamp.render node.accessed,
    ascii "Modify: " ++ Timestamp.render node.modified,
    ascii "Change: " ++ Timestamp.render node.changed]

end Inode

/-- What `ls` shows. -/
structure ListingOptions where
  hidden : Bool := false
  long : Bool := false
  deriving DecidableEq

namespace ListingOptions

/-- Takes one letter; fails at one that is no option. -/
def applyLetter? (o : ListingOptions) (letter : UInt8) : Option ListingOptions :=
  if letter = 97 ∨ letter = 65 then some { o with hidden := true }
  else if letter = 108 then some { o with long := true }
  else if letter = 49 then some o
  else none

/-- Takes the letters of a word; the error is the first that is no option. -/
def applyLetters (o : ListingOptions) : Bytes → Except UInt8 ListingOptions
  | [] => .ok o
  | letter :: letters =>
    match o.applyLetter? letter with
    | some o => o.applyLetters letters
    | none => .error letter

/-- Reads options and paths in any order. -/
def read (o : ListingOptions) : List Bytes → Except UInt8 (ListingOptions × List Bytes)
  | [] => .ok (o, [])
  | word :: rest =>
    match word with
    | Ascii.minus :: c :: letters => do read (← o.applyLetters (c :: letters)) rest
    | _ => do
      let (o, paths) ← read o rest
      return (o, word :: paths)

/-- The lines of a directory. -/
def listDirectory (o : ListingOptions) (tree : Tree) (now : Int) (path : Bytes) :
    Outcome (List Bytes) := do
  let entries ← tree.list path
  let names := entries.map (·.name)
  let names :=
    if o.hidden then ascii "." :: ascii ".." :: names
    else names.filter (fun name => name.head? != some Ascii.dot)
  if !o.long then return names
  return names.filterMap fun name =>
    match tree.lstat (Path.resolve name path) with
    | .ok node => some (node.longLine now name)
    | .error _ => none

end ListingOptions

namespace Builtin

open ShellAction

/-- Lists a path; several paths are headed by their names, with blank lines between them. -/
def listPath (c : Call) (o : ListingOptions) (several : Bool) (index : Nat) (path : Bytes) :
    ShellAction Bool := do
  let w ← world
  let tree := w.system.tree
  let resolved := w.session.resolve path
  match tree.stat resolved with
  | .error fault => check c.name (.error fault : Outcome Unit)
  | .ok node =>
    if !node.isDirectory then
      out ((if o.long then node.longLine w.now path else path) ++ [Ascii.newline])
      return true
    if several then
      out ((if index = 0 then [] else [Ascii.newline]) ++ path ++ ascii ":\n")
    match o.listDirectory tree w.now resolved with
    | .error fault => check c.name (.error fault : Outcome Unit)
    | .ok lines => do
      out (Bytes.unlines lines)
      return true

def ls : Builtin where
  name := ascii "ls"
  summary := ascii "list directory contents"
  help := [
    ascii "Usage: ls [-a] [-l] [-1] [PATH ...]",
    ascii "List directory contents, sorted by name.",
    ascii "-a includes entries starting with '.', -l uses the long format."]
  answer c := do
    match ListingOptions.read {} c.arguments with
    | .error letter =>
      c.refuse 2 (ascii "invalid option -- '" ++ [letter] ++ ascii "'")
        [ascii "Usage: ls [-a] [-l] [-1] [PATH ...]"]
    | .ok (o, paths) =>
      let paths := if paths.isEmpty then [ascii "."] else paths
      forEach paths.zipIdx fun (path, index) => listPath c o (1 < paths.length) index path

def stat : Builtin where
  name := ascii "stat"
  summary := ascii "show inode metadata"
  help := [
    ascii "Usage: stat PATH ...",
    ascii "Display inode metadata."]
  answer c := c.withFlags "" fun flags => c.requiring 1 flags.operands do
    forEach flags.operands fun path => do
      let found := (← tree).lstat (← resolve path)
      match found with
      | .ok node => out node.describe
      | .error _ => pure ()
      check c.name found

end Builtin

end VirtualShell
