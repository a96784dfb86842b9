import VirtualShell.Fault
import VirtualShell.Pattern.Glob
import VirtualShell.Store.Batch

/-!
# Looking things up in the tree

A `Tree` keeps its records under their canonical paths, in byte order. A path is walked from the
root; a symbolic link on the way gives way to its target, read from the directory that the link
stands in, and the walk starts over.

* `Tree.realPath` follows every link of a path, `Tree.entryPath` all but a link in the last place.
* `Tree.stat` and `Tree.lstat` find the record of a path, following a last link or not.
* `Tree.descendants` and `Tree.hasChildren` read the keys below a directory by a scan of the order.
* `Tree.list` lists a directory, `Tree.glob` finds the paths that match a pattern.
-/

namespace VirtualShell

/-- Records under their canonical paths. -/
abbrev Tree := Records

namespace Tree

/-- What is written here is gone. -/
def nullDevice : Bytes := ascii "/dev/null"

/-! ## Walking -/

/-- Why a walk ends early. -/
inductive WalkFault
  | missing
  | notADirectory
  | tooManyLinks
  deriving DecidableEq

/-- The fault of a walk along a path. -/
def WalkFault.along (path : Bytes) : WalkFault → Fault
  | missing => .plain .notFound path
  | notADirectory => .plain .notADirectory path
  | tooManyLinks => .tooManyLinks path

/-- Walks the components on from a directory. At a link, `onLink` takes over with the components
that are then to be walked from the root. -/
def walkFrom (tree : Tree) (onLink : List Bytes → Except WalkFault Bytes) (current : Bytes) :
    List Bytes → Except WalkFault Bytes
  | [] => .ok current
  | part :: rest =>
    let path := Path.join current part
    match tree.find? path with
    | none => .error .missing
    | some node =>
      if node.isSymlink then
        onLink (Path.components (Path.resolve node.content current) ++ rest)
      else if !node.isDirectory && !rest.isEmpty then .error .notADirectory
      else walkFrom tree onLink path rest

/-- Walks the components from the root across at most so many links. -/
def walk (tree : Tree) : Nat → List Bytes → Except WalkFault Bytes
  | 0, parts => walkFrom tree (fun _ => .error .tooManyLinks) Path.root parts
  | links + 1, parts => walkFrom tree (walk tree links) Path.root parts

/-- So many links may be followed on the way to a record. -/
def linkLimit : Nat := 16

/-- The path that is left when every link of a path has been followed. -/
def realPath (tree : Tree) (path : Bytes) : Outcome Bytes :=
  let canonical := Path.resolve path
  (walk tree linkLimit (Path.components canonical)).mapError (WalkFault.along canonical)

/-- The path with all links but the last component followed; the last may be missing or a link. -/
def entryPath (tree : Tree) (path : Bytes) : Outcome Bytes :=
  let canonical := Path.resolve path
  if canonical = Path.root then .ok canonical
  else match tree.realPath (Path.parent canonical) with
    | .ok parent => .ok (Path.join parent (Path.base canonical))
    | .error fault =>
      if fault.kind = .notFound then .error (.plain .notFound canonical) else .error fault

/-- What is to be put at the path has a directory to stand in. -/
def requireParent (tree : Tree) (path : Bytes) : Outcome Unit :=
  match tree.find? (Path.parent path) with
  | none => .error (.plain .notFound path)
  | some parent => if parent.isDirectory then .ok () else .error (.plain .notADirectory path)

/-! ## Records -/

/-- The record that a path leads to. -/
def stat (tree : Tree) (path : Bytes) : Outcome Inode := do
  match tree.find? (← tree.realPath path) with
  | some node => return node
  | none => throw (.plain .notFound (Path.resolve path))

/-- The record of a path itself, be it a link. -/
def lstat (tree : Tree) (path : Bytes) : Outcome Inode := do
  match tree.find? (← tree.entryPath path) with
  | some node => return node
  | none => throw (.plain .notFound (Path.resolve path))

def exists? (tree : Tree) (path : Bytes) : Bool := (tree.lstat path).isOk

/-- The path leads to a directory. -/
def leadsToDirectory (tree : Tree) (path : Bytes) : Bool :=
  match tree.stat path with
  | .ok node => node.isDirectory
  | .error _ => false

/-- The target of a link. -/
def readLink (tree : Tree) (path : Bytes) : Outcome Bytes := do
  let node ← tree.lstat path
  if node.isSymlink then return node.content
  else throw (.plain .invalidArgument (Path.resolve path))

/-! ## Directories -/

/-- The records strictly below a directory. -/
def descendants (tree : Tree) (dir : Bytes) : List (Bytes × Inode) :=
  (tree.scan (Path.below dir)).filter (fun e => e.1 != dir)

/-- Something is strictly below the directory. -/
def hasChildren (tree : Tree) (dir : Bytes) : Bool :=
  let start := Path.below dir
  let following := match tree.entriesFrom start with
    | [] => []
    | e :: rest => if e.1 = dir then rest else e :: rest
  following.head?.any (fun e => start.isPrefixOf e.1)

/-- An entry of a listing. -/
structure DirEntry where
  name : Bytes
  kind : InodeKind
  mode : UInt32
  size : Nat
  modified : Int
  deriving DecidableEq

/-- The name of a key as an entry of a directory, if it is one. -/
def entryName? (dir key : Bytes) : Option Bytes :=
  let name := key.drop (Path.below dir).length
  if key = dir ∨ name.isEmpty ∨ name.contains Ascii.slash then none else some name

/-- The entries of a directory in byte order. -/
def list (tree : Tree) (path : Bytes) : Outcome (List DirEntry) := do
  let dir ← tree.realPath path
  if (tree.find? dir).any Inode.isDirectory then
    return (tree.scan (Path.below dir)).filterMap fun e =>
      (entryName? dir e.1).map fun name =>
        { name, kind := e.2.kind, mode := e.2.mode, size := e.2.size, modified := e.2.modified }
  else throw (.plain .notADirectory (Path.resolve path))

/-! ## Patterns -/

/-- The paths that a pattern is held against: all in full, or those below the base as seen from
it. -/
def candidates (tree : Tree) (absolute : Bool) (base : Bytes) : List Bytes :=
  let start := Path.below (if absolute then Path.root else Path.resolve base)
  (tree.scan start).filterMap fun e =>
    let candidate := if absolute then e.1 else e.1.drop start.length
    if candidate.isEmpty then none else some candidate

/-- The paths that match a pattern, in byte order: below the base and relative to it, or in full
when the pattern starts with a slash. No pattern is refused: whatever its bytes are, its expression
is well formed. The bound on the states of an expression (`Regex.stateLimit`), which a pattern of
many thousand bytes would pass, is held against what users write as expressions only. -/
def glob (tree : Tree) (pattern base : Bytes) : List Bytes :=
  (tree.candidates (Path.isAbsolute pattern) base).filter (Glob.accepts pattern)

end Tree

end VirtualShell
