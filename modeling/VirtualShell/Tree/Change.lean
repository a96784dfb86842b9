import VirtualShell.Trace
import VirtualShell.Tree.Lookup

/-!
# Planned changes of the tree

Every operation that changes the tree is planned first: from the tree, the time and the operands to
one batch, or to the fault that forbids it. A plan changes nothing; the file system commits its
batch as a whole.
-/

namespace VirtualShell

/-- A planned change. An empty batch leaves everything as it is. -/
structure Change where
  batch : Batch := {}
  events : List TraceEvent := []

namespace Change

/-- Writes one record. -/
def put (node : Inode) : Change := { batch := { puts := [node] } }

end Change

namespace Tree

/-! ## Writing -/

/-- The path that a write to a path goes to. A link that leads nowhere is followed once. -/
def writeTarget (tree : Tree) (path : Bytes) : Outcome Bytes := do
  let target ← tree.entryPath path
  match tree.find? target with
  | none => return target
  | some node =>
    if !node.isSymlink then return target
    else match tree.realPath target with
      | .ok followed => return followed
      | .error fault =>
        if fault.kind = .notFound then return Path.resolve node.content (Path.parent target)
        else throw fault

/-- Writes the content of a file, or adds to its end. -/
def planWrite (tree : Tree) (now : Int) (path content : Bytes) (append : Bool := false)
    (owner : Owner := {}) : Outcome Change := do
  let target ← tree.writeTarget path
  if target = nullDevice then return {}
  tree.requireParent target
  match tree.find? target with
  | none => return .put (.newFile target content owner now)
  | some node =>
    if node.isDirectory then throw (.plain .isADirectory target)
    let content := if append then node.content ++ content else content
    return .put { node.withContent content with modified := now, accessed := now }

/-- Sets the times of what the path leads to, or makes an empty file. -/
def planTouch (tree : Tree) (now : Int) (path : Bytes) (owner : Owner := {}) : Outcome Change :=
  match tree.stat path with
  | .ok node => .ok (.put { node with modified := now, accessed := now })
  | .error fault =>
    if fault.kind = .notFound then tree.planWrite now path [] true owner else .error fault

/-- Sets the mode of what the path leads to. -/
def planSetMode (tree : Tree) (now : Int) (path : Bytes) (mode : UInt32) : Outcome Change := do
  let node ← tree.stat path
  return .put { node with mode := mode &&& 0o7777, changed := now }

/-- Makes a symbolic link. -/
def planLink (tree : Tree) (now : Int) (target path : Bytes) (owner : Owner := {}) :
    Outcome Change := do
  let link ← tree.entryPath path
  if tree.contains link then throw (.plain .alreadyExists (Path.resolve path))
  tree.requireParent link
  return .put (.newSymlink link target owner now)

/-! ## Directories -/

/-- Makes one directory. -/
def planDirectory (tree : Tree) (now : Int) (path : Bytes) (owner : Owner := {}) :
    Outcome Change := do
  let canonical := Path.resolve path
  let target ← tree.entryPath canonical
  if tree.contains target then throw (.plain .alreadyExists canonical)
  tree.requireParent target
  return .put (.newDirectory target owner now)

/-- New directories along the components, one below the other. -/
def newDirectories (now : Int) (owner : Owner) (current : Bytes) : List Bytes → List Inode
  | [] => []
  | part :: rest =>
    let path := Path.join current part
    .newDirectory path owner now :: newDirectories now owner path rest

/-- The directories that are missing along the components. -/
def missingDirectories (tree : Tree) (now : Int) (owner : Owner) (canonical current : Bytes) :
    List Bytes → Outcome (List Inode)
  | [] => .ok []
  | part :: rest =>
    let path := Path.join current part
    let blocked : Fault :=
      .plain (if rest.isEmpty then .alreadyExists else .notADirectory) canonical
    match tree.find? path with
    | none => .ok (newDirectories now owner current (part :: rest))
    | some node =>
      if node.isSymlink then do
        let followed ← tree.realPath path
        if (tree.find? followed).any Inode.isDirectory then
          tree.missingDirectories now owner canonical followed rest
        else throw blocked
      else if node.isDirectory then tree.missingDirectories now owner canonical path rest
      else .error blocked

/-- Makes a directory and all that are missing above it. -/
def planDirectories (tree : Tree) (now : Int) (path : Bytes) (owner : Owner := {}) :
    Outcome Change := do
  let canonical := Path.resolve path
  let puts ←
    tree.missingDirectories now owner canonical Path.root (Path.components canonical)
  return { batch := { puts } }

/-! ## Removing -/

/-- Removes what is no directory. -/
def planUnlink (tree : Tree) (path : Bytes) : Outcome Change := do
  let node ← tree.lstat path
  if node.isDirectory then throw (.plain .isADirectory (Path.resolve path))
  if node.path = nullDevice then throw .nullDevice
  return { batch := { erases := [node.path] } }

/-- Removes a directory, with all below it if asked for; what is deeper goes first. -/
def planRemoveDirectory (tree : Tree) (path : Bytes) (recursive : Bool) : Outcome Change := do
  let node ← tree.lstat path
  let target := node.path
  if target = Path.root then throw .removeRoot
  if !node.isDirectory then throw (.plain .notADirectory (Path.resolve path))
  if !tree.hasChildren target then return { batch := { erases := [target] } }
  else if !recursive then throw (.plain .notEmpty (Path.resolve path))
  else
    let keys := (tree.descendants target).map (·.1)
    return { batch := { erases := keys.reverse ++ [target] } }

/-! ## Moving and copying -/

/-- The records of a subtree as they stand below another path. -/
def moved (source target : Bytes) (entries : List (Bytes × Inode)) : List Inode :=
  entries.map fun e => { e.2 with path := Path.rekey e.1 source target }

/-- What stands at the target may give way to what is moved there. -/
def requireReplaceable (tree : Tree) (node : Inode) (target : Bytes) : Outcome Unit :=
  match tree.find? target with
  | none => .ok ()
  | some existing =>
    if existing.isDirectory then
      if !node.isDirectory then .error (.plain .isADirectory target)
      else if tree.hasChildren target then .error (.plain .notEmpty target)
      else .ok ()
    else if node.isDirectory then .error (.plain .notADirectory target)
    else .ok ()

/-- Moves a record and all below it. -/
def planRename (tree : Tree) (now : Int) (source target : Bytes) : Outcome Change := do
  let node ← tree.lstat source
  let old := node.path
  if old = Path.root then throw .moveRoot
  let new ← tree.entryPath target
  if new = old then return {}
  if Path.isWithin new old then throw (.moveIntoItself old)
  tree.requireParent new
  tree.requireReplaceable node new
  let below := tree.descendants old
  let replaced := if tree.contains new then [new] else []
  let puts := { node with path := new, modified := now } :: moved old new below
  return {
    batch := { erases := replaced ++ old :: below.map (·.1), puts }
    events := [.renamed old new puts.length] }

/-- Where a copy goes: into a directory under the name of the source, or to the path itself. -/
def copyTarget (tree : Tree) (source target : Bytes) : Outcome Bytes := do
  let place ← tree.entryPath target
  match tree.realPath place with
  | .ok followed =>
    if (tree.find? followed).any Inode.isDirectory then
      return Path.join followed (Path.base source)
    else return place
  | .error _ => return place

/-- A record as it is copied. -/
def renewed (now : Int) (node : Inode) : Inode :=
  { node with changed := now, modified := now, accessed := now }

/-- What stands at the target of a copy: `true` for a directory that is merged into. -/
def mergesInto (tree : Tree) (node : Inode) (target : Bytes) : Outcome Bool :=
  match tree.find? target with
  | none => .ok false
  | some existing =>
    if existing.isDirectory && !node.isDirectory then .error (.plain .isADirectory target)
    else if !existing.isDirectory && node.isDirectory then .error (.plain .notADirectory target)
    else .ok existing.isDirectory

/-- Copies what a path leads to, with all below it if asked for. -/
def planCopy (tree : Tree) (now : Int) (source target : Bytes) (recursive : Bool) :
    Outcome Change := do
  let node ← tree.stat source
  let old := node.path
  if node.isDirectory && !recursive then throw (.copyNotRecursive (Path.resolve source))
  let new ← tree.copyTarget old target
  if new = old then throw (.sameFile old new)
  if Path.isWithin new old then throw (.copyIntoItself (Path.resolve source))
  tree.requireParent new
  let merges ← tree.mergesInto node new
  let top := if merges then [] else [renewed now { node with path := new }]
  let below := if node.isDirectory then moved old new (tree.descendants old) else []
  return { batch := { puts := top ++ below.map (renewed now) } }

end Tree

end VirtualShell
