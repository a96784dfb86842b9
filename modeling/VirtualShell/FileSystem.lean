import VirtualShell.Store.Basic
import VirtualShell.Tree.Change

/-!
# The file system

A tree over a volume. Every change is planned on the tree and committed to the store first; only a
batch that the store has taken is made in the tree. Reading a file moves its access time in the tree
alone.

* `FileSystem.load` reads the tree: keys are made canonical, records whose parent is no directory
  are dropped, and a tree without a root is seeded with the standard one.
* `FileSystem.change` commits a plan; a failure leaves the tree as it was
  (`FileSystem.tree_change_of_error`).
-/

namespace VirtualShell

/-- A tree and where it is kept. -/
structure FileSystem where
  tree : Tree := ∅
  volume : Volume

/-- What an operation gives, the file system after it and what there is to tell. -/
structure FileSystemStep (α : Type) where
  result : Outcome α
  system : FileSystem
  events : List TraceEvent := []

namespace FileSystem

/-! ## Committing -/

/-- Commits a batch; an empty one does not reach the store. -/
def commit (fs : FileSystem) (batch : Batch) : FileSystemStep Unit :=
  if batch.isEmpty then ⟨.ok (), fs, []⟩
  else
    let step := fs.volume.commit batch
    match step.result with
    | .ok () => ⟨.ok (), ⟨batch.apply fs.tree, step.volume⟩, step.events⟩
    | .error fault =>
      ⟨.error fault, { fs with volume := step.volume },
        step.events ++ [.commitFailed fault.message]⟩

/-- Commits a plan. -/
def change (fs : FileSystem) (plan : Outcome Change) : FileSystemStep Unit :=
  match plan with
  | .error fault => ⟨.error fault, fs, []⟩
  | .ok change =>
    let step := fs.commit change.batch
    { step with events := change.events ++ step.events }

/-- A change that fails leaves the tree as it was. -/
theorem tree_change_of_error {fs : FileSystem} {plan : Outcome Change} {fault : Fault}
    (h : (fs.change plan).result = .error fault) : (fs.change plan).system.tree = fs.tree := by
  cases plan with
  | error => rfl
  | ok change =>
    simp only [FileSystem.change, commit] at h ⊢
    split
    · rfl
    next ne =>
      rw [if_neg ne] at h
      split
      next ok =>
        rw [ok] at h
        simp at h
      · rfl

/-! ## Opening -/

/-- The records under their canonical paths; of two for one path the later counts. -/
def index (inodes : List Inode) : Tree :=
  ByteMap.ofList (inodes.map fun node =>
    let path := Path.resolve node.path
    (path, { node with path }))

/-- The tree less one record whose parent is no directory, and the paths dropped so far. -/
def dropOrphan (kept : Tree × List Bytes) (path : Bytes) : Tree × List Bytes :=
  if path = Path.root ∨ (kept.1.find? (Path.parent path)).any Inode.isDirectory then kept
  else (kept.1.erase path, kept.2 ++ [path])

/-- The tree without the records that cannot be reached, and their paths. Parents come before what
is below them, so all below a record that is dropped goes with it. -/
def prune (tree : Tree) : Tree × List Bytes := tree.keys.foldl dropOrphan (tree, [])

/-- The directories that the system owns. -/
def systemDirectories : List Bytes :=
  [ascii "/home", ascii "/tmp", ascii "/bin", ascii "/usr", ascii "/usr/bin", ascii "/etc",
    ascii "/var", ascii "/var/log", ascii "/dev"]

/-- The records of a new tree. -/
def standardTree (now : Int) : List Inode :=
  let directory (path : Bytes) : Inode := .newDirectory path .root now
  directory Path.root
    :: systemDirectories.map (fun path =>
      if path = ascii "/tmp" then { directory path with mode := 0o1777 } else directory path)
    ++ [.newDirectory (ascii "/home/user") {} now,
      { Inode.newFile Tree.nullDevice [] .root now with mode := 0o666 },
      .newFile (ascii "/etc/hostname") (ascii "vsh\n") .root now,
      .newFile (ascii "/home/user/.vshrc") (ascii "# ~/.vshrc\n") {} now]

/-- Writes the standard tree. -/
def seed (fs : FileSystem) (now : Int) : FileSystemStep Unit :=
  let puts := standardTree now
  let step := fs.commit { puts }
  match step.result with
  | .ok () => { step with events := step.events ++ [.treeSeeded puts.length] }
  | .error _ => step

/-- Loads the tree from the store, and seeds it when it has no root. -/
def load (fs : FileSystem) (now : Int) : FileSystemStep Unit :=
  let loaded := fs.volume.load
  let step : FileSystemStep Unit := match loaded.result with
    | .error fault => ⟨.error fault, { fs with volume := loaded.volume }, loaded.events⟩
    | .ok inodes =>
      let (tree, dropped) := prune (index inodes)
      let opened : FileSystem := ⟨tree, loaded.volume⟩
      let told := loaded.events ++ dropped.map TraceEvent.orphanDropped
        ++ [.treeLoaded tree.size loaded.volume.store.describe]
      if tree.contains Path.root then ⟨.ok (), opened, told⟩
      else
        let seeded := opened.seed now
        { seeded with events := told ++ seeded.events }
  { step with events := step.events ++ [.finished .loadingTree] }

/-! ## Operations -/

/-- The content of what a path leads to; the time of the access is kept in the tree only. -/
def read (fs : FileSystem) (now : Int) (path : Bytes) : FileSystemStep Bytes :=
  match fs.tree.stat path with
  | .error fault => ⟨.error fault, fs, []⟩
  | .ok node =>
    if node.isDirectory then ⟨.error (.plain .isADirectory (Path.resolve path)), fs, []⟩
    else
      ⟨.ok node.content, { fs with tree := fs.tree.insert node.path { node with accessed := now } },
        []⟩

def write (fs : FileSystem) (now : Int) (path content : Bytes) (append : Bool := false)
    (owner : Owner := {}) : FileSystemStep Unit :=
  fs.change (fs.tree.planWrite now path content append owner)

def touch (fs : FileSystem) (now : Int) (path : Bytes) (owner : Owner := {}) :
    FileSystemStep Unit :=
  fs.change (fs.tree.planTouch now path owner)

def setMode (fs : FileSystem) (now : Int) (path : Bytes) (mode : UInt32) : FileSystemStep Unit :=
  fs.change (fs.tree.planSetMode now path mode)

/-- Makes a symbolic link at the path. -/
def link (fs : FileSystem) (now : Int) (target path : Bytes) (owner : Owner := {}) :
    FileSystemStep Unit :=
  fs.change (fs.tree.planLink now target path owner)

def makeDirectory (fs : FileSystem) (now : Int) (path : Bytes) (recursive : Bool := false)
    (owner : Owner := {}) : FileSystemStep Unit :=
  fs.change
    (if recursive then fs.tree.planDirectories now path owner
      else fs.tree.planDirectory now path owner)

def unlink (fs : FileSystem) (path : Bytes) : FileSystemStep Unit :=
  fs.change (fs.tree.planUnlink path)

def removeDirectory (fs : FileSystem) (path : Bytes) (recursive : Bool := false) :
    FileSystemStep Unit :=
  fs.change (fs.tree.planRemoveDirectory path recursive)

def rename (fs : FileSystem) (now : Int) (source target : Bytes) : FileSystemStep Unit :=
  fs.change (fs.tree.planRename now source target)

def copy (fs : FileSystem) (now : Int) (source target : Bytes) (recursive : Bool := false) :
    FileSystemStep Unit :=
  fs.change (fs.tree.planCopy now source target recursive)

end FileSystem

end VirtualShell
