import VirtualShell.Text.Bytes

/-!
# Records of the file tree

An `Inode` is what the tree keeps for one path: a directory, a file with its content or a symbolic
link with its target, and the mode, owner and times. Kind, size and content are kept apart. That
they agree (`Inode.Sized`) is up to whoever makes a record: the makers here do, and a record stays
so when its path, mode, owner or times are changed (`Inode.Sized.of_body`).
-/

namespace VirtualShell

/-- The kinds of record. -/
inductive InodeKind
  | file
  | directory
  | symlink
  deriving DecidableEq, Inhabited

namespace InodeKind

/-- The name in a stored record. -/
def name : InodeKind → Bytes
  | file => ascii "file"
  | directory => ascii "dir"
  | symlink => ascii "symlink"

def ofName? (name : Bytes) : Option InodeKind :=
  if name = ascii "file" then some file
  else if name = ascii "dir" then some directory
  else if name = ascii "symlink" then some symlink
  else none

/-- The letter in front of the permissions of a listing. -/
def letter : InodeKind → UInt8
  | file => Ascii.minus
  | directory => 100
  | symlink => 108

@[simp] theorem ofName?_name (k : InodeKind) : ofName? k.name = some k := by
  cases k <;> decide

end InodeKind

/-- What a record holds. A stored record may lack its content. -/
structure Body where
  kind : InodeKind
  /-- How many bytes the content has, by what the record says of itself. -/
  size : Nat := 0
  content? : Option Bytes := none
  deriving DecidableEq, Inhabited

namespace Body

def directory : Body := { kind := .directory }

def file (content : Bytes) : Body :=
  { kind := .file, size := content.length, content? := some content }

/-- A link is made as a file that holds its target. -/
def symlink (target : Bytes) : Body := { file target with kind := .symlink }

end Body

/-- A record; times are in milliseconds. -/
structure Inode extends body : Body where
  path : Bytes
  mode : UInt32
  uid : UInt32 := 0
  gid : UInt32 := 0
  /-- When the mode last changed, or the record was made. -/
  changed : Int := 0
  modified : Int := 0
  accessed : Int := 0
  deriving DecidableEq, Inhabited

/-- Whom new records belong to. -/
structure Owner where
  uid : UInt32 := 1000
  gid : UInt32 := 1000
  deriving DecidableEq, Inhabited

/-- The owner of what comes with the system. -/
def Owner.root : Owner := ⟨0, 0⟩

namespace Inode

def isDirectory (node : Inode) : Bool := node.kind == .directory
def isFile (node : Inode) : Bool := node.kind == .file
def isSymlink (node : Inode) : Bool := node.kind == .symlink

theorem isDirectory_of_body {node node' : Inode} (h : node'.body = node.body) :
    node'.isDirectory = node.isDirectory := congrArg (fun body => body.kind == .directory) h

/-- The content of a file or the target of a link, empty where there is none. -/
def content (node : Inode) : Bytes := node.content?.getD []

/-- The record with other content. -/
def withContent (node : Inode) (content : Bytes) : Inode :=
  { node with size := content.length, content? := some content }

@[simp] theorem content_withContent (node : Inode) (content : Bytes) :
    (node.withContent content).content = content := rfl

/-- A new record, all its times being `now`. -/
def make (path : Bytes) (body : Body) (mode : UInt32) (owner : Owner) (now : Int) : Inode :=
  { path, body, mode, uid := owner.uid, gid := owner.gid,
    changed := now, modified := now, accessed := now }

/-- A new directory. -/
def newDirectory (path : Bytes) (owner : Owner) (now : Int) : Inode :=
  make path .directory 0o755 owner now

/-- A new file. -/
def newFile (path content : Bytes) (owner : Owner) (now : Int) : Inode :=
  make path (.file content) 0o644 owner now

/-- A new symbolic link. -/
def newSymlink (path target : Bytes) (owner : Owner) (now : Int) : Inode :=
  make path (.symlink target) 0o777 owner now

/-! ## Sizes -/

/-- A directory has no content, and what is no directory has the size of its content. -/
structure Sized (node : Inode) : Prop where
  directory : node.isDirectory = true → node.content? = none ∧ node.size = 0
  content : node.isDirectory = false → node.size = (node.content?.map List.length).getD 0

/-- Only what a record holds counts. -/
theorem Sized.of_body {node node' : Inode} (h : node.Sized) (same : node'.body = node.body) :
    node'.Sized := by
  obtain ⟨body, path, mode, uid, gid, changed, modified, accessed⟩ := node
  cases node'
  cases same
  exact ⟨h.directory, h.content⟩

theorem sized_newDirectory (path : Bytes) (owner : Owner) (now : Int) :
    (newDirectory path owner now).Sized := ⟨fun _ => ⟨rfl, rfl⟩, nofun⟩

theorem sized_newFile (path content : Bytes) (owner : Owner) (now : Int) :
    (newFile path content owner now).Sized := ⟨nofun, fun _ => rfl⟩

theorem sized_newSymlink (path target : Bytes) (owner : Owner) (now : Int) :
    (newSymlink path target owner now).Sized := ⟨nofun, fun _ => rfl⟩

/-- Other content is only for what is no directory. -/
theorem sized_withContent {node : Inode} (h : node.isDirectory = false) (content : Bytes) :
    (node.withContent content).Sized :=
  ⟨fun dir => absurd (h.symm.trans dir) nofun, fun _ => rfl⟩

end Inode

end VirtualShell
