import VirtualShell.ByteMap
import VirtualShell.Tree.Path

/-!
# The host's files

The files of the machine that the shell runs on, as far as it touches them: a configuration file, a
store, scripts and a log. A `Disk` holds directories and regular files under absolute paths;
relative paths start from one working directory. A path is walked component by component, so that
`..` and a slash behind a file mean what they mean to the host.

A call may fail for what stands on the disk, or for a reason of the host's own (`Trouble`): then a
file that was to be written is left with a part of the text.
-/

namespace VirtualShell

/-- Why the host refuses. -/
inductive HostFault
  | noEntry
  | notADirectory
  | isADirectory
  | nameTooLong
  | busy
  | noSpace
  | overQuota
  | tooLarge
  | inputOutput
  | denied
  | readOnly
  deriving DecidableEq

/-- The host's words for it. -/
def HostFault.message : HostFault → Bytes
  | noEntry => ascii "No such file or directory"
  | notADirectory => ascii "Not a directory"
  | isADirectory => ascii "Is a directory"
  | nameTooLong => ascii "File name too long"
  | busy => ascii "Device or resource busy"
  | noSpace => ascii "No space left on device"
  | overQuota => ascii "Disk quota exceeded"
  | tooLarge => ascii "File too large"
  | inputOutput => ascii "Input/output error"
  | denied => ascii "Permission denied"
  | readOnly => ascii "Read-only file system"

/-- A file operation that the host refused. -/
inductive HostError
  | opening (path : Bytes) (cause : HostFault)
  | reading (path : Bytes) (cause : HostFault)
  | writing (path : Bytes) (cause : HostFault)
  | flushing (path : Bytes) (cause : HostFault)
  | replacing (path : Bytes) (cause : HostFault)
  deriving DecidableEq

def HostError.message : HostError → Bytes
  | opening path cause => ascii "Failed to open file '" ++ path ++ ascii "': " ++ cause.message
  | reading path cause => ascii "Failed to read from file '" ++ path ++ ascii "': " ++ cause.message
  | writing path cause => ascii "Failed to write to file '" ++ path ++ ascii "': " ++ cause.message
  | flushing path cause => ascii "Failed to flush file '" ++ path ++ ascii "': " ++ cause.message
  | replacing path cause => ascii "Failed to replace '" ++ path ++ ascii "': " ++ cause.message

/-- The call at which the host fails for a reason of its own, while it replaces a file. -/
inductive Trouble
  | opening (cause : HostFault)
  /-- No more than so many bytes are written. -/
  | writing (count : Nat) (cause : HostFault)
  | flushing (cause : HostFault)
  | moving (cause : HostFault)
  deriving DecidableEq

inductive DiskEntry
  | directory
  | file (content : Bytes)
  deriving DecidableEq

/-- The host's files by canonical absolute path. -/
structure Disk where
  entries : ByteMap DiskEntry

namespace Disk

/-- Where relative paths start. -/
def workingDirectory : Bytes := ascii "/work"

/-- Nothing but the working directory. -/
def empty : Disk :=
  ⟨ByteMap.ofList [(Path.root, .directory), (workingDirectory, .directory)]⟩

instance : Inhabited Disk := ⟨empty⟩

/-! ## Walking a path -/

/-- No component may be longer. -/
def nameLimit : Nat := 255

/-- No path may be as long. -/
def pathLimit : Nat := 4096

/-- Walks one component on from a stack of components, the last of them first. -/
def step (disk : Disk) (stack : List Bytes) (part : Bytes) : Except HostFault (List Bytes) :=
  match disk.entries.find? (Path.ofStack stack) with
  | none => .error .noEntry
  | some (.file _) => .error .notADirectory
  | some .directory =>
    if part = ascii "." then .ok stack
    else if part = ascii ".." then .ok stack.tail
    else if nameLimit < part.length then .error .nameTooLong
    else .ok (part :: stack)

/-- The stack that a path starts from. -/
def startOf (path : Bytes) : List Bytes :=
  if Path.isAbsolute path then [] else (Path.components workingDirectory).reverse

/-- The canonical path, whose parent is a directory. A NUL ends the text. -/
def locate (disk : Disk) (path : Bytes) : Except HostFault Bytes :=
  let path := Bytes.beforeNul path
  if path.isEmpty then .error .noEntry
  else if pathLimit ≤ path.length then .error .nameTooLong
  else do
    let stack ← (Path.components path).foldlM disk.step (startOf path)
    return Path.ofStack stack

/-- A slash at the end asks for a directory. -/
def asksForDirectory (path : Bytes) : Bool :=
  (Bytes.beforeNul path).getLast? == some Ascii.slash

/-- The path ends in no name of its own. -/
def endsInDots (path : Bytes) : Bool :=
  match (Path.components (Bytes.beforeNul path)).getLast? with
  | some part => part == ascii "." || part == ascii ".."
  | none => true

/-- The path can name no file. -/
def namesNoFile (path : Bytes) : Bool := asksForDirectory path || endsInDots path

/-- What the path names, if anything. -/
def status (disk : Disk) (path : Bytes) : Except HostFault (Option DiskEntry) := do
  match disk.entries.find? (← disk.locate path) with
  | some (.file content) =>
    if asksForDirectory path then .error .notADirectory else .ok (some (.file content))
  | entry => .ok entry

/-- The path names something; a path that cannot be walked names nothing. -/
def contains (disk : Disk) (path : Bytes) : Bool :=
  match disk.status path with
  | .ok (some _) => true
  | _ => false

/-! ## Files -/

/-- The file that can be written under a path. -/
def writable (disk : Disk) (path : Bytes) : Except HostFault Bytes := do
  let target ← disk.locate path
  if namesNoFile path then .error .isADirectory
  else match disk.entries.find? target with
    | some .directory => .error .isADirectory
    | _ => .ok target

/-- The disk with a file that holds the content. -/
def holding (disk : Disk) (key content : Bytes) : Disk :=
  ⟨disk.entries.insert key (.file content)⟩

/-- Writes a file and flushes it. What is there is lost when the file is opened; if the host fails
after that, the file holds as much of the content as has been written. -/
def write (disk : Disk) (trouble : Option Trouble) (path content : Bytes) :
    Disk × Except HostError Unit :=
  match disk.writable path with
  | .error fault => (disk, .error (.opening path fault))
  | .ok target =>
    match trouble with
    | some (.opening cause) => (disk, .error (.opening path cause))
    | some (.writing count cause) =>
      if count < content.length then
        (disk.holding target (content.take count), .error (.writing path cause))
      else (disk.holding target content, .ok ())
    | some (.flushing cause) => (disk.holding target content, .error (.flushing path cause))
    | _ => (disk.holding target content, .ok ())

/-- Adds to the end of a file, which is made if there is none. -/
def append (disk : Disk) (path content : Bytes) : Except HostFault Disk := do
  let target ← disk.writable path
  match disk.entries.find? target with
  | some (.file before) => .ok (disk.holding target (before ++ content))
  | _ => .ok (disk.holding target content)

/-- Removes a file. -/
def remove (disk : Disk) (path : Bytes) : Disk :=
  match disk.locate path with
  | .ok target =>
    match disk.entries.find? target with
    | some (.file _) => if namesNoFile path then disk else ⟨disk.entries.erase target⟩
    | _ => disk
  | .error _ => disk

/-- The content of a file. -/
def read (disk : Disk) (path : Bytes) : Except HostError Bytes :=
  match disk.status path with
  | .ok (some (.file content)) => .ok content
  | .ok (some .directory) => .error (.reading path .isADirectory)
  | .ok none => .error (.opening path .noEntry)
  | .error fault => .error (.opening path fault)

/-- Moves a file to another path, over any file there. -/
def rename (disk : Disk) (source target : Bytes) : Except HostFault Disk := do
  let source ← disk.locate source
  let place ← disk.locate target
  if endsInDots target then .error .busy
  else match disk.entries.find? source with
    | some (.file content) =>
      if asksForDirectory target then .error .notADirectory
      else match disk.entries.find? place with
        | some .directory => .error .isADirectory
        | _ => .ok ⟨(disk.entries.erase source).insert place (.file content)⟩
    | _ => .error .noEntry

/-- The file that stands in for another while a process writes it. -/
def temporaryName (process : Nat) (path : Bytes) : Bytes := path ++ ascii ".tmp." ++ decimal process

/-- Replaces a file by way of a temporary one, which is removed if anything fails. -/
def replace (disk : Disk) (process : Nat) (trouble : Option Trouble) (path content : Bytes) :
    Disk × Except HostError Unit :=
  let temporary := temporaryName process path
  match disk.write trouble temporary content with
  | (written, .error e) => (written.remove temporary, .error e)
  | (written, .ok ()) =>
    let moved : Except HostFault Disk := match trouble with
      | some (.moving cause) => .error cause
      | _ => written.rename temporary path
    match moved with
    | .error fault => (written.remove temporary, .error (.replacing path fault))
    | .ok moved => (moved, .ok ())

/-! ## Directories -/

/-- Walks the components on, making each directory that is missing. What has been made stays, also
when the walk fails. -/
def makeFrom (disk : Disk) (stack : List Bytes) : List Bytes → Disk × Except HostFault Unit
  | [] =>
    match disk.entries.find? (Path.ofStack stack) with
    | some .directory => (disk, .ok ())
    | _ => (disk, .error .notADirectory)
  | part :: rest =>
    match disk.step stack part with
    | .error fault => (disk, .error fault)
    | .ok stack =>
      let path := Path.ofStack stack
      if disk.entries.contains path then makeFrom disk stack rest
      else makeFrom ⟨disk.entries.insert path .directory⟩ stack rest

/-- Makes a directory and all that are missing above it. -/
def makeDirectories (disk : Disk) (path : Bytes) : Disk × Except HostFault Unit :=
  let path := Bytes.beforeNul path
  if path.isEmpty then (disk, .error .noEntry)
  else if pathLimit ≤ path.length then (disk, .error .nameTooLong)
  else makeFrom disk (startOf path) (Path.components path)

/-- The directory part of a path, empty for a bare name. -/
def directoryPart (path : Bytes) : Bytes :=
  match Bytes.splitAtLast? Ascii.slash path with
  | none => []
  | some (before, _) =>
    let trimmed := Bytes.dropTrailing (· == Ascii.slash) before
    if trimmed.isEmpty then Path.root else trimmed

/-- Puts a file in place, with the directories above it that are missing. What cannot be put in
place is left out. -/
def place (disk : Disk) (path content : Bytes) : Disk :=
  let directory := directoryPart path
  let disk := if directory.isEmpty then disk else (disk.makeDirectories directory).1
  match disk.writable path with
  | .ok target => disk.holding target content
  | .error _ => disk

/-! ## Listing -/

/-- The regular files below the working directory, by their paths relative to it. -/
def files (disk : Disk) : ByteMap Bytes :=
  ByteMap.ofList (disk.entries.entries.filterMap fun e =>
    match e.2 with
    | .file content =>
      if Path.isWithin e.1 workingDirectory then
        some (e.1.drop (Path.below workingDirectory).length, content)
      else none
    | .directory => none)

end Disk

end VirtualShell
