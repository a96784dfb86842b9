import Std.Time.DateTime.Timestamp
import VirtualShell.Startup.Program

/-!
# The program

Runs the shell on the machine: the files that a run reads are brought onto a disk, the actions of
the shell are run on it, what they emit is written out, and the store and the log are written back
after every line.
-/

namespace VirtualShell

/-- A machine that the shell runs on. -/
structure Machine where
  launch : Launch
  plan : Plan
  now : Int

namespace Machine

/-- The text that the machine knows a path by. -/
def nameOf? (path : Bytes) : Option String := String.fromUTF8? (ByteArray.mk path.toArray)

/-- Brings a file onto the disk, if it can be read. -/
def fetch (disk : Disk) (path : Bytes) : IO Disk := do
  match nameOf? path with
  | none => return disk
  | some name =>
    try
      return disk.place path (← IO.FS.readBinFile name).toList
    catch _ => return disk

/-- Writes a file back if it is not what it was. -/
def putBack (process : Nat) (before after : Disk) (path : Bytes) : IO Unit := do
  let temporary := Disk.temporaryName process path
  match (after.read path).toOption, nameOf? path, nameOf? temporary with
  | some content, some name, some temporary =>
    if (before.read path).toOption ≠ some content then
      if let some directory := nameOf? (Disk.directoryPart path) then
        if !directory.isEmpty then IO.FS.createDirAll directory
      IO.FS.writeBinFile temporary (ByteArray.mk content.toArray)
      IO.FS.rename temporary name
  | _, _, _ => return

def write (stream : IO.FS.Stream) (text : Bytes) : IO Unit := do
  stream.write (ByteArray.mk text.toArray)
  stream.flush

/-- Writes out what has been emitted. -/
def writeOut (debug : Bool) (emitted : List Emission) : IO Unit := do
  let stdout ← IO.getStdout
  let stderr ← IO.getStderr
  for e in emitted do
    match e with
    | .out text => write stdout text
    | .err text => write stderr text
    | .trace event => if debug then write stderr event.render
    | .pause d => IO.sleep (d.seconds * 1000 + d.nanoseconds / 1000000).toUInt32

/-- Milliseconds since the start of 1970. -/
def currentTime : IO Int := do
  return (← Std.Time.Timestamp.now).toMillisecondsSinceUnixEpoch.val

/-- Runs an action, writes out what it emits and brings the machine's files up to date. -/
def act {α : Type} (m : Machine) (world : World) (a : ShellAction α) : IO (α × World) := do
  let result := a.run { world with now := ← currentTime }
  let settings := m.plan.settings
  writeOut settings.debug result.emitted
  let before := world.system.volume.disk
  let after := result.world.system.volume.disk
  let after :=
    if settings.debug && m.launch.logs then
      Program.writeLog m.launch m.now result.emitted after
    else after
  putBack m.launch.process before after settings.storePath
  putBack m.launch.process before after (HostPlaces.log m.launch.home m.now)
  return (result.value, { result.world with system.volume.disk := after })

/-- All that is left of a stream, behind what has been read. -/
partial def readAll (stream : IO.FS.Stream) (text : ByteArray) : IO Bytes := do
  let more ← stream.read 4096
  if more.isEmpty then return text.toList else readAll stream (text ++ more)

/-- The next line of a stream and what has been read behind it; nothing at its end. -/
partial def readLine (stream : IO.FS.Stream) (pending : Bytes) : IO (Option (Bytes × Bytes)) := do
  match pending.dropWhile (· != Ascii.newline) with
  | _ :: rest => return some (pending.takeWhile (· != Ascii.newline), rest)
  | [] =>
    let more ← stream.read 4096
    if !more.isEmpty then readLine stream (pending ++ more.toList)
    else if pending.isEmpty then return none
    else return some (pending, [])

/-- Holds a conversation. -/
partial def converse (m : Machine) (world : World) (pending : Bytes) : IO Int := do
  let ((), world) ← m.act world Program.showPrompt
  match ← readLine (← IO.getStdin) pending with
  | none => return (← m.act world Program.endConversation).1
  | some (line, rest) =>
    let ((), world) ← m.act world (Program.converseLine (Program.interpreter m.plan.settings) line)
    match world.session.exit with
    | some status => return status
    | none => m.converse world rest

/-- Does the job of the plan. -/
def work (m : Machine) (world : World) : IO Int := do
  let i := Program.interpreter m.plan.settings
  match m.plan.job with
  | .conversation =>
    let ((), world) ← m.act world (ShellAction.out Program.greeting)
    m.converse world []
  | .standardInput =>
    let text ← readAll (← IO.getStdin) .empty
    return (← m.act world (Program.perform i text .standardInput)).1
  | .script path =>
    let disk ← fetch world.system.volume.disk path
    let world := { world with system.volume.disk := disk }
    return (← m.act world (Program.perform i [] (.script path))).1
  | .command line => return (← m.act world (Program.perform i [] (.command line))).1

/-- Starts the shell and does the job of the plan. -/
def run (m : Machine) (world : World) : IO Int := do
  let disk ← fetch world.system.volume.disk m.plan.settings.storePath
  let disk ← fetch disk (HostPlaces.log m.launch.home m.now)
  match ← m.act { world with system.volume.disk := disk } (Program.start m.launch m.plan) with
  | (.error status, _) => return status
  | (.ok (), world) => m.work world

end Machine

/-- The value of a variable of the machine, or another when it is not set or empty. -/
def variableOr (name default : String) : IO String := do
  match ← IO.getEnv name with
  | some value => return if value.isEmpty then default else value
  | none => return default

/-- The number of this process, where the machine tells it. -/
def processNumber : IO Nat := do
  try
    let status ← IO.FS.readFile "/proc/self/stat"
    return (String.ofList (status.toList.takeWhile Char.isDigit)).toNat?.getD 1
  catch _ => return 1

end VirtualShell

open VirtualShell

def main (arguments : List String) : IO UInt32 := do
  let home ← variableOr "HOME" "/tmp"
  let launch : Launch :=
    { program := Program.name
      arguments := arguments.map fun word => word.toUTF8.toList
      terminal := ← (← IO.getStdin).isTty
      home := home.toUTF8.toList
      logs := (← variableOr "VSH_DEBUG_FILE" "") == "1"
      process := ← processNumber }
  let now ← Machine.currentTime
  let disk ← Machine.fetch .empty (HostPlaces.configuration launch.home)
  let prepared := (Program.prepare launch).run (Program.emptyWorld disk now)
  Machine.writeOut false prepared.emitted
  let status ← match prepared.value with
    | .error status => pure status
    | .ok plan => Machine.run ⟨launch, plan, now⟩ prepared.world
  return (status % 256).toNat.toUInt32
