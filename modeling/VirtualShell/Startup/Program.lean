import VirtualShell.Builtin.Standard
import VirtualShell.Shell.Interpreter
import VirtualShell.Startup.Arguments

/-!
# A run of the shell

From the words of the command line and the host's files to a status. The configuration file counts
first, the command line over it; then the file system is loaded, the session set up and the startup
file run. What follows is one of four jobs: a command, a script, a script on standard input or a
conversation.

* `Program.prepare` settles how the shell is to run, or ends the run.
* `Program.setUp` brings up the file system and the session, `Program.start` runs the startup file
  in it.
* `Program.run` does all of it on a given standard input.
-/

namespace VirtualShell

/-- What the shell is started with. -/
structure Launch where
  /-- The name that it is started under. -/
  program : Bytes
  arguments : List Bytes
  /-- Standard input is a terminal. -/
  terminal : Bool
  /-- The home directory of the host's user. -/
  home : Bytes
  /-- Traces are to be kept in a log, too. -/
  logs : Bool := false
  /-- The number of the process. -/
  process : Nat := 1
  /-- Where the process lets options stand. -/
  optionPlace : OptionPlace := .first

/-- What is to be done once the shell is up. -/
inductive Job
  | command (line : Bytes)
  | script (path : Bytes)
  | standardInput
  | conversation
  deriving DecidableEq

/-- How a run is to go on. -/
structure Plan where
  settings : Settings
  configuration : Configuration
  job : Job

namespace Program

open ShellAction

/-- The name of the shell in front of its own complaints. -/
def name : Bytes := ascii "vsh"

/-! ## Settling how to run -/

/-- The job that an invocation asks for. -/
def jobOf (invocation : Invocation) : Job :=
  match invocation.settings.command with
  | some line => .command line
  | none =>
    if invocation.settings.interactive then .conversation
    else
      let script := invocation.script.getD []
      if script.isEmpty then .standardInput else .script script

/-- Reads the configuration file. One of no use is complained about and left aside. -/
def loadConfiguration (home : Bytes) : ShellAction Configuration := do
  match Configuration.load (← world).system.volume.disk (HostPlaces.configuration home) with
  | .ok configuration => return configuration
  | .error e => do
    report { command := name, message := e.message,
             advice := [ascii "Falling back to default settings"] }
    return {}

/-- Settles how the shell is to run, or ends the run with a status. -/
def prepare (l : Launch) : ShellAction (Except Int Plan) := do
  let configuration ← loadConfiguration l.home
  let settings := configuration.applyTo (Settings.standard l.home)
  match Arguments.read settings l.terminal l.arguments l.optionPlace with
  | .error refusal => do
    out usage
    err (refusal.error.message l.program)
    return .error 2
  | .ok invocation =>
    if invocation.settings.showsVersion then
      out versionLine
      return .error 0
    if invocation.settings.showsHelp then
      out usage
      return .error 0
    return .ok ⟨invocation.settings, configuration, jobOf invocation⟩

/-! ## Logs -/

/-- Makes directories in order, up to the first that cannot be made. -/
def makeAll (disk : Disk) : List Bytes → Disk × Bool
  | [] => (disk, true)
  | path :: rest =>
    match disk.makeDirectories path with
    | (disk, .ok ()) => makeAll disk rest
    | (disk, .error _) => (disk, false)

/-- Makes the directories of the shell on the disk. -/
def makePlaces (disk : Disk) (home : Bytes) : Disk × Bool :=
  makeAll disk [HostPlaces.configurationDirectory home, HostPlaces.dataDirectory home,
    HostPlaces.cacheDirectory home]

/-- Makes the directories of the shell for its log. -/
def openLog (l : Launch) : ShellAction Unit := do
  let (disk, made) := makePlaces (← world).system.volume.disk l.home
  modifyDisk fun _ => disk
  if !made then
    err (ascii "Error creating vsh directories: " ++ StoreFault.unnamedCause ++ [Ascii.newline])

/-- Adds the traces of a run to the log, if the directories are there. -/
def writeLog (l : Launch) (now : Int) (emitted : List Emission) (disk : Disk) : Disk :=
  let lines := emitted.flatMap fun
    | .trace event => event.render
    | _ => []
  if (makePlaces disk l.home).2 then
    (disk.append (HostPlaces.log l.home now) lines).toOption.getD disk
  else disk

/-! ## Starting -/

/-- The store that the settings ask for. -/
def storeOf (settings : Settings) : Store :=
  if settings.persistent then .document settings.storePath ∅ else .memory ∅

def interpreter (settings : Settings) : Interpreter := ⟨Builtin.standard, settings.nestingLimit⟩

/-- Where the startup file of a session stands. -/
def startupFile (s : Session) : Bytes := Path.join s.home (ascii ".vshrc")

/-- The line that runs the startup file. -/
def startupLine (path : Bytes) : Bytes := ascii "source '" ++ path ++ ascii "'"

/-- Runs the startup file, if there is a regular one. -/
def runStartupFile (i : Interpreter) : ShellAction Unit := do
  let path := startupFile (← session)
  match (← tree).stat path with
  | .error _ => return
  | .ok node =>
    if node.isFile then
      trace [.startupFile path]
      discard (i.execute (startupLine path))

/-- Loads the file system from the store that the settings ask for. -/
def loadFileSystem (l : Launch) (settings : Settings) : ShellAction (Outcome Unit) := do
  let store := storeOf settings
  trace [if settings.persistent then .storeAt settings.storePath else .storeInMemory]
  if settings.debug && l.logs then openLog l
  perform fun fs now =>
    ({ volume := { fs.volume with store, process := l.process } } : FileSystem).load now

/-- Brings up the file system and the session, or ends the run with a status. -/
def setUp (l : Launch) (p : Plan) : ShellAction (Except Int Unit) := do
  match ← loadFileSystem l p.settings with
  | .error fault => do
    report { command := name, message := ascii "failed to load filesystem: " ++ fault.message,
             advice := [ascii "Run with --memory to start with a fresh in-memory filesystem"] }
    return .error 1
  | .ok () => do
    let tree ← tree
    modifySession fun _ => p.configuration.applyToSession (Session.default tree)
    return .ok ()

/-- Sets up and runs the startup file, or ends the run with a status. -/
def start (l : Launch) (p : Plan) : ShellAction (Except Int Unit) := do
  match ← setUp l p with
  | .error status => return .error status
  | .ok () => do
    if p.settings.runsStartupFile then runStartupFile (interpreter p.settings)
    match (← session).exit with
    | some status => return .error status
    | none => return .ok ()

/-! ## Working -/

/-- The status to end with: the one that was asked for, if the shell was asked to exit. -/
def finalStatus (status : Int) : ShellAction Int := return (← session).exit.getD status

/-- Runs the lines of a script that are not blank, until the shell is asked to exit. -/
def runScriptText (i : Interpreter) (text : Bytes) : ShellAction Int :=
  Builtin.runScript (fun line => i.execute line) 0
    ((Bytes.lines text).filter fun line => !(Bytes.trim line).isEmpty)

/-- Shows the prompt. -/
def showPrompt : ShellAction Unit := do
  out (← session).prompt

/-- Runs one line of a conversation. -/
def converseLine (i : Interpreter) (line : Bytes) : ShellAction Unit := do
  if !(Bytes.trim line).isEmpty then
    discard (i.execute line)
    trace [.finished .promptLine]

/-- Ends a conversation when there are no more lines. -/
def endConversation : ShellAction Int := do
  out [Ascii.newline]
  return (← session).lastStatus

/-- Prompts for lines and runs them, until there are none or the shell is asked to exit. -/
def converse (i : Interpreter) : List Bytes → ShellAction Int
  | [] => do
    showPrompt
    endConversation
  | line :: rest => do
    showPrompt
    converseLine i line
    match (← session).exit with
    | some status => return status
    | none => converse i rest

/-- What a conversation starts with. -/
def greeting : Bytes :=
  ascii "vsh v" ++ version ++ ascii " - type 'help' to see available commands\n"

/-- Runs a script of the host. -/
def runScriptFile (i : Interpreter) (path : Bytes) : ShellAction Int := do
  match (← world).system.volume.disk.read path with
  | .ok text => finalStatus (← runScriptText i text)
  | .error e => do
    report { kind := .fileNotFound, command := path, message := e.message,
             advice := [ascii "Check file path and permissions"] }
    return 127

/-- Does a job, given all of standard input. -/
def perform (i : Interpreter) (input : Bytes) : Job → ShellAction Int
  | .command line => do finalStatus (← i.execute line)
  | .script path => runScriptFile i path
  | .standardInput => do finalStatus (← runScriptText i input)
  | .conversation => do
    out greeting
    converse i (Bytes.lines input)

/-- What a run comes to. -/
structure Finished where
  status : Int
  emitted : List Emission
  disk : Disk
  /-- The traces are to be shown. -/
  debug : Bool

/-- The world before anything has been loaded. -/
def emptyWorld (disk : Disk) (now : Int) : World :=
  { session := {}, system := { volume := { store := .memory ∅, disk } }, now }

/-- A whole run on the host's files, a time and a standard input. -/
def run (l : Launch) (disk : Disk) (now : Int) (input : Bytes) : Finished :=
  let prepared := (prepare l).run (emptyWorld disk now)
  match prepared.value with
  | .error status => ⟨status, prepared.emitted, prepared.world.system.volume.disk, false⟩
  | .ok plan =>
    let work : ShellAction Int := do
      match ← start l plan with
      | .error status => return status
      | .ok () => perform (interpreter plan.settings) input plan.job
    let done := work.run prepared.world
    let disk := done.world.system.volume.disk
    let logged := plan.settings.debug && l.logs
    { status := done.value
      emitted := prepared.emitted ++ done.emitted
      disk := if logged then writeLog l now done.emitted disk else disk
      debug := plan.settings.debug }

end Program

end VirtualShell
