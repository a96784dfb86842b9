import VirtualShell.FileSystem
import VirtualShell.Lexing.Substitution
import VirtualShell.Session

/-!
# Actions

What a command does: from the session and the file system it makes others, gives a value, and emits
texts, traces and pauses on the way. A `ShellAction` is a pure function; only the program around it
turns what is emitted into output.

* Actions form a lawful monad; running one behind another appends what they emit.
* `ShellAction.divert` collects the texts that an action writes to a stream; traces and pauses go
  through.
* `ShellAction.keepingExit` runs an action whose request to exit does not outlive it.
* `ShellAction.nested` runs an action as one more line; the count of lines is as before behind it.
-/

namespace VirtualShell

/-- A span of time. -/
structure Duration where
  seconds : Nat
  nanoseconds : Nat
  deriving DecidableEq

/-- Something that leaves the shell while a line runs. -/
inductive Emission
  | out (text : Bytes)
  | err (text : Bytes)
  | trace (event : TraceEvent)
  | pause (duration : Duration)
  deriving DecidableEq

namespace Emission

def outText : Emission → Bytes
  | out text => text
  | _ => []

def errText : Emission → Bytes
  | err text => text
  | _ => []

def isOut : Emission → Bool
  | out _ => true
  | _ => false

def isErr : Emission → Bool
  | err _ => true
  | _ => false

end Emission

/-- What commands read and change; the time stands still while a line runs. -/
structure World where
  session : Session
  system : FileSystem
  now : Int
  /-- How many lines are being run, one inside another. -/
  depth : Nat := 0

/-- What an action comes to. -/
structure ActionResult (α : Type) where
  value : α
  emitted : List Emission
  world : World

def ShellAction (α : Type) : Type := World → ActionResult α

namespace ShellAction

variable {α β : Type}

def run (a : ShellAction α) (w : World) : ActionResult α := a w

@[ext] theorem ext {a b : ShellAction α} (h : ∀ w, a.run w = b.run w) : a = b := funext h

/-- One action behind another. -/
def andThen (a : ShellAction α) (f : α → ShellAction β) : ShellAction β := fun w =>
  let first := a w
  let second := f first.value first.world
  { second with emitted := first.emitted ++ second.emitted }

instance : Monad ShellAction where
  pure a := fun w => ⟨a, [], w⟩
  bind := andThen

@[simp] theorem run_pure (a : α) (w : World) : (pure a : ShellAction α).run w = ⟨a, [], w⟩ := rfl

theorem run_bind (a : ShellAction α) (f : α → ShellAction β) (w : World) :
    (a >>= f).run w =
      { (f (a.run w).value).run (a.run w).world with
        emitted := (a.run w).emitted ++ ((f (a.run w).value).run (a.run w).world).emitted } :=
  rfl

/-- Actions that come to the same, and behind them what comes to the same. -/
theorem run_bind_congr {a b : ShellAction α} {f g : α → ShellAction β} {w : World}
    (h : a.run w = b.run w)
    (hf : (f (b.run w).value).run (b.run w).world = (g (b.run w).value).run (b.run w).world) :
    (a >>= f).run w = (b >>= g).run w := by
  rw [run_bind, run_bind, h, hf]

instance : LawfulMonad ShellAction :=
  LawfulMonad.mk' ShellAction
    (fun x => funext fun w => by
      change (⟨(x w).value, (x w).emitted ++ [], (x w).world⟩ : ActionResult _) = x w
      rw [List.append_nil])
    (fun x f => funext fun w => rfl)
    (fun x f g => funext fun w => by simp [bind, andThen, List.append_assoc])

/-! ## Emitting -/

def emit (e : List Emission) : ShellAction Unit := fun w => ⟨(), e, w⟩

/-- Writes to standard output. -/
def out (text : Bytes) : ShellAction Unit := emit [.out text]

/-- Writes to the error stream. -/
def err (text : Bytes) : ShellAction Unit := emit [.err text]

def trace (events : List TraceEvent) : ShellAction Unit := emit (events.map .trace)

/-- Writes a complaint to the error stream. -/
def report (r : Report) : ShellAction Unit := err r.render

/-- Writes the complaint of a command about a fault. -/
def reportFault (command : Bytes) (fault : Fault) : ShellAction Unit :=
  report (.ofFault command fault)

/-! ## The session and the file system -/

def world : ShellAction World := fun w => ⟨w, [], w⟩

def session : ShellAction Session := fun w => ⟨w.session, [], w⟩

def modifySession (f : Session → Session) : ShellAction Unit := fun w =>
  ⟨(), [], { w with session := f w.session }⟩

theorem run_session (w : World) : session.run w = ⟨w.session, [], w⟩ := rfl

theorem run_session_bind (f : Session → ShellAction α) (w : World) :
    (session >>= f).run w = (f w.session).run w := rfl

theorem run_world_bind (f : World → ShellAction α) (w : World) :
    (world >>= f).run w = (f w).run w := rfl

/-- Changes the host's files. -/
def modifyDisk (f : Disk → Disk) : ShellAction Unit := fun w =>
  ⟨(), [], { w with system.volume.disk := f w.system.volume.disk }⟩

/-- The tree as it is. -/
def tree : ShellAction Tree := fun w => ⟨w.system.tree, [], w⟩

theorem run_tree_bind (f : Tree → ShellAction α) (w : World) :
    (tree >>= f).run w = (f w.system.tree).run w := rfl

/-- Performs an operation of the file system at the time it is. -/
def perform (operation : FileSystem → Int → FileSystemStep α) : ShellAction (Outcome α) := fun w =>
  let step := operation w.system w.now
  ⟨step.result, step.events.map .trace, { w with system := step.system }⟩

theorem run_perform (operation : FileSystem → Int → FileSystemStep α) (w : World) :
    (perform operation).run w =
      { value := (operation w.system w.now).result
        emitted := (operation w.system w.now).events.map .trace
        world := { w with system := (operation w.system w.now).system } } := rfl

/-- The canonical path that a text names in the session. -/
def resolve (path : Bytes) : ShellAction Bytes := return (← session).resolve path

/-- Reads the file that a text names in the session. -/
def readPath (path : Bytes) : ShellAction (Outcome Bytes) := do
  let path ← resolve path
  perform fun fs now => fs.read now path

/-- Writes the file that a text names in the session, or adds to its end. -/
def writePath (path content : Bytes) (append : Bool) : ShellAction (Outcome Unit) := do
  let s ← session
  perform fun fs now => fs.write now (s.resolve path) content append s.owner

/-! ## Running apart -/

/-- Collects what an action writes to the streams that are asked for; everything else is emitted
as it comes. -/
def divert (output errors : Bool) (a : ShellAction Int) : ShellAction Captured := fun w =>
  let r := a w
  { value :=
      { out := if output then r.emitted.flatMap Emission.outText else []
        err := if errors then r.emitted.flatMap Emission.errText else []
        code := r.value }
    emitted := r.emitted.filter fun e => !((output && e.isOut) || (errors && e.isErr))
    world := r.world }

theorem run_divert (output errors : Bool) (a : ShellAction Int) (w : World) :
    (a.divert output errors).run w =
      { value :=
          { out := if output then (a.run w).emitted.flatMap Emission.outText else []
            err := if errors then (a.run w).emitted.flatMap Emission.errText else []
            code := (a.run w).value }
        emitted := (a.run w).emitted.filter fun e => !((output && e.isOut) || (errors && e.isErr))
        world := (a.run w).world } := rfl

/-- Collects all that an action writes. -/
def capture (a : ShellAction Int) : ShellAction Captured := a.divert true true

/-- Writes out what was collected. -/
def release (c : Captured) : ShellAction Int := do
  if !c.out.isEmpty then out c.out
  if !c.err.isEmpty then err c.err
  return c.code

/-- Runs an action whose request to exit does not outlive it. -/
def keepingExit (a : ShellAction α) : ShellAction α := fun w =>
  let r := a w
  { r with world.session.exit := w.session.exit }

theorem run_keepingExit (a : ShellAction α) (w : World) :
    (keepingExit a).run w = { a.run w with world.session.exit := w.session.exit } := rfl

/-- Runs an action as part of one more line. -/
def nested (a : ShellAction α) : ShellAction α := fun w =>
  let r := a { w with depth := w.depth + 1 }
  { r with world.depth := r.world.depth - 1 }

theorem run_nested (a : ShellAction α) (w : World) :
    (nested a).run w =
      { a.run { w with depth := w.depth + 1 } with
        world.depth := (a.run { w with depth := w.depth + 1 }).world.depth - 1 } := rfl

/-- The status of a command: 0 when all went well, else 1. -/
def statusOf (results : List Bool) : Int := if results.all id then 0 else 1

/-- Does something for each member; the status is 1 when it failed for any. -/
def forEach {γ : Type} (items : List γ) (f : γ → ShellAction Bool) : ShellAction Int :=
  return statusOf (← items.mapM f)

/-- Reports a fault, if there is one, and says whether all went well. -/
def check (command : Bytes) (outcome : Outcome α) : ShellAction Bool :=
  match outcome with
  | .ok _ => return true
  | .error fault => do
    reportFault command fault
    return false

end ShellAction

end VirtualShell
