import VirtualShell.Shell.Interpreter

/-!
# What stands around a command

Before the command of a segment its redirects are opened: the inputs are read, and the targets that
are overridden are created. Where one of these fails the command is not run (`redirecting_eq`). What
was collected of the output is stored behind the command, and behind that what was collected of the
errors; a failure is told in the status only (`flushTo_eq`).
-/

namespace VirtualShell.Interpreter

open ShellAction

/-- Reads the inputs and creates the targets that are overridden; gives the input of the command. -/
def opening (redirects : List Redirect) (input : Option Bytes) :
    ShellAction (Outcome (Option Bytes)) := do
  match ← readRedirects input redirects with
  | .error fault => return .error fault
  | .ok input =>
    match ← createTargets (Redirect.overridden redirects) with
    | .error fault => return .error fault
    | .ok () => return .ok input

/-- Writes what was collected to the target of a redirect, if there is one. -/
def store (data : Bytes) : Option Redirect → ShellAction (Outcome Unit)
  | none => return .ok ()
  | some r => writePath r.target data r.kind.appends

theorem redirecting_eq (redirects : List Redirect) (input : Option Bytes)
    (body : Option Bytes → ShellAction Int) :
    redirecting redirects input body = (do
      match ← opening redirects input with
      | .error fault => do
        reportFault shellName fault
        return 1
      | .ok input => do
        let output := Redirect.lastOutput? redirects
        let errors := Redirect.lastError? redirects
        let written ← (body input).divert output.isSome errors.isSome
        flushTo errors written.err (← flushTo output written.out written.code)) := by
  rw [redirecting, opening, bind_assoc]
  refine bind_congr fun outcome => ?_
  cases outcome with
  | error fault => rw [pure_bind]
  | ok input =>
    rw [bind_assoc]
    refine bind_congr fun outcome => ?_
    cases outcome with
    | error fault => rw [pure_bind]
    | ok _ => rw [pure_bind]

theorem flushTo_eq (target : Option Redirect) (data : Bytes) (status : Int) :
    flushTo target data status = (do
      if ← check shellName (← store data target) then return status
      else return if status = 0 then 1 else status) := by
  cases target with
  | none => rfl
  | some r => rfl

/-- Complaining leaves the world. -/
theorem world_check {α : Type} (command : Bytes) (outcome : Outcome α) (w : World) :
    ((check command outcome).run w).world = w := by
  cases outcome <;> rfl

theorem world_flushTo (target : Option Redirect) (data : Bytes) (status : Int) (w : World) :
    ((flushTo target data status).run w).world = ((store data target).run w).world := by
  have done (b : Bool) (w : World) : ((if b then return status
      else return if status = 0 then 1 else status : ShellAction Int).run w).world = w := by
    cases b <;> rfl
  rw [flushTo_eq, run_bind, run_bind, done, world_check]

end VirtualShell.Interpreter
