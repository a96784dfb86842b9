import VirtualShell.Proofs.ReadBack
import VirtualShell.Proofs.Shell.Pipelines
import VirtualShell.Proofs.Shell.Reach

/-!
# What a command leaves in the file of its output

What a command has written to a stream that is redirected is stored when the command has ended: its
output first, then its errors. Whatever other redirects a segment has, these two writes are all that
comes behind the command (`Interpreter.Reaches.world_runSegment`), for the targets that are
overridden are created before it. So the file of the output holds the output, unless the errors are
stored in the same place, through whatever path: they go over it, or behind it
(`Interpreter.read_runSegment_iff`).
-/

namespace VirtualShell.Interpreter

open ShellAction

/-- **Where the redirects are opened** the output of the action is stored behind it, and then its
errors are. -/
theorem world_redirecting {redirects : List Redirect} {input given : Option Bytes} {w : World}
    (body : Option Bytes → ShellAction Int)
    (opened : ((opening redirects input).run w).value = .ok given) :
    let ran := (body given).run ((opening redirects input).run w).world
    ((redirecting redirects input body).run w).world =
      ((store ran.err (Redirect.lastError? redirects)).run
        ((store ran.out (Redirect.lastOutput? redirects)).run ran.world).world).world := by
  intro ran
  -- what is not redirected is not collected, and not stored either
  have unasked (data : Bytes) (target : Option Redirect) :
      store (if target.isSome then data else []) target = store data target := by
    cases target <;> rfl
  rw [redirecting_eq, run_bind, opened]
  dsimp only
  rw [run_bind, run_divert, run_bind, world_flushTo, world_flushTo]
  dsimp only
  rw [unasked, unasked]
  rfl

section
variable (call : List Bytes → Option Bytes → ShellAction Int) (runner : LineRunner)
  (segment : Bytes) (input : Option Bytes) (w : World)

/-- What is done for the redirects of a command before it is run. -/
def opened (command : Command) : ActionResult (Outcome (Option Bytes)) :=
  (opening command.redirects input).run ((substitute runner segment).run w).world

/-- What the command of a segment comes to on the input that it is given. -/
def commandRun (command : Command) (given : Option Bytes) : ActionResult Int :=
  (do call (← argumentsOf command.text) given : ShellAction Int).run
    (opened runner segment input w command).world

/-- The segment, run on an input in a world, comes to its command, and this is the command's run. -/
structure Reaches (command : Command) (ran : ActionResult Int) : Prop where
  read : Command.read ((substitute runner segment).run w).value = .ok command
  runs : ∃ given, (opened runner segment input w command).value = .ok given ∧
    ran = commandRun call runner segment input w command given

end

namespace Reaches

variable {call : List Bytes → Option Bytes → ShellAction Int} {runner : LineRunner}
  {segment : Bytes} {input : Option Bytes} {w : World} {command : Command} {ran : ActionResult Int}

/-- Behind the command its output is stored, and then its errors are. -/
theorem world_runSegment (h : Reaches call runner segment input w command ran) :
    ((runSegment call runner segment input).run w).world =
      ((store ran.err (Redirect.lastError? command.redirects)).run
        ((store ran.out (Redirect.lastOutput? command.redirects)).run ran.world).world).world := by
  obtain ⟨given, opened, rfl⟩ := h.runs
  rw [runSegment, run_bind, run_bind, h.read]
  exact world_redirecting _ opened

/-- The command is run in a file system that can be reached, and leaves one. -/
theorem reachable (h : Reaches call runner segment input w command ran) (asking : runner.Asking)
    (calls : ∀ words input, Requests (call words input)) (reached : Reachable w.system) :
    Reachable ran.world.system := by
  obtain ⟨given, -, rfl⟩ := h.runs
  have runs : Requests (do call (← argumentsOf command.text) given) :=
    (confined_argumentsOf _).requests.bind fun words => calls words given
  exact runs.reachable ((confined_opening _ _).requests.reachable
    ((requests_substitute asking segment).reachable reached))

end Reaches

/-! ## Behind the command -/

/-- The world in which the errors of a command are stored. -/
def stored (redirects : List Redirect) (ran : ActionResult Int) : World :=
  ((store ran.out (Redirect.lastOutput? redirects)).run ran.world).world

/-- All that is stored behind a command is taken. -/
structure Flushed (redirects : List Redirect) (ran : ActionResult Int) : Prop where
  output : ((store ran.out (Redirect.lastOutput? redirects)).run ran.world).value = .ok ()
  errors : ((store ran.err (Redirect.lastError? redirects)).run (stored redirects ran)).value =
    .ok ()

theorem session_store (data : Bytes) (target : Option Redirect) (w : World) :
    ((store data target).run w).world.session = w.session := by
  cases target <;> rfl

/-- A well placed store of an output stores it. -/
theorem holds_store {w : World} {data target : Bytes} {f : Redirect} (truncates : f.kind = .output)
    (keyed : w.system.tree.Keyed) (done : ((store data (some f)).run w).value = .ok ())
    (goes : w.system.tree.writeTarget (w.session.resolve f.target) = .ok target)
    (null : target ≠ Tree.nullDevice)
    (placed : w.system.tree.WellPlaced (w.session.resolve f.target) target) :
    ((store data (some f)).run w).world.system.Holds (w.session.resolve f.target) target data := by
  obtain ⟨kind, path⟩ := f
  cases truncates
  exact FileSystem.holds_write keyed done goes null placed

/-- **A file keeps what it holds** behind a store just when the store goes elsewhere, or leaves the
same there: nothing behind it, or the same content over it. -/
theorem read_store_iff {w : World} {path place kept data : Bytes} {target : Option Redirect}
    (holds : w.system.Holds (w.session.resolve path) place kept) (keyed : w.system.tree.Keyed)
    (null : place ≠ Tree.nullDevice) (done : ((store data target).run w).value = .ok ()) :
    ((readPath path).run ((store data target).run w).world).value = .ok kept ↔
      ∀ g, target = some g →
        w.system.tree.writeTarget (w.session.resolve g.target) = .ok place →
          if g.kind.appends then data = [] else data = kept := by
  have reads (w : World) : ((readPath path).run w).value =
    (w.system.read w.now (w.session.resolve path)).result := rfl
  rw [reads, session_store]
  cases target with
  | none => exact iff_of_true (holds.read_result _) nofun
  | some g =>
    by_cases goes : w.system.tree.writeTarget (w.session.resolve g.target) = .ok place
    · have left := (holds.write_same keyed done goes null).read_result
        ((store data (some g)).run w).world.now
      have same : (((store data (some g)).run w).world.system.read _ _).result =
        .ok (if g.kind.appends then kept ++ data else data) := left
      rw [same]
      cases adds : g.kind.appends <;> simp [adds, goes]
    · refine iff_of_true ((holds.write_other keyed done goes).read_result _) ?_
      rintro _ ⟨⟩ goes'
      exact absurd goes' goes

/-- **What a redirect of the output leaves in its file.** From every state that can be reached, when
a segment has come to its command and all has been taken that is stored behind it, the file of its
last redirect `>` holds just what the command wrote to its output, unless the errors go to the same
place: then only if there are none to go behind it, or the same goes over it. The redirect is one to
no null device, and its write is well placed. -/
theorem read_runSegment_iff {limit : Int} {segment : Bytes} {input : Option Bytes} {w : World}
    {command : Command} {ran : ActionResult Int} {f : Redirect} {target : Bytes}
    (reached : Reachable w.system)
    (reaches : Reaches (runWords (standard limit).commands (standard limit).runner)
      (standard limit).runner segment input w command ran)
    (last : Redirect.lastOutput? command.redirects = some f) (truncates : f.kind = .output)
    (flushed : Flushed command.redirects ran)
    (goes : ran.world.system.tree.writeTarget (ran.world.session.resolve f.target) = .ok target)
    (null : target ≠ Tree.nullDevice)
    (placed : ran.world.system.tree.WellPlaced (ran.world.session.resolve f.target) target) :
    let call := runWords (standard limit).commands (standard limit).runner
    let final := ((runSegment call (standard limit).runner segment input).run w).world
    ((readPath f.target).run final).value = .ok ran.out ↔
      ∀ g, Redirect.lastError? command.redirects = some g →
        (stored command.redirects ran).system.tree.writeTarget
          (ran.world.session.resolve g.target) = .ok target →
            if g.kind.appends then ran.err = [] else ran.err = ran.out := by
  intro call final
  have finally' : final =
      ((store ran.err (Redirect.lastError? command.redirects)).run
        (stored command.redirects ran)).world := reaches.world_runSegment
  have started := reaches.reachable (asking_runner limit) (requests_runWords_standard limit) reached
  have between : Reachable (stored command.redirects ran).system :=
    (confined_store _ _).requests.reachable started
  have session : (stored command.redirects ran).session = ran.world.session := session_store ..
  have holds : (stored command.redirects ran).system.Holds (ran.world.session.resolve f.target)
      target ran.out := by
    have output := flushed.output
    rw [last] at output
    rw [stored, last]
    exact holds_store truncates started.keyed output goes null placed
  rw [finally', ← session]
  exact read_store_iff (session ▸ holds) between.keyed null flushed.errors

/-- A session on a file system that was just made. -/
def newSession : World where
  session := {}
  system := (FileSystem.load { volume := { store := .memory ∅ } } 0).system
  now := 1

theorem reachable_newSession : Reachable newSession.system :=
  .load 0 (.fresh { store := .memory ∅ })

/-- A target that is overridden by itself, and another file for the errors, leave the output. -/
theorem read_runSegment_of_two_files :
    let call := runWords (standard 16).commands (standard 16).runner
    let runner := (standard 16).runner
    let segment := ascii "echo hi > /tmp/f > /tmp/f 2> /tmp/e"
    let command : Command := ⟨ascii "echo hi",
      [⟨.output, ascii "/tmp/f"⟩, ⟨.output, ascii "/tmp/f"⟩, ⟨.error, ascii "/tmp/e"⟩]⟩
    let ran := commandRun call runner segment none newSession command none
    let final := ((runSegment call runner segment none).run newSession).world
    Reaches call runner segment none newSession command ran ∧ ran.out = ascii "hi\n" ∧
      ((readPath (ascii "/tmp/f")).run final).value = .ok ran.out := by
  intro call runner segment command ran final
  let tree := ran.world.system.tree
  let path := ran.world.session.resolve (ascii "/tmp/f")
  -- all that is run to its end, at once
  have checks :
      (Command.read ((substitute runner segment).run newSession).value = .ok command ∧
        (opened runner segment none newSession command).value = .ok none) ∧
      (((store ran.out (some ⟨.output, ascii "/tmp/f"⟩)).run ran.world).value = .ok () ∧
        ((store ran.err (some ⟨.error, ascii "/tmp/e"⟩)).run
          (stored command.redirects ran)).value = .ok ()) ∧
      tree.writeTarget path = .ok (ascii "/tmp/f") ∧
      (tree.find? (ascii "/tmp/f")).all (fun node => !node.isSymlink) = true ∧
      tree.realPath path ≠ .error (.tooManyLinks (Path.resolve path)) ∧
      tree.realPath (Path.parent (ascii "/tmp/f")) = .ok (Path.parent (ascii "/tmp/f")) ∧
      (stored command.redirects ran).system.tree.writeTarget
        (ran.world.session.resolve (ascii "/tmp/e")) ≠ .ok (ascii "/tmp/f") ∧
      ran.out = ascii "hi\n" := by decide +kernel
  obtain ⟨⟨read, opens⟩, ⟨output, errors⟩, goes, notLink, short, parent, apart, out⟩ := checks
  have reaches : Reaches call runner segment none newSession command ran :=
    ⟨read, none, opens, rfl⟩
  have placed : tree.WellPlaced path (ascii "/tmp/f") := by
    refine ⟨fun old there => ?_, short, parent⟩
    rw [there] at notLink
    simpa using notLink
  refine ⟨reaches, out, (@read_runSegment_iff 16 segment none newSession command ran
    ⟨.output, ascii "/tmp/f"⟩ _ reachable_newSession reaches rfl rfl ⟨output, errors⟩ goes
    (by decide) placed).2 fun g last same => ?_⟩
  have elsewhere : Redirect.lastError? command.redirects = some ⟨.error, ascii "/tmp/e"⟩ := rfl
  rw [elsewhere] at last
  cases last
  exact absurd same apart

/-- **Errors to the same file** go over the output, though they come first and there are none. -/
theorem not_read_runSegment_of_one_file :
    let call := runWords (standard 16).commands (standard 16).runner
    let runner := (standard 16).runner
    let segment := ascii "echo hi 2> /tmp/f > /tmp/f"
    let command : Command :=
      ⟨ascii "echo hi", [⟨.error, ascii "/tmp/f"⟩, ⟨.output, ascii "/tmp/f"⟩]⟩
    let ran := commandRun call runner segment none newSession command none
    let final := ((runSegment call runner segment none).run newSession).world
    Reachable newSession.system ∧ Reaches call runner segment none newSession command ran ∧
      Redirect.lastOutput? command.redirects = some ⟨.output, ascii "/tmp/f"⟩ ∧
      Flushed command.redirects ran ∧
      ran.world.system.tree.writeTarget (ran.world.session.resolve (ascii "/tmp/f")) =
        .ok (ascii "/tmp/f") ∧
      ran.out = ascii "hi\n" ∧ ((readPath (ascii "/tmp/f")).run final).value = .ok [] := by
  intro call runner segment command ran final
  have checks :
      (Command.read ((substitute runner segment).run newSession).value = .ok command ∧
        (opened runner segment none newSession command).value = .ok none) ∧
      (((store ran.out (some ⟨.output, ascii "/tmp/f"⟩)).run ran.world).value = .ok () ∧
        ((store ran.err (some ⟨.error, ascii "/tmp/f"⟩)).run
          (stored command.redirects ran)).value = .ok ()) ∧
      ran.world.system.tree.writeTarget (ran.world.session.resolve (ascii "/tmp/f")) =
        .ok (ascii "/tmp/f") ∧
      ran.out = ascii "hi\n" ∧ ((readPath (ascii "/tmp/f")).run final).value = .ok [] := by
    decide +kernel
  obtain ⟨⟨read, opens⟩, ⟨output, errors⟩, goes, out, gone⟩ := checks
  exact ⟨reachable_newSession, ⟨read, none, opens, rfl⟩, rfl, ⟨output, errors⟩, goes, out, gone⟩

end VirtualShell.Interpreter
