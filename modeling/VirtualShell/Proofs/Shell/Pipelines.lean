import Mathlib.Data.List.Chain
import VirtualShell.Builtin.Standard
import VirtualShell.Proofs.Lexing.Joining
import VirtualShell.Proofs.Shell.Redirecting

/-!
# Pipelines

A pipeline runs the segments that were joined with bars, in order and each once; each is given what
the one before it wrote, and of the outputs only that of the last leaves the pipeline
(`Interpreter.runPipeline_join`). This is so whatever the stages do to the session and the files: a
stage runs in the world that the stage before it has left.

* `ShellAction.Silent`: an action writes nothing to standard output.
* `Interpreter.silent_redirecting`: so does one whose output is redirected, and what comes before it
  in a segment, which is why the stage behind it is given an empty input.
* `Interpreter.Piped`: the runs of the stages, and what the pipeline comes to.
-/

namespace VirtualShell

namespace ActionResult

variable {α : Type}

/-- All that was written to standard output. -/
def out (r : ActionResult α) : Bytes := r.emitted.flatMap Emission.outText

/-- All that was written to the error stream. -/
def err (r : ActionResult α) : Bytes := r.emitted.flatMap Emission.errText

end ActionResult

namespace Emission

/-- Where the texts that are output are left out there is no output. -/
theorem outText_filter {p : Emission → Bool} (h : ∀ text, p (.out text) = false)
    (emitted : List Emission) : (emitted.filter p).flatMap outText = [] := by
  refine List.flatMap_eq_nil_iff.2 fun e mem => ?_
  have kept := (List.mem_filter.1 mem).2
  cases e with
  | out text =>
    rw [h] at kept
    cases kept
  | err | trace | pause => rfl

/-- What is written to the error stream is no output. -/
theorem errText_filter (emitted : List Emission) :
    (emitted.filter (!·.isOut)).flatMap errText = emitted.flatMap errText := by
  induction emitted with
  | nil => rfl
  | cons e rest ih =>
    cases e with
    | out => exact ih
    | err | trace | pause => exact congrArg (_ ++ ·) ih

end Emission

/-! ## Actions that write no output -/

namespace ShellAction

variable {α β : Type}

/-- The action writes nothing to standard output. -/
def Silent (a : ShellAction α) : Prop := ∀ w, (a.run w).out = []

namespace Silent

variable {a : ShellAction α} {f : α → ShellAction β}

theorem pure (v : α) : Silent (Pure.pure v : ShellAction α) := fun _ => rfl

theorem bind (h : Silent a) (hf : ∀ v, Silent (f v)) : Silent (a >>= f) := by
  intro w
  rw [run_bind, ActionResult.out, List.flatMap_append, ← ActionResult.out, h]
  exact hf _ _

theorem err (text : Bytes) : Silent (ShellAction.err text) := fun _ => rfl

theorem trace (events : List TraceEvent) : Silent (ShellAction.trace events) := by
  intro w
  refine List.flatMap_eq_nil_iff.2 fun e mem => ?_
  obtain ⟨event, -, rfl⟩ := List.mem_map.1 mem
  rfl

theorem reportFault (command : Bytes) (fault : Fault) :
    Silent (ShellAction.reportFault command fault) := err _

theorem session : Silent ShellAction.session := fun _ => rfl

theorem perform (operation : FileSystem → Int → FileSystemStep α) :
    Silent (ShellAction.perform operation) := fun w => trace _ w

theorem readPath (path : Bytes) : Silent (ShellAction.readPath path) :=
  (session.bind fun _ => pure _).bind fun _ => perform _

theorem writePath (path content : Bytes) (append : Bool) :
    Silent (ShellAction.writePath path content append) := session.bind fun _ => perform _

theorem check (command : Bytes) (outcome : Outcome α) :
    Silent (ShellAction.check command outcome) := by
  cases outcome with
  | ok => exact pure _
  | error fault => exact (reportFault command fault).bind fun _ => pure _

/-- What collects the output of an action writes none. -/
theorem divert (errors : Bool) (a : ShellAction Int) : Silent (a.divert true errors) := by
  intro w
  rw [run_divert]
  exact Emission.outText_filter (fun _ => rfl) _

theorem keepingExit (h : Silent a) : Silent a.keepingExit := h

end Silent

end ShellAction

namespace Interpreter

open ShellAction

/-! ## Segments -/

/-- The run of one stage of a pipeline: what it was given, where it started, what it came to. -/
structure StageRun where
  stage : Bytes
  input : Option Bytes
  before : World
  result : ActionResult Int

/-- The runs of the stages of a pipeline that is started on an input in a world, and what the
pipeline comes to. -/
structure Piped (runStage : Bytes → Option Bytes → ShellAction Int) (stages : List Bytes)
    (input : Option Bytes) (w : World) (runs : List StageRun) (whole : ActionResult Int) :
    Prop where
  /-- The stages are run in order, each once. -/
  stages : runs.map StageRun.stage = stages
  result : ∀ r ∈ runs, r.result = (runStage r.stage r.input).run r.before
  /-- The first is given the input of the pipeline. -/
  first : ∀ r ∈ runs.head?, r.input = input ∧ r.before = w
  /-- Each other is given what the one before it wrote, in the world that that one left. -/
  next : runs.IsChain fun r s => s.input = some r.result.out ∧ s.before = r.result.world
  /-- What the last comes to is what the pipeline does; its output is all there is. -/
  last : ∀ r ∈ runs.getLast?, whole.value = r.result.value ∧ whole.world = r.result.world ∧
    whole.out = r.result.out
  /-- What the stages write to the error stream leaves the pipeline, one behind the other, -/
  err : whole.err = runs.flatMap (·.result.err)
  /-- and so does all that they emit but output. -/
  others : whole.emitted.filter (!·.isOut) = runs.flatMap (·.result.emitted.filter (!·.isOut))

variable (runStage : Bytes → Option Bytes → ShellAction Int)

/-- A stage that is not the last has its output collected for the next. -/
theorem run_runPipeline_cons (stage next : Bytes) (rest : List Bytes) (input : Option Bytes)
    (w : World) :
    let r := (runStage stage input).run w
    let behind := (runPipeline runStage (next :: rest) (some r.out)).run r.world
    (runPipeline runStage (stage :: next :: rest) input).run w =
      { behind with emitted := r.emitted.filter (!·.isOut) ++ behind.emitted } := by
  intro r behind
  show ((runStage stage input).divert true false >>= fun written =>
    runPipeline runStage (next :: rest) (some written.out)).run w = _
  rw [run_bind, run_divert]
  simp only [Bool.true_and, Bool.false_and, Bool.or_false, if_true]
  rfl

/-- One stage before a pipeline, which is given what the stage writes. -/
theorem Piped.cons {stage next : Bytes} {rest : List Bytes} {input : Option Bytes} {w : World}
    {runs : List StageRun}
    (h : Piped runStage (next :: rest) (some ((runStage stage input).run w).out)
      ((runStage stage input).run w).world runs
      ((runPipeline runStage (next :: rest) (some ((runStage stage input).run w).out)).run
        ((runStage stage input).run w).world)) :
    Piped runStage (stage :: next :: rest) input w
      (⟨stage, input, w, (runStage stage input).run w⟩ :: runs)
      ((runPipeline runStage (stage :: next :: rest) input).run w) := by
  have more : runs ≠ [] := by
    rintro rfl
    cases h.stages
  rw [run_runPipeline_cons]
  refine ⟨congrArg (stage :: ·) h.stages, List.forall_mem_cons.2 ⟨rfl, h.result⟩,
    ?_, ?_, ?_, ?_, ?_⟩
  · rintro r ⟨⟩
    exact ⟨rfl, rfl⟩
  · exact List.isChain_cons.2 ⟨h.first, h.next⟩
  · intro r mem
    rw [List.getLast?_cons_of_ne_nil more] at mem
    obtain ⟨value, world, out⟩ := h.last r mem
    refine ⟨value, world, ?_⟩
    rw [← out, ActionResult.out, List.flatMap_append, Emission.outText_filter fun _ => rfl]
    rfl
  · rw [ActionResult.err, List.flatMap_append, Emission.errText_filter, List.flatMap_cons, ← h.err]
    rfl
  · rw [List.filter_append, List.filter_filter, List.flatMap_cons, ← h.others]
    simp

end Interpreter

end VirtualShell
