import VirtualShell.Proofs.Shell.Nesting

/-!
# Lines while a request to exit is pending

A later stage of a pipeline can run lines behind an earlier one that has asked the shell to exit. A
line that runs apart takes the request back to where it was, but does not set it aside: the line,
and every line inside it, stops where it looks for a request.

* The status that is asked for makes no difference to a line (`Comparison.sameRequests`).
* Under a pending request no more of a line is run than the first part of its first statement that
  is no comment (`Interpreter.run_execute_of_pending`).
-/

namespace VirtualShell

open ShellAction

/-- The world with another request to exit. -/
def World.exiting (w : World) (exit : Option Int) : World :=
  { w with session := w.session.exiting exit }

namespace Comparison

/-- Both runs are asked to exit or neither is. -/
def sameRequests : Comparison where
  related c c' := c.exit.isSome = c'.exit.isSome ∧ c.depth = c'.depth
  seen := some
  excuses _ := False
  isSome_exit h := h.1
  asking _ h := ⟨rfl, h.2⟩
  restoring h hk := ⟨h.1, hk.2⟩
  statement h further text := by rw [h.2]
  depths h := .inl h.2

/-- A request to exit stays pending. -/
def pending : Comparison := keeping (·.exit.isSome) (fun _ _ => rfl) fun h _ => h

theorem Corresponds.isSome_exit_run {α : Type} {a b : ShellAction α}
    (h : pending.Corresponds a b) {w : World} (hw : w.session.exit.isSome) :
    (a.run w).world.session.exit.isSome :=
  (@Corresponds.run_eq α (·.exit.isSome) (fun _ _ => rfl) (fun h _ => h) a b h w hw).2

end Comparison

namespace Interpreter

/-! ## The first of what is on a line -/

/-- Runs the first part of a logic chain. -/
def runFirstPart (runPart : Bytes → ShellAction Int) : List LogicPart → ShellAction Int
  | [] => return 0
  | part :: _ => runPart part.command

/-- Runs the first statement that is no comment. -/
def runFirstStatement (run : Bytes → ShellAction Int) : List Bytes → ShellAction Int
  | [] => return 0
  | statement :: rest =>
    if isComment statement then runFirstStatement run rest
    else do
      trace [.statement (← world).depth statement]
      let status ← run statement
      modifySession ({ · with lastStatus := status })
      return status

/-- Runs what is on a line up to the first part of its first statement that is no comment. -/
def runFirst (call : List Bytes → Option Bytes → ShellAction Int) (runner : LineRunner)
    (line : Bytes) (input : Option Bytes) : ShellAction Int := do
  if (Bytes.trim line).isEmpty || isComment line then return 0
  let expanded := expandVariables (← session).referred line
  if (Delimiters.read {} expanded).unterminated then trace [.lineUnterminated expanded]
  let runPart (part : Bytes) := runPipeline (runSegment call runner) (segments part) input
  runFirstStatement (fun statement => runFirstPart runPart (logicParts statement))
    (statements expanded)

/-! ## Under a pending request -/

section

variable {run : Bytes → ShellAction Int}
  (keeps : ∀ text, Comparison.pending.Corresponds (run text) (run text))
include keeps

theorem run_runParts_of_pending (parts : List LogicPart) {w : World}
    (h : w.session.exit.isSome) :
    (runParts run none 0 parts).run w = (runFirstPart run parts).run w := by
  cases parts with
  | nil => rfl
  | cons part rest =>
    rw [runFirstPart, ← bind_pure (run part.command)]
    refine run_bind_congr rfl ?_
    rw [run_session_bind]
    exact congrArg (ShellAction.run · _) (if_pos ((keeps part.command).isSome_exit_run h))

theorem run_runStatements_of_pending (statements : List Bytes) {w : World}
    (h : w.session.exit.isSome) :
    (runStatements run 0 statements).run w = (runFirstStatement run statements).run w := by
  induction statements with
  | nil => rfl
  | cons statement rest ih =>
    rw [runStatements, runFirstStatement]
    by_cases comment : isComment statement
    · rw [if_pos comment, if_pos comment, ih]
    · rw [if_neg comment, if_neg comment, run_world_bind, run_world_bind]
      -- Saying which statement is run leaves the world as it is.
      refine run_bind_congr rfl (run_bind_congr (w := w) rfl (run_bind_congr rfl ?_))
      rw [run_session_bind]
      exact congrArg (ShellAction.run · _) (if_pos ((keeps statement).isSome_exit_run h))

end

theorem run_runFirstStatement_congr {run run' : Bytes → ShellAction Int} {w : World}
    (h : ∀ text, (run text).run w = (run' text).run w) (statements : List Bytes) :
    (runFirstStatement run statements).run w = (runFirstStatement run' statements).run w := by
  induction statements with
  | nil => rfl
  | cons statement rest ih =>
    rw [runFirstStatement, runFirstStatement]
    split
    · exact ih
    · rw [run_world_bind, run_world_bind]
      exact run_bind_congr rfl (run_bind_congr (w := w) (h statement) rfl)

theorem run_runBody_of_pending {call : List Bytes → Option Bytes → ShellAction Int}
    {runner : LineRunner}
    (calls : ∀ words input, Comparison.pending.Corresponds (call words input) (call words input))
    (runners : Comparison.pending.Runners runner runner) (line : Bytes) (input : Option Bytes)
    {w : World} (h : w.session.exit.isSome) :
    (runBody call runner line input).run w = (runFirst call runner line input).run w := by
  let runPart (part : Bytes) := runPipeline (runSegment call runner) (segments part) input
  have parts (part : Bytes) : Comparison.pending.Corresponds (runPart part) (runPart part) :=
    corresponds_runPipeline (corresponds_runSegment calls runners) (segments part) input
  have first (texts : List Bytes) :
      (runStatements (fun statement => runParts runPart none 0 (logicParts statement)) 0
          texts).run w
        = (runFirstStatement (fun statement => runFirstPart runPart (logicParts statement))
            texts).run w :=
    (run_runStatements_of_pending (fun _ => corresponds_runParts parts none 0 _) texts h).trans
      (run_runFirstStatement_congr (fun _ => run_runParts_of_pending parts _ h) texts)
  unfold runBody runFirst
  by_cases blank : (Bytes.trim line).isEmpty || isComment line
  · rw [if_pos blank, if_pos blank]
  rw [if_neg blank, if_neg blank, run_session_bind, run_session_bind]
  dsimp only
  split
  · exact run_bind_congr rfl (first _)
  · exact first _

/-- Under a pending request no more of a line is run than the first part of its first statement that
is no comment. -/
theorem run_execute_of_pending (limit : Int) (line : Bytes) (input : Option Bytes) {w : World}
    (h : w.session.exit.isSome) :
    let i := standard limit
    (i.execute line input).run w =
      (i.guarding (runFirst (runWords i.commands i.runner) i.runner line input)).run w := by
  have respects := respects_standard limit
  have runners := @runners_runner Comparison.pending limit
  have body := run_runBody_of_pending
    (fun words input => corresponds_runWords respects runners words input) runners line input
    (w := { w with depth := w.depth + 1 }) h
  dsimp only
  rw [execute_eq_guarding _ respects]
  exact run_guarding_congr _ body

/-- The status that is asked for makes no difference to a line. -/
theorem results_of_same_requests (limit : Int) (line : Bytes) (w : World) {e e' : Option Int}
    (same : e.isSome = e'.isSome) :
    Comparison.sameRequests.Results (((standard limit).runner.runApart line).run (w.exiting e))
      (((standard limit).runner.runApart line).run (w.exiting e')) := by
  have worlds : Comparison.sameRequests.Worlds (w.exiting e) (w.exiting e') := ⟨⟨same, rfl⟩, rfl⟩
  rcases (runners_runner limit).runApart line _ _ worlds with ⟨_, excused, _⟩ | r
  · exact excused.elim
  · exact r

/-- **A line that runs apart** takes a request to exit back to where it was. From two sessions that
are both asked to exit, or neither of them, it comes to the same, writes the same and leaves the
same session and files, whatever the status asked for. From a session that is asked to exit it runs
its first part only. -/
theorem runApart_exiting (limit : Int) (line : Bytes) (w : World) (e e' : Option Int) :
    let i := standard limit
    let r := (i.runner.runApart line).run (w.exiting e)
    let r' := (i.runner.runApart line).run (w.exiting e')
    r.world.session.exit = e
      ∧ (e.isSome = e'.isSome →
          r.value = r'.value ∧ r.emitted = r'.emitted ∧ r.world.exiting e' = r'.world)
      ∧ (e.isSome → r = (keepingExit (i.guarding
          (runFirst (runWords i.commands i.runner) i.runner line none)).capture).run
            (w.exiting e)) := by
  refine ⟨rfl, fun same => ?_, fun pending => ?_⟩
  · obtain ⟨value, shown, ⟨-, depth⟩, worlds⟩ := results_of_same_requests limit line w same
    rw [Comparison.shown_of_seen_all fun _ => rfl, Comparison.shown_of_seen_all fun _ => rfl]
      at shown
    refine ⟨value, shown, worlds.symm ▸ ?_⟩
    exact congrArg (fun d => World.under _ ⟨e', d⟩) depth
  · have ran := run_execute_of_pending limit line none (w := w.exiting e) pending
    change (keepingExit ((standard limit).execute line none).capture).run _ = _
    rw [run_keepingExit, run_keepingExit, capture, capture, run_divert, run_divert, ran]

/-- A request that an earlier stage of the pipeline has made cuts a substitution short. -/
theorem not_runApart_exiting :
    let i := standard 16
    let w : World := { session := {}, system := { volume := { store := .memory ∅ } }, now := 0 }
    let line := ascii "echo a; echo b"
    ((i.runner.runApart line).run (w.exiting none)).value.out = ascii "a\nb\n"
      ∧ ((i.runner.runApart line).run (w.exiting (some 3))).value.out = ascii "a\n"
      ∧ (((i.execute (ascii "exit 3 | echo $(echo a; echo b)")).capture).run w).value.out
          = ascii "a\n"
      ∧ (((i.execute (ascii "true | echo $(echo a; echo b)")).capture).run w).value.out
          = ascii "a b\n" := by
  decide +kernel

end Interpreter

end VirtualShell
