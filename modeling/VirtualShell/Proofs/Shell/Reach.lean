import VirtualShell.Proofs.Shell.Correspondence

/-!
# What a line does to the file system

A line, and the lines it runs inside, change the file system by requests only
(`Interpreter.requests_execute`). So from a file system that can be reached every line leads to one
that can be reached (`Interpreter.reachable_execute`), and what requests keep holds while a session
goes on, whatever is typed.
-/

namespace VirtualShell

open ShellAction

/-- The lines that are run change the file system by requests only. -/
structure LineRunner.Asking (r : LineRunner) : Prop where
  run : ∀ line, Requests (r.run line)
  runApart : ∀ line, Requests (r.runApart line)

/-! ## Commands -/

namespace Builtin

theorem requests_requestExit (status : Int) : Requests (requestExit status) :=
  (Requests.modifySession _).bind fun _ => .pure _

theorem requests_exit (c : Call) : Requests (exit.answer c) := by
  unfold exit
  dsimp only
  split
  · exact .bind_session fun _ => requests_requestExit _
  · split
    · exact requests_requestExit _
    · exact (c.confined_complain _ _ _).requests.bind fun _ => requests_requestExit _
  · exact (c.confined_refuse _ _ _).requests

section

variable {execute : Bytes → ShellAction Captured} {run : Bytes → ShellAction Int}

theorem requests_passOn (h : ∀ line, Requests (execute line)) (line : Bytes) :
    Requests (passOn execute line) :=
  (h line).bind fun c => (Confined.release c).requests

theorem requests_runScript (h : ∀ line, Requests (run line)) (status : Int)
    (lines : List Bytes) : Requests (runScript run status lines) := by
  induction lines generalizing status with
  | nil => exact .pure _
  | cons line rest ih =>
    exact (h line).bind fun _ => .bind_session fun _ => .ite (.pure _) (ih _)

theorem requests_runAll (h : ∀ line, Requests (run line)) (status : Int) (lines : List Bytes) :
    Requests (runAll run status lines) := by
  induction lines generalizing status with
  | nil => exact .pure _
  | cons line rest ih => exact (h line).bind fun _ => ih _

end

variable {c : Call}

theorem requests_sourceNamed (name : Bytes) (h : ∀ r, c.runner = some r → r.Asking) :
    Requests ((sourceNamed name).answer c) := by
  unfold sourceNamed
  dsimp only
  split
  · exact (c.confined_refuse _ _ _).requests
  · exact (c.confined_complain _ _ _).requests.bind fun _ => .pure _
  next runner _ given =>
    refine (Confined.readPath _).requests.bind fun outcome => ?_
    cases outcome with
    | error fault => exact (Confined.reportFault _ _).requests.bind fun _ => .pure _
    | ok text =>
      exact (Requests.emit _).bind fun _ =>
        requests_runScript (requests_passOn (h runner given).run) _ _

theorem requests_xargs (h : ∀ r, c.runner = some r → r.Asking) : Requests (xargs.answer c) := by
  unfold xargs
  dsimp only
  split
  · exact (c.confined_refuse _ _ _).requests
  · split
    · exact (c.confined_refuse _ _ _).requests
    · exact (c.confined_complain _ _ _).requests.bind fun _ => .pure _
    next runner _ given => exact requests_runAll (requests_passOn (h runner given).runApart) _ _

/-- **Every command** changes the file system by requests only, if the lines it runs do. -/
theorem requests_answer {b : Builtin} (mem : b ∈ all) (h : ∀ r, c.runner = some r → r.Asking) :
    Requests (b.answer c) := by
  rcases plain_or_of_mem_all b mem with plain | rfl | rfl | rfl | rfl
  · exact (plain.confined c).requests
  · exact requests_exit c
  · exact requests_sourceNamed _ h
  · exact requests_sourceNamed _ h
  · exact requests_xargs h

theorem requests_invoke {b : Builtin} (mem : b ∈ all) (h : ∀ r, c.runner = some r → r.Asking) :
    Requests (b.invoke c) :=
  .ite ((Requests.emit _).bind fun _ => .pure _) (requests_answer mem h)

end Builtin

/-! ## Segments -/

namespace Interpreter

theorem requests_redirecting (redirects : List Redirect) (input : Option Bytes)
    {body : Option Bytes → ShellAction Int} (h : ∀ input, Requests (body input)) :
    Requests (redirecting redirects input body) := by
  rw [redirecting_eq]
  refine (confined_opening _ _).requests.bind fun outcome => ?_
  cases outcome with
  | error fault => exact (Confined.reportFault _ _).requests.bind fun _ => .pure _
  | ok input =>
    exact ((h input).divert _ _).bind fun _ => (confined_flushTo _ _ _).requests.bind fun _ =>
      (confined_flushTo _ _ _).requests

theorem requests_runSubstitutions {run : Bytes → ShellAction Captured}
    {unclosed : SubstitutionForm → ShellAction Unit} (h : ∀ line, Requests (run line))
    (hu : ∀ form, Requests (unclosed form)) (parts : List TextPart) :
    Requests (runSubstitutions run unclosed parts) := by
  induction parts with
  | nil => exact .pure _
  | cons part rest ih =>
    cases part with
    | literal text => exact ih.bind fun _ => .pure _
    | unclosed form text => exact (hu form).bind fun _ => ih.bind fun _ => .pure _
    | substitution form command inDoubleQuotes =>
      exact (h command).bind fun _ => ih.bind fun _ => .pure _

section

variable {r : LineRunner} (asking : r.Asking)
include asking

theorem requests_substitute (segment : Bytes) : Requests (substitute r segment) := by
  refine (requests_runSubstitutions asking.runApart (fun form => ?_) _).bind fun substituted =>
    .ite ((Requests.emit _).bind fun _ => .pure _) (.pure _)
  cases form with
  | paren => exact .emit _
  | backtick => exact .pure _

theorem requests_runWords {commands : Registry Builtin}
    (known : ∀ name b, commands.find? name = some b → b ∈ Builtin.all) (words : List Bytes)
    (input : Option Bytes) : Requests (runWords commands r words input) := by
  refine (confined_assignLeading _).requests.bind fun words =>
    (confined_expandAlias _).requests.bind fun words => ?_
  cases words with
  | nil => exact .pure _
  | cons name arguments =>
    dsimp only
    cases found : commands.find? name with
    | none => exact (Confined.report _).requests.bind fun _ => .pure _
    | some b =>
      refine Builtin.requests_invoke (known name b found) fun r' given => ?_
      obtain rfl := Option.some.inj given
      exact asking

variable {call : List Bytes → Option Bytes → ShellAction Int}
  (calls : ∀ words input, Requests (call words input))
include calls

theorem requests_runSegment (segment : Bytes) (input : Option Bytes) :
    Requests (runSegment call r segment input) := by
  refine (requests_substitute asking segment).bind fun text => (Requests.emit _).bind fun _ => ?_
  cases Command.read text with
  | error e => exact (Confined.report _).requests.bind fun _ => .pure _
  | ok command =>
    exact requests_redirecting _ _ fun input =>
      (confined_argumentsOf _).requests.bind fun words => calls words input

end

/-! ## Lines -/

theorem requests_runPipeline {runStage : Bytes → Option Bytes → ShellAction Int}
    (h : ∀ stage input, Requests (runStage stage input)) (stages : List Bytes)
    (input : Option Bytes) : Requests (runPipeline runStage stages input) := by
  induction stages generalizing input with
  | nil => exact .pure _
  | cons stage rest ih =>
    cases rest with
    | nil => exact h stage input
    | cons next rest => exact ((h stage input).divert _ _).bind fun _ => ih _

section

variable {run : Bytes → ShellAction Int} (h : ∀ text, Requests (run text))
include h

theorem requests_runParts (behind : Option Connective) (status : Int) (parts : List LogicPart) :
    Requests (runParts run behind status parts) := by
  induction parts generalizing behind status with
  | nil => exact .pure _
  | cons part rest ih =>
    unfold runParts
    split
    · exact (Requests.emit _).bind fun _ => ih _ _
    · exact (h _).bind fun _ => .bind_session fun _ => .ite (.pure _) (ih _ _)

theorem requests_runStatements (status : Int) (statements : List Bytes) :
    Requests (runStatements run status statements) := by
  induction statements generalizing status with
  | nil => exact .pure _
  | cons statement rest ih =>
    unfold runStatements
    refine .ite (ih _) (.bind_world fun _ => (Requests.emit _).bind fun _ => (h _).bind fun _ => ?_)
    exact (Requests.modifySession _).bind fun _ => .bind_session fun _ => .ite (.pure _) (ih _)

end

theorem requests_runBody {call : List Bytes → Option Bytes → ShellAction Int} {r : LineRunner}
    (calls : ∀ words input, Requests (call words input)) (asking : r.Asking) (line : Bytes)
    (input : Option Bytes) : Requests (runBody call r line input) := by
  refine .ite (.pure _) (.bind_session fun s => ?_)
  have lines := requests_runStatements (fun statement => requests_runParts (fun part =>
    requests_runPipeline (requests_runSegment asking calls) (segments part) input) none 0
      (logicParts statement)) 0 (statements (expandVariables s.referred line))
  exact .ite ((Requests.emit _).bind fun _ => lines) lines

theorem requests_guarding (i : Interpreter) {body : ShellAction Int} (h : Requests body) :
    Requests (i.guarding body) :=
  .bind_world fun _ => .ite i.confined_refuseNesting.requests
    (.nested (h.bind fun _ => (Requests.emit _).bind fun _ => .pure _))

theorem asking_runnerOf (commands : Registry Builtin) {execute : Bytes → ShellAction Int}
    (h : ∀ line, Requests (execute line)) : (runnerOf commands execute).Asking where
  run line := (h line).divert true true
  runApart line := .keepingExit ((h line).divert true true)

/-- A line changes the file system by requests only, so many levels deep, when what is on the lines
below does. -/
theorem requests_runLevels (i : Interpreter)
    (known : ∀ name b, i.commands.find? name = some b → b ∈ Builtin.all)
    {beyond : Bytes → Option Bytes → ShellAction Int}
    (h : ∀ line input, Requests (beyond line input)) (levels : Nat) (line : Bytes)
    (input : Option Bytes) : Requests (i.runLevels beyond levels line input) := by
  induction levels generalizing line input with
  | zero => exact requests_guarding i (h line input)
  | succ levels ih =>
    have asking := asking_runnerOf i.commands fun line => ih line none
    exact requests_guarding i
      (requests_runBody (requests_runWords asking known) asking line input)

theorem requests_execute (limit : Int) (line : Bytes) (input : Option Bytes) :
    Requests ((standard limit).execute line input) :=
  requests_runLevels _ (fun _ _ h => (Builtin.find?_standard_eq_some_iff.1 h).1)
    (fun _ _ => .pure _) _ line input

theorem asking_runner (limit : Int) : (standard limit).runner.Asking :=
  asking_runnerOf _ fun line => requests_execute limit line none

/-- What the words of a command name, in a segment of a line. -/
theorem requests_runWords_standard (limit : Int) (words : List Bytes) (input : Option Bytes) :
    Requests (runWords (standard limit).commands (standard limit).runner words input) :=
  requests_runWords (asking_runner limit)
    (fun _ _ h => (Builtin.find?_standard_eq_some_iff.1 h).1) words input

/-- **From a file system that can be reached** every line leads to one that can be reached. -/
theorem reachable_execute (limit : Int) (line : Bytes) (input : Option Bytes) {w : World}
    (h : Reachable w.system) :
    Reachable (((standard limit).execute line input).run w).world.system :=
  (requests_execute limit line input).reachable h

end Interpreter

end VirtualShell
