import VirtualShell.Proofs.Lexing.Blanks
import VirtualShell.Proofs.Shell.Nesting
import VirtualShell.Startup.Program

/-!
# The two ways to run a script

A script that the shell is started on has its lines run as they are, comments too. The command
`source` trims the lines of a file, leaves out its comments and collects what each line writes.

* Collecting makes no difference to what can be told from a run
  (`ShellAction.Alike.capture_release`), and trimming makes none to a line
  (`Interpreter.corresponds_execute_trim`).
* Leaving out comments makes a difference only to the status (`Builtin.run_runScript_filter`).

So both ways agree on all but the status, and on that unless a comment ends the script or the shell
is asked to exit.
-/

namespace VirtualShell

open ShellAction

/-! ## Transcripts -/

/-- What is told of an event however deep the line is, and however it was written. -/
def TraceEvent.told? : TraceEvent → Option TraceEvent
  | statement _ text => some (.statement 0 text)
  | lineUnterminated _ | finished _ => none
  | event => some event

namespace Emission

/-- What is told of what leaves the shell, texts apart. -/
def told? : Emission → Option Emission
  | trace event => event.told?.map .trace
  | pause duration => some (.pause duration)
  | out _ | err _ => none

/-- It is said that lines are nested too deep. -/
def refuses : Emission → Bool
  | trace (.nestingLimit _) => true
  | _ => false

end Emission

/-- What can be told from a run: the texts of each stream, and all else in order. -/
@[ext]
structure Transcript where
  out : Bytes
  err : Bytes
  steps : List Emission
  deriving DecidableEq

/-- A line was nested too deep. -/
def Transcript.refused (t : Transcript) : Bool := t.steps.any Emission.refuses

def transcript (emitted : List Emission) : Transcript where
  out := emitted.flatMap Emission.outText
  err := emitted.flatMap Emission.errText
  steps := emitted.filterMap Emission.told?

theorem transcript_append (e₁ e₂ : List Emission) :
    transcript (e₁ ++ e₂) =
      { out := (transcript e₁).out ++ (transcript e₂).out
        err := (transcript e₁).err ++ (transcript e₂).err
        steps := (transcript e₁).steps ++ (transcript e₂).steps } := by
  simp [transcript]

theorem transcript_append_congr {e₁ e₁' e₂ e₂' : List Emission}
    (h₁ : transcript e₁ = transcript e₁') (h₂ : transcript e₂ = transcript e₂') :
    transcript (e₁ ++ e₂) = transcript (e₁' ++ e₂') := by
  rw [transcript_append, transcript_append, h₁, h₂]

theorem refused_append (e₁ e₂ : List Emission) :
    (transcript (e₁ ++ e₂)).refused = ((transcript e₁).refused || (transcript e₂).refused) := by
  rw [transcript_append]
  exact List.any_append

theorem refused_transcript (emitted : List Emission) :
    (transcript emitted).refused = emitted.any Emission.refuses := by
  rw [Transcript.refused, transcript, List.any_filterMap]
  refine congrArg emitted.any (funext fun e => ?_)
  cases e with
  | trace event => cases event <;> rfl
  | _ => rfl

/-! ## Collecting -/

theorem run_release (c : Captured) (w : World) :
    (release c).run w =
      { value := c.code
        emitted := (if c.out.isEmpty then [] else [.out c.out]) ++
          if c.err.isEmpty then [] else [.err c.err]
        world := w } := by
  obtain ⟨out, err, code⟩ := c
  cases out <;> cases err <;> rfl

theorem transcript_run_release (c : Captured) (w : World) :
    transcript ((release c).run w).emitted = ⟨c.out, c.err, []⟩ := by
  obtain ⟨out, err, code⟩ := c
  rw [run_release]
  cases out <;> cases err <;> simp [transcript, Emission.outText, Emission.errText, Emission.told?]

/-- Where texts are collected all else is emitted as it comes. -/
theorem transcript_run_capture (a : ShellAction Int) (w : World) :
    transcript (a.capture.run w).emitted = ⟨[], [], (transcript (a.run w).emitted).steps⟩ := by
  rw [capture, run_divert]
  simp only [Bool.true_and, transcript]
  refine Transcript.ext ?_ ?_ ?_
  · refine List.flatMap_eq_nil_iff.2 fun e mem => ?_
    cases e <;> simp_all [Emission.isOut, Emission.outText]
  · refine List.flatMap_eq_nil_iff.2 fun e mem => ?_
    cases e <;> simp_all [Emission.isErr, Emission.errText]
  · rw [List.filterMap_filter]
    refine congrArg (List.filterMap · _) (funext fun e => ?_)
    cases e <;> rfl

/-- From every world the same can be told of both actions. -/
structure ShellAction.Alike {α : Type} (a b : ShellAction α) : Prop where
  value (w : World) : (a.run w).value = (b.run w).value
  world (w : World) : (a.run w).world = (b.run w).world
  transcript (w : World) : transcript (a.run w).emitted = transcript (b.run w).emitted

namespace ShellAction.Alike

variable {α β : Type}

theorem refl (a : ShellAction α) : Alike a a := ⟨fun _ => rfl, fun _ => rfl, fun _ => rfl⟩

theorem bind {a b : ShellAction α} {f g : α → ShellAction β} (h : Alike a b)
    (hf : ∀ v, Alike (f v) (g v)) : Alike (a >>= f) (b >>= g) := by
  refine ⟨fun w => ?_, fun w => ?_, fun w => ?_⟩
  all_goals rw [run_bind, run_bind, ← h.value, ← h.world]
  · exact (hf _).value _
  · exact (hf _).world _
  · exact transcript_append_congr (h.transcript w) ((hf _).transcript _)

/-- What is collected and then written can be told as if it had been written at once. -/
theorem capture_release (a : ShellAction Int) : Alike (a.capture >>= release) a := by
  refine ⟨fun w => ?_, fun w => ?_, fun w => ?_⟩
  all_goals rw [run_bind]
  · rw [run_release]
    rfl
  · rw [run_release]
    rfl
  · rw [transcript_append, transcript_run_capture, transcript_run_release, List.nil_append,
      List.nil_append, List.append_nil]
    rfl

end ShellAction.Alike

theorem Builtin.alike_runScript {execute execute' : Bytes → ShellAction Int}
    (h : ∀ line, Alike (execute line) (execute' line)) (status : Int) (lines : List Bytes) :
    Alike (runScript execute status lines) (runScript execute' status lines) := by
  induction lines generalizing status with
  | nil => exact .refl _
  | cons line rest ih =>
    refine (h line).bind fun status => (Alike.refl session).bind fun s => ?_
    split
    · exact .refl _
    · exact ih status

/-! ## Trimming -/

namespace Comparison

/-- The runs are at two depths under the same request to exit. -/
def atDepths (depth depth' : Nat) : Comparison where
  related c c' := c.exit = c'.exit ∧ c.depth = depth ∧ c'.depth = depth'
  seen := TraceEvent.told?
  excuses event := ∃ limit, event = .nestingLimit limit
  isSome_exit h := by rw [h.1]
  asking _ h := ⟨rfl, h.2⟩
  restoring h hk := ⟨h.1, hk.2⟩
  statement _ _ _ := rfl
  depths _ := .inr fun limit => ⟨limit, rfl⟩

theorem transcript_eq_of_shown_eq {K : Comparison} (told : K.seen = TraceEvent.told?)
    {e e' : List Emission} (h : K.shown e = K.shown e') : transcript e = transcript e' := by
  refine Transcript.ext (flatMap_eq_of_shown_eq h fun _ => rfl)
    (flatMap_eq_of_shown_eq h fun _ => rfl) ?_
  have steps (e : List Emission) :
      (transcript e).steps = (K.shown e).filter fun e => !(e.isOut || e.isErr) := by
    rw [shown, List.filter_filterMap]
    refine congrArg (List.filterMap · e) (funext fun x => ?_)
    cases x with
    | trace event => rw [shownOf, told]; cases event <;> rfl
    | _ => rfl
  rw [steps, steps, h]

theorem Worlds.eq_of_atDepths {depth depth' : Nat} {w w' : World}
    (h : (atDepths depth depth').Worlds w w') : w' = { w with depth := depth' } := by
  obtain ⟨⟨exit, -, deep⟩, worlds⟩ := h
  have control : w'.control = ⟨w.control.exit, depth'⟩ := by rw [exit, ← deep]
  exact worlds.trans (by rw [control]; rfl)

theorem Excused.refused {depth depth' : Nat} {e e' : List Emission}
    (h : (atDepths depth depth').Excused e e') :
    (transcript e).refused = true ∨ (transcript e').refused = true := by
  obtain ⟨_, ⟨limit, rfl⟩, mem⟩ := h
  rw [refused_transcript, refused_transcript]
  refine (List.mem_append.1 mem).imp ?_ ?_
  all_goals exact fun mem => List.any_eq_true.2 ⟨_, mem, rfl⟩

/-- What is not seen may be said in one run and not in the other. -/
theorem Corresponds.unseen {K : Comparison} {α : Type} {a b : ShellAction α} {p p' : Prop}
    [Decidable p] [Decidable p'] {event event' : TraceEvent} (h : K.seen event = none)
    (h' : K.seen event' = none) (same : K.Corresponds a b) :
    K.Corresponds
      (do
        if p then trace [event]
        a)
      (do
        if p' then trace [event']
        b) := by
  have said (p : Prop) [Decidable p] (event : TraceEvent) (a : ShellAction α) :
      (do
        if p then trace [event]
        a) =
      (do
        trace (if p then [event] else [])
        a) := by
    split <;> rfl
  have none (p : Prop) [Decidable p] {event : TraceEvent} (h : K.seen event = none) (w : World) :
      K.shown ((trace (if p then [event] else [])).run w).emitted = [] := by
    split
    · exact congrArg (fun seen => (seen.map Emission.trace).toList) h
    · rfl
  rw [said, said]
  refine .bind (fun w w' worlds => .inr ⟨rfl, ?_, worlds⟩) fun _ => same
  rw [none p h, none p' h']

end Comparison

namespace Interpreter

variable {K : Comparison}

theorem corresponds_runBody_trim (unseen : ∀ text, K.seen (.lineUnterminated text) = none)
    {call call' : List Bytes → Option Bytes → ShellAction Int} {r r' : LineRunner}
    (calls : ∀ words input, K.Corresponds (call words input) (call' words input))
    (runners : K.Runners r r') (line : Bytes) (input : Option Bytes) :
    K.Corresponds (runBody call r (Bytes.trim line) input) (runBody call' r' line input) := by
  unfold runBody
  rw [Bytes.trim_trim, isComment_trim]
  refine .ite (Confined.pure _).corresponds (.bind_session fun s e e' _ => ?_)
  dsimp only
  rw [Session.referred_exiting, Session.referred_exiting, statements_expandVariables_trim]
  exact .unseen (unseen _) (unseen _) (corresponds_lineStatements calls runners _ input)

/-- The blanks around a line make no difference to it. -/
theorem corresponds_execute_trim (unseen : ∀ text, K.seen (.lineUnterminated text) = none)
    (limit : Int) (line : Bytes) :
    K.Corresponds ((standard limit).execute (Bytes.trim line)) ((standard limit).execute line) := by
  have respects := respects_standard limit
  have runners := @runners_runner K.deeper limit
  rw [execute_eq_guarding _ respects, execute_eq_guarding _ respects]
  exact corresponds_guarding _ (@corresponds_runBody_trim K.deeper unseen _ _ _ _
    (fun words input => corresponds_runWords respects runners words input) runners line none)

/-! ## Comments -/

/-- A comment does nothing, unless it is nested too deep. -/
theorem run_execute_of_isComment (limit : Int) {line : Bytes} (comment : isComment line = true)
    {w : World}
    (room : (transcript (((standard limit).execute line).run w).emitted).refused = false) :
    ((standard limit).execute line).run w = ⟨0, [.trace (.finished .runningLine)], w⟩ := by
  rw [execute_eq_guarding _ (respects_standard limit)] at room ⊢
  by_cases deep : (standard limit).limit ≤ w.depth
  · rw [run_guarding_of_limit_le _ deep] at room
    cases room
  · rw [guarding, run_world_bind, if_neg deep, run_nested, runBody, comment, Bool.or_true]
    rfl

end Interpreter

namespace Builtin

section

variable {execute : Bytes → ShellAction Int} {line : Bytes} {w : World}

theorem run_runScript_cons_of_exit (h : ((execute line).run w).world.session.exit.isSome = true)
    (status : Int) (rest : List Bytes) :
    (runScript execute status (line :: rest)).run w = (execute line).run w := by
  rw [runScript, run_bind, run_session_bind, if_pos h, run_pure, List.append_nil]

theorem run_runScript_cons (h : ((execute line).run w).world.session.exit = none)
    (status : Int) (rest : List Bytes) :
    (runScript execute status (line :: rest)).run w =
      (do runScript execute (← execute line) rest).run w := by
  rw [runScript, run_bind, run_session_bind, h, run_bind]
  rfl

end

/-- The status behind lines, given the one before them and the one that there is without comments.
-/
def statusBehind (status other : Int) (lines : List Bytes) : Int :=
  match lines.getLast? with
  | none => status
  | some last => if isComment last then 0 else other

theorem statusBehind_comment {line : Bytes} (comment : isComment line = true) (status other : Int)
    (rest : List Bytes) : statusBehind 0 other rest = statusBehind status other (line :: rest) := by
  rw [statusBehind, statusBehind, List.getLast?_cons]
  cases rest.getLast? with
  | none => exact (if_pos comment).symm
  | some _ => rfl

theorem statusBehind_line {line : Bytes} (plain : isComment line = false) {first other : Int}
    (status : Int) {rest : List Bytes} (alone : rest = [] → other = first) :
    statusBehind first other rest = statusBehind status other (line :: rest) := by
  rw [statusBehind, statusBehind, List.getLast?_cons]
  cases last : rest.getLast? with
  | none =>
    rw [← alone (List.getLast?_eq_none_iff.1 last)]
    exact (if_neg (by rw [Option.getD_none, plain]; decide)).symm
  | some _ => rfl

/-- Leaving out comments makes a difference to the status only, and to that if the last line is one.
A run that is asked to exit before it starts ends behind its first line, which must not be one. -/
theorem run_runScript_filter {execute : Bytes → ShellAction Int}
    (comments : ∀ line, isComment line = true → ∀ w,
      (transcript ((execute line).run w).emitted).refused = false →
        (execute line).run w = ⟨0, [.trace (.finished .runningLine)], w⟩)
    (lines : List Bytes) (status status' : Int) (w : World)
    (starts : w.session.exit = none ∨ lines.head?.any isComment = false)
    (room : (transcript ((runScript execute status lines).run w).emitted).refused = false) :
    let r := (runScript execute status lines).run w
    let r' := (runScript execute status' (lines.filter fun line => !isComment line)).run w
    r.world = r'.world ∧ transcript r.emitted = transcript r'.emitted ∧
      (r.world.session.exit = none → r.value = statusBehind status r'.value lines) := by
  induction lines generalizing status status' w with
  | nil => exact ⟨rfl, rfl, fun _ => rfl⟩
  | cons line rest ih =>
    have first := room
    rw [runScript, run_bind, refused_append, Bool.or_eq_false_iff] at first
    cases comment : isComment line with
    | true =>
      -- The comment leaves the world as it is, so the lines behind it are not stopped either.
      have idle : w.session.exit = none := starts.resolve_right (by simp [comment])
      have done := comments line comment w first.1
      have exit : ((execute line).run w).world.session.exit = none := by rw [done, idle]
      rw [run_runScript_cons exit, run_bind, done, refused_append, Bool.or_eq_false_iff] at room
      obtain ⟨world, told, value⟩ := ih 0 status' w (.inl idle) room.2
      dsimp only
      rw [List.filter_cons_of_neg (by simp [comment]), run_runScript_cons exit, run_bind, done]
      exact ⟨world, told, fun none => (value none).trans (statusBehind_comment comment _ _ _)⟩
    | false =>
      dsimp only
      rw [List.filter_cons_of_pos (by simp [comment])]
      cases exit : ((execute line).run w).world.session.exit with
      | some asked =>
        have asked : ((execute line).run w).world.session.exit.isSome = true := by rw [exit]; rfl
        rw [run_runScript_cons_of_exit asked, run_runScript_cons_of_exit asked]
        exact ⟨rfl, rfl, fun none => by rw [none] at exit; cases exit⟩
      | none =>
        rw [run_runScript_cons exit, run_bind, refused_append, Bool.or_eq_false_iff] at room
        obtain ⟨world, told, value⟩ := ih ((execute line).run w).value ((execute line).run w).value
          ((execute line).run w).world (.inl exit) room.2
        rw [run_runScript_cons exit, run_runScript_cons exit, run_bind, run_bind]
        refine ⟨world, transcript_append_congr rfl told, fun none => (value none).trans ?_⟩
        refine statusBehind_line comment status fun alone => ?_
        rw [alone]
        rfl

theorem runScript_map (execute : Bytes → ShellAction Int) (f : Bytes → Bytes) (status : Int)
    (lines : List Bytes) :
    runScript execute status (lines.map f) =
      runScript (fun line => execute (f line)) status lines := by
  induction lines generalizing status with
  | nil => rfl
  | cons line rest ih =>
    rw [List.map_cons, runScript, runScript]
    simp only [ih]

end Builtin

/-- The lines of a script come to the same trimmed as they are, and at one depth as at another. -/
theorem Interpreter.transcript_run_map_trim (limit : Int) (lines : List Bytes) (w : World)
    (depth : Nat) :
    let execute (line : Bytes) := (standard limit).execute line
    let r := (Builtin.runScript execute 0 (lines.map Bytes.trim)).run w
    let r' := (Builtin.runScript execute 0 lines).run { w with depth }
    (transcript r.emitted).refused = false → (transcript r'.emitted).refused = false →
      r.value = r'.value ∧ r'.world = { r.world with depth } ∧
        transcript r.emitted = transcript r'.emitted := by
  intro execute r r' room room'
  have lines : (Comparison.atDepths w.depth depth).Corresponds
      (Builtin.runScript execute 0 (lines.map Bytes.trim)) (Builtin.runScript execute 0 lines) := by
    rw [Builtin.runScript_map]
    exact Builtin.corresponds_runScript (corresponds_execute_trim (fun _ => rfl) limit) 0 lines
  have worlds : (Comparison.atDepths w.depth depth).Worlds w { w with depth } :=
    ⟨⟨rfl, rfl, rfl⟩, rfl⟩
  rcases lines w _ worlds with excused | results
  · rcases excused.refused with refused | refused
    · rw [room] at refused
      cases refused
    · rw [room'] at refused
      cases refused
  · exact ⟨results.value, results.worlds.eq_of_atDepths,
      Comparison.transcript_eq_of_shown_eq rfl results.shown⟩

/-! ## Files -/

/-- The world in which the file of a record has been read. -/
def World.reading (w : World) (node : Inode) : World :=
  { w with system.tree := w.system.tree.insert node.path { node with accessed := w.now } }

theorem run_readPath {w : World} {file : Bytes} {node : Inode}
    (found : w.system.tree.stat (w.session.resolve file) = .ok node)
    (isFile : node.isDirectory = false) :
    (readPath file).run w = ⟨.ok node.content, [], w.reading node⟩ := by
  have read : w.system.read w.now (w.session.resolve file) =
      ⟨.ok node.content, (w.reading node).system, []⟩ := by
    simp only [FileSystem.read, found, isFile, Bool.false_eq_true, if_false]
    rfl
  simp only [readPath, resolve, run_bind, run_session, run_pure, run_perform, read]
  rfl

/-- The lines of a text that are not blank. -/
def filledLines (text : Bytes) : List Bytes :=
  (Bytes.lines text).filter fun line => !(Bytes.trim line).isEmpty

theorem scriptLines_eq (text : Bytes) :
    scriptLines text = ((filledLines text).filter fun line => !isComment line).map Bytes.trim := by
  rw [scriptLines, filledLines, List.filter_map, List.filter_filter]
  refine congrArg _ (List.filter_congr fun line _ => ?_)
  rw [Function.comp, isComment_trim, Bool.and_comm]

theorem Builtin.run_invoke_sourceNamed (name called file : Bytes) (others : List Bytes)
    (input : Option Bytes) (runner : LineRunner) {w : World} {node : Inode}
    (noHelp : file ≠ ascii "--help" ∧ file ≠ ascii "-h")
    (found : w.system.tree.stat (w.session.resolve file) = .ok node)
    (isFile : node.isDirectory = false) :
    ((sourceNamed name).invoke ⟨called, file :: others, input, some runner⟩).run w =
      { (runScript (passOn runner.run) 0 (scriptLines node.content)).run (w.reading node) with
        emitted := .trace (.sourcing file) ::
          ((runScript (passOn runner.run) 0 (scriptLines node.content)).run
            (w.reading node)).emitted } := by
  have help : asksForHelp ⟨called, file :: others, input, some runner⟩ = false := by
    simp [asksForHelp, noHelp.1, noHelp.2]
  rw [invoke, if_neg (by rw [help]; decide)]
  simp only [sourceNamed, run_bind, run_readPath found isFile]
  rfl

/-- What can be told of `source` is that it is run, and then what can be told of its lines. -/
theorem Builtin.transcript_run_sourceNamed (limit : Int) (name called file : Bytes)
    (others : List Bytes) (input : Option Bytes) {w : World} {node : Inode}
    (noHelp : file ≠ ascii "--help" ∧ file ≠ ascii "-h")
    (found : w.system.tree.stat (w.session.resolve file) = .ok node)
    (isFile : node.isDirectory = false) :
    let i := Interpreter.standard limit
    let r := ((sourceNamed name).invoke ⟨called, file :: others, input, some i.runner⟩).run w
    let r' := (runScript (fun line => i.execute line) 0 (scriptLines node.content)).run
      (w.reading node)
    r.value = r'.value ∧ r.world = r'.world ∧ transcript r.emitted =
      { transcript r'.emitted with
        steps := .trace (.sourcing file) :: (transcript r'.emitted).steps } := by
  intro i
  have alike : Alike (runScript (passOn i.runner.run) 0 (scriptLines node.content))
      (runScript (fun line => i.execute line) 0 (scriptLines node.content)) :=
    alike_runScript (fun line => Alike.capture_release (i.execute line)) 0 _
  rw [run_invoke_sourceNamed name called file others input i.runner noHelp found isFile]
  refine ⟨alike.value _, alike.world _, ?_⟩
  rw [← alike.transcript]
  rfl

namespace Program

/-- **The two ways to run a script.** Where no line is nested too deep, `source` on a file and a
script with the text of the file, started where the file has been read, make the same steps, write
the same to each stream and leave the same session and files. The script ends with the status that
the shell has been asked to exit with, if it has, else with that of its last line; this is 0 for a
comment, which `source` passes over. -/
theorem perform_standardInput_source (limit : Int) (name called file : Bytes) (others : List Bytes)
    (input : Option Bytes) (depth : Nat) (w : World) (node : Inode)
    (noHelp : file ≠ ascii "--help" ∧ file ≠ ascii "-h")
    (found : w.system.tree.stat (w.session.resolve file) = .ok node)
    (isFile : node.isDirectory = false)
    (starts : w.session.exit = none ∨ (filledLines node.content).head?.any isComment = false) :
    let i := Interpreter.standard limit
    let s := ((Builtin.sourceNamed name).invoke
      ⟨called, file :: others, input, some i.runner⟩).run w
    let p := (perform i node.content .standardInput).run { w.reading node with depth }
    (transcript s.emitted).refused = false → (transcript p.emitted).refused = false →
      transcript s.emitted =
          { transcript p.emitted with
            steps := .trace (.sourcing file) :: (transcript p.emitted).steps }
        ∧ p.world = { s.world with depth }
        ∧ p.value =
          match s.world.session.exit with
          | some asked => asked
          | none => if (filledLines node.content).getLast?.any isComment then 0 else s.value := by
  intro i s p room room'
  let execute (line : Bytes) := i.execute line
  let all := (Builtin.runScript execute 0 (filledLines node.content)).run
    { w.reading node with depth }
  let left := (Builtin.runScript execute 0
    ((filledLines node.content).filter fun line => !isComment line)).run
      { w.reading node with depth }
  have emitted : p.emitted = all.emitted := List.append_nil _
  rw [emitted] at room' ⊢
  -- Of the comments only the status tells.
  obtain ⟨same, told, status⟩ : all.world = left.world ∧
      transcript all.emitted = transcript left.emitted ∧ (all.world.session.exit = none → _) :=
    Builtin.run_runScript_filter (fun _ => Interpreter.run_execute_of_isComment limit)
      (filledLines node.content) 0 0 { w.reading node with depth } starts room'
  obtain ⟨value, world, sourced⟩ := Builtin.transcript_run_sourceNamed limit name called file others
    input noHelp found isFile
  rw [sourced] at room ⊢
  rw [scriptLines_eq] at room value world ⊢
  rw [told] at room' ⊢
  obtain ⟨value', world', told'⟩ :=
    Interpreter.transcript_run_map_trim limit _ (w.reading node) depth room room'
  rw [← world] at world'
  refine ⟨by rw [told'], same.trans world', ?_⟩
  have asked : all.world.session.exit = s.world.session.exit := by rw [same, world']
  have ends : p.value = all.world.session.exit.getD all.value := rfl
  rw [ends, asked]
  cases exit : s.world.session.exit with
  | some asked => rfl
  | none =>
    rw [Option.getD_none, status (asked.trans exit), value, value']
    cases filledLines node.content with
    | nil => rfl
    | cons line rest => rfl

/-- A world with one file, `/f`, that holds a text. -/
def holding (text : Bytes) : World where
  session := {}
  system := {
    tree := (∅ : Tree).insert Path.root (.newDirectory Path.root {} 0)
      |>.insert (ascii "/f") (.newFile (ascii "/f") text {} 0)
    volume := { store := .memory ∅ } }
  now := 1

/-- Behind the comment the script ends with 0, `source` with the status of the line before. -/
theorem perform_standardInput_source_comment :
    let text := ascii "false\n  # done\n"
    let node := Inode.newFile (ascii "/f") text {} 0
    let w := holding text
    let i := Interpreter.standard 16
    let s := (Builtin.source.invoke ⟨ascii "source", [ascii "/f"], none, some i.runner⟩).run w
    let p := (perform i node.content .standardInput).run { w.reading node with depth := 0 }
    w.system.tree.stat (w.session.resolve (ascii "/f")) = .ok node
      ∧ transcript s.emitted =
          { transcript p.emitted with
            steps := .trace (.sourcing (ascii "/f")) :: (transcript p.emitted).steps }
      ∧ p.world = { s.world with depth := 0 }
      ∧ p.value = 0 ∧ s.value = 1 := by
  have found : (holding (ascii "false\n  # done\n")).system.tree.stat
      ((holding (ascii "false\n  # done\n")).session.resolve (ascii "/f")) =
        .ok (.newFile (ascii "/f") (ascii "false\n  # done\n") {} 0) := by decide +kernel
  have agree := perform_standardInput_source 16 (ascii "source") (ascii "source") (ascii "/f") []
    none 0 _ _ (by decide) found rfl (.inl rfl) (by decide +kernel) (by decide +kernel)
  exact ⟨found, agree.1, agree.2.1, by decide +kernel, by decide +kernel⟩

/-- The status differs behind a comment at the end and when an earlier stage of a pipeline has asked
the shell to exit. Under a request to exit that is pending before the script starts, `source` runs
the line behind a comment. That the file has been read shows in its time of access. -/
theorem not_perform_standardInput_source :
    let i := Interpreter.standard 16
    let sourced (text : Bytes) (exit : Option Int) :=
      (Builtin.source.invoke ⟨ascii "source", [ascii "/f"], none, some i.runner⟩).run
        { holding text with session := { exit } }
    let scripted (text : Bytes) (exit : Option Int) :=
      (perform i text .standardInput).run { holding text with session := { exit } }
    let comment := ascii "false\n# done\n"
    let pipeline := ascii "exit 3 | true\n"
    let behind := ascii "# go on\necho on\n"
    let access := ascii "stat /f\n"
    (sourced comment none).value = 1 ∧ (scripted comment none).value = 0
      ∧ (sourced pipeline none).value = 0 ∧ (scripted pipeline none).value = 3
      ∧ (transcript (sourced behind (some 0)).emitted).out = ascii "on\n"
      ∧ (transcript (scripted behind (some 0)).emitted).out = []
      ∧ (transcript (sourced access none).emitted).out ≠
          (transcript (scripted access none).emitted).out := by
  decide +kernel

end Program

end VirtualShell
