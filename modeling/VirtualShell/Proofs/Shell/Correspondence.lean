import VirtualShell.Proofs.Shell.Commands
import VirtualShell.Proofs.Shell.Redirecting

/-!
# Two runs side by side

A `Comparison` says under which two controls two runs are compared, which traces are seen, and which
traces excuse the runs from being alike. Two actions correspond (`Comparison.Corresponds`) when from
worlds that differ in the control only, and in it as the comparison says, either one of them is
excused, or both give the same value, show the same and leave worlds that are again so.

* A confined action corresponds to itself (`Confined.corresponds`).
* Each way of putting actions together keeps correspondence, the running of lines in lines too: the
  comparison inside is `Comparison.deeper`.
* So a line corresponds to itself under every comparison (`Interpreter.corresponds_execute`). What a
  run keeps of the control is a comparison of the run with itself (`Comparison.keeping`).
-/

namespace VirtualShell

namespace Control

/-- The control with another request to exit. -/
def exiting (c : Control) (exit : Option Int) : Control := { c with exit }

/-- The control of a line inside. -/
def deeper (c : Control) : Control := { c with depth := c.depth + 1 }

end Control

/-- What two runs are compared up to. -/
@[ext]
structure Comparison where
  /-- The controls that the runs may be under. -/
  related : Control → Control → Prop
  /-- What is seen of a trace, if anything is. -/
  seen : TraceEvent → Option TraceEvent
  /-- The traces behind which nothing is compared. -/
  excuses : TraceEvent → Prop
  isSome_exit : ∀ {c c'}, related c c' → c.exit.isSome = c'.exit.isSome
  asking : ∀ {c c'} (status : Int), related c c' →
    related (c.exiting (some status)) (c'.exiting (some status))
  restoring : ∀ {c c' k k'}, related c c' → related k k' →
    related (k.exiting c.exit) (k'.exiting c'.exit)
  statement : ∀ {c c'}, related c c' → ∀ further text,
    seen (.statement (c.depth + further) text) = seen (.statement (c'.depth + further) text)
  depths : ∀ {c c'}, related c c' → c.depth = c'.depth ∨ ∀ limit, excuses (.nestingLimit limit)

namespace Comparison

variable (K : Comparison)

/-- The comparison inside one more line. -/
def deeper : Comparison where
  related k k' := ∃ c c', K.related c c' ∧ k = c.deeper ∧ k' = c'.deeper
  seen := K.seen
  excuses := K.excuses
  isSome_exit := by
    rintro _ _ ⟨c, c', h, rfl, rfl⟩
    have := K.isSome_exit h
    exact this
  asking := by
    rintro _ _ status ⟨c, c', h, rfl, rfl⟩
    exact ⟨_, _, K.asking status h, rfl, rfl⟩
  restoring := by
    rintro _ _ _ _ ⟨c, c', h, rfl, rfl⟩ ⟨k, k', hk, rfl, rfl⟩
    exact ⟨_, _, K.restoring h hk, rfl, rfl⟩
  statement := by
    rintro _ _ ⟨c, c', h, rfl, rfl⟩ further text
    simpa only [Control.deeper, Nat.add_assoc] using K.statement h (1 + further) text
  depths := by
    rintro _ _ ⟨c, c', h, rfl, rfl⟩
    exact (K.depths h).imp_left fun e => congrArg (· + 1) e

/-- The comparison of a run with itself, of which the control keeps a property. -/
def keeping (P : Control → Prop) (asking : ∀ {c} status, P c → P (c.exiting (some status)))
    (restoring : ∀ {c k}, P c → P k → P (k.exiting c.exit)) : Comparison where
  related c c' := c = c' ∧ P c
  seen := some
  excuses _ := False
  isSome_exit := by
    rintro c _ ⟨rfl, -⟩
    rfl
  asking := by
    rintro c _ status ⟨rfl, h⟩
    exact ⟨rfl, asking status h⟩
  restoring := by
    rintro c _ k _ ⟨rfl, h⟩ ⟨rfl, hk⟩
    exact ⟨rfl, restoring h hk⟩
  statement := by
    rintro c _ ⟨rfl, -⟩ further text
    rfl
  depths := by
    rintro c _ ⟨rfl, -⟩
    exact .inl rfl

/-! ## Worlds, emissions and results -/

/-- The worlds differ in the control only, and in it as the comparison says. -/
def Worlds (w w' : World) : Prop := K.related w.control w'.control ∧ w' = w.under w'.control

def shownOf : Emission → Option Emission
  | .trace event => (K.seen event).map .trace
  | e => some e

/-- What is seen of what is emitted. -/
def shown (emitted : List Emission) : List Emission := emitted.filterMap K.shownOf

/-- Either run is excused by what it emits. -/
def Excused (emitted emitted' : List Emission) : Prop :=
  ∃ event, K.excuses event ∧ .trace event ∈ emitted ++ emitted'

/-- The runs come to the same. -/
structure Results {α : Type} (r r' : ActionResult α) : Prop where
  value : r.value = r'.value
  shown : K.shown r.emitted = K.shown r'.emitted
  worlds : K.Worlds r.world r'.world

/-- From worlds that differ as the comparison says, both come to the same unless one is excused. -/
def Corresponds {α : Type} (a b : ShellAction α) : Prop :=
  ∀ w w', K.Worlds w w' →
    K.Excused (a.run w).emitted (b.run w').emitted ∨ K.Results (a.run w) (b.run w')

variable {K}

theorem Worlds.session {w w' : World} (h : K.Worlds w w') :
    w'.session = w.session.exiting w'.session.exit := congrArg World.session h.2

theorem Worlds.refl {w : World} (h : K.related w.control w.control) : K.Worlds w w := ⟨h, rfl⟩

@[simp] theorem shown_nil : K.shown [] = [] := rfl

theorem shown_of_seen_all (h : ∀ event, K.seen event = some event) (e : List Emission) :
    K.shown e = e := by
  refine (congrArg (List.filterMap · e) (funext fun x => ?_)).trans List.filterMap_some
  cases x with
  | trace event => exact congrArg (Option.map Emission.trace) (h event)
  | _ => rfl

@[simp] theorem shown_append (e e' : List Emission) : K.shown (e ++ e') = K.shown e ++ K.shown e' :=
  List.filterMap_append

theorem Excused.append {e₁ e₁' : List Emission} (e₂ e₂' : List Emission) (h : K.Excused e₁ e₁') :
    K.Excused (e₁ ++ e₂) (e₁' ++ e₂') := by
  obtain ⟨event, excuses, mem⟩ := h
  refine ⟨event, excuses, ?_⟩
  simp only [List.mem_append] at mem ⊢
  exact mem.imp .inl .inl

theorem Excused.prepend {e₂ e₂' : List Emission} (e₁ e₁' : List Emission) (h : K.Excused e₂ e₂') :
    K.Excused (e₁ ++ e₂) (e₁' ++ e₂') := by
  obtain ⟨event, excuses, mem⟩ := h
  refine ⟨event, excuses, ?_⟩
  simp only [List.mem_append] at mem ⊢
  exact mem.imp .inr .inr

theorem Excused.filter {e e' : List Emission} {p : Emission → Bool} (h : K.Excused e e')
    (traces : ∀ event, p (.trace event) = true) : K.Excused (e.filter p) (e'.filter p) := by
  obtain ⟨event, excuses, mem⟩ := h
  refine ⟨event, excuses, ?_⟩
  rw [← List.filter_append]
  exact List.mem_filter.2 ⟨mem, traces event⟩

theorem shown_filter {p : Emission → Bool} (traces : ∀ event, p (.trace event) = true)
    (e : List Emission) : K.shown (e.filter p) = (K.shown e).filter p := by
  simp only [shown, List.filterMap_filter, List.filter_filterMap]
  refine congrArg (List.filterMap · e) (funext fun x => ?_)
  cases x with
  | trace event => cases h : K.seen event <;> simp [shownOf, Option.filter, traces, h]
  | _ => simp [shownOf, Option.filter]

/-- What is collected of texts does not depend on the traces that are seen. -/
theorem flatMap_eq_of_shown_eq {f : Emission → Bytes} {e e' : List Emission}
    (h : K.shown e = K.shown e') (traces : ∀ event, f (.trace event) = []) :
    e.flatMap f = e'.flatMap f := by
  have forget (e : List Emission) : (K.shown e).flatMap f = e.flatMap f := by
    induction e with
    | nil => rfl
    | cons x rest ih =>
      rw [shown] at ih ⊢
      rw [List.filterMap_cons]
      cases x with
      | trace event => cases h : K.seen event <;> simpa [shownOf, traces, h] using ih
      | _ => simpa [shownOf] using ih
  rw [← forget e, ← forget e', h]

end Comparison

open ShellAction

/-- A confined action corresponds to itself. -/
theorem ShellAction.Confined.corresponds {K : Comparison} {α : Type} {a : ShellAction α}
    (h : Confined a) : K.Corresponds a a := by
  intro w w' worlds
  have same := h.oblivious w w'.control
  rw [← worlds.2] at same
  rw [same]
  refine .inr ⟨rfl, rfl, ?_, rfl⟩
  change K.related (a.run w).world.control w'.control
  rw [h.oblivious.control_run]
  exact worlds.1

namespace Comparison

variable {K : Comparison}

/-! ## Putting actions together -/

namespace Corresponds

variable {α β : Type} {a b : ShellAction α} {f g : α → ShellAction β}

theorem bind (h : K.Corresponds a b) (hf : ∀ v, K.Corresponds (f v) (g v)) :
    K.Corresponds (a >>= f) (b >>= g) := by
  intro w w' worlds
  simp only [run_bind]
  rcases h w w' worlds with excused | first
  · exact .inl (excused.append _ _)
  · have second := hf (a.run w).value (a.run w).world (b.run w').world first.worlds
    rw [← first.value]
    refine second.imp (·.prepend _ _) fun r => ⟨r.value, ?_, r.worlds⟩
    rw [shown_append, shown_append, first.shown, r.shown]

theorem ite {p : Prop} [Decidable p] {a' b' : ShellAction α} (h : K.Corresponds a b)
    (h' : K.Corresponds a' b') : K.Corresponds (if p then a else a') (if p then b else b') := by
  split
  · exact h
  · exact h'

/-- Reading the session, to go on with the same for requests to exit that the comparison relates. -/
theorem bind_session {f g : Session → ShellAction β}
    (h : ∀ (s : Session) (e e' : Option Int), e.isSome = e'.isSome →
      K.Corresponds (f (s.exiting e)) (g (s.exiting e'))) :
    K.Corresponds (session >>= f) (session >>= g) := by
  intro w w' worlds
  rw [run_session_bind, run_session_bind, worlds.session]
  exact h w.session w.session.exit w'.session.exit (K.isSome_exit worlds.1) w w' worlds

/-- Going on with one of two, as there is a request to exit or not. -/
theorem bind_pending {a a' b b' : ShellAction β} (h : K.Corresponds a b)
    (h' : K.Corresponds a' b') :
    K.Corresponds (do if (← session).exit.isSome then a else a')
      (do if (← session).exit.isSome then b else b') :=
  bind_session fun s e e' same => by
    rw [Session.exit_exiting, Session.exit_exiting, same]
    exact h.ite h'

/-- Saying which statement is run, to go on behind that. -/
theorem statement (text : Bytes) (h : K.Corresponds a b) :
    K.Corresponds (do trace [.statement (← world).depth text]; a)
      (do trace [.statement (← world).depth text]; b) := by
  have said : K.Corresponds (do trace [.statement (← world).depth text])
      (do trace [.statement (← world).depth text]) := by
    intro w w' worlds
    refine .inr ⟨rfl, ?_, worlds⟩
    exact congrArg (fun seen => (seen.map Emission.trace).toList) (K.statement worlds.1 0 text)
  simpa only [bind_assoc] using said.bind fun _ => h

theorem divert {a b : ShellAction Int} (output errors : Bool) (h : K.Corresponds a b) :
    K.Corresponds (a.divert output errors) (b.divert output errors) := by
  intro w w' worlds
  refine (h w w' worlds).imp (·.filter fun _ => by simp [Emission.isOut, Emission.isErr])
    fun r => ⟨?_, ?_, r.worlds⟩
  · have out := flatMap_eq_of_shown_eq r.shown (f := Emission.outText) fun _ => rfl
    have err := flatMap_eq_of_shown_eq r.shown (f := Emission.errText) fun _ => rfl
    simp only [run_divert, out, err, r.value]
  · rw [run_divert, run_divert, shown_filter, shown_filter, r.shown]
    all_goals simp [Emission.isOut, Emission.isErr]

theorem capture {a b : ShellAction Int} (h : K.Corresponds a b) :
    K.Corresponds a.capture b.capture := h.divert true true

theorem keepingExit (h : K.Corresponds a b) : K.Corresponds (keepingExit a) (keepingExit b) := by
  intro w w' worlds
  rw [run_keepingExit, run_keepingExit]
  refine (h w w' worlds).imp id fun r => ⟨r.value, r.shown, ?_, ?_⟩
  · exact K.restoring worlds.1 r.worlds.1
  · dsimp only
    rw [r.worlds.2]
    rfl

end Corresponds

/-- What lets commands run lines does so alike. -/
structure Runners (K : Comparison) (r r' : LineRunner) : Prop where
  run : ∀ line, K.Corresponds (r.run line) (r'.run line)
  runApart : ∀ line, K.Corresponds (r.runApart line) (r'.runApart line)
  commands : r.commands = r'.commands

end Comparison

/-! ## Commands -/

namespace Builtin

/-- The command does the same in two runs whose lines inside do. -/
def Respects (b : Builtin) : Prop := ∀ (K : Comparison) (c : Call) (r r' : LineRunner),
  K.Runners r r' → K.Corresponds (b.answer (c.carrying (some r))) (b.answer (c.carrying (some r')))

theorem Plain.respects {b : Builtin} (h : b.Plain) : b.Respects := fun _ c r r' runners => by
  rw [h.answer_carrying c r r' runners.commands]
  exact (h.confined _).corresponds

theorem corresponds_requestExit {K : Comparison} (status : Int) :
    K.Corresponds (requestExit status) (requestExit status) := by
  intro w w' worlds
  refine .inr ⟨rfl, rfl, K.asking status worlds.1, ?_⟩
  rw [worlds.2]
  rfl

theorem respects_exit : exit.Respects := by
  intro K c r r' _
  change K.Corresponds (exit.answer c) (exit.answer c)
  unfold exit
  dsimp only
  split
  · exact .bind_session fun _ _ _ _ => corresponds_requestExit _
  · split
    · exact corresponds_requestExit _
    · exact (c.confined_complain _ _ _).corresponds.bind fun _ => corresponds_requestExit _
  · exact (c.confined_refuse _ _ _).corresponds

section

variable {K : Comparison}

theorem corresponds_passOn {execute execute' : Bytes → ShellAction Captured}
    (h : ∀ line, K.Corresponds (execute line) (execute' line)) (line : Bytes) :
    K.Corresponds (passOn execute line) (passOn execute' line) :=
  (h line).bind fun c => (Confined.release c).corresponds

theorem corresponds_runScript {execute execute' : Bytes → ShellAction Int}
    (h : ∀ line, K.Corresponds (execute line) (execute' line)) (status : Int)
    (lines : List Bytes) :
    K.Corresponds (runScript execute status lines) (runScript execute' status lines) := by
  induction lines generalizing status with
  | nil => exact (Confined.pure _).corresponds
  | cons line rest ih =>
    exact (h line).bind fun _ => .bind_pending (Confined.pure _).corresponds (ih _)

theorem corresponds_runAll {execute execute' : Bytes → ShellAction Int}
    (h : ∀ line, K.Corresponds (execute line) (execute' line)) (status : Int)
    (lines : List Bytes) :
    K.Corresponds (runAll execute status lines) (runAll execute' status lines) := by
  induction lines generalizing status with
  | nil => exact (Confined.pure _).corresponds
  | cons line rest ih => exact (h line).bind fun _ => ih _

end

theorem respects_sourceNamed (name : Bytes) : (sourceNamed name).Respects := by
  intro K c r r' runners
  unfold sourceNamed
  simp only [Call.carrying]
  cases c.arguments with
  | nil => exact (c.confined_refuse _ _ _).corresponds
  | cons file _ =>
    refine (Confined.readPath _).corresponds.bind fun outcome => ?_
    cases outcome with
    | error fault =>
      exact ((Confined.reportFault _ _).bind fun _ => .pure _).corresponds
    | ok text =>
      exact (Confined.trace _).corresponds.bind fun _ =>
        corresponds_runScript (corresponds_passOn runners.run) _ _

theorem respects_xargs : xargs.Respects := by
  intro K c r r' runners
  unfold xargs
  simp only [Call.carrying]
  cases XargsOptions.read {} c.arguments with
  | error e => exact (c.confined_refuse _ _ _).corresponds
  | ok o =>
    cases c.input with
    | none => exact (c.confined_refuse _ _ _).corresponds
    | some text => exact corresponds_runAll (corresponds_passOn runners.runApart) _ _

/-- Every command of the shell does the same in two runs whose lines inside do. -/
theorem respects_of_mem_all {b : Builtin} (h : b ∈ all) : b.Respects := by
  rcases plain_or_of_mem_all b h with plain | rfl | rfl | rfl | rfl
  · exact plain.respects
  · exact respects_exit
  · exact respects_sourceNamed _
  · exact respects_sourceNamed _
  · exact respects_xargs

theorem Respects.invoke {b : Builtin} (h : b.Respects) {K : Comparison} (c : Call)
    {r r' : LineRunner} (runners : K.Runners r r') :
    K.Corresponds (b.invoke (c.carrying (some r))) (b.invoke (c.carrying (some r'))) :=
  .ite ((Confined.out _).bind fun _ => .pure _).corresponds (h K c r r' runners)

end Builtin

/-! ## Segments -/

namespace Interpreter

theorem confined_traceOpenQuotes (quotes : List LexState) : Confined (traceOpenQuotes quotes) :=
  .trace _

theorem confined_assignLeading (words : List Bytes) : Confined (assignLeading words) := by
  induction words with
  | nil => exact .pure _
  | cons word rest ih =>
    unfold assignLeading
    split
    · exact (Confined.modifySession fun _ _ => rfl).bind fun _ => ih
    · exact .pure _

theorem confined_expandAlias (words : List Bytes) : Confined (expandAlias words) := by
  unfold expandAlias
  split
  · exact .pure _
  · refine .bind_session (by simp) fun s => ?_
    split
    · exact .pure _
    · exact (confined_traceOpenQuotes _).bind fun _ => .pure _

theorem confined_argumentsOf (text : Bytes) : Confined (argumentsOf text) :=
  (confined_traceOpenQuotes _).bind fun _ => .bind_world (by simp) fun _ => .pure _

theorem confined_readRedirects (input : Option Bytes) (redirects : List Redirect) :
    Confined (readRedirects input redirects) := by
  induction redirects generalizing input with
  | nil => exact .pure _
  | cons r rest ih =>
    unfold readRedirects
    refine .ite ((Confined.readPath _).bind fun outcome => ?_) (ih _)
    cases outcome with
    | ok content => exact ih _
    | error fault => exact .pure _

theorem confined_createTargets (redirects : List Redirect) :
    Confined (createTargets redirects) := by
  induction redirects with
  | nil => exact .pure _
  | cons r rest ih =>
    unfold createTargets
    refine (Confined.writePath _ _ _).bind fun outcome => ?_
    cases outcome with
    | ok _ => exact ih
    | error fault => exact .pure _

theorem confined_opening (redirects : List Redirect) (input : Option Bytes) :
    Confined (opening redirects input) := by
  refine (confined_readRedirects _ _).bind fun outcome => ?_
  cases outcome with
  | error fault => exact .pure _
  | ok input =>
    refine (confined_createTargets _).bind fun outcome => ?_
    cases outcome with
    | error fault => exact .pure _
    | ok _ => exact .pure _

theorem confined_store (data : Bytes) (target : Option Redirect) :
    Confined (store data target) := by
  cases target with
  | none => exact .pure _
  | some r => exact .writePath _ _ _

theorem confined_flushTo (target : Option Redirect) (data : Bytes) (status : Int) :
    Confined (flushTo target data status) := by
  rw [flushTo_eq]
  exact (confined_store _ _).bind fun _ => (Confined.check _ _).bind fun _ =>
    .ite (.pure _) (.pure _)

variable {K : Comparison}

theorem corresponds_redirecting (redirects : List Redirect) (input : Option Bytes)
    {body body' : Option Bytes → ShellAction Int}
    (h : ∀ input, K.Corresponds (body input) (body' input)) :
    K.Corresponds (redirecting redirects input body) (redirecting redirects input body') := by
  rw [redirecting_eq, redirecting_eq]
  refine (confined_opening _ _).corresponds.bind fun outcome => ?_
  cases outcome with
  | error fault => exact ((Confined.reportFault _ _).bind fun _ => .pure _).corresponds
  | ok input =>
    exact ((h input).divert _ _).bind fun _ => (confined_flushTo _ _ _).corresponds.bind fun _ =>
      (confined_flushTo _ _ _).corresponds

theorem corresponds_runSubstitutions {run run' : Bytes → ShellAction Captured}
    {unclosed : SubstitutionForm → ShellAction Unit}
    (h : ∀ line, K.Corresponds (run line) (run' line)) (hu : ∀ form, Confined (unclosed form))
    (parts : List TextPart) :
    K.Corresponds (runSubstitutions run unclosed parts) (runSubstitutions run' unclosed parts) := by
  induction parts with
  | nil => exact (Confined.pure _).corresponds
  | cons part rest ih =>
    cases part with
    | literal text => exact ih.bind fun _ => (Confined.pure _).corresponds
    | unclosed form text =>
      exact (hu form).corresponds.bind fun _ => ih.bind fun _ => (Confined.pure _).corresponds
    | substitution form command inDoubleQuotes =>
      exact (h command).bind fun _ => ih.bind fun _ => (Confined.pure _).corresponds

section

variable {r r' : LineRunner}

theorem corresponds_substitute (runners : K.Runners r r') (segment : Bytes) :
    K.Corresponds (substitute r segment) (substitute r' segment) := by
  refine (corresponds_runSubstitutions runners.runApart (fun form => ?_) _).bind fun substituted =>
    (Confined.ite ((Confined.err _).bind fun _ => .pure _) (.pure _)).corresponds
  cases form with
  | paren => exact .trace _
  | backtick => exact .pure _

theorem corresponds_runWords {commands : Registry Builtin}
    (respects : ∀ name b, commands.find? name = some b → b.Respects) (runners : K.Runners r r')
    (words : List Bytes) (input : Option Bytes) :
    K.Corresponds (runWords commands r words input) (runWords commands r' words input) := by
  refine (confined_assignLeading _).corresponds.bind fun words =>
    (confined_expandAlias _).corresponds.bind fun words => ?_
  cases words with
  | nil => exact (Confined.pure _).corresponds
  | cons name arguments =>
    dsimp only
    cases h : commands.find? name with
    | none => exact ((Confined.report _).bind fun _ => .pure _).corresponds
    | some b => exact (respects name b h).invoke ⟨name, arguments, input, none⟩ runners

variable {call call' : List Bytes → Option Bytes → ShellAction Int}
  (calls : ∀ words input, K.Corresponds (call words input) (call' words input))
include calls

theorem corresponds_runSegment (runners : K.Runners r r') (segment : Bytes)
    (input : Option Bytes) :
    K.Corresponds (runSegment call r segment input) (runSegment call' r' segment input) := by
  refine (corresponds_substitute runners segment).bind fun text =>
    (confined_traceOpenQuotes _).corresponds.bind fun _ => ?_
  cases Command.read text with
  | error e => exact ((Confined.report _).bind fun _ => .pure _).corresponds
  | ok command =>
    exact corresponds_redirecting _ _ fun input =>
      (confined_argumentsOf _).corresponds.bind fun words => calls words input

end

/-! ## Lines -/

section

variable {runStage runStage' : Bytes → Option Bytes → ShellAction Int}

theorem corresponds_runPipeline
    (h : ∀ stage input, K.Corresponds (runStage stage input) (runStage' stage input))
    (stages : List Bytes) (input : Option Bytes) :
    K.Corresponds (runPipeline runStage stages input) (runPipeline runStage' stages input) := by
  induction stages generalizing input with
  | nil => exact (Confined.pure _).corresponds
  | cons stage rest ih =>
    cases rest with
    | nil => exact h stage input
    | cons next rest => exact ((h stage input).divert _ _).bind fun _ => ih _

variable {run run' : Bytes → ShellAction Int} (h : ∀ text, K.Corresponds (run text) (run' text))
include h

theorem corresponds_runParts (behind : Option Connective) (status : Int)
    (parts : List LogicPart) :
    K.Corresponds (runParts run behind status parts) (runParts run' behind status parts) := by
  induction parts generalizing behind status with
  | nil => exact (Confined.pure _).corresponds
  | cons part rest ih =>
    unfold runParts
    split
    · exact (Confined.trace _).corresponds.bind fun _ => ih _ _
    · exact (h _).bind fun _ => .bind_pending (Confined.pure _).corresponds (ih _ _)

theorem corresponds_runStatements (status : Int) (statements : List Bytes) :
    K.Corresponds (runStatements run status statements) (runStatements run' status statements) := by
  induction statements generalizing status with
  | nil => exact (Confined.pure _).corresponds
  | cons statement rest ih =>
    unfold runStatements
    refine .ite (ih _) ?_
    refine .statement statement ((h statement).bind fun _ => ?_)
    refine (Confined.modifySession fun _ _ => rfl).corresponds.bind fun _ => ?_
    exact .bind_pending (Confined.pure _).corresponds (ih _)

end

theorem Session.referred_exiting (s : Session) (e : Option Int) :
    (s.exiting e).referred = s.referred := by
  funext reference
  cases reference <;> rfl

section

variable {call call' : List Bytes → Option Bytes → ShellAction Int} {r r' : LineRunner}
  (calls : ∀ words input, K.Corresponds (call words input) (call' words input))
  (runners : K.Runners r r')
include calls runners

/-- The statements of a line correspond to themselves when what they run does. -/
theorem corresponds_lineStatements (texts : List Bytes) (input : Option Bytes) :
    let runPart (call : List Bytes → Option Bytes → ShellAction Int) (runner : LineRunner)
      (part : Bytes) := runPipeline (runSegment call runner) (segments part) input
    K.Corresponds
      (runStatements (fun statement => runParts (runPart call r) none 0 (logicParts statement)) 0
        texts)
      (runStatements (fun statement => runParts (runPart call' r') none 0 (logicParts statement)) 0
        texts) :=
  corresponds_runStatements (fun _ => corresponds_runParts (fun part =>
    corresponds_runPipeline (corresponds_runSegment calls runners) (segments part) input) none 0 _)
    0 texts

theorem corresponds_runBody (line : Bytes) (input : Option Bytes) :
    K.Corresponds (runBody call r line input) (runBody call' r' line input) := by
  refine .ite (Confined.pure _).corresponds (.bind_session fun s e e' _ => ?_)
  rw [Session.referred_exiting, Session.referred_exiting]
  have lines := corresponds_lineStatements calls runners
    (statements (expandVariables s.referred line)) input
  exact .ite ((Confined.trace _).corresponds.bind fun _ => lines) lines

end

theorem corresponds_nested {α : Type} {a b : ShellAction α} (h : K.deeper.Corresponds a b) :
    K.Corresponds (nested a) (nested b) := by
  intro w w' worlds
  have entered := congrArg (fun u : World => { u with depth := w'.depth + 1 }) worlds.2
  have inside := h { w with depth := w.depth + 1 } { w' with depth := w'.depth + 1 }
    ⟨⟨_, _, worlds.1, rfl, rfl⟩, entered⟩
  rw [run_nested, run_nested]
  refine inside.imp id fun r => ⟨r.value, r.shown, ?_, ?_⟩
  · obtain ⟨k, k', related, e, e'⟩ := r.worlds.1
    have left (c c' : Control) (same : c = c'.deeper) : { c with depth := c.depth - 1 } = c' := by
      rw [same]
      rfl
    rw [← left _ _ e, ← left _ _ e'] at related
    exact related
  · exact congrArg (fun u : World =>
      { u with depth := (b.run { w' with depth := w'.depth + 1 }).world.depth - 1 }) r.worlds.2

theorem run_guarding_of_limit_le (i : Interpreter) {w : World} (h : i.limit ≤ w.depth)
    (body : ShellAction Int) : (i.guarding body).run w = i.refuseNesting.run w := by
  rw [guarding, run_world_bind, if_pos h]

/-- What is refused says that the lines are nested too deep. -/
theorem nestingLimit_mem_refuseNesting (i : Interpreter) (w : World) :
    .trace (.nestingLimit i.limit) ∈ (i.refuseNesting.run w).emitted := .head _

theorem confined_refuseNesting (i : Interpreter) : Confined i.refuseNesting :=
  (Confined.trace _).bind fun _ => (Confined.err _).bind fun _ => .pure _

theorem corresponds_guarding (i : Interpreter) {body body' : ShellAction Int}
    (h : K.deeper.Corresponds body body') :
    K.Corresponds (i.guarding body) (i.guarding body') := by
  have inside : K.Corresponds (nested do
        let status ← body
        trace [.finished .runningLine]
        return status)
      (nested do
        let status ← body'
        trace [.finished .runningLine]
        return status) :=
    corresponds_nested (h.bind fun _ => ((Confined.trace _).bind fun _ => .pure _).corresponds)
  intro w w' worlds
  rcases K.depths worlds.1 with same | excuses
  · change w.depth = w'.depth at same
    rw [guarding, guarding, run_world_bind, run_world_bind, same]
    exact i.confined_refuseNesting.corresponds.ite inside w w' worlds
  · by_cases deep : i.limit ≤ w.depth
    · rw [run_guarding_of_limit_le i deep]
      exact .inl ⟨_, excuses _, List.mem_append_left _ (i.nestingLimit_mem_refuseNesting w)⟩
    · by_cases deep' : i.limit ≤ w'.depth
      · rw [run_guarding_of_limit_le i deep']
        exact .inl ⟨_, excuses _, List.mem_append_right _ (i.nestingLimit_mem_refuseNesting w')⟩
      · rw [guarding, guarding, run_world_bind, run_world_bind, if_neg deep, if_neg deep']
        exact inside w w' worlds

theorem runners_runnerOf (commands : Registry Builtin) {execute execute' : Bytes → ShellAction Int}
    (h : ∀ line, K.Corresponds (execute line) (execute' line)) :
    K.Runners (runnerOf commands execute) (runnerOf commands execute') where
  run line := (h line).capture
  runApart line := (h line).capture.keepingExit
  commands := rfl

/-- A line corresponds to itself, so many levels deep, when what is on the lines below does. -/
theorem corresponds_runLevels (i : Interpreter)
    (respects : ∀ name b, i.commands.find? name = some b → b.Respects)
    {beyond : Bytes → Option Bytes → ShellAction Int}
    (h : ∀ K : Comparison, ∀ line input, K.Corresponds (beyond line input) (beyond line input))
    (levels : Nat) (K : Comparison) (line : Bytes) (input : Option Bytes) :
    K.Corresponds (i.runLevels beyond levels line input)
      (i.runLevels beyond levels line input) := by
  induction levels generalizing K line input with
  | zero => exact corresponds_guarding i (h _ line input)
  | succ levels ih =>
    have runners := runners_runnerOf i.commands fun line => ih K.deeper line none
    exact corresponds_guarding i (corresponds_runBody
      (fun words input => corresponds_runWords respects runners words input) runners line input)

/-- The shell with its commands, so many lines deep. -/
def standard (limit : Int) : Interpreter := ⟨Builtin.standard, limit⟩

theorem respects_standard (limit : Int) (name : Bytes) (b : Builtin)
    (h : (standard limit).commands.find? name = some b) : b.Respects :=
  Builtin.respects_of_mem_all (Builtin.find?_standard_eq_some_iff.1 h).1

/-- A line corresponds to itself under every comparison. -/
theorem corresponds_execute (limit : Int) (line : Bytes) (input : Option Bytes) :
    K.Corresponds ((standard limit).execute line input) ((standard limit).execute line input) :=
  corresponds_runLevels _ (respects_standard limit)
    (fun _ _ _ => (Confined.pure _).corresponds) _ K line input

theorem runners_runner (limit : Int) :
    K.Runners (standard limit).runner (standard limit).runner :=
  runners_runnerOf _ fun line => corresponds_execute limit line none

end Interpreter

end VirtualShell
