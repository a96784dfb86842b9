import VirtualShell.Builtin.Standard
import VirtualShell.Proofs.Lexing.Splitting
import VirtualShell.Shell.Interpreter

/-!
# Logic chains

The parts of a chain are run in one pass from left to right, each told only the operator before it
and the last status there was. What is run is what the chain, grouped from the left, evaluates to,
an operand being passed over where the one before it decides (`Interpreter.runParts_text`).

* `LogicTree.evaluate`: commands joined two by two, evaluated with short circuits; the runs are kept
  in order.
* `LogicTree.ran_evaluate`: the runs of an evaluation, one behind the other.
* `Interpreter.leads_groupBehind`: the pass over the rest of a chain goes on from the evaluation of
  what stands before it.
-/

namespace VirtualShell

/-! ## Evaluation -/

/-- Commands joined two by two. -/
inductive LogicTree
  | command (text : Bytes)
  /-- The second counts if the first succeeds. -/
  | both (first second : LogicTree)
  /-- The second counts if the first fails. -/
  | either (first second : LogicTree)

/-- One run of a command: where it started, what it came to. -/
structure CommandRun where
  command : Bytes
  before : World
  result : ActionResult Int

/-- What evaluating comes to: the runs of commands on the way, in order, and where they lead. -/
structure Evaluation where
  runs : List CommandRun
  status : Int
  world : World

namespace Evaluation

/-- One evaluation and then another. -/
def followedBy (e e' : Evaluation) : Evaluation := { e' with runs := e.runs ++ e'.runs }

/-- The runs are one behind the other from a world on, and the last tells what they come to. -/
structure Ran (run : Bytes → ShellAction Int) (w : World) (e : Evaluation) : Prop where
  result : ∀ r ∈ e.runs, r.result = (run r.command).run r.before
  first : ∀ r ∈ e.runs.head?, r.before = w
  next : e.runs.IsChain fun r s => s.before = r.result.world
  last : ∃ r, e.runs.getLast? = some r ∧ e.status = r.result.value ∧ e.world = r.result.world

theorem Ran.followedBy {run : Bytes → ShellAction Int} {w : World} {e e' : Evaluation}
    (h : e.Ran run w) (h' : e'.Ran run e.world) : (e.followedBy e').Ran run w := by
  obtain ⟨r, last, -, world⟩ := h.last
  obtain ⟨r', last', ends⟩ := h'.last
  refine ⟨List.forall_mem_append.2 ⟨h.result, h'.result⟩, fun s first => ?_, ?_, r', ?_, ends⟩
  · refine h.first s ?_
    rw [Evaluation.followedBy, List.head?_append] at first
    cases runs : e.runs with
    | nil => simp [runs] at last
    | cons => rwa [runs] at first
  · refine List.isChain_append.2 ⟨h.next, h'.next, fun s mem s' mem' => ?_⟩
    obtain rfl : r = s := Option.some.inj (last.symm.trans mem)
    rw [h'.first s' mem', world]
  · rw [Evaluation.followedBy, List.getLast?_append, last']
    rfl

end Evaluation

namespace LogicTree

/-- The commands of the tree from left to right. -/
def commands : LogicTree → List Bytes
  | command text => [text]
  | both first second | either first second => first.commands ++ second.commands

section

variable (run : Bytes → ShellAction Int)

/-- Evaluates the tree in a world. A status of 0 is success; the second operand is passed over where
the first decides, and what the first comes to is what both do. -/
def evaluate : LogicTree → World → Evaluation
  | command text, w =>
    let r := (run text).run w
    ⟨[⟨text, w, r⟩], r.value, r.world⟩
  | both first second, w =>
    let e := first.evaluate w
    if e.status = 0 then e.followedBy (second.evaluate e.world) else e
  | either first second, w =>
    let e := first.evaluate w
    if e.status = 0 then e else e.followedBy (second.evaluate e.world)

theorem ran_evaluate (tree : LogicTree) (w : World) : (tree.evaluate run w).Ran run w := by
  induction tree generalizing w with
  | command text =>
    exact ⟨List.forall_mem_singleton.2 rfl, fun r first => by cases first; rfl, .singleton _,
      _, rfl, rfl, rfl⟩
  | both first second ih ih' =>
    rw [evaluate]
    split
    · exact (ih w).followedBy (ih' _)
    · exact ih w
  | either first second ih ih' =>
    rw [evaluate]
    split
    · exact ih w
    · exact (ih w).followedBy (ih' _)

/-- The commands that are run are some of those there are, in order, each once. -/
theorem runs_evaluate_sublist (tree : LogicTree) (w : World) :
    ((tree.evaluate run w).runs.map CommandRun.command).Sublist tree.commands := by
  have followed {e e' : Evaluation} {commands commands' : List Bytes}
      (h : (e.runs.map CommandRun.command).Sublist commands)
      (h' : (e'.runs.map CommandRun.command).Sublist commands') :
      ((e.followedBy e').runs.map CommandRun.command).Sublist (commands ++ commands') := by
    rw [Evaluation.followedBy, List.map_append]
    exact h.append h'
  induction tree generalizing w with
  | command text => exact .refl _
  | both first second ih ih' =>
    rw [evaluate]
    split
    · exact followed (ih w) (ih' _)
    · exact (ih w).trans (List.sublist_append_left _ _)
  | either first second ih ih' =>
    rw [evaluate]
    split
    · exact (ih w).trans (List.sublist_append_left _ _)
    · exact followed (ih w) (ih' _)

end

end LogicTree

/-! ## Grouping -/

/-- Two trees joined by the operator. -/
def Connective.join : Connective → LogicTree → LogicTree → LogicTree
  | both => .both
  | either => .either

namespace LogicChain

/-- The rest of a chain behind what has been grouped of it. -/
def groupBehind (before : LogicTree) (op : Connective) : LogicChain → LogicTree
  | last command => op.join before (.command command)
  | joined command joint rest =>
    rest.groupBehind (op.join before (.command command)) joint.operator

/-- The chain grouped from the left, `((c₀ op c₁) op c₂) …`. -/
def grouped : LogicChain → LogicTree
  | last command => .command command
  | joined command joint rest => rest.groupBehind (.command command) joint.operator

theorem commands_groupBehind (chain : LogicChain) (before : LogicTree) (op : Connective) :
    (chain.groupBehind before op).commands = before.commands ++ chain.commands := by
  have join (tree : LogicTree) (op : Connective) (command : Bytes) :
      (op.join tree (.command command)).commands = tree.commands ++ [command] := by
    cases op <;> rfl
  induction chain generalizing before op with
  | last command => exact join before op command
  | joined command joint rest ih => rw [groupBehind, ih, join, List.append_assoc]; rfl

theorem commands_grouped (chain : LogicChain) : chain.grouped.commands = chain.commands := by
  cases chain with
  | last command => rfl
  | joined command joint rest => exact commands_groupBehind rest _ _

end LogicChain

section

variable (run : Bytes → ShellAction Int)

/-- One more command behind a tree: it is passed over, or run where the tree leads. -/
theorem Connective.evaluate_join (op : Connective) (before : LogicTree) (command : Bytes)
    (w : World) :
    (op.join before (.command command)).evaluate run w =
      let e := before.evaluate run w
      if op.skips e.status then e
      else e.followedBy ((LogicTree.command command).evaluate run e.world) := by
  cases op with
  | both =>
    rw [join, LogicTree.evaluate]
    dsimp only [skips]
    split <;> simp_all
  | either =>
    rw [join, LogicTree.evaluate]
    dsimp only [skips]
    split <;> simp_all

/-- What has been run stays run. -/
theorem LogicChain.prefix_groupBehind (chain : LogicChain) (before : LogicTree) (op : Connective)
    (w : World) :
    (before.evaluate run w).runs <+: ((chain.groupBehind before op).evaluate run w).runs := by
  have join (before : LogicTree) (op : Connective) (command : Bytes) :
      (before.evaluate run w).runs <+:
        ((op.join before (.command command)).evaluate run w).runs := by
    rw [Connective.evaluate_join]
    dsimp only
    split
    · exact List.prefix_rfl
    · exact List.prefix_append _ _
  induction chain generalizing before op with
  | last command => exact join before op command
  | joined command joint rest ih => exact (join before op command).trans (ih _ _)

end

/-! ## The pass over a chain -/

namespace Emission

/-- It says that a part has been passed over. -/
def isPassingOver : Emission → Bool
  | trace (.partSkipped ..) => true
  | _ => false

end Emission

namespace ActionResult

/-- All that was emitted but what was said of parts passed over. -/
def effects {α : Type} (r : ActionResult α) : List Emission :=
  r.emitted.filter (!·.isPassingOver)

end ActionResult

/-- All that the runs have emitted, one behind the other. -/
def Evaluation.effects (e : Evaluation) : List Emission := e.runs.flatMap (·.result.effects)

theorem Evaluation.effects_followedBy (e e' : Evaluation) :
    (e.followedBy e').effects = e.effects ++ e'.effects := List.flatMap_append

/-- An action that goes on from an evaluation comes to what another evaluation does. -/
structure Evaluation.Leads (e : Evaluation) (a : ShellAction Int) (e' : Evaluation) : Prop where
  value : (a.run e.world).value = e'.status
  world : (a.run e.world).world = e'.world
  effects : e.effects ++ (a.run e.world).effects = e'.effects

namespace Interpreter

open ShellAction

section

variable {run : Bytes → ShellAction Int} {e : Evaluation} {op : Connective} {part : LogicPart}
  {rest : List LogicPart} {e' : Evaluation}

/-- A part that is passed over leaves the pass where it is. -/
theorem leads_of_skips (skips : op.skips e.status = true)
    (h : e.Leads (runParts run part.operator e.status rest) e') :
    e.Leads (runParts run (some op) e.status (part :: rest)) e' := by
  have pass : (runParts run (some op) e.status (part :: rest)).run e.world =
      { (runParts run part.operator e.status rest).run e.world with
        emitted := .trace (.partSkipped part.command op e.status) ::
          ((runParts run part.operator e.status rest).run e.world).emitted } := by
    rw [runParts, Option.filter_some, skips]
    rfl
  refine ⟨?_, ?_, ?_⟩
  · rw [pass]
    exact h.value
  · rw [pass]
    exact h.world
  · rw [pass, ← h.effects]
    rfl

/-- A part that is run without asking to exit takes the pass to where it leads. -/
theorem leads_of_run {behind : Option Connective}
    (goes : behind.filter (·.skips e.status) = none)
    (stays : ((run part.command).run e.world).world.session.exit = none)
    (h : (e.followedBy ((LogicTree.command part.command).evaluate run e.world)).Leads
      (runParts run part.operator ((run part.command).run e.world).value rest) e') :
    e.Leads (runParts run behind e.status (part :: rest)) e' := by
  have pass : (runParts run behind e.status (part :: rest)).run e.world =
      { (runParts run part.operator ((run part.command).run e.world).value rest).run
          ((run part.command).run e.world).world with
        emitted := ((run part.command).run e.world).emitted ++
          ((runParts run part.operator ((run part.command).run e.world).value rest).run
            ((run part.command).run e.world).world).emitted } := by
    rw [runParts, goes]
    dsimp only
    rw [run_bind, run_session_bind, stays]
    rfl
  refine ⟨?_, ?_, ?_⟩
  · rw [pass]
    exact h.value
  · rw [pass]
    exact h.world
  · rw [pass, ← h.effects, Evaluation.effects_followedBy]
    simp [ActionResult.effects, Evaluation.effects, LogicTree.evaluate, Evaluation.followedBy]

/-- One more part: it is passed over or run just as it is evaluated. -/
theorem leads_cons {before : LogicTree} {w : World} {command : Bytes}
    {operator : Option Connective}
    (stays : ∀ r ∈ ((op.join before (.command command)).evaluate run w).runs,
      r.result.world.session.exit = none)
    (h : ((op.join before (.command command)).evaluate run w).Leads
      (runParts run operator ((op.join before (.command command)).evaluate run w).status rest) e') :
    (before.evaluate run w).Leads
      (runParts run (some op) (before.evaluate run w).status (⟨command, operator⟩ :: rest)) e' := by
  rw [Connective.evaluate_join] at stays h
  dsimp only at stays h
  cases skips : op.skips (before.evaluate run w).status with
  | true =>
    rw [skips, if_pos rfl] at h
    exact leads_of_skips skips h
  | false =>
    rw [skips, if_neg Bool.false_ne_true] at stays h
    refine leads_of_run (by rw [Option.filter_some, skips]; rfl) ?_ h
    exact stays _ (List.mem_append_right _ List.mem_cons_self)

/-- The pass over the rest of a chain goes on from the evaluation of what stands before it. -/
theorem leads_groupBehind (chain : LogicChain) (before : LogicTree) (op : Connective) (w : World)
    (stays : ∀ r ∈ ((chain.groupBehind before op).evaluate run w).runs,
      r.result.world.session.exit = none) :
    (before.evaluate run w).Leads
      (runParts run (some op) (before.evaluate run w).status chain.parts)
      ((chain.groupBehind before op).evaluate run w) := by
  induction chain generalizing before op with
  | last command => exact leads_cons stays ⟨rfl, rfl, List.append_nil _⟩
  | joined command joint rest ih =>
    refine leads_cons (fun r mem => stays r ?_) (ih _ _ stays)
    exact (rest.prefix_groupBehind run _ _ w).subset mem

end

/-- What a pass over a chain that is started in a world comes to, with the evaluation of the chain
grouped from the left. -/
structure ShortCircuits (run : Bytes → ShellAction Int) (chain : LogicChain) (w : World)
    (e : Evaluation) (whole : ActionResult Int) : Prop where
  /-- Some of the commands are run, in order and each once, -/
  commands : (e.runs.map CommandRun.command).Sublist chain.commands
  /-- each in the world that the one before it has left, and the last tells the status. -/
  ran : e.Ran run w
  value : whole.value = e.status
  world : whole.world = e.world
  /-- Nothing else is done; only what is passed over is told. -/
  effects : whole.effects = e.effects

/-- **A chain** is run as it is evaluated when it is grouped from the left: the commands that are
run are those that the short circuits leave, in order and each once, and the status is that of the
last of them. -/
theorem runParts_text (run : Bytes → ShellAction Int) {chain : LogicChain} (h : chain.IsJoined)
    (w : World)
    (stays : ∀ r ∈ (chain.grouped.evaluate run w).runs, r.result.world.session.exit = none) :
    ShortCircuits run chain w (chain.grouped.evaluate run w)
      ((runParts run none 0 (logicParts chain.text)).run w) := by
  rw [logicParts_text h]
  have leads : (⟨[], 0, w⟩ : Evaluation).Leads (runParts run none 0 chain.parts)
      (chain.grouped.evaluate run w) := by
    cases chain with
    | last command =>
      exact leads_of_run rfl (stays _ List.mem_cons_self) ⟨rfl, rfl, List.append_nil _⟩
    | joined command joint rest =>
      have first := (rest.prefix_groupBehind run (.command command) joint.operator w).subset
        List.mem_cons_self
      exact leads_of_run rfl (stays _ first) (leads_groupBehind rest _ _ w stays)
  refine ⟨?_, chain.grouped.ran_evaluate run w, leads.value, leads.world, leads.effects⟩
  rw [← chain.commands_grouped]
  exact chain.grouped.runs_evaluate_sublist run w

/-- A command that is passed over keeps the status before it, and the operator behind it asks for
that; an operator in quotes joins nothing. -/
theorem runParts_text_of_mixed :
    let i : Interpreter := ⟨Builtin.standard, 16⟩
    let run (part : Bytes) :=
      runPipeline (runSegment (runWords i.commands i.runner) i.runner) (segments part) none
    let chain : LogicChain := .joined (ascii "false") ⟨[], .both, []⟩
      (.joined (ascii "echo a") (.between .either) (.last (ascii "echo 'b || c'")))
    let w : World := { session := {}, system := { volume := { store := .memory ∅ } }, now := 0 }
    let whole := (runParts run none 0 (logicParts (ascii "false&&echo a || echo 'b || c'"))).run w
    let e := chain.grouped.evaluate run w
    e.runs.map CommandRun.command = [ascii "false", ascii "echo 'b || c'"] ∧
      whole.effects = [.out (ascii "b || c\n")] ∧ ShortCircuits run chain w e whole := by
  intro i run chain w whole e
  have tight : (⟨[], .both, []⟩ : Joint).Fits (ascii "false") := by
    refine ⟨isBlank_nil, isBlank_nil, fun _ ⟨start, eq, _⟩ => ?_⟩
    have last := congrArg List.getLast? eq
    rw [List.getLast?_concat] at last
    exact absurd last (by decide)
  have joined : chain.IsJoined :=
    ⟨by decide, tight, by decide, Joint.fits_between _ _,
      (by decide : IsLink (ascii "echo 'b || c'"))⟩
  exact ⟨by decide +kernel, by decide +kernel,
    runParts_text run joined w (by decide +kernel)⟩

end Interpreter

end VirtualShell
