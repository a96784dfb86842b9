import VirtualShell.Proofs.Shell.Correspondence

/-!
# Lines inside lines

A line runs lines for its substitutions and through `source` and `xargs`, and those run lines again.
`Interpreter.execute` unfolds so many levels of them as the limit says. That is all of them:

* What is on the lines below the limit is never looked at (`run_runLevels`), so the unfolding stands
  for the recursion that it cuts off (`execute_eq_guarding`).
* A line leaves the count of the lines being run as it was (`depth_run_execute`).

Both compare two runs that stay at one depth (`Comparison.atDepth`); inside a line they stay one
deeper.
-/

namespace VirtualShell

open ShellAction

namespace Comparison

/-- The runs are under one control, at a depth. -/
def atDepth (depth : Nat) : Comparison := keeping (·.depth = depth) (fun _ h => h) fun _ h => h

/-- Runs that are alike under one control are the same, and keep what is said of it. -/
theorem Corresponds.run_eq {α : Type} {P : Control → Prop}
    {asking : ∀ {c} status, P c → P (c.exiting (some status))}
    {restoring : ∀ {c k}, P c → P k → P (k.exiting c.exit)} {a b : ShellAction α}
    (h : (keeping P asking restoring).Corresponds a b) {w : World} (hw : P w.control) :
    a.run w = b.run w ∧ P (a.run w).world.control := by
  rcases h w w (.refl ⟨rfl, hw⟩) with ⟨_, excused, _⟩ | r
  · exact excused.elim
  · obtain ⟨⟨same, kept⟩, left⟩ := r.worlds
    have worlds : (a.run w).world = (b.run w).world := by rw [left, ← same, World.under_control]
    have emitted := r.shown
    rw [shown_of_seen_all fun _ => rfl, shown_of_seen_all fun _ => rfl] at emitted
    refine ⟨?_, kept⟩
    calc a.run w = ⟨(a.run w).value, (a.run w).emitted, (a.run w).world⟩ := rfl
      _ = ⟨(b.run w).value, (b.run w).emitted, (b.run w).world⟩ := by rw [r.value, emitted, worlds]

theorem deeper_atDepth (depth : Nat) : (atDepth depth).deeper = atDepth (depth + 1) := by
  refine Comparison.ext ?_ rfl rfl
  funext k k'
  refine propext ⟨?_, ?_⟩
  · rintro ⟨c, _, ⟨rfl, rfl⟩, rfl, rfl⟩
    exact ⟨rfl, rfl⟩
  · rintro ⟨rfl, hk⟩
    have same : k = Control.deeper ⟨k.exit, depth⟩ := congrArg (Control.mk k.exit) hk
    exact ⟨_, _, ⟨rfl, rfl⟩, same, same⟩

end Comparison

namespace Interpreter

variable (i : Interpreter)

/-- What is on a line is run one deeper. -/
theorem run_guarding_congr {body body' : ShellAction Int} {w : World}
    (h : body.run { w with depth := w.depth + 1 } = body'.run { w with depth := w.depth + 1 }) :
    (i.guarding body).run w = (i.guarding body').run w := by
  rw [guarding, guarding, run_world_bind, run_world_bind]
  split
  · rfl
  · rw [run_nested, run_nested, run_bind_congr h rfl]

theorem run_runLevels_of_limit_le (beyond : Bytes → Option Bytes → ShellAction Int) (levels : Nat)
    (line : Bytes) (input : Option Bytes) {w : World} (h : i.limit ≤ w.depth) :
    (i.runLevels beyond levels line input).run w = i.refuseNesting.run w := by
  cases levels with
  | zero => exact i.run_guarding_of_limit_le h _
  | succ levels => exact i.run_guarding_of_limit_le h _

/-- At the limit it does not matter what is on a line. -/
theorem corresponds_atDepth_of_limit_le {beyond beyond' : Bytes → Option Bytes → ShellAction Int}
    {levels levels' depth : Nat} (h : i.limit ≤ depth) (line : Bytes) (input : Option Bytes) :
    (Comparison.atDepth depth).Corresponds (i.runLevels beyond levels line input)
      (i.runLevels beyond' levels' line input) := by
  intro w w' worlds
  obtain ⟨same, deep⟩ := worlds.1
  have deep' := (congrArg Control.depth same).symm.trans deep
  change w.depth = depth at deep
  change w'.depth = depth at deep'
  rw [run_runLevels_of_limit_le i beyond levels line input (deep ▸ h),
    run_runLevels_of_limit_le i beyond' levels' line input (deep' ▸ h)]
  exact i.confined_refuseNesting.corresponds w w' worlds

variable (respects : ∀ name b, i.commands.find? name = some b → b.Respects)
include respects

/-- Levels that reach down to the limit are as good as any others that do. -/
theorem corresponds_atDepth_runLevels {beyond beyond' : Bytes → Option Bytes → ShellAction Int}
    {levels levels' depth : Nat} (h : i.limit ≤ depth + levels) (h' : i.limit ≤ depth + levels')
    (line : Bytes) (input : Option Bytes) :
    (Comparison.atDepth depth).Corresponds (i.runLevels beyond levels line input)
      (i.runLevels beyond' levels' line input) := by
  by_cases deep : i.limit ≤ depth
  · exact corresponds_atDepth_of_limit_le i deep line input
  induction levels generalizing levels' depth line input with
  | zero => omega
  | succ levels ih =>
    obtain ⟨levels', rfl⟩ : ∃ n, levels' = n + 1 := ⟨levels' - 1, by omega⟩
    refine corresponds_guarding i ?_
    rw [Comparison.deeper_atDepth]
    have inside (line : Bytes) : (Comparison.atDepth (depth + 1)).Corresponds
        (i.runLevels beyond levels line none) (i.runLevels beyond' levels' line none) := by
      by_cases deep : i.limit ≤ (depth + 1 : Nat)
      · exact corresponds_atDepth_of_limit_le i deep line none
      · exact ih (by omega) (by omega) line none deep
    have runners := runners_runnerOf i.commands inside
    exact corresponds_runBody
      (fun words input => corresponds_runWords respects runners words input) runners line input

/-- What is on the lines below the limit is never looked at. -/
theorem run_runLevels (beyond : Bytes → Option Bytes → ShellAction Int) {levels : Nat}
    {w : World} (h : i.limit ≤ w.depth + levels) (line : Bytes) (input : Option Bytes) :
    (i.runLevels beyond levels line input).run w = (i.execute line input).run w :=
  ((corresponds_atDepth_runLevels i respects h (by omega) line input).run_eq rfl).1

/-- A line leaves the count of the lines being run as it was. -/
theorem depth_run_execute (line : Bytes) (input : Option Bytes) (w : World) :
    ((i.execute line input).run w).world.depth = w.depth := by
  have itself : (Comparison.atDepth w.depth).Corresponds (i.execute line input)
      (i.execute line input) :=
    corresponds_atDepth_runLevels i respects (by omega) (by omega) line input
  exact (itself.run_eq rfl).2

/-- The recursion that a line is: what is on it is run with the lines inside it, unless there are as
many as the limit says. -/
def Recursion (f : Bytes → Option Bytes → ShellAction Int) : Prop :=
  let runner := runnerOf i.commands fun line => f line none
  ∀ line input, f line input = i.guarding (runBody (runWords i.commands runner) runner line input)

theorem recursion_execute : i.Recursion fun line input => i.execute line input := by
  intro line input
  refine ShellAction.ext fun w => ?_
  have enough : i.limit ≤ w.depth + (i.limit.toNat + 1 : Nat) := by omega
  rw [← run_runLevels i respects (fun _ _ => return 0) enough]
  rfl

theorem execute_eq_guarding (line : Bytes) (input : Option Bytes) :
    i.execute line input =
      i.guarding (runBody (runWords i.commands i.runner) i.runner line input) :=
  recursion_execute i respects line input

/-- The recursion ends: there is one way only to meet it. -/
theorem eq_execute_of_recursion {f : Bytes → Option Bytes → ShellAction Int}
    (h : i.Recursion f) (line : Bytes) (input : Option Bytes) :
    f line input = i.execute line input := by
  let runner := runnerOf i.commands fun line => f line none
  have unfolds (levels : Nat) :
      i.runLevels (runBody (runWords i.commands runner) runner) levels = f := by
    induction levels with
    | zero =>
      funext line input
      rw [runLevels, h line input]
    | succ levels ih =>
      funext line input
      rw [runLevels, ih, h line input]
  refine ShellAction.ext fun w => ?_
  have enough : i.limit ≤ w.depth + i.limit.toNat := by omega
  rw [← run_runLevels i respects (runBody (runWords i.commands runner) runner) enough, unfolds]

omit respects in
theorem run_refuseNesting (w : World) :
    i.refuseNesting.run w =
      { value := 2
        emitted := [
          .trace (.nestingLimit i.limit),
          .err (shellName ++ ascii ": maximum nesting depth exceeded (" ++ signedDecimal i.limit
            ++ ascii ")\n")]
        world := w } := rfl

omit respects in
/-- **The nesting limit.** A line is the only solution of the recursion through `$(...)`, backticks,
`source` and `xargs` to the lines inside it. What is on a line that as many lines are running around
as the limit says is never looked at, whatever it would do: such a line has the status 2, writes
nothing but the complaint and changes nothing. Behind every line as many lines are being run as
before it. -/
theorem nesting_limit (limit : Int) :
    (∀ f, (standard limit).Recursion f ↔
        ∀ line input, f line input = (standard limit).execute line input)
      ∧ ∀ (line : Bytes) (input : Option Bytes) (w : World),
        (∀ (beyond : Bytes → Option Bytes → ShellAction Int) (levels : Nat),
          limit ≤ w.depth + levels →
            ((standard limit).runLevels beyond levels line input).run w =
              ((standard limit).execute line input).run w)
        ∧ (limit ≤ w.depth → ((standard limit).execute line input).run w =
            { value := 2
              emitted := [
                .trace (.nestingLimit limit),
                .err (ascii "vsh: maximum nesting depth exceeded (" ++ signedDecimal limit
                  ++ ascii ")\n")]
              world := w })
        ∧ (((standard limit).execute line input).run w).world.depth = w.depth := by
  have respects := respects_standard limit
  refine ⟨fun f => ⟨eq_execute_of_recursion _ respects, ?_⟩, fun line input w =>
    ⟨fun beyond levels enough => ?_, fun deep => ?_, depth_run_execute _ respects line input w⟩⟩
  · intro same
    have : f = fun line input => (standard limit).execute line input :=
      funext fun line => funext fun input => same line input
    rw [this]
    exact recursion_execute _ respects
  · exact run_runLevels _ respects beyond enough line input
  · rw [execute, run_runLevels_of_limit_le _ _ _ _ _ deep, run_refuseNesting]
    rfl

end Interpreter

end VirtualShell
