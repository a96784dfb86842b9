import VirtualShell.Proofs.Condition.Grammar

/-!
# What `test` and `[` answer

Both commands evaluate the words of a condition, and the status is 0 when it is true, 1 when it is
false and 2 when the words are no condition. Nothing is written and nothing changed on the way to
the first two.

* `invoke_conditions` : the words of every proper condition are answered by whether it holds in the
  world as it is, and whatever the words are, the answer is one of the three, in a number of steps
  that only the count of words bounds.
* `invoke_comparison` : what is compared as texts is data, whatever the two texts are, unless the
  first asks for help or opens a negation or a group. `not_invoke_comparison` shows that these are
  left out rightly.
-/

namespace VirtualShell

open Condition ShellAction

namespace Builtin

/-- The command is called to evaluate the words. -/
inductive Evaluates (words : List Bytes) : Builtin → Call → Prop
  | test {call : Call} (given : call.arguments = words) : Evaluates words test call
  | bracket {call : Call} (given : call.arguments = words ++ [ascii "]"]) :
      Evaluates words bracket call

/-- The first word asks for no help. -/
def NoHelp (words : List Bytes) : Prop :=
  ∀ word ∈ words.head?, word ≠ ascii "--help" ∧ word ≠ ascii "-h"

variable {words : List Bytes} {value : Bool} {b : Builtin} {call : Call} {w : World}

theorem asksForHelp_eq_false (h : NoHelp call.arguments) : asksForHelp call = false := by
  rw [asksForHelp]
  split
  next word rest given =>
    obtain ⟨noLong, noShort⟩ := h word (by rw [given]; rfl)
    simp [noLong, noShort]
  next => rfl

theorem run_runCondition (call : Call) (words : List Bytes) (w : World) :
    (runCondition call words).run w =
      if words.isEmpty then ⟨1, [], w⟩
      else match evaluate w.probe words with
        | .ok value => ⟨if value then 0 else 1, [], w⟩
        | .error e => ⟨2, ((call.complain .syntaxError e.message).run w).emitted, w⟩ := by
  rw [runCondition]
  split
  · rfl
  · rw [run_world_bind]
    change ((match evaluate w.probe words with
      | .ok value => (pure (statusOf [value]) : ShellAction Int)
      | .error e => do
        call.complain .syntaxError e.message
        return 2).run w) = _
    cases evaluate w.probe words with
    | ok value => cases value <;> rfl
    | error e => rfl

/-- Words that have a value are answered by it. -/
theorem Evaluates.run_invoke (evaluates : Evaluates words b call) (some : words ≠ [])
    (noHelp : NoHelp words) (h : evaluate w.probe words = .ok value) :
    (b.invoke call).run w = ⟨if value then 0 else 1, [], w⟩ := by
  cases evaluates with
  | test given =>
    rw [invoke, asksForHelp_eq_false (given ▸ noHelp)]
    change (runCondition call call.arguments).run w = _
    rw [given, run_runCondition, if_neg (by simpa using some), h]
  | bracket given =>
    have first : call.arguments.head? = words.head? := by
      rw [given, List.head?_append, Option.or_of_isSome (List.isSome_head?.2 some)]
    rw [invoke, asksForHelp_eq_false fun word h => noHelp word (first ▸ h)]
    change (if call.arguments.getLast? = Option.some (ascii "]") then
      runCondition call call.arguments.dropLast else _ : ShellAction Int).run w = _
    rw [given, List.getLast?_concat, if_pos rfl, List.dropLast_concat,
      run_runCondition, if_neg (by simpa using some), h]

/-- The statuses that a condition ends with. -/
def statuses : List Int := [0, 1, 2]

theorem value_runCondition (call : Call) (words : List Bytes) (w : World) :
    ((runCondition call words).run w).value ∈ statuses := by
  rw [run_runCondition]
  split
  · exact (by decide : (1 : Int) ∈ statuses)
  · cases evaluate w.probe words with
    | ok value => cases value <;> simp [statuses]
    | error e => simp [statuses]

theorem value_invoke_test (call : Call) (w : World) :
    ((test.invoke call).run w).value ∈ statuses := by
  rw [invoke]
  split
  · exact (by decide : (0 : Int) ∈ statuses)
  · exact value_runCondition call call.arguments w

theorem value_invoke_bracket (call : Call) (w : World) :
    ((bracket.invoke call).run w).value ∈ statuses := by
  rw [invoke]
  split
  · exact (by decide : (0 : Int) ∈ statuses)
  · change ((if call.arguments.getLast? = some (ascii "]") then
      runCondition call call.arguments.dropLast
      else do
        call.complain .syntaxError (ascii "missing ']'")
        return 2 : ShellAction Int).run w).value ∈ _
    split
    · exact value_runCondition call call.arguments.dropLast w
    · exact (by decide : (2 : Int) ∈ statuses)

/-- **The commands evaluate their grammar.** The words of a proper condition are answered by whether
it holds in the world, with nothing written and nothing changed; and whatever the words are, the
commands end with one of three statuses. The evaluation takes no more steps than three for a word
and three besides: with more, it comes to the same. -/
theorem invoke_conditions :
    (∀ {c : Condition} {b : Builtin} {call : Call} (w : World), c.IsProper → NoHelp c.words →
      Evaluates c.words b call →
        (c.Holds w → (b.invoke call).run w = ⟨0, [], w⟩)
        ∧ (¬ c.Holds w → (b.invoke call).run w = ⟨1, [], w⟩))
    ∧ (∀ (call : Call) (w : World), ((test.invoke call).run w).value ∈ statuses
      ∧ ((bracket.invoke call).run w).value ∈ statuses)
    ∧ ∀ (probe : FileTest → Bytes → Bool) (words : List Bytes) (steps : Nat),
      3 * words.length + 3 ≤ steps →
        evaluateEither probe steps words = evaluateEither probe (3 * words.length + 3) words := by
  refine ⟨fun w proper noHelp evaluates => ?_, fun call w => ?_, fun probe words steps h => ?_⟩
  · obtain ⟨value, tells, read⟩ := evaluate_words (w := w) proper
    have answer := evaluates.run_invoke (words_ne_nil _) noHelp read
    refine ⟨fun holds => ?_, fun fails => ?_⟩
    · rw [answer, if_pos (tells.2 holds)]
    · rw [answer, if_neg fun isTrue => fails (tells.1 isTrue)]
  · exact ⟨value_invoke_test call w, value_invoke_bracket call w⟩
  · exact (agrees _ _).either words (by omega) (by omega)

/-- A negation binds tighter than what joins, and parentheses hold together what binds weaker. There
is something in `/etc/hostname`, and `/tmp` is no link. -/
theorem invoke_conditions_of_mixed :
    let c : Condition :=
      .both
        (.both (.examination (.file .nonEmpty) (ascii "/etc/hostname"))
          (.comparison (ascii "-3") (.number .lt) (ascii "05")))
        (.negation (.either (.examination (.file .symlink) (ascii "/tmp"))
          (.comparison (ascii "x") .equal (ascii "y"))))
    let called (name : String) (words : List Bytes) : Call :=
      { name := ascii name, arguments := words }
    let w : World :=
      { session := {}, system := (FileSystem.load { volume := { store := .memory ∅ } } 0).system
        now := 0 }
    c.words = ["-s", "/etc/hostname", "-a", "-3", "-lt", "05", "-a", "!", "(", "-L", "/tmp", "-o",
        "x", "=", "y", ")"].map ascii
      ∧ c.Holds w ∧ (test.invoke (called "test" c.words)).run w = ⟨0, [], w⟩
      ∧ ¬ (Condition.negation c).Holds w
      ∧ (bracket.invoke (called "[" ((Condition.negation c).words ++ [ascii "]"]))).run w =
        ⟨1, [], w⟩ := by
  intro c called w
  have proper : c.IsProper :=
    ⟨⟨ofWord?_eq_none_iff.1 (by decide), by decide, by decide, fun _ _ => by decide⟩,
      ofWord?_eq_none_iff.1 (by decide), by decide, by decide, nofun⟩
  have holds : c.Holds w := by
    have hostname : UnaryTest.Says w (ascii "/etc/hostname") (.file .nonEmpty) :=
      (examine_eq_true_iff _).1 (by decide +kernel)
    have tmp : ¬ UnaryTest.Says w (ascii "/tmp") (.file .symlink) :=
      mt (examine_eq_true_iff _).2 (by decide +kernel)
    exact ⟨⟨hostname, -3, 5, by decide, by decide, (by decide : (-3 : Int) < 5)⟩,
      not_or.2 ⟨tmp, (by decide : ascii "x" ≠ ascii "y")⟩⟩
  have noHelp : NoHelp c.words := fun word first => by
    obtain rfl : word = ascii "-s" := (Option.some.inj first).symm
    decide
  have noHelp' : NoHelp (Condition.negation c).words := fun word first => by
    obtain rfl : word = ascii "!" := (Option.some.inj first).symm
    decide
  have wrong : ¬ (Condition.negation c).Holds w := fun fails => fails holds
  exact ⟨by decide, holds, (invoke_conditions.1 w proper noHelp (.test rfl)).1 holds, wrong,
    (invoke_conditions.1 (c := .negation c) w proper noHelp' (.bracket rfl)).2 wrong⟩

/-! ## Comparisons of texts -/

/-- **What is compared is data.** Whatever two texts are compared, the answer is whether they are
the same, nothing is written and nothing changed, unless the first of them opens a negation or a
group; a first that asks for help gets it, as of every command. -/
theorem invoke_comparison (left right : Bytes) (b : Builtin) (call : Call) (w : World)
    (noNegation : left ≠ ascii "!") (noGroup : left ≠ ascii "(") :
    (left ≠ ascii "--help" → left ≠ ascii "-h" →
      (Evaluates [left, ascii "=", right] b call →
        (b.invoke call).run w = ⟨if left = right then 0 else 1, [], w⟩)
      ∧ (Evaluates [left, ascii "!=", right] b call →
        (b.invoke call).run w = ⟨if left = right then 1 else 0, [], w⟩))
    ∧ ∀ operator, left = ascii "--help" ∨ left = ascii "-h" →
      Evaluates [left, operator, right] b call →
        (b.invoke call).run w = ⟨0, [.out (Bytes.unlines b.help)], w⟩ := by
  refine ⟨fun noLong noShort => ?_, fun operator help evaluates => ?_⟩
  · have noHelp (operator : Bytes) : NoHelp [left, operator, right] := fun word first => by
      obtain rfl : word = left := (Option.some.inj first).symm
      exact ⟨noLong, noShort⟩
    have read {operator : Bytes} {op : BinaryTest} {value : Bool}
        (is : BinaryTest.ofWord? operator = some op)
        (compared : compare op left right = .ok value) :
        evaluate w.probe [left, operator, right] = .ok value :=
      evaluate_of_readAt ((readAt_comparison noNegation noGroup is compared).of_term .either)
    have same : evaluate w.probe [left, ascii "=", right] = .ok (left == right) :=
      read (show _ = some .sameText by decide) rfl
    have other : evaluate w.probe [left, ascii "!=", right] = .ok (left != right) :=
      read (show _ = some .otherText by decide) rfl
    refine ⟨fun evaluates => ?_, fun evaluates => ?_⟩
    · rw [evaluates.run_invoke (by simp) (noHelp _) same]
      simp only [beq_iff_eq]
    · rw [evaluates.run_invoke (by simp) (noHelp _) other]
      by_cases equal : left = right <;> simp [equal]
  · have asks : asksForHelp call = true := by
      obtain ⟨rest, given⟩ : ∃ rest, call.arguments = left :: rest := by
        cases evaluates with
        | test given => exact ⟨_, given⟩
        | bracket given => exact ⟨_, given⟩
      rw [asksForHelp, given]
      obtain rfl | rfl := help <;> rfl
    rw [invoke, if_pos asks]
    rfl

/-- Operators and a closing parenthesis are texts like others where they are compared. -/
theorem invoke_comparison_of_operators :
    let call : Call := { name := ascii "[", arguments := ["-a", "=", ")", "]"].map ascii }
    let w : World := { session := {}, system := { volume := { store := .memory ∅ } }, now := 0 }
    (bracket.invoke call).run w = ⟨if ascii "-a" = ascii ")" then 0 else 1, [], w⟩ := by
  intro call w
  exact ((invoke_comparison (ascii "-a") (ascii ")") bracket call w (by decide) (by decide)).1
    (by decide) (by decide)).1 (.bracket rfl)

/-- A first text that asks for help is answered with help, and one that opens a negation or a group
is not compared. -/
theorem not_invoke_comparison :
    let w : World := { session := {}, system := { volume := { store := .memory ∅ } }, now := 0 }
    let answer (words : List String) :=
      (test.invoke { name := ascii "test", arguments := words.map ascii }).run w
    (answer ["-h", "=", "x"]).value = 0 ∧ (answer ["-h", "=", "x"]).emitted ≠ []
      ∧ (answer ["--help", "!=", "--help"]).value = 0
      ∧ (answer ["!", "=", "!"]).value = 2 ∧ (answer ["(", "=", "("]).value = 2 := by
  decide +kernel

end Builtin

end VirtualShell
