import VirtualShell.Builtin.Filters
import VirtualShell.Proofs.Shell.Pipelines
import VirtualShell.Proofs.Text.Lines

/-!
# What filters write

A filter reads its inputs, writes nothing but complaints on the way, and then writes what it makes
of their lines, a newline behind each (`out_filterLines`). Words that can be read as flags ask for
no help, so a call with such words goes on with the flags (`invoke_withFlags`).
-/

namespace VirtualShell

open ShellAction

/-! ## Reading the inputs -/

namespace ShellAction

variable {α β : Type}

theorem Silent.mapM {γ : Type} {g : γ → ShellAction β} {items : List γ}
    (h : ∀ item, Silent (g item)) : Silent (items.mapM g) := by
  induction items with
  | nil => exact .pure []
  | cons item rest ih =>
    rw [List.mapM_cons]
    exact (h item).bind fun _ => ih.bind fun _ => .pure _

/-- Behind an action that writes nothing, all output is that of what comes next. -/
theorem Silent.out_bind {a : ShellAction α} (h : Silent a) (f : α → ShellAction β) (w : World) :
    ((a >>= f).run w).out = ((f (a.run w).value).run (a.run w).world).out := by
  rw [run_bind, ActionResult.out, List.flatMap_append, ← ActionResult.out, h]
  rfl

end ShellAction

theorem Call.silent_readInput (c : Call) (file : Bytes) : Silent (c.readInput file) := by
  unfold readInput
  split
  · exact .pure _
  · refine (Silent.readPath file).bind fun outcome => ?_
    cases outcome with
    | ok content => exact .pure _
    | error fault => exact (Silent.reportFault c.name fault).bind fun _ => .pure _

theorem Call.silent_readInputs (c : Call) (files : List Bytes) : Silent (c.readInputs files) := by
  unfold readInputs
  split
  · exact .pure _
  · exact (Silent.mapM c.silent_readInput).bind fun _ => .pure _

/-- The text that a call reads from files, or that is piped in when there are none. -/
def Call.inputText (c : Call) (files : List Bytes) (w : World) : Bytes :=
  ((c.readInputs files).run w).value.1

namespace Builtin

/-- **What a filter writes** is what it makes of the lines that it reads. -/
theorem out_filterLines (c : Call) (files : List Bytes) (f : List Bytes → List Bytes) (w : World) :
    ((filterLines c files f).run w).out =
      Bytes.unlines (f (Bytes.lines (c.inputText files w))) := by
  rw [filterLines, (c.silent_readInputs files).out_bind]
  exact List.append_nil _

/-! ## Words that do not ask for help -/

/-- A call whose first word is neither of those that ask for help is answered. -/
theorem invoke_of_noHelp (b : Builtin) {c : Call} {word : Bytes} {rest : List Bytes}
    (given : c.arguments = word :: rest) (noLong : word ≠ ascii "--help")
    (noShort : word ≠ ascii "-h") : b.invoke c = b.answer c := by
  have help : asksForHelp c = false := by
    simp [asksForHelp, given, noLong, noShort]
  rw [invoke, if_neg (by rw [help]; decide)]

/-! ## Words of flags -/

/-- A first letter that is not allowed is refused. -/
theorem read_flags_error {allowed letters : Bytes} {letter : UInt8} (rest : List Bytes)
    (other : Ascii.minus :: letter :: letters ≠ ascii "--")
    (refused : allowed.contains letter = false) :
    Flags.read allowed ((Ascii.minus :: letter :: letters) :: rest) = .error letter := by
  have first : (letter :: letters).find? (fun l => !allowed.contains l) = some letter :=
    List.find?_cons_of_pos (by rw [refused]; rfl)
  rw [Flags.read.eq_def]
  dsimp only
  rw [if_neg other]
  split
  next cut =>
    cases cut
    rw [first]
    rfl
  next none => exact absurd rfl (none letter letters)

/-- Words that are read as flags ask for no help. -/
theorem asksForHelp_of_flags {allowed : Bytes} {c : Call} {flags : Flags}
    (h : Flags.read allowed c.arguments = .ok flags) (noDash : allowed.contains Ascii.minus = false)
    (noHelp : allowed.contains 104 = false) : asksForHelp c = false := by
  rw [asksForHelp]
  split
  next word rest given =>
    rw [given] at h
    rw [Bool.or_eq_false_iff, beq_eq_false_iff_ne, beq_eq_false_iff_ne]
    refine ⟨?_, ?_⟩
    · rintro rfl
      exact nomatch (read_flags_error rest (by decide) noDash).symm.trans h
    · rintro rfl
      exact nomatch (read_flags_error rest (by decide) noHelp).symm.trans h
  next => rfl

/-- A call whose flags can be read goes on with them. -/
theorem invoke_withFlags {b : Builtin} {allowed : String} {k : Flags → ShellAction Int} {c : Call}
    {flags : Flags} (answer : b.answer c = c.withFlags allowed k)
    (h : Flags.read (ascii allowed) c.arguments = .ok flags)
    (noDash : (ascii allowed).contains Ascii.minus = false)
    (noHelp : (ascii allowed).contains 104 = false) : b.invoke c = k flags := by
  rw [invoke, if_neg (by rw [asksForHelp_of_flags h noDash noHelp]; simp), answer,
    Call.withFlags, h]

end Builtin

end VirtualShell
