import VirtualShell.Proofs.Tree.Plan
import VirtualShell.Startup.Arguments

/-!
# What stands behind the first operand

The words before the first operand are read as if nothing followed them, and what follows it is left
to the script, be it an option or not (`Arguments.read_operand`).
-/

namespace VirtualShell.Arguments

open Outcome (bind_eq_ok)

variable {s s' : Settings} {rest rest' more : List Bytes} {word : Bytes}

/-- The word is no option: it starts with no dash, or is one alone. -/
def IsOperand (word : Bytes) : Prop := word.head? = some Ascii.minus → word = [Ascii.minus]

/-! ## More words -/

theorem readLetters_append {letters : Bytes} (h : readLetters s rest letters = .ok (s', rest')) :
    readLetters s (rest ++ more) letters = .ok (s', rest' ++ more) := by
  induction letters generalizing s with
  | nil =>
    cases h
    rfl
  | cons letter letters ih =>
    rw [readLetters] at h ⊢
    split at h
    · cases h
    · split at h
      next plain => rw [if_pos plain, ih h]
      next takes =>
        rw [if_neg takes]
        split at h
        next inWord =>
          cases h
          rw [if_pos inWord]
        next behind =>
          rw [if_neg behind]
          cases rest with
          | nil => cases h
          | cons value rest =>
            cases h
            rfl

theorem readLong_append {text : Bytes} (h : readLong s rest text = .ok (s', rest')) :
    readLong s (rest ++ more) text = .ok (s', rest' ++ more) := by
  rw [readLong] at h ⊢
  split at h
  · cases h
  · cases after : text.dropWhile (· != Ascii.equals) with
    | nil =>
      rw [after] at h
      split at h
      next takes =>
        rw [if_pos takes]
        cases rest with
        | nil => cases h
        | cons value rest =>
          cases h
          rfl
      next plain =>
        cases h
        rw [if_neg plain]
        rfl
    | cons mark value =>
      rw [after] at h
      split at h
      next takes =>
        cases h
        rw [if_pos takes]
      next => cases h
  · cases h

/-! ## Operands -/

theorem readWords_operand (operand : IsOperand word) (fuel : Nat) :
    readWords .first fuel s (word :: rest) = .ok (s, word :: rest) := by
  cases fuel with
  | zero => rfl
  | succ fuel =>
    unfold readWords
    split
    · exact absurd (operand rfl) (by simp)
    · exact absurd (operand rfl) (by simp)
    · exact absurd (operand rfl) (by simp)
    · rfl

/-- Options are read the same, whatever operand follows them. -/
theorem readWords_append {fuel : Nat} {words : List Bytes}
    (h : readWords .first fuel s words = .ok (s', [])) (operand : IsOperand word) (extra : Nat) :
    readWords .first (fuel + extra) s (words ++ word :: rest) = .ok (s', word :: rest) := by
  induction fuel generalizing s words with
  | zero =>
    cases h
    exact readWords_operand operand _
  | succ fuel ih =>
    cases words with
    | nil =>
      cases h
      exact readWords_operand operand _
    | cons first words =>
      rw [Nat.add_right_comm, List.cons_append]
      unfold readWords at h ⊢
      split at h
      · cases h
        rfl
      · obtain ⟨⟨next, left⟩, long, read⟩ := bind_eq_ok.1 h
        dsimp only at read
        rw [readLong_append long]
        exact ih read
      · obtain ⟨⟨next, left⟩, letters, read⟩ := bind_eq_ok.1 h
        dsimp only at read
        rw [readLetters_append letters]
        exact ih read
      · cases h

/-- **The first operand ends the options.** It names the script, and all that stands behind it is
given to that, while what stands before it counts as it does alone. -/
theorem read_operand {terminal : Bool} {words : List Bytes} {invocation : Invocation}
    (h : read s terminal words = .ok invocation) (none : invocation.script = none)
    (operand : IsOperand word) :
    read s terminal (words ++ word :: rest) = .ok {
      settings := { invocation.settings with interactive := false }
      script := some word
      scriptArguments := rest } := by
  obtain ⟨⟨next, operands⟩, words, done⟩ := bind_eq_ok.1 h
  dsimp only at done
  cases operands with
  | cons script arguments => cases done; cases none
  | nil =>
    cases done
    rw [read, List.length_append, readWords_append words operand]
    cases terminal <;> rfl

/-- What looks like an option is none behind a script. -/
example (s : Settings) :
    read s true [ascii "setup.vsh", ascii "-c", ascii "x"] = .ok {
      settings := { s with interactive := false }
      script := some (ascii "setup.vsh")
      scriptArguments := [ascii "-c", ascii "x"] } := rfl

end VirtualShell.Arguments
