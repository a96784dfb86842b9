import Mathlib.Data.List.Basic
import Mathlib.Logic.Function.Basic
import VirtualShell.Proofs.Lexing.Escaping
import VirtualShell.Shell.Interpreter

/-!
# A text before its commands have run

Taken apart, a text is a row of *symbols*: bytes that stay, and places where the output of a
command goes. What a segment is cut into words and redirects as is the row filled in, whatever the
commands printed.

* `expandedWith_eq`: expanding a text fills its symbols with the answers of its commands;
  `Interpreter.exists_of_substitute`: so does every segment that the shell runs.
* `placed_symbols`: an output only goes where no substitution and no backtick is open, and into
  double quotes exactly if it is escaped for them.
-/

namespace VirtualShell

/-! ## Symbols -/

/-- A byte of a text, or a place for the output of its `index`-th command. -/
inductive Symbol
  | byte (c : UInt8)
  | output (index : Nat) (inDoubleQuotes : Bool)
  deriving DecidableEq

namespace Symbol

/-- The bytes that stand in the place. -/
def fill (answers : Nat → Captured) : Symbol → Bytes
  | byte c => [c]
  | output index inDoubleQuotes =>
    escapeOutput inDoubleQuotes (dropFinalNewline (answers index).out)

def isOutput : Symbol → Bool
  | byte _ => false
  | output _ _ => true

end Symbol

/-- The text that the symbols make. -/
def fillAll (answers : Nat → Captured) (symbols : List Symbol) : Bytes :=
  symbols.flatMap (Symbol.fill answers)

section
variable {answers answers' : Nat → Captured}

@[simp] theorem fillAll_nil : fillAll answers [] = [] := rfl

@[simp] theorem fillAll_cons (s : Symbol) (rest : List Symbol) :
    fillAll answers (s :: rest) = s.fill answers ++ fillAll answers rest := List.flatMap_cons

@[simp] theorem fillAll_append (first second : List Symbol) :
    fillAll answers (first ++ second) = fillAll answers first ++ fillAll answers second :=
  List.flatMap_append

@[simp] theorem fillAll_map_byte (text : Bytes) : fillAll answers (text.map .byte) = text := by
  induction text with
  | nil => rfl
  | cons c rest ih => rw [List.map_cons, fillAll_cons, ih]; rfl

@[simp] theorem Symbol.fill_byte (c : UInt8) : (Symbol.byte c).fill answers = [c] := rfl

theorem fillAll_congr {symbols : List Symbol}
    (same : ∀ s ∈ symbols, s.fill answers = s.fill answers') :
    fillAll answers symbols = fillAll answers' symbols :=
  List.flatMap_congr same

end

/-- The symbols of the parts, where `n` commands come before. -/
def symbolsFrom (n : Nat) : List TextPart → List Symbol
  | [] => []
  | .literal text :: parts => text.map .byte ++ symbolsFrom n parts
  | .unclosed _ text :: parts => text.map .byte ++ symbolsFrom n parts
  | .substitution _ _ inDoubleQuotes :: parts =>
    .output n inDoubleQuotes :: symbolsFrom (n + 1) parts

/-- The symbols of a text. -/
def symbols (text : Bytes) : List Symbol := symbolsFrom 0 (substitutions text)

theorem symbolsFrom_prepend (n : Nat) (text : Bytes) (parts : List TextPart) :
    symbolsFrom n (TextPart.prepend text parts) = text.map .byte ++ symbolsFrom n parts := by
  unfold TextPart.prepend
  split
  · simp [symbolsFrom]
  · rfl

/-! ## Filling them in -/

/-- What the next command comes to. -/
def answerNext (answers : Nat → Captured) : StateM Nat Captured := fun n => (answers n, n + 1)

/-- The text with its substitutions in place, where the commands come to the given answers. -/
def expandedWith (answers : Nat → Captured) (text : Bytes) : Bytes :=
  ((expandSubstitutions (fun _ => answerNext answers) (fun _ => pure ()) text).run 0).1.text

theorem text_runSubstitutions (answers : Nat → Captured) (parts : List TextPart) (n : Nat) :
    ((runSubstitutions (fun _ => answerNext answers) (fun _ => pure ()) parts).run n).1.text =
      fillAll answers (symbolsFrom n parts) := by
  induction parts generalizing n with
  | nil => rfl
  | cons part parts ih =>
    cases part with
    | literal text =>
      rw [symbolsFrom, fillAll_append, fillAll_map_byte, ← ih]
      rfl
    | unclosed form text =>
      rw [symbolsFrom, fillAll_append, fillAll_map_byte, ← ih]
      rfl
    | substitution form command inDoubleQuotes =>
      rw [symbolsFrom, fillAll_cons, ← ih]
      rfl

/-- **Expanding a text fills its symbols in.** -/
theorem expandedWith_eq (answers : Nat → Captured) (text : Bytes) :
    expandedWith answers text = fillAll answers (symbols text) :=
  text_runSubstitutions answers (substitutions text) 0

theorem le_of_mem_symbolsFrom {n index : Nat} {inDoubleQuotes : Bool} {parts : List TextPart}
    (h : .output index inDoubleQuotes ∈ symbolsFrom n parts) : n ≤ index := by
  induction parts generalizing n with
  | nil => cases h
  | cons part parts ih =>
    cases part with
    | literal text => exact ih (by simpa [symbolsFrom] using h)
    | unclosed form text => exact ih (by simpa [symbolsFrom] using h)
    | substitution form command quoted =>
      rw [symbolsFrom, List.mem_cons] at h
      rcases h with h | h
      · cases h
        exact Nat.le_refl _
      · exact Nat.le_of_succ_le (ih h)

theorem ShellAction.exists_of_runSubstitutions (run : Bytes → ShellAction Captured)
    (unclosed : SubstitutionForm → ShellAction Unit) (parts : List TextPart) (n : Nat) (w : World) :
    ∃ answers, ((runSubstitutions run unclosed parts).run w).value.text =
      fillAll answers (symbolsFrom n parts) := by
  induction parts generalizing n w with
  | nil => exact ⟨fun _ => {}, rfl⟩
  | cons part parts ih =>
    cases part with
    | literal text =>
      obtain ⟨answers, h⟩ := ih n w
      refine ⟨answers, ?_⟩
      rw [symbolsFrom, fillAll_append, fillAll_map_byte, ← h]
      rfl
    | unclosed form text =>
      obtain ⟨answers, h⟩ := ih n ((unclosed form).run w).world
      refine ⟨answers, ?_⟩
      rw [symbolsFrom, fillAll_append, fillAll_map_byte, ← h]
      rfl
    | substitution form command inDoubleQuotes =>
      obtain ⟨answers, h⟩ := ih (n + 1) ((run command).run w).world
      refine ⟨Function.update answers n ((run command).run w).value, ?_⟩
      have others : fillAll (Function.update answers n ((run command).run w).value)
          (symbolsFrom (n + 1) parts) = fillAll answers (symbolsFrom (n + 1) parts) := by
        refine fillAll_congr fun s mem => ?_
        cases s with
        | byte c => rfl
        | output index quoted =>
          have := le_of_mem_symbolsFrom mem
          rw [Symbol.fill, Function.update_of_ne (by omega), Symbol.fill]
      rw [symbolsFrom, fillAll_cons, others, ← h, Symbol.fill, Function.update_self]
      rfl

/-- **What a segment is run as is its symbols filled in.** -/
theorem Interpreter.exists_of_substitute (runner : LineRunner) (segment : Bytes) (w : World) :
    ∃ answers, ((Interpreter.substitute runner segment).run w).value =
      expandedWith answers segment := by
  unfold Interpreter.substitute expandSubstitutions
  dsimp only
  generalize (fun form : SubstitutionForm => _) = unclosed
  obtain ⟨answers, h⟩ := ShellAction.exists_of_runSubstitutions runner.runApart unclosed
    (substitutions segment) 0 w
  refine ⟨answers, ?_⟩
  rw [expandedWith_eq, symbols, ← h]
  simp only [ShellAction.run_bind]
  split <;> rfl

/-! ## Where outputs go -/

namespace Symbol

/-- A byte that stands before the symbols opens a substitution with the first of them. -/
def Opens (d : Delimiters) (c : UInt8) (rest : List Symbol) : Prop :=
  c = Ascii.dollar ∧ rest.head? = some (byte Ascii.openParen) ∧ d.admitsSubstitution = true

instance (d : Delimiters) (c : UInt8) (rest : List Symbol) : Decidable (Opens d c rest) :=
  inferInstanceAs (Decidable (_ ∧ _ ∧ _))

end Symbol

/-- Read from these delimiters on, every output is in the quotes that it is escaped for. -/
inductive Placed : Delimiters → List Symbol → Prop
  | nil {d : Delimiters} : Placed d []
  | output {d : Delimiters} {index : Nat} {inDoubleQuotes : Bool} {rest : List Symbol} :
    d.Between ⟨false, inDoubleQuotes⟩ → Placed d rest →
      Placed d (.output index inDoubleQuotes :: rest)
  | enter {d : Delimiters} {rest : List Symbol} :
    d.admitsSubstitution = true → Placed d.enter rest →
      Placed d (.byte Ascii.dollar :: .byte Ascii.openParen :: rest)
  | feed {d : Delimiters} {c : UInt8} {rest : List Symbol} :
    ¬ Symbol.Opens d c rest → Placed (d.feed c) rest → Placed d (.byte c :: rest)

namespace Placed

variable {d d' : Delimiters}

/-- Bytes alone are in no wrong place. -/
theorem of_bytes (d : Delimiters) (text : Bytes) : Placed d (text.map .byte) := by
  induction d, text using Delimiters.readingInduction with
  | nil d => exact .nil
  | enter d rest admits ih => exact .enter admits ih
  | feed d c rest plain ih =>
    refine .feed (fun opens => plain ?_) ih
    exact ⟨opens.1, by simpa using opens.2.1, opens.2.2⟩

theorem of_alike {symbols : List Symbol} (h : Placed d symbols) (alike : d.Alike d') :
    Placed d' symbols := by
  induction h generalizing d' with
  | nil => exact .nil
  | output between _ ih => exact .output (between.of_alike alike) (ih alike)
  | enter admits _ ih => exact .enter (alike.admitsSubstitution.trans admits) (ih alike.enter)
  | feed plain _ ih =>
    refine .feed (fun opens => plain ?_) (ih (alike.feed _))
    exact ⟨opens.1, opens.2.1, alike.admitsSubstitution.symm.trans opens.2.2⟩

theorem of_opens {c : UInt8} {rest : List Symbol} (h : Placed d (.byte c :: rest))
    (opens : Symbol.Opens d c rest) :
    c = Ascii.dollar ∧
      ∃ others, rest = .byte Ascii.openParen :: others ∧ Placed d.enter others := by
  cases h with
  | enter _ placed => exact ⟨rfl, _, rfl, placed⟩
  | feed plain _ => exact absurd opens plain

theorem of_not_opens {c : UInt8} {rest : List Symbol} (h : Placed d (.byte c :: rest))
    (plain : ¬ Symbol.Opens d c rest) : Placed (d.feed c) rest := by
  cases h with
  | enter admits _ => exact absurd ⟨rfl, rfl, admits⟩ plain
  | feed _ placed => exact placed

theorem of_output {index : Nat} {inDoubleQuotes : Bool} {rest : List Symbol}
    (h : Placed d (.output index inDoubleQuotes :: rest)) :
    d.Between ⟨false, inDoubleQuotes⟩ ∧ Placed d rest := by
  cases h
  exact ⟨‹_›, ‹_›⟩

end Placed

/-- A text that is taken apart goes on with its first byte, or with an output. -/
theorem head?_symbolsFrom {n : Nat} {q : QuoteState} {text : Bytes} {c : UInt8}
    (h : (symbolsFrom n (substitutionsFrom q text)).head? = some (.byte c)) :
    text.head? = some c := by
  cases text with
  | nil => simp [substitutionsFrom, symbolsFrom] at h
  | cons first rest =>
    rw [substitutionsFrom] at h
    dsimp only at h
    repeat' split at h
    all_goals simp_all [symbolsFrom_prepend, symbolsFrom]

theorem placed_symbolsFrom {n : Nat} {q : QuoteState} {text : Bytes} {d : Delimiters}
    (between : d.Between q) : Placed d (symbolsFrom n (substitutionsFrom q text)) := by
  fun_induction substitutionsFrom q text generalizing n d with
  | case1 => exact .nil
  | case2 q c rest single ih =>
    rw [symbolsFrom_prepend]
    refine .feed (fun opens => ?_) (ih (between.feed_single single))
    have admits := opens.2.2
    rw [Delimiters.admitsSubstitution, between.state, single] at admits
    cases admits
  | case3 q rest single ih =>
    have single := eq_false_of_ne_true single
    rw [symbolsFrom_prepend]
    refine .feed (fun opens => absurd opens.1 (by decide)) ?_
    cases rest with
    | nil =>
      rw [List.drop_nil, substitutionsFrom]
      exact .nil
    | cons next rest =>
      obtain ⟨escaped, between⟩ := between.feed_escape single next
      refine .feed (fun opens => ?_) (ih between)
      have admits := opens.2.2
      rw [Delimiters.admitsSubstitution, escaped] at admits
      cases admits
  | case4 q c rest single plain quotes ih =>
    obtain ⟨rfl, double⟩ := quotes
    rw [symbolsFrom_prepend]
    exact .feed (fun opens => absurd opens.1 (by decide))
      (ih (between.feed_quote (eq_false_of_ne_true single) (by simpa using double)))
  | case5 q rest single plain unquoted ih =>
    rw [symbolsFrom_prepend]
    exact .feed (fun opens => absurd opens.1 (by decide))
      (ih (between.feed_doubleQuote (eq_false_of_ne_true single)))
  | case6 =>
    rw [symbolsFrom, symbolsFrom, List.append_nil]
    exact .of_bytes d _
  | case7 q c rest single plain unquoted undoubled opens behind length found =>
    rename_i ih
    exact .output (between.unquoted (eq_false_of_ne_true single)) (ih between)
  | case8 =>
    rw [symbolsFrom, symbolsFrom, List.append_nil]
    exact .of_bytes d _
  | case9 q rest single length plain unquoted undoubled opens found ih =>
    exact .output (between.unquoted (eq_false_of_ne_true single)) (ih between)
  | case10 q c rest single plain unquoted undoubled opens untaken ih =>
    rw [symbolsFrom_prepend]
    refine .feed (fun enters => opens ⟨enters.1, head?_symbolsFrom enters.2.1⟩) ?_
    rw [between.feed_plain (eq_false_of_ne_true single) plain unquoted undoubled untaken]
    exact ih between

/-- **Every output goes into the quotes that it is escaped for.** -/
theorem placed_symbols (text : Bytes) : Placed {} (symbols text) :=
  placed_symbolsFrom ⟨rfl, rfl, rfl, nofun⟩

end VirtualShell
