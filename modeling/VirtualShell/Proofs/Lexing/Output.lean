import VirtualShell.Proofs.Lexing.Words

/-!
# The words of an output

The output of a command goes into text that is read for words. What is escaped in it is what would
mean something to that reader: in double quotes every byte is a letter of the word in progress, and
outside quotes every byte is but the separators (`output_reads_back`).

* `WordScan.Alike`: readings that differ in where an escape went back to, and read on alike.
* `WordScan.Quotes`: in quotes a word is in progress.
* `WordScan.readLiteral`: reading with no special bytes but separators.
* `WordScan.addRuns`: the same by the runs between separators, the first put to the word in
  progress and the last left in progress.
-/

namespace VirtualShell

namespace WordScan

/-! ## Readings that go on alike -/

/-- The same has been read; where an escape goes back to counts only within one. -/
structure Alike (s s' : WordScan) : Prop where
  same : s' = { s with resume := s'.resume }
  resume : s.state = .escaped → s'.resume = s.resume

namespace Alike

variable {s s' s'' : WordScan}

theorem refl (s : WordScan) : Alike s s := ⟨rfl, fun _ => rfl⟩

theorem trans (h : Alike s s') (h' : Alike s' s'') : Alike s s'' := by
  refine ⟨?_, fun escaped => ?_⟩
  · rw [h'.same, h.same]
  · have state : s'.state = .escaped := by rw [h.same, escaped]
    rw [h'.resume state, h.resume escaped]

theorem state_eq (h : Alike s s') : s'.state = s.state := by rw [h.same]

/-- Outside escapes the place to go back to makes no difference. -/
theorem of_resume (outside : s.state ≠ .escaped) (resume : LexState) :
    Alike s { s with resume } := ⟨rfl, fun escaped => absurd escaped outside⟩

theorem enter (h : Alike s s') {state : LexState} (outside : state ≠ .escaped) :
    Alike { s with state } { s' with state } :=
  ⟨by rw [h.same], fun escaped => absurd escaped outside⟩

theorem escape (h : Alike s s') (resume : LexState) :
    Alike { s with state := .escaped, resume } { s' with state := .escaped, resume } :=
  ⟨by rw [h.same], fun _ => rfl⟩

theorem openWord (h : Alike s s') : Alike s.openWord s'.openWord := ⟨by rw [h.same]; rfl, h.resume⟩

theorem addQuoted (h : Alike s s') (c : UInt8) : Alike (s.addQuoted c) (s'.addQuoted c) :=
  ⟨by rw [h.same]; rfl, h.resume⟩

theorem addUnquoted (h : Alike s s') (c : UInt8) : Alike (s.addUnquoted c) (s'.addUnquoted c) :=
  ⟨by rw [h.same]; rfl, h.resume⟩

theorem flush (h : Alike s s') : Alike s.flush s'.flush := by
  rw [h.same, WordScan.flush, WordScan.flush]
  dsimp only
  split
  · exact ⟨rfl, h.resume⟩
  · exact ⟨rfl, h.resume⟩

/-- Whatever comes next, it is read alike. -/
theorem step (h : Alike s s') (c : UInt8) : Alike (s.step c) (s'.step c) := by
  cases state : s.state with
  | escaped =>
    rw [h.same, h.resume state]
    exact refl _
  | singleQuoted =>
    rw [WordScan.step, WordScan.step, h.state_eq, state]
    dsimp only
    split
    · exact h.enter (by simp)
    · exact h.addQuoted c
  | doubleQuoted =>
    rw [WordScan.step, WordScan.step, h.state_eq, state]
    dsimp only
    split
    · exact h.escape _
    split
    · exact h.enter (by simp)
    · exact h.addQuoted c
  | normal =>
    rw [WordScan.step, WordScan.step, h.state_eq, state]
    dsimp only
    split
    · exact h.flush
    split
    · exact h.escape _
    split
    · exact h.openWord.enter (by simp)
    split
    · exact h.openWord.enter (by simp)
    · exact h.addUnquoted c

theorem read (h : Alike s s') (text : Bytes) : Alike (s.read text) (s'.read text) := by
  induction text generalizing s s' with
  | nil => exact h
  | cons c rest ih => exact ih (h.step c)

/-- What has been read alike makes the same words. -/
theorem finish_eq (h : Alike s s') : s'.finish = s.finish := by
  rw [finish, finish, h.flush.same]

end Alike

/-! ## In double quotes -/

section

variable {s : WordScan} {c : UInt8} {output : Bytes}

/-- Between quotes a word is in progress, though it may have no letters yet. -/
theorem exists_current_of_quoted {before : Bytes}
    (inside : (read {} before).state = .singleQuoted ∨ (read {} before).state = .doubleQuoted) :
    ∃ letters, (read {} before).current = some letters := by
  -- a step that ends in quotes has put a letter or opened them
  obtain rfl | ⟨text, c, rfl⟩ := List.eq_nil_or_concat before
  · rcases inside with inside | inside <;> cases inside
  rw [List.concat_eq_append, read_append] at inside ⊢
  generalize read {} text = s at inside ⊢
  change (s.step c).state = .singleQuoted ∨ (s.step c).state = .doubleQuoted at inside
  change ∃ letters, (s.step c).current = some letters
  revert inside
  rw [step]
  cases state : s.state with
  | escaped => exact fun _ => ⟨_, rfl⟩
  | singleQuoted =>
    dsimp only
    split
    · rintro (inside | inside) <;> cases inside
    · exact fun _ => ⟨_, rfl⟩
  | doubleQuoted =>
    dsimp only
    split
    · rintro (inside | inside) <;> cases inside
    split
    · rintro (inside | inside) <;> cases inside
    · exact fun _ => ⟨_, rfl⟩
  | normal =>
    dsimp only
    split
    · rintro (inside | inside) <;> cases (s.state_flush.trans state).symm.trans inside
    split
    · rintro (inside | inside) <;> cases inside
    split
    · exact fun _ => ⟨_, rfl⟩
    split
    · exact fun _ => ⟨_, rfl⟩
    · exact fun _ => ⟨_, rfl⟩

/-- In double quotes each byte of an output is a letter, escaped or not. -/
theorem read_escaped_of_doubleQuoted (inside : s.state = .doubleQuoted) (c : UInt8) :
    Alike (s.addQuoted c)
      (s.read (if isSpecialInOutput true c then [Ascii.backslash, c] else [c])) := by
  have unescaped : (s.addQuoted c).state ≠ .escaped := ne_of_eq_of_ne inside (by simp)
  split
  next special =>
    have escapable : isEscapableInQuotes c = true := by
      simp [isSpecialInOutput] at special
      rcases special with rfl | rfl <;> rfl
    have read : s.read [Ascii.backslash, c] = { s.addQuoted c with resume := .doubleQuoted } := by
      simp [WordScan.read, step, inside, escapable, addQuoted]
    rw [read]
    exact .of_resume unescaped _
  next plain =>
    have read : s.read [c] = s.addQuoted c := by
      simp [isSpecialInOutput] at plain
      simp [WordScan.read, step, inside, plain]
    rw [read]
    exact .refl _

theorem read_escapeOutput_of_doubleQuoted (inside : s.state = .doubleQuoted) (output : Bytes) :
    Alike (output.foldl addQuoted s) (s.read (escapeOutput true output)) := by
  induction output generalizing s with
  | nil => exact .refl s
  | cons c rest ih =>
    rw [List.foldl_cons, Delimiters.escapeOutput_cons, read_append]
    have first : (s.addQuoted c).state = .doubleQuoted := inside
    exact (ih first).trans ((read_escaped_of_doubleQuoted inside c).read _)

theorem foldl_addQuoted {letters : Bytes} (h : s.current = some letters) (output : Bytes) :
    output.foldl addQuoted s =
      { s with
        current := some (output.reverse ++ letters)
        quotedGlob := s.quotedGlob || output.any isGlobByte } := by
  induction output generalizing s letters with
  | nil => simp [← h]
  | cons c rest ih =>
    rw [List.foldl_cons, @ih (s.addQuoted c) (c :: letters) (by simp [addQuoted, h])]
    simp [addQuoted, Bool.or_assoc]

end

/-! ## Outside quotes -/

/-- Reads one byte, special only if it is a separator. -/
def stepLiteral (s : WordScan) (c : UInt8) : WordScan :=
  if isSeparator c then s.flush else s.addUnquoted c

/-- Reads a text in which no bytes but separators are special. -/
def readLiteral (s : WordScan) (text : Bytes) : WordScan := text.foldl stepLiteral s

/-- Puts unquoted bytes to the word in progress; without any, no word is started. -/
def addRun (s : WordScan) (run : Bytes) : WordScan :=
  if run = [] then s
  else
    { s with
      current := some (run.reverse ++ s.current.getD [])
      unquotedGlob := s.unquotedGlob || run.any isGlobByte }

/-- Puts runs of bytes to the words; each but the last ends its word. -/
def addRuns (s : WordScan) : List Bytes → WordScan
  | [] => s
  | [run] => s.addRun run
  | run :: next :: others => (s.addRun run).flush.addRuns (next :: others)

section

variable {s : WordScan} {c : UInt8} {output : Bytes}

theorem addRun_cons (s : WordScan) (c : UInt8) (run : Bytes) :
    s.addRun (c :: run) = (s.addUnquoted c).addRun run := by
  cases run with
  | nil => simp [addRun, addUnquoted]
  | cons d run => simp [addRun, addUnquoted, Bool.or_assoc]

theorem addRuns_cons_cons (s : WordScan) (c : UInt8) (run : Bytes) (others : List Bytes) :
    s.addRuns ((c :: run) :: others) = (s.addUnquoted c).addRuns (run :: others) := by
  cases others with
  | nil => exact s.addRun_cons c run
  | cons next others => rw [addRuns, addRuns, addRun_cons]

/-- Reading with separators as the only special bytes is reading the runs between them. -/
theorem readLiteral_eq_addRuns (s : WordScan) (text : Bytes) :
    s.readLiteral text = s.addRuns (text.splitOnP isSeparator) := by
  induction text generalizing s with
  | nil => rfl
  | cons c rest ih =>
    have next : s.readLiteral (c :: rest) = (s.stepLiteral c).readLiteral rest := rfl
    rw [next, ih, stepLiteral, List.splitOnP_cons_eq_if_modifyHead]
    cases runs : rest.splitOnP isSeparator with
    | nil => exact absurd runs (List.splitOnP_ne_nil _ _)
    | cons run others =>
      split
      · rfl
      · exact (s.addRuns_cons_cons c run others).symm

theorem state_stepLiteral (s : WordScan) (c : UInt8) : (s.stepLiteral c).state = s.state := by
  rw [stepLiteral]
  split
  · exact s.state_flush
  · rfl

theorem state_readLiteral (s : WordScan) (text : Bytes) : (s.readLiteral text).state = s.state := by
  induction text generalizing s with
  | nil => rfl
  | cons c rest ih => exact (ih _).trans (s.state_stepLiteral c)

/-- Outside quotes each byte of an output but the separators is a letter, escaped or not. An
escaped one makes its word no pattern and keeps none from being one. -/
theorem read_escaped_of_normal (outside : s.state = .normal) (c : UInt8) :
    Alike (s.stepLiteral c)
      (s.read (if isSpecialInOutput false c then [Ascii.backslash, c] else [c])) := by
  split
  next special =>
    have letter : isSeparator c = false ∧ isGlobByte c = false := by
      simp [isSpecialInOutput] at special
      rcases special with (rfl | rfl) | (rfl | rfl) | rfl <;> exact ⟨rfl, rfl⟩
    have read : s.read [Ascii.backslash, c] = { s.stepLiteral c with resume := .normal } := by
      have separator : isSeparator Ascii.backslash = false := rfl
      simp [WordScan.read, step, stepLiteral, outside, separator, letter, addQuoted, addUnquoted]
    rw [read]
    exact .of_resume (ne_of_eq_of_ne ((s.state_stepLiteral c).trans outside) (by simp)) _
  next plain =>
    have read : s.read [c] = s.stepLiteral c := by
      simp [isSpecialInOutput] at plain
      simp [WordScan.read, step, stepLiteral, outside, plain]
    rw [read]
    exact .refl _

theorem read_escapeOutput_of_normal (outside : s.state = .normal) (output : Bytes) :
    Alike (s.readLiteral output) (s.read (escapeOutput false output)) := by
  induction output generalizing s with
  | nil => exact .refl s
  | cons c rest ih =>
    have next : s.readLiteral (c :: rest) = (s.stepLiteral c).readLiteral rest := rfl
    rw [next, Delimiters.escapeOutput_cons, read_append]
    exact (ih ((s.state_stepLiteral c).trans outside)).trans
      ((read_escaped_of_normal outside c).read _)

end

/-- **An output reads back as the output**, in whatever text it stands. In double quotes it puts
just its bytes to the word in progress. Outside quotes it is read as if nothing but separators were
special: its runs of other bytes are words, the first and the last one with what stands beside. In
both places the text goes on as it was. -/
theorem output_reads_back (before output : Bytes) :
    ((read {} before).state = .doubleQuoted →
      (read {} (before ++ escapeOutput true output)).state = .doubleQuoted ∧
      ∃ letters, (read {} before).current = some letters ∧
        Alike
          { read {} before with
            current := some (output.reverse ++ letters)
            quotedGlob := (read {} before).quotedGlob || output.any isGlobByte }
          (read {} (before ++ escapeOutput true output))) ∧
    ((read {} before).state = .normal →
      (read {} (before ++ escapeOutput false output)).state = .normal ∧
      Alike ((read {} before).readLiteral output)
        (read {} (before ++ escapeOutput false output)) ∧
      (read {} before).readLiteral output =
        (read {} before).addRuns (output.splitOnP isSeparator) ∧
      ∀ after, words (before ++ escapeOutput false output ++ after) =
        (((read {} before).addRuns (output.splitOnP isSeparator)).read after).finish) := by
  refine ⟨fun inside => ?_, fun outside => ?_⟩
  · obtain ⟨letters, current⟩ := exists_current_of_quoted (.inr inside)
    have alike := read_escapeOutput_of_doubleQuoted inside output
    rw [foldl_addQuoted current, ← read_append] at alike
    exact ⟨alike.state_eq.trans inside, letters, current, alike⟩
  · have alike := read_escapeOutput_of_normal outside output
    rw [← read_append] at alike
    have state := alike.state_eq.trans ((state_readLiteral _ _).trans outside)
    have runs := (read {} before).readLiteral_eq_addRuns output
    refine ⟨state, alike, runs, fun after => ?_⟩
    rw [words, read_append, (alike.read after).finish_eq, runs]

/-- A quote, a redirect and a pattern in an output, behind a word in double quotes and behind one
outside quotes. -/
theorem output_reads_back_of_special :
    let output := ascii "a\\\"b' >c *d"
    (read {} (ascii "\"x")).state = .doubleQuoted ∧ (read {} (ascii "e x")).state = .normal ∧
      (∃ letters, (read {} (ascii "\"x")).current = some letters ∧ letters = ascii "x" ∧
        (read {} (ascii "\"x" ++ escapeOutput true output)).current =
          some (output.reverse ++ letters)) ∧
      words (ascii "e x" ++ escapeOutput false output ++ ascii "y z") =
        [⟨ascii "e", false⟩, ⟨ascii "xa\\\"b'", false⟩, ⟨ascii ">c", false⟩, ⟨ascii "*dy", true⟩,
          ⟨ascii "z", false⟩] := by
  intro output
  have inside : (read {} (ascii "\"x")).state = .doubleQuoted := by decide
  have outside : (read {} (ascii "e x")).state = .normal := by decide
  obtain ⟨-, letters, current, alike⟩ := (output_reads_back (ascii "\"x") output).1 inside
  obtain ⟨-, -, -, same⟩ := (output_reads_back (ascii "e x") output).2 outside
  refine ⟨inside, outside, ⟨letters, current, ?_, ?_⟩, ?_⟩
  · exact Option.some.inj (current.symm.trans (by decide))
  · rw [alike.same]
  · rw [same]
    decide +kernel

end WordScan

end VirtualShell
