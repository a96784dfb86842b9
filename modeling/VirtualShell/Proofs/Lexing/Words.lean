import VirtualShell.Proofs.Lexing.Splitting

/-!
# Words and the pieces they are read from

A line is cut by a reader that keeps track of delimiters, and what is cut out is taken apart by one
that makes words.

* Where there is neither a backtick nor a `$(` the two go through the same states
  (`Delimiters.InStep`), so a byte is at top level just if it is in no quotes for the words either
  (`quoting_agrees`).
* Each piece is trimmed before its words are read, whatever the quotes: a separator at its end that
  is quoted or escaped is a letter of a word, and is lost (`words_trim_iff`). No other piece changes
  its words (`words_of_piece_iff`).
-/

namespace VirtualShell

namespace WordScan

/-- The byte that comes next is in quotes or behind a backslash. -/
def inQuotes (s : WordScan) : Bool := s.state != .normal

theorem inQuotes_eq_false {s : WordScan} : s.inQuotes = false ↔ s.state = .normal := by
  simp [inQuotes]

theorem state_flush (s : WordScan) : s.flush.state = s.state := by
  unfold flush
  split <;> rfl

theorem resume_flush (s : WordScan) : s.flush.resume = s.resume := by
  unfold flush
  split <;> rfl

theorem flush_flush (s : WordScan) : s.flush.flush = s.flush := by
  rw [flush.eq_def s]
  split
  next none => rw [flush, none]
  next => rfl

end WordScan

/-! ## Two readers in step -/

/-- The two readers are in the same quotes, and nothing else is open. -/
structure Delimiters.InStep (d : Delimiters) (s : WordScan) : Prop where
  state : d.state = s.state
  resume : d.resume = s.resume
  enclosing : d.enclosing = []
  inBacktick : d.inBacktick = false

section

variable {c : UInt8} {text rest after : Bytes} {d : Delimiters}

theorem not_opens_of_noSubstitution (h : ¬ ascii "$(" <:+: c :: rest) : ¬ d.Opens c rest := by
  rintro ⟨rfl, first, -⟩
  obtain ⟨behind, rfl⟩ := List.head?_eq_some_iff.1 first
  exact h ⟨[], behind, rfl⟩

theorem noSubstitution_of_cons (h : ¬ ascii "$(" <:+: c :: rest) : ¬ ascii "$(" <:+: rest :=
  fun within => h (within.trans (List.suffix_cons c rest).isInfix)

/-- Without a `$(` a text is read alike in one go and in two. -/
theorem marks_append_of_noSubstitution (h : ¬ ascii "$(" <:+: text ++ after) :
    marks d (text ++ after) = marks d text ++ marks (d.read text) after := by
  induction text generalizing d with
  | nil => rfl
  | cons c rest ih =>
    have alone : ¬ ascii "$(" <:+: c :: rest := fun within =>
      h (within.trans (List.prefix_append _ after).isInfix)
    rw [List.cons_append] at h ⊢
    rw [marks_cons (not_opens_of_noSubstitution h), marks_cons (not_opens_of_noSubstitution alone),
      Delimiters.read_cons (not_opens_of_noSubstitution alone), ih (noSubstitution_of_cons h),
      List.cons_append]

end

namespace Delimiters.InStep

variable {d : Delimiters} {s : WordScan} (h : d.InStep s)
include h

theorem atTopLevel : d.atTopLevel = !s.inQuotes := by
  rw [Delimiters.atTopLevel, WordScan.inQuotes, h.state, h.enclosing, h.inBacktick, bne,
    Bool.not_not]
  exact (Bool.and_true _).trans (Bool.and_true _)

/-- Any byte but a backtick moves both readers alike. -/
theorem step {c : UInt8} (plain : c ≠ Ascii.backtick) : (d.feed c).InStep (s.step c) := by
  obtain ⟨state, resume, enclosing, inBacktick⟩ := h
  cases now : s.state with
  | escaped =>
    rw [Delimiters.feed, state, now, WordScan.step, now]
    dsimp only [WordScan.addQuoted]
    split <;> exact ⟨resume, resume, enclosing, inBacktick⟩
  | singleQuoted =>
    rw [Delimiters.feed, state, now, WordScan.step, now]
    dsimp only
    split
    · exact ⟨rfl, resume, enclosing, inBacktick⟩
    · exact ⟨state, resume, enclosing, inBacktick⟩
  | doubleQuoted =>
    rw [Delimiters.feed, state, now, WordScan.step, now]
    dsimp only
    rw [if_neg plain]
    split
    · exact ⟨rfl, rfl, enclosing, inBacktick⟩
    · split
      · exact ⟨rfl, resume, enclosing, inBacktick⟩
      · exact ⟨state, resume, enclosing, inBacktick⟩
  | normal =>
    have state := state.trans now
    rw [WordScan.step, now]
    dsimp only
    split
    next separator =>
      rw [feed_eq_self_of_isPlain state (isPlain_of_isSeparator separator)]
      exact ⟨by rw [s.state_flush, state, now], by rw [s.resume_flush, resume], enclosing,
        inBacktick⟩
    split
    next escape =>
      rw [escape, feed_backslash (.inl state)]
      exact ⟨rfl, state, enclosing, inBacktick⟩
    split
    next quote =>
      rw [quote, feed_quote state]
      exact ⟨rfl, resume, enclosing, inBacktick⟩
    split
    next quote =>
      rw [quote, feed_doubleQuote state]
      exact ⟨rfl, resume, enclosing, inBacktick⟩
    next escape quote doubleQuote =>
      -- outside substitutions a parenthesis is a letter
      have same : d.feed c = d := by
        simp [Delimiters.feed, state, enclosing, escape, quote, doubleQuote, plain]
      rw [same]
      exact ⟨state.trans now.symm, resume, enclosing, inBacktick⟩

/-- Two readers in step stay so through a text. -/
theorem read {text : Bytes} (noBacktick : Ascii.backtick ∉ text)
    (noSubstitution : ¬ ascii "$(" <:+: text) : (d.read text).InStep (s.read text) := by
  induction text generalizing d s with
  | nil => exact h
  | cons c rest ih =>
    obtain ⟨plain, others⟩ := not_or.1 (mt List.mem_cons.2 noBacktick)
    rw [read_cons (not_opens_of_noSubstitution noSubstitution), WordScan.read_cons]
    exact ih (h.step (Ne.symm plain)) others (noSubstitution_of_cons noSubstitution)

end Delimiters.InStep

/-- **Delimiters and words agree on quotes.** In a text with no backtick and no `$(`, both readers
are in the same state behind every prefix, that of an escape to come back to included. So a byte is
at top level just if it is in no quoted or escaped part of a word. -/
theorem quoting_agrees {text before after : Bytes} (noBacktick : Ascii.backtick ∉ text)
    (noSubstitution : ¬ ascii "$(" <:+: text) (split : before ++ after = text) :
    marks {} text = marks {} before ++ marks (Delimiters.read {} before) after ∧
      (Delimiters.read {} before).state = (WordScan.read {} before).state ∧
      (Delimiters.read {} before).resume = (WordScan.read {} before).resume ∧
      (Delimiters.read {} before).atTopLevel = !(WordScan.read {} before).inQuotes := by
  subst split
  have inStep : (Delimiters.read {} before).InStep (WordScan.read {} before) :=
    Delimiters.InStep.read ⟨rfl, rfl, rfl, rfl⟩
      (fun mem => noBacktick (List.mem_append_left _ mem))
      (fun within => noSubstitution (within.trans (List.prefix_append _ after).isInfix))
  exact ⟨marks_append_of_noSubstitution noSubstitution, inStep.state, inStep.resume,
    inStep.atTopLevel⟩

/-- An escape in double quotes comes back to them, and a quote left open goes on to the end. -/
theorem quoting_agrees_in_escape :
    let text := ascii "echo \"a\\\" | b\" 'c ; d"
    let before := ascii "echo \"a\\"
    let after := ascii "\" | b\" 'c ; d"
    (Ascii.backtick ∉ text ∧ ¬ ascii "$(" <:+: text ∧ before ++ after = text) ∧
      (Delimiters.read {} before).state = .escaped ∧
      (WordScan.read {} before).resume = .doubleQuoted ∧
      marks {} text = marks {} before ++ marks (Delimiters.read {} before) after ∧
      (Delimiters.read {} before).state = (WordScan.read {} before).state ∧
      (Delimiters.read {} before).resume = (WordScan.read {} before).resume ∧
      (Delimiters.read {} before).atTopLevel = !(WordScan.read {} before).inQuotes := by
  intro text before after
  have noBacktick : Ascii.backtick ∉ text := by decide
  have noSubstitution : ¬ ascii "$(" <:+: text := by decide
  exact ⟨⟨noBacktick, noSubstitution, rfl⟩, by decide, by decide,
    quoting_agrees noBacktick noSubstitution rfl⟩

/-! ## Separators that are letters -/

section

variable {s : WordScan} {blank text : Bytes} {c : UInt8}

namespace WordScan

/-- How many letters the words have so far. -/
def letters (s : WordScan) : Nat := (s.done.flatMap Word.text).length + (s.current.getD []).length

theorem letters_flush (s : WordScan) : s.flush.letters = s.letters := by
  rw [flush.eq_def]
  split
  next => rfl
  next word current =>
    simp only [letters, current, List.flatMap_cons, List.length_append, List.length_reverse,
      Option.getD_some, Option.getD_none, List.length_nil]
    omega

theorem letters_addQuoted (s : WordScan) (c : UInt8) : (s.addQuoted c).letters = s.letters + 1 :=
  rfl

/-- The words read in the end have just those letters. -/
theorem letters_eq (s : WordScan) : s.letters = (s.finish.reverse.flatMap Word.text).length := by
  have none : s.flush.current = none := by
    unfold flush
    split <;> first | assumption | rfl
  rw [← s.letters_flush, finish, List.reverse_reverse, letters, none]
  rfl

/-- Outside quotes a separator is no letter. -/
theorem step_separator (separator : isSeparator c = true) (outside : s.inQuotes = false) :
    s.step c = s.flush := by
  rw [step, inQuotes_eq_false.1 outside]
  exact if_pos separator

/-- In quotes it is one. -/
theorem letters_lt_step (separator : isSeparator c = true) (inside : s.inQuotes = true) :
    s.letters < (s.step c).letters := by
  have other {b : UInt8} (hb : isSeparator b = false) : c ≠ b := by
    rintro rfl
    cases separator.symm.trans hb
  have grows : s.letters < (s.addQuoted c).letters := by
    rw [letters_addQuoted]
    exact Nat.lt_succ_self _
  rw [step]
  cases state : s.state with
  | normal => cases (inQuotes_eq_false.2 state).symm.trans inside
  | singleQuoted =>
    dsimp only
    rwa [if_neg (other rfl)]
  | doubleQuoted =>
    dsimp only
    rwa [if_neg (other rfl), if_neg (other rfl)]
  | escaped =>
    show s.letters < (addQuoted (if _ then _ else s) c).letters
    rw [letters_addQuoted, Nat.lt_succ_iff]
    split
    · simp [letters]
    · exact Nat.le_refl _

theorem letters_le_read (h : IsBlank blank) : s.letters ≤ (s.read blank).letters := by
  induction blank generalizing s with
  | nil => exact Nat.le_refl _
  | cons c blank ih =>
    obtain ⟨separator, rest⟩ := List.forall_mem_cons.1 h
    refine Nat.le_trans ?_ (ih rest)
    cases inside : s.inQuotes with
    | true => exact Nat.le_of_lt (letters_lt_step separator inside)
    | false => rw [step_separator separator inside, letters_flush]

theorem finish_read_blank (h : IsBlank blank) (outside : s.inQuotes = false) :
    (s.read blank).finish = s.finish := by
  induction blank generalizing s with
  | nil => rfl
  | cons c blank ih =>
    obtain ⟨separator, rest⟩ := List.forall_mem_cons.1 h
    rw [read_cons, step_separator separator outside, ih rest, finish, flush_flush, finish]
    rw [inQuotes, state_flush]
    exact outside

end WordScan

/-- Blanks before a text change no words. -/
theorem words_blank_append (h : IsBlank blank) (text : Bytes) :
    words (blank ++ text) = words text := by
  induction blank with
  | nil => rfl
  | cons c blank ih =>
    obtain ⟨separator, rest⟩ := List.forall_mem_cons.1 h
    rw [← ih rest, words, words, List.cons_append, WordScan.read_cons,
      WordScan.step_separator separator rfl]
    rfl

/-- Blanks behind a text change its words just if they start in quotes. -/
theorem words_append_blank_iff (h : IsBlank blank) (text : Bytes) :
    words (text ++ blank) = words text ↔
      ¬ (blank ≠ [] ∧ (WordScan.read {} text).inQuotes = true) := by
  rw [words, words, WordScan.read_append]
  cases inside : (WordScan.read {} text).inQuotes with
  | false => simp [WordScan.finish_read_blank h inside]
  | true =>
    cases blank with
    | nil => simp
    | cons c blank =>
      obtain ⟨separator, rest⟩ := List.forall_mem_cons.1 h
      have more : (WordScan.read {} text).letters <
          ((WordScan.read {} text).read (c :: blank)).letters :=
        Nat.lt_of_lt_of_le (WordScan.letters_lt_step separator inside)
          (WordScan.letters_le_read rest)
      have differ : ((WordScan.read {} text).read (c :: blank)).finish ≠
          (WordScan.read {} text).finish := by
        intro same
        rw [WordScan.letters_eq, WordScan.letters_eq, same] at more
        exact Nat.lt_irrefl _ more
      simp [differ]

end

/-- The separators at the end of a text start in quotes or behind a backslash. -/
def EndsQuoted (text : Bytes) : Prop :=
  Bytes.trimRight text ≠ text ∧ (WordScan.read {} (Bytes.trimRight text)).inQuotes = true

instance (text : Bytes) : Decidable (EndsQuoted text) := inferInstanceAs (Decidable (_ ∧ _))

/-- Trimming keeps the words of a text just if none of them has a letter in what is taken off. -/
theorem words_trim_iff (text : Bytes) :
    words (Bytes.trim text) = words text ↔ ¬ EndsQuoted text := by
  obtain ⟨before, hb, left⟩ := Bytes.exists_eq_append_trimLeft (Bytes.trimRight text)
  obtain ⟨after, ha, right⟩ := Bytes.exists_eq_trimRight_append text
  have start : words (Bytes.trimRight text) = words (Bytes.trim text) :=
    (congrArg words left).trans (words_blank_append hb _)
  have none : Bytes.trimRight text = text ↔ after = [] := by
    constructor
    · exact fun same => List.self_eq_append_right.1 (same.trans right)
    · rintro rfl
      exact (right.trans (List.append_nil _)).symm
  rw [← start, EndsQuoted, ne_eq, none, ← ne_eq, ← words_append_blank_iff ha, ← right, eq_comm]

/-! ## Pieces of a line -/

/-- Where a line is cut. -/
inductive Stage
  | statement
  | part
  | segment
  | command

/-- The text of a command is what is left of the segment, trimmed. -/
theorem Command.text_of_read {segment : Bytes} {command : Command}
    (h : Command.read segment = .ok command) :
    command.text = Bytes.trim (liftRedirects segment).1 := by
  unfold Command.read at h
  dsimp only at h
  split at h
  · obtain rfl := Except.ok.inj h
    rfl
  · cases h

namespace Stage

/-- What is cut out of a line, as it stands there. -/
def raw (line : Bytes) : Stage → List Bytes
  | statement => rawStatements line
  | part => (LogicPart.raw (marks {} line)).map (·.command)
  | segment => rawSegments line
  | command => [(liftRedirects line).1]

/-- What is given back of it. -/
def pieces (line : Bytes) : Stage → List Bytes
  | statement => statements line
  | part => (logicParts line).map (·.command)
  | segment => segments line
  | command =>
    match Command.read line with
    | .ok found => [found.text]
    | .error _ => []

theorem exists_raw_of_mem_pieces {line piece : Bytes} {stage : Stage}
    (h : piece ∈ stage.pieces line) : ∃ text ∈ stage.raw line, Bytes.trim text = piece := by
  cases stage with
  | statement => exact (mem_trimmedPieces.1 h).1
  | segment => exact (mem_trimmedPieces.1 h).1
  | part =>
    obtain ⟨part, mem, rfl⟩ := List.mem_map.1 h
    rw [logicParts, List.mem_reverse] at mem
    obtain ⟨q, mem, -⟩ | ⟨raw, mem, eq, -⟩ := LogicPart.mem_foldl_push mem
    · cases mem
    · exact ⟨_, List.mem_map_of_mem mem, eq.symm⟩
  | command =>
    rw [pieces] at h
    split at h
    next found eq =>
      obtain rfl := List.mem_singleton.1 h
      exact ⟨_, List.mem_singleton_self _, (Command.text_of_read eq).symm⟩
    next => cases h

end Stage

/-- **What trimming does to words.** Each piece that a line is cut into is the trimming of what
stands in the line, and has the same words just if that does not end in separators that are quoted
or escaped. -/
theorem words_of_piece_iff (line : Bytes) (stage : Stage) :
    (∀ piece ∈ stage.pieces line, ∃ text ∈ stage.raw line, Bytes.trim text = piece) ∧
      ∀ text ∈ stage.raw line, words (Bytes.trim text) = words text ↔ ¬ EndsQuoted text :=
  ⟨fun _ => Stage.exists_raw_of_mem_pieces, fun text _ => words_trim_iff text⟩

/-- A separator in quotes that are closed behind it is kept, as is one behind an escape. -/
theorem words_of_piece_iff_of_closed :
    let line := ascii " echo 'a ' b\\ \\; ; ls"
    let text := ascii " echo 'a ' b\\ \\; "
    text ∈ Stage.statement.raw line ∧ ¬ EndsQuoted text ∧
      (∃ text ∈ Stage.statement.raw line, Bytes.trim text = ascii "ls") ∧
      words (Bytes.trim text) = words text := by
  intro line text
  have mem : text ∈ Stage.statement.raw line := by decide
  have closed : ¬ EndsQuoted text := by decide
  obtain ⟨pieces, same⟩ := words_of_piece_iff line .statement
  exact ⟨mem, closed, pieces _ (by decide), (same text mem).2 closed⟩

/-- A separator behind a backslash is lost with the statement's end. -/
theorem words_trim_ne_of_escaped : ¬ ∀ (line : Bytes) (stage : Stage), ∀ text ∈ stage.raw line,
    words (Bytes.trim text) = words text := fun h =>
  absurd (h (ascii "echo a\\ ;echo b") .statement (ascii "echo a\\ ") (by decide)) (by decide)

end VirtualShell
