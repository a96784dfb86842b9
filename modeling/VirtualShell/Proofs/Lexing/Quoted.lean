import Mathlib.Data.List.Chain
import VirtualShell.Lexing.Pieces
import VirtualShell.Lexing.Quoting
import VirtualShell.Lexing.Redirect
import VirtualShell.Lexing.Variable
import VirtualShell.Proofs.Lexing.Escaping

/-!
# Quoted words through every reader of a line

A line of quoted words is read by the expansion of variables, the three ways of cutting, the search
for substitutions and for redirects, and last by the reader of words. To all of them it is text in
single quotes with no more than blanks, letters, quotes and escaped quotes between (`Quoted`): the
first six leave it as it is, and the last gives back the words. What a line has to be for that is
`SpellsWords`, and `spellsWords_commandLine` says that lines of quoted words are so.
-/

namespace VirtualShell

/-! ## Quoted text -/

/-- The rest of a line of quoted words, from outside or inside the quotes. -/
inductive Quoted : Bool → Bytes → Prop
  | nil : Quoted false []
  | blank {rest : Bytes} : Quoted false rest → Quoted false (Ascii.space :: rest)
  | letter {c : UInt8} {rest : Bytes} : isLower c = true → Quoted false rest →
    Quoted false (c :: rest)
  | opening {rest : Bytes} : Quoted true rest → Quoted false (Ascii.quote :: rest)
  | escaped {rest : Bytes} :
    Quoted false rest → Quoted false (Ascii.backslash :: Ascii.quote :: rest)
  | byte {c : UInt8} {rest : Bytes} : c ≠ Ascii.quote → Quoted true rest → Quoted true (c :: rest)
  | closing {rest : Bytes} : Quoted false rest → Quoted true (Ascii.quote :: rest)

/-- A byte inside quotes, as it is written there. -/
def quoteByte (c : UInt8) : Bytes := if c = Ascii.quote then ascii "'\\''" else [c]

theorem quoteWord_eq (word : Bytes) :
    quoteWord word = Ascii.quote :: word.flatMap quoteByte ++ [Ascii.quote] := rfl

theorem Quoted.quoteWord_append (word : Bytes) {rest : Bytes} (h : Quoted false rest) :
    Quoted false (quoteWord word ++ rest) := by
  rw [quoteWord_eq, List.cons_append, List.cons_append, List.append_assoc]
  refine .opening ?_
  induction word with
  | nil => exact .closing h
  | cons c word ih =>
    rw [List.flatMap_cons, List.append_assoc, quoteByte]
    split
    · exact .closing (.escaped (.opening ih))
    next plain => exact .byte plain ih

theorem commandLine_singleton (word : Bytes) : commandLine [word] = quoteWord word := by
  simp [commandLine, Bytes.join, List.intercalate]

theorem commandLine_cons_cons (word next : Bytes) (words : List Bytes) :
    commandLine (word :: next :: words) =
      quoteWord word ++ Ascii.space :: commandLine (next :: words) := by
  simp [commandLine, Bytes.join, List.intercalate]

theorem quoted_commandLine (words : List Bytes) : Quoted false (commandLine words) := by
  induction words with
  | nil => exact .nil
  | cons word rest ih =>
    cases rest with
    | nil =>
      rw [commandLine_singleton, ← List.append_nil (quoteWord word)]
      exact .quoteWord_append word .nil
    | cons next rest =>
      rw [commandLine_cons_cons]
      exact .quoteWord_append word (.blank ih)

/-! ## Literal text -/

/-- A byte that a line of quoted words has outside quotes. -/
def isUnquotedByte (c : UInt8) : Bool :=
  c == Ascii.space || c == Ascii.quote || c == Ascii.backslash || isLower c

theorem ne_of_isLower {c b : UInt8} (h : isLower c = true) (other : isLower b = false) : c ≠ b := by
  rintro rfl
  rw [h] at other
  cases other

/-- A text is read byte by byte from one state to another. No dollar sign is read where it could
start something, and at top level there are no bytes but blanks, letters and those that quote. -/
inductive Delimiters.Literal : Delimiters → Bytes → Delimiters → Prop
  | nil {d : Delimiters} : Literal d [] d
  | feed {d d' : Delimiters} {c : UInt8} {rest : Bytes} :
    ¬ (c = Ascii.dollar ∧ d.admitsSubstitution = true) →
      (d.atTopLevel = true → isUnquotedByte c = true) → Literal (d.feed c) rest d' →
        Literal d (c :: rest) d'

namespace Delimiters

section
variable {d d' : Delimiters} {c : UInt8} {rest : Bytes}

theorem Literal.unquoted (h : isUnquotedByte c = true) (literal : (d.feed c).Literal rest d') :
    d.Literal (c :: rest) d' := by
  refine .feed (fun opens => ?_) (fun _ => h) literal
  rw [opens.1] at h
  cases h

theorem Literal.singleQuoted (h : d.state = .singleQuoted)
    (literal : (d.feed c).Literal rest d') : d.Literal (c :: rest) d' := by
  refine .feed (fun opens => ?_) (fun top => ?_) literal
  · rw [admitsSubstitution, h] at opens
    cases opens.2
  · rw [state_of_atTopLevel top] at h
    cases h

end

end Delimiters

/-- Quoted text is literal, and leaves nothing open. -/
theorem Quoted.literal {inside : Bool} {text : Bytes} (h : Quoted inside text) {d : Delimiters}
    (between : d.Between ⟨inside, false⟩) :
    ∃ d' : Delimiters, d'.Between ⟨false, false⟩ ∧ d.Literal text d' := by
  induction h generalizing d with
  | nil => exact ⟨d, between, .nil⟩
  | blank _ ih =>
    have same : d.feed Ascii.space = d :=
      between.feed_plain rfl (by decide) (by decide) (by decide) (by decide)
    obtain ⟨d', done, literal⟩ := ih (same.symm ▸ between)
    exact ⟨d', done, .unquoted rfl literal⟩
  | letter lower _ ih =>
    have same := between.feed_plain rfl (ne_of_isLower lower rfl)
      (fun quote => ne_of_isLower lower rfl quote.1) (ne_of_isLower lower rfl)
      (ne_of_isLower lower rfl)
    obtain ⟨d', done, literal⟩ := ih (same.symm ▸ between)
    exact ⟨d', done, .unquoted (by rw [isUnquotedByte, lower, Bool.or_true]) literal⟩
  | opening _ ih =>
    obtain ⟨d', done, literal⟩ := ih (between.feed_quote rfl rfl)
    exact ⟨d', done, .unquoted rfl literal⟩
  | escaped _ ih =>
    obtain ⟨d', done, literal⟩ := ih (between.feed_escape rfl Ascii.quote).2
    exact ⟨d', done, .unquoted rfl (.unquoted rfl literal)⟩
  | @byte c rest plain _ ih =>
    have stays : (c != Ascii.quote) = true := by simpa using plain
    have still : (d.feed c).Between ⟨true, false⟩ := stays ▸ between.feed_single rfl
    obtain ⟨d', done, literal⟩ := ih still
    exact ⟨d', done, .singleQuoted between.state literal⟩
  | closing _ ih =>
    obtain ⟨d', done, literal⟩ := ih (between.feed_single (c := Ascii.quote) rfl)
    exact ⟨d', done, .singleQuoted between.state literal⟩

/-! ## Reading references step by step -/

/-- A reference that can be read gives way to its value. -/
theorem expandVariablesFrom_reference {d : Delimiters} (admits : d.admitsSubstitution = true)
    {r : Reference} {rest rest' : Bytes} (found : Reference.read? rest = some (r, rest'))
    (value : Reference → Bytes) :
    expandVariablesFrom value d (Ascii.dollar :: rest) =
      value r ++ expandVariablesFrom value d rest' := by
  rw [expandVariablesFrom]
  split
  next eq =>
    rw [if_pos ⟨rfl, admits⟩, found] at eq
    obtain ⟨rfl, rfl⟩ := eq
    rfl
  next eq =>
    rw [if_pos ⟨rfl, admits⟩, found] at eq
    cases eq

theorem expandVariablesFrom_enter {d : Delimiters} (admits : d.admitsSubstitution = true)
    (value : Reference → Bytes) (rest : Bytes) :
    expandVariablesFrom value d (Ascii.dollar :: Ascii.openParen :: rest) =
      Ascii.dollar :: Ascii.openParen :: expandVariablesFrom value d.enter rest := by
  rw [expandVariablesFrom]
  split
  next eq =>
    rw [if_pos ⟨rfl, admits⟩] at eq
    cases eq
  next => exact if_pos ⟨rfl, rfl, admits⟩

/-- A byte that starts neither a reference nor a substitution stays. -/
theorem expandVariablesFrom_feed {d : Delimiters} {c : UInt8} {rest : Bytes}
    (noReference : c = Ascii.dollar → d.admitsSubstitution = true → Reference.read? rest = none)
    (plain : ¬ d.Opens c rest) (value : Reference → Bytes) :
    expandVariablesFrom value d (c :: rest) = c :: expandVariablesFrom value (d.feed c) rest := by
  rw [expandVariablesFrom]
  split
  next found =>
    split at found
    next starts =>
      rw [noReference starts.1 starts.2] at found
      cases found
    next => cases found
  next =>
    split
    next => exact if_neg (mt Delimiters.opens_cons_iff.2 plain)
    next => rw [expandVariablesFrom]

/-- **Along an expansion**: at the end, at a reference, at a `$(` that opens a substitution, and at
a byte that starts neither. -/
@[elab_as_elim] theorem Delimiters.expandingInduction {motive : Delimiters → Bytes → Prop}
    (nil : ∀ d, motive d [])
    (reference : ∀ d r rest behind, d.admitsSubstitution = true →
      Reference.read? rest = some (r, behind) → motive d behind → motive d (Ascii.dollar :: rest))
    (enter : ∀ d rest, d.admitsSubstitution = true → motive d.enter rest →
      motive d (Ascii.dollar :: Ascii.openParen :: rest))
    (feed : ∀ d c rest,
      (c = Ascii.dollar → d.admitsSubstitution = true → Reference.read? rest = none) →
      ¬ d.Opens c rest → motive (d.feed c) rest → motive d (c :: rest))
    (d : Delimiters) (text : Bytes) : motive d text := by
  fun_induction expandVariablesFrom (fun _ => []) d text with
  | case1 d => exact nil d
  | case2 d c rest r behind found shorter ih =>
    split at found
    next starts => exact starts.1 ▸ reference d r rest behind starts.2 found ih
    next => cases found
  | case3 d c o rest none opens ih =>
    obtain ⟨rfl, rfl, admits⟩ := opens
    exact enter d rest admits ih
  | case4 d c o rest none plain ih =>
    refine feed d c (o :: rest) (fun dollar admits => ?_) (mt Delimiters.opens_cons_iff.1 plain) ih
    rwa [if_pos ⟨dollar, admits⟩] at none
  | case5 d c none => exact feed d c [] (fun _ _ => rfl) Delimiters.not_opens_nil (nil _)

/-! ## Literal text stays as it is -/

theorem RedirectKind.read?_of_isUnquotedByte {c : UInt8} (h : isUnquotedByte c = true)
    (wordStart : Bool) (rest : Bytes) : RedirectKind.read? wordStart (c :: rest) = none := by
  simp only [isUnquotedByte, Bool.or_eq_true, beq_iff_eq] at h
  obtain ((rfl | rfl) | rfl) | lower := h
  · rfl
  · rfl
  · rfl
  · cases read : read? wordStart (c :: rest) with
    | none => rfl
    | some kind =>
      obtain ⟨tail, eq⟩ := List.isPrefixOf_iff_prefix.1 (symbol_isPrefixOf_of_read? read)
      obtain ⟨b, symbol, other⟩ : ∃ b, kind.symbol.head? = some b ∧ isLower b = false := by
        cases kind <;> exact ⟨_, rfl, rfl⟩
      have first := congrArg List.head? eq
      rw [List.head?_append, symbol] at first
      exact absurd (Option.some.inj first).symm (ne_of_isLower lower other)

namespace Delimiters.Literal

variable {d d' : Delimiters} {text : Bytes}

theorem not_opens {c : UInt8} {rest : Bytes}
    (h : ¬ (c = Ascii.dollar ∧ d.admitsSubstitution = true)) : ¬ d.Opens c rest :=
  fun opens => h ⟨opens.1, opens.2.2⟩

theorem read_eq (h : d.Literal text d') : d.read text = d' := by
  induction h with
  | nil => rfl
  | feed noDollar _ _ ih => rw [read_cons (not_opens noDollar), ih]

/-- The references of a literal text are none. -/
theorem expandVariablesFrom_eq (h : d.Literal text d') (value : Reference → Bytes) :
    expandVariablesFrom value d text = text := by
  induction h with
  | nil => rw [expandVariablesFrom]
  | feed noDollar _ _ ih =>
    rw [expandVariablesFrom_feed (fun dollar admits => absurd ⟨dollar, admits⟩ noDollar)
      (not_opens noDollar), ih]

/-- Each step of reading takes one byte, at top level one of few. -/
theorem taken_of_mem_marks (h : d.Literal text d') :
    ∀ m ∈ marks d text,
      ∃ c, m.taken = [c] ∧ (m.before.atTopLevel = true → isUnquotedByte c = true) := by
  induction h with
  | nil => simp
  | @feed d _ c rest noDollar quotes _ ih =>
    rw [marks_cons (not_opens noDollar)]
    rintro m (_ | ⟨_, mem⟩)
    · exact ⟨c, rfl, quotes⟩
    · exact ih m mem

theorem liftRedirectsFrom_eq (h : d.Literal text d') (previous : Option UInt8) :
    liftRedirectsFrom d previous text = (text, []) := by
  induction h generalizing previous with
  | nil => rw [liftRedirectsFrom]
  | @feed d _ c rest noDollar quotes _ ih =>
    have none : redirectAt? d previous (c :: rest) = none := by
      rw [redirectAt?]
      split
      next top =>
        rw [RedirectKind.read?_of_isUnquotedByte (quotes top)]
        rfl
      next => rfl
    rw [liftRedirectsFrom, none]
    dsimp only
    rw [if_neg fun opens => noDollar ⟨opens.1, opens.2.2⟩, ih]

/-- Any other byte is not read at top level. -/
theorem isTop_eq_false (h : d.Literal text d') {c : UInt8} (hc : isUnquotedByte c = false) :
    ∀ m ∈ marks d text, m.isTop c = false := by
  intro m mem
  obtain ⟨c', taken, quotes⟩ := h.taken_of_mem_marks m mem
  rw [Mark.isTop, taken]
  cases top : m.before.atTopLevel with
  | false => rw [Bool.and_false]
  | true =>
    rw [Bool.and_true, beq_eq_false_iff_ne]
    rintro ⟨⟩
    rw [quotes top] at hc
    cases hc

end Delimiters.Literal

/-- Where no step cuts, there is one piece. -/
theorem cutWhere_of_forall_mem {cuts : Option UInt8 → Mark → Option UInt8 → Bool}
    {steps : List Mark} (never : ∀ m ∈ steps, ∀ previous next, cuts previous m next = false)
    (previous : Option UInt8) : cutWhere cuts previous steps = [steps.flatMap Mark.taken] := by
  induction steps generalizing previous with
  | nil => rfl
  | cons m rest ih =>
    have others := ih (fun m mem => never m (.tail _ mem)) m.taken.getLast?
    rw [cutWhere, others, never m (.head _)]
    rfl

namespace LogicPart

/-- No operator stands at these steps. -/
def NoOperator (steps : List Mark) : Prop := steps.IsChain fun m n => connective? m n = none

theorem NoOperator.append_left {before steps : List Mark} (h : NoOperator steps)
    (never : ∀ m ∈ before, ∀ n, connective? m n = none) : NoOperator (before ++ steps) := by
  induction before with
  | nil => exact h
  | cons m before ih =>
    obtain ⟨here, behind⟩ := List.forall_mem_cons.1 never
    exact List.isChain_cons.2 ⟨fun n _ => here n, ih behind⟩

theorem noOperator_of_forall_mem {steps : List Mark}
    (never : ∀ m ∈ steps, ∀ n, connective? m n = none) : NoOperator steps := by
  rw [← List.append_nil steps]
  exact NoOperator.append_left List.isChain_nil never

/-- Where no operator stands, there is one part. -/
theorem raw_of_noOperator {steps : List Mark} (h : NoOperator steps) :
    raw steps = [⟨steps.flatMap Mark.taken, none⟩] := by
  fun_induction raw steps with
  | case1 => rfl
  | case2 m => simp
  | case3 m n rest op found => cases found.symm.trans (List.isChain_cons_cons.1 h).1
  | case4 m n rest found nothing ih =>
    rw [ih (List.isChain_cons_cons.1 h).2] at nothing
    cases nothing
  | case5 m n rest found first others eq ih =>
    rw [ih (List.isChain_cons_cons.1 h).2] at eq
    cases eq
    rfl

end LogicPart

/-! ## Lines of quoted words -/

section

theorem head?_commandLine (word : Bytes) (rest : List Bytes) :
    (commandLine (word :: rest)).head? = some Ascii.quote := by
  cases rest with
  | nil => rw [commandLine_singleton]; rfl
  | cons next rest => rw [commandLine_cons_cons]; rfl

theorem getLast?_commandLine (word : Bytes) (rest : List Bytes) :
    (commandLine (word :: rest)).getLast? = some Ascii.quote := by
  induction rest generalizing word with
  | nil => rw [commandLine_singleton, quoteWord_eq, List.getLast?_append]; rfl
  | cons next rest ih =>
    rw [commandLine_cons_cons, List.getLast?_append, List.getLast?_cons, ih]
    rfl

theorem commandLine_ne_nil (word : Bytes) (rest : List Bytes) :
    commandLine (word :: rest) ≠ [] := by
  intro nil
  have first := head?_commandLine word rest
  rw [nil] at first
  cases first

theorem trim_commandLine (word : Bytes) (rest : List Bytes) :
    Bytes.trim (commandLine (word :: rest)) = commandLine (word :: rest) := by
  refine Bytes.trim_eq_self ?_ ?_
  · rw [head?_commandLine]
    rintro _ ⟨⟩
    rfl
  · rw [getLast?_commandLine]
    rintro _ ⟨⟩
    rfl

theorem isComment_commandLine (word : Bytes) (rest : List Bytes) :
    isComment (commandLine (word :: rest)) = false := by
  have first := head?_commandLine word rest
  cases line : commandLine (word :: rest) with
  | nil => exact absurd line (commandLine_ne_nil word rest)
  | cons c text =>
    rw [line] at first
    obtain rfl : c = Ascii.quote := Option.some.inj first
    rw [isComment, Bytes.trimLeft, List.dropWhile_cons_of_neg (by decide)]
    rfl

end

/-! ## Substitutions -/

theorem TextPart.prepend_literal (text rest : Bytes) :
    prepend text (if rest.isEmpty then [] else [literal rest]) = [literal (text ++ rest)] := by
  cases rest with
  | nil => rw [List.append_nil]; rfl
  | cons c rest => rfl

/-- Quoted text has no substitutions. -/
theorem Quoted.substitutionsFrom_eq {inside : Bool} {text : Bytes} (h : Quoted inside text) :
    substitutionsFrom ⟨inside, false⟩ text = if text.isEmpty then [] else [.literal text] := by
  induction h with
  | nil => rw [substitutionsFrom]; rfl
  | @blank rest _ ih =>
    have step : substitutionsFrom ⟨false, false⟩ (Ascii.space :: rest) =
        TextPart.prepend [Ascii.space] (substitutionsFrom ⟨false, false⟩ rest) := by
      rw [substitutionsFrom]
      rfl
    rw [step, ih, TextPart.prepend_literal]
    rfl
  | @letter c rest lower _ ih =>
    have step : substitutionsFrom ⟨false, false⟩ (c :: rest) =
        TextPart.prepend [c] (substitutionsFrom ⟨false, false⟩ rest) := by
      have other {b : UInt8} : isLower b = false → c ≠ b := ne_of_isLower lower
      rw [substitutionsFrom, if_neg (by decide), if_neg (other rfl), if_neg fun h => other rfl h.1,
        if_neg (other rfl), if_neg fun h => other rfl h.1, if_neg (other rfl)]
    rw [step, ih, TextPart.prepend_literal]
    rfl
  | @opening rest _ ih =>
    have step : substitutionsFrom ⟨false, false⟩ (Ascii.quote :: rest) =
        TextPart.prepend [Ascii.quote] (substitutionsFrom ⟨true, false⟩ rest) := by
      rw [substitutionsFrom]
      rfl
    rw [step, ih, TextPart.prepend_literal]
    rfl
  | @escaped rest _ ih =>
    have step : substitutionsFrom ⟨false, false⟩ (Ascii.backslash :: Ascii.quote :: rest) =
        TextPart.prepend [Ascii.backslash, Ascii.quote]
          (substitutionsFrom ⟨false, false⟩ rest) := by
      rw [substitutionsFrom]
      rfl
    rw [step, ih, TextPart.prepend_literal]
    rfl
  | @byte c rest plain _ ih =>
    rw [substitutionsFrom]
    have stays : (c != Ascii.quote) = true := by simpa using plain
    simp only [if_true, stays, ih, TextPart.prepend_literal]
    rfl
  | @closing rest _ ih =>
    rw [substitutionsFrom]
    simp only [if_true, bne_self_eq_false, ih, TextPart.prepend_literal]
    rfl

/-! ## Words -/

namespace WordScan

theorem read_cons (s : WordScan) (c : UInt8) (text : Bytes) :
    s.read (c :: text) = (s.step c).read text := rfl

/-- Inside quotes the bytes of a word are put into the word in progress. -/
theorem exists_read_flatMap_quoteByte (word letters : Bytes) {s : WordScan}
    (inside : s.state = .singleQuoted) (current : s.current = some letters) :
    ∃ quotedGlob resume, s.read (word.flatMap quoteByte) =
      { s with current := some (word.reverse ++ letters), quotedGlob, resume } := by
  induction word generalizing s letters with
  | nil => exact ⟨s.quotedGlob, s.resume, by simp [← current]⟩
  | cons c word ih =>
    rw [List.flatMap_cons, read_append]
    have taken : ∃ quotedGlob resume, s.read (quoteByte c) =
        { s with current := some (c :: letters), quotedGlob, resume } := by
      obtain ⟨_, _, _, _, _, _⟩ := s
      obtain rfl := inside
      obtain rfl := current
      rw [quoteByte]
      split
      next quote =>
        obtain rfl := quote
        exact ⟨_, _, rfl⟩
      next plain => exact ⟨_, _, if_neg plain⟩
    obtain ⟨glob, resume, taken⟩ := taken
    obtain ⟨glob', resume', others⟩ := ih (c :: letters) (s := s.read (quoteByte c))
      (by rw [taken]; exact inside) (by rw [taken])
    refine ⟨glob', resume', ?_⟩
    rw [others, taken]
    simp

theorem exists_read_quoteWord (word : Bytes) {s : WordScan} (normal : s.state = .normal)
    (fresh : s.current = none) :
    ∃ quotedGlob resume, s.read (quoteWord word) =
      { s with current := some word.reverse, quotedGlob, resume } := by
  obtain ⟨_, resume, _, unquotedGlob, quotedGlob, done⟩ := s
  obtain rfl := normal
  obtain rfl := fresh
  obtain ⟨glob, resume', inside⟩ := exists_read_flatMap_quoteByte word []
    (s := ⟨.singleQuoted, resume, some [], unquotedGlob, quotedGlob, done⟩) rfl rfl
  have opened : step ⟨.normal, resume, none, unquotedGlob, quotedGlob, done⟩ Ascii.quote =
      ⟨.singleQuoted, resume, some [], unquotedGlob, quotedGlob, done⟩ := rfl
  refine ⟨glob, resume', ?_⟩
  rw [quoteWord_eq, read_append, read_cons _ Ascii.quote (word.flatMap _), opened, inside,
    List.append_nil]
  rfl

/-- Behind a line of quoted words those words are read, and no quote is open. -/
theorem read_commandLine (word : Bytes) (rest : List Bytes) {s : WordScan}
    (normal : s.state = .normal) (fresh : s.current = none) (noGlob : s.unquotedGlob = false) :
    (s.read (commandLine (word :: rest))).state = .normal
      ∧ (s.read (commandLine (word :: rest))).finish =
          s.done.reverse ++ (word :: rest).map (⟨·, false⟩) := by
  induction rest generalizing word s with
  | nil =>
    obtain ⟨glob, resume, read⟩ := exists_read_quoteWord word normal fresh
    rw [commandLine_singleton, read]
    exact ⟨normal, by simp [finish, flush, noGlob]⟩
  | cons next rest ih =>
    obtain ⟨glob, resume, read⟩ := exists_read_quoteWord word normal fresh
    have flushed : step { s with current := some word.reverse, quotedGlob := glob, resume }
        Ascii.space = { s with
          current := none, unquotedGlob := false, quotedGlob := false, resume
          done := ⟨word.reverse.reverse, false⟩ :: s.done } := by
      obtain ⟨_, _, _, _, _, _⟩ := s
      obtain rfl := normal
      obtain rfl := noGlob
      rfl
    rw [List.reverse_reverse] at flushed
    obtain ⟨state, finish⟩ := ih next (s := { s with
      current := none, unquotedGlob := false, quotedGlob := false, resume
      done := ⟨word, false⟩ :: s.done }) normal rfl rfl
    rw [commandLine_cons_cons, read_append, read, read_cons, flushed]
    refine ⟨state, ?_⟩
    rw [finish]
    simp

end WordScan

/-- **Quoting.** The words of a line of quoted words are the words that were quoted, and none of
them is a pattern. -/
theorem words_commandLine (l : List Bytes) : words (commandLine l) = l.map (⟨·, false⟩) := by
  cases l with
  | nil => rfl
  | cons word rest => exact (WordScan.read_commandLine word rest rfl rfl rfl).2

theorem openQuote?_commandLine (word : Bytes) (rest : List Bytes) :
    openQuote? (commandLine (word :: rest)) = none := by
  rw [openQuote?, (WordScan.read_commandLine word rest rfl rfl rfl).1]

/-! ## Lines that spell words -/

/-- A line is read as words, none of them a pattern: it is quoted text with no blanks at its ends,
and no comment. -/
structure SpellsWords (line : Bytes) (l : List Bytes) : Prop where
  quoted : Quoted false line
  ne_nil : line ≠ []
  trim_eq : Bytes.trim line = line
  isComment_eq : isComment line = false
  words_eq : words line = l.map (⟨·, false⟩)
  openQuote?_eq : openQuote? line = none

theorem spellsWords_commandLine (word : Bytes) (rest : List Bytes) :
    SpellsWords (commandLine (word :: rest)) (word :: rest) where
  quoted := quoted_commandLine _
  ne_nil := commandLine_ne_nil word rest
  trim_eq := trim_commandLine word rest
  isComment_eq := isComment_commandLine word rest
  words_eq := words_commandLine _
  openQuote?_eq := openQuote?_commandLine word rest

namespace SpellsWords

variable {line : Bytes} {l : List Bytes} (h : SpellsWords line l)
include h

theorem literal : ∃ d' : Delimiters, d'.Between ⟨false, false⟩ ∧ Delimiters.Literal {} line d' :=
  h.quoted.literal ⟨rfl, rfl, rfl, fun h => nomatch h⟩

theorem isEmpty_eq : line.isEmpty = false := List.isEmpty_eq_false_iff.2 h.ne_nil

/-- The one piece that the line is cut into. -/
theorem trimmedPieces_eq : trimmedPieces [line] = [line] := by
  simp [trimmedPieces, h.trim_eq, h.isEmpty_eq]

theorem expandVariables_eq (value : Reference → Bytes) : expandVariables value line = line := by
  obtain ⟨_, _, literal⟩ := h.literal
  exact literal.expandVariablesFrom_eq value

theorem unterminated_eq : (Delimiters.read {} line).unterminated = false := by
  obtain ⟨d', done, literal⟩ := h.literal
  rw [literal.read_eq, Delimiters.unterminated, Delimiters.atTopLevel, done.state, done.enclosing,
    done.inBacktick]
  rfl

theorem liftRedirects_eq : liftRedirects line = (line, []) := by
  obtain ⟨_, _, literal⟩ := h.literal
  exact literal.liftRedirectsFrom_eq none

theorem statements_eq : statements line = [line] := by
  obtain ⟨_, _, literal⟩ := h.literal
  rw [statements, rawStatements, cutWhere_of_forall_mem fun m mem _ _ =>
    literal.isTop_eq_false rfl m mem, flatMap_taken_marks, h.trimmedPieces_eq]

theorem segments_eq : segments line = [line] := by
  obtain ⟨_, _, literal⟩ := h.literal
  rw [segments, rawSegments, cutWhere_of_forall_mem fun m mem _ _ => by
    rw [isPipe, literal.isTop_eq_false rfl m mem]; rfl, flatMap_taken_marks, h.trimmedPieces_eq]

theorem logicParts_eq : logicParts line = [⟨line, none⟩] := by
  obtain ⟨_, _, literal⟩ := h.literal
  have never : ∀ m ∈ marks {} line, ∀ n, LogicPart.connective? m n = none := by
    intro m mem n
    rw [LogicPart.connective?, literal.isTop_eq_false rfl m mem, literal.isTop_eq_false rfl m mem]
    rfl
  rw [logicParts, LogicPart.raw_of_noOperator (LogicPart.noOperator_of_forall_mem never),
    flatMap_taken_marks]
  simp [LogicPart.push, h.trim_eq, h.isEmpty_eq]

theorem substitutions_eq : substitutions line = [.literal line] := by
  have none := h.quoted.substitutionsFrom_eq
  rwa [h.isEmpty_eq] at none

end SpellsWords

end VirtualShell
