import VirtualShell.Lexing.Substitution

/-!
# Reading an escaped output

The output of a command goes back into text with the bytes escaped that end quotes and redirect.
What is not escaped are a backtick and `$(`: they open something, which the output may leave open.

* `Delimiters.Alike`: delimiters that read on in the same way.
* `Delimiters.Between`: the quotes that a search for substitutions sees around a place.
* `Delimiters.readingInduction`: an induction along a reading, a case for each kind of step.
* `Delimiters.Quiet`: a text is read from one state to another, and all of it that is at top level
  is of a given kind.
* `Between.quiet_escapeOutput`: an escaped output is read so, with no operator at top level; if it
  closes what it opens, it leaves everything as it was.
-/

namespace VirtualShell

/-! ## Delimiters that read on alike -/

namespace Delimiters

/-- The same is open; where an escape goes back to counts only if there is one. -/
structure Alike (d d' : Delimiters) : Prop where
  state : d'.state = d.state
  enclosing : d'.enclosing = d.enclosing
  inBacktick : d'.inBacktick = d.inBacktick
  resume : .escaped ∈ d.state :: d.enclosing → d'.resume = d.resume

namespace Alike

variable {d d' d'' : Delimiters}

theorem refl (d : Delimiters) : Alike d d := ⟨rfl, rfl, rfl, fun _ => rfl⟩

theorem trans (h : Alike d d') (h' : Alike d' d'') : Alike d d'' := by
  refine ⟨h'.state.trans h.state, h'.enclosing.trans h.enclosing,
    h'.inBacktick.trans h.inBacktick, fun escaped => ?_⟩
  have escaped' := escaped
  rw [← h.state, ← h.enclosing] at escaped'
  exact (h'.resume escaped').trans (h.resume escaped)

theorem atTopLevel (h : Alike d d') : d'.atTopLevel = d.atTopLevel := by
  rw [Delimiters.atTopLevel, h.state, h.enclosing, h.inBacktick, ← Delimiters.atTopLevel]

theorem admitsSubstitution (h : Alike d d') : d'.admitsSubstitution = d.admitsSubstitution := by
  rw [Delimiters.admitsSubstitution, h.state, ← Delimiters.admitsSubstitution]

theorem enter (h : Alike d d') : Alike d.enter d'.enter := by
  refine ⟨rfl, by rw [Delimiters.enter, Delimiters.enter, h.state, h.enclosing], h.inBacktick,
    fun escaped => h.resume ?_⟩
  simpa [Delimiters.enter] using escaped

theorem feed (h : Alike d d') (c : UInt8) : Alike (d.feed c) (d'.feed c) := by
  obtain ⟨state, resume, inBacktick, enclosing⟩ := d
  obtain ⟨state', resume', inBacktick', enclosing'⟩ := d'
  obtain ⟨rfl, rfl, rfl, resumes⟩ := h
  cases state' with
  | escaped =>
    obtain rfl : resume' = resume := resumes List.mem_cons_self
    exact refl _
  | singleQuoted | doubleQuoted | normal =>
    simp only [Delimiters.feed]
    repeat' split
    all_goals
      refine ⟨rfl, rfl, rfl, fun escaped => ?_⟩
      first
      | rfl
      | exact resumes (by simp_all)

/-- All places at top level are alike. -/
theorem of_atTopLevel (h : d.atTopLevel = true) (h' : d'.atTopLevel = true) : Alike d d' := by
  simp only [Delimiters.atTopLevel, Bool.and_eq_true, beq_iff_eq, List.isEmpty_iff,
    Bool.not_eq_true'] at h h'
  obtain ⟨⟨state, enclosing⟩, inBacktick⟩ := h
  obtain ⟨⟨state', enclosing'⟩, inBacktick'⟩ := h'
  refine ⟨state'.trans state.symm, enclosing'.trans enclosing.symm,
    inBacktick'.trans inBacktick.symm, fun escaped => ?_⟩
  rw [state, enclosing] at escaped
  simp at escaped

end Alike

end Delimiters

/-! ## Delimiters between quotes -/

/-- The delimiters between the quotes that a search for substitutions has seen. -/
structure Delimiters.Between (d : Delimiters) (q : QuoteState) : Prop where
  state : d.state =
    if q.single then .singleQuoted else if q.double then .doubleQuoted else .normal
  enclosing : d.enclosing = []
  inBacktick : d.inBacktick = false
  apart : q.single = true → q.double = false

namespace Delimiters.Between

variable {d d' : Delimiters} {q : QuoteState} {c : UInt8}

theorem feed_single (h : d.Between q) (single : q.single = true) :
    (d.feed c).Between { q with single := c != Ascii.quote } := by
  have state := h.state
  rw [single, if_pos rfl] at state
  have double := h.apart single
  rw [feed, state]
  by_cases closes : c = Ascii.quote
  · simp only [closes, if_true]
    exact ⟨by simp [double], h.enclosing, h.inBacktick, fun _ => double⟩
  · simp only [if_neg closes]
    exact ⟨by simp [state, closes], h.enclosing, h.inBacktick, fun _ => double⟩

/-- Outside single quotes a text is in double quotes or in none. -/
theorem outside (h : d.Between q) (single : q.single = false) :
    d.state = if q.double then .doubleQuoted else .normal := by
  rw [h.state, single]
  rfl

/-- A backslash outside single quotes takes the next byte with it. -/
theorem feed_escape (h : d.Between q) (single : q.single = false) (c : UInt8) :
    (d.feed Ascii.backslash).state = .escaped ∧
      ((d.feed Ascii.backslash).feed c).Between q := by
  have open_ : d.state = .normal ∨ d.state = .doubleQuoted := by
    rw [h.outside single]
    cases q.double with
    | false => exact .inl rfl
    | true => exact .inr rfl
  rw [feed_backslash open_]
  exact ⟨rfl, h.state, h.enclosing, h.inBacktick, h.apart⟩

theorem feed_quote (h : d.Between q) (single : q.single = false) (double : q.double = false) :
    (d.feed Ascii.quote).Between { q with single := true } := by
  have state := h.outside single
  rw [double] at state
  rw [Delimiters.feed_quote state]
  exact ⟨rfl, h.enclosing, h.inBacktick, fun _ => double⟩

theorem feed_doubleQuote (h : d.Between q) (single : q.single = false) :
    (d.feed Ascii.doubleQuote).Between { q with double := !q.double } := by
  have state := h.outside single
  cases double : q.double with
  | false =>
    rw [double] at state
    rw [Delimiters.feed_doubleQuote state]
    exact ⟨by rw [single]; rfl, h.enclosing, h.inBacktick, by simp [single]⟩
  | true =>
    rw [double] at state
    rw [feed_doubleQuote_of_doubleQuoted state]
    exact ⟨by rw [single]; rfl, h.enclosing, h.inBacktick, by simp [single]⟩

/-- Any other byte outside single quotes leaves them as they are. -/
theorem feed_plain (h : d.Between q) (single : q.single = false) (noEscape : c ≠ Ascii.backslash)
    (noQuote : ¬ (c = Ascii.quote ∧ (!q.double) = true)) (noDouble : c ≠ Ascii.doubleQuote)
    (noBacktick : c ≠ Ascii.backtick) : d.feed c = d := by
  have state := h.outside single
  cases double : q.double with
  | true =>
    rw [double] at state
    simp [feed, state, noEscape, noDouble, noBacktick]
  | false =>
    rw [double] at state noQuote
    have noQuote : c ≠ Ascii.quote := by simpa using noQuote
    simp [feed, state, h.enclosing, noEscape, noQuote, noDouble, noBacktick]

theorem unquoted (h : d.Between q) (single : q.single = false) : d.Between ⟨false, q.double⟩ := by
  obtain ⟨quoted, double⟩ := q
  obtain rfl : quoted = false := single
  exact h

theorem of_alike (h : d.Between q) (alike : d.Alike d') : d'.Between q :=
  ⟨alike.state.trans h.state, alike.enclosing.trans h.enclosing,
    alike.inBacktick.trans h.inBacktick, h.apart⟩

/-- At top level no quotes are open. -/
theorem unquoted_of_atTopLevel (h : d.Between q) (top : d.atTopLevel = true) :
    q.double = false := by
  have state := h.state
  rw [state_of_atTopLevel top] at state
  cases double : q.double with
  | false => rfl
  | true =>
    rw [double] at state
    split at state <;> cases state

/-- What is between the same quotes is alike. -/
theorem alike (h : d.Between q) (h' : d'.Between q) : d.Alike d' := by
  refine ⟨h'.state.trans h.state.symm, h'.enclosing.trans h.enclosing.symm,
    h'.inBacktick.trans h.inBacktick.symm, fun escaped => ?_⟩
  rw [h.state, h.enclosing, List.mem_singleton] at escaped
  repeat' split at escaped
  all_goals cases escaped

end Delimiters.Between

/-! ## Reading byte by byte -/

namespace Delimiters

/-- A `$(` stands here that opens a substitution. -/
def Opens (d : Delimiters) (c : UInt8) (rest : Bytes) : Prop :=
  c = Ascii.dollar ∧ rest.head? = some Ascii.openParen ∧ d.admitsSubstitution = true

theorem not_opens_nil {d : Delimiters} {c : UInt8} : ¬ d.Opens c [] := fun opens =>
  nomatch opens.2.1

theorem opens_cons_iff {d : Delimiters} {c o : UInt8} {rest : Bytes} :
    d.Opens c (o :: rest) ↔
      c = Ascii.dollar ∧ o = Ascii.openParen ∧ d.admitsSubstitution = true := by
  rw [Opens, List.head?_cons, Option.some.injEq]

/-- **Along a reading**: at the end, at a `$(` that opens a substitution, and at a byte that is read
on its own. -/
@[elab_as_elim] theorem readingInduction {motive : Delimiters → Bytes → Prop}
    (nil : ∀ d, motive d [])
    (enter : ∀ d rest, d.admitsSubstitution = true → motive d.enter rest →
      motive d (Ascii.dollar :: Ascii.openParen :: rest))
    (feed : ∀ d c rest, ¬ d.Opens c rest → motive (d.feed c) rest → motive d (c :: rest))
    (d : Delimiters) (text : Bytes) : motive d text := by
  fun_induction marks d text with
  | case1 d => exact nil d
  | case2 d c => exact feed d c [] not_opens_nil (nil _)
  | case3 d c o rest opens ih =>
    obtain ⟨rfl, rfl, admits⟩ := opens
    exact enter d rest admits ih
  | case4 d c o rest plain ih => exact feed d c (o :: rest) (mt opens_cons_iff.1 plain) ih

end Delimiters

section
variable {d d' : Delimiters} {c : UInt8} {rest : Bytes}

theorem marks_cons (h : ¬ d.Opens c rest) :
    marks d (c :: rest) = ⟨[c], d, d.feed c⟩ :: marks (d.feed c) rest := by
  cases rest with
  | nil => rfl
  | cons o rest =>
    rw [marks, if_neg (mt Delimiters.opens_cons_iff.2 h)]

theorem marks_enter (h : d.admitsSubstitution = true) :
    marks d (Ascii.dollar :: Ascii.openParen :: rest) =
      ⟨[Ascii.dollar, Ascii.openParen], d, d.enter⟩ :: marks d.enter rest :=
  if_pos ⟨rfl, rfl, h⟩

namespace Delimiters

theorem read_of_marks {m : Mark} {text : Bytes} (h : marks d text = m :: marks m.after rest) :
    d.read text = m.after.read rest := by
  rw [read, h, List.getLast?_cons, read]
  cases (marks m.after rest).getLast? <;> rfl

theorem read_cons (h : ¬ d.Opens c rest) : d.read (c :: rest) = (d.feed c).read rest :=
  read_of_marks (marks_cons h)

theorem read_enter (h : d.admitsSubstitution = true) :
    d.read (Ascii.dollar :: Ascii.openParen :: rest) = d.enter.read rest :=
  read_of_marks (marks_enter h)

theorem Alike.opens_iff (alike : d.Alike d') : d'.Opens c rest ↔ d.Opens c rest := by
  rw [Opens, Opens, alike.admitsSubstitution]

/-- What is alike stays alike. -/
theorem Alike.read (alike : d.Alike d') (text : Bytes) : (d.read text).Alike (d'.read text) := by
  induction d, text using readingInduction generalizing d' with
  | nil d => exact alike
  | enter d rest admits ih =>
    rw [read_enter admits, read_enter (alike.admitsSubstitution.trans admits)]
    exact ih alike.enter
  | feed d c rest plain ih =>
    rw [read_cons plain, read_cons (mt alike.opens_iff.1 plain)]
    exact ih (alike.feed c)

/-- A text is read from one state to another, and what is read at top level is plain. -/
inductive Quiet (plain : UInt8 → Prop) : Delimiters → Bytes → Delimiters → Prop
  | nil {d : Delimiters} : Quiet plain d [] d
  | enter {d d' : Delimiters} {rest : Bytes} :
    d.admitsSubstitution = true → Quiet plain d.enter rest d' →
      Quiet plain d (Ascii.dollar :: Ascii.openParen :: rest) d'
  | feed {d d' : Delimiters} {c : UInt8} {rest : Bytes} :
    ¬ d.Opens c rest → (d.atTopLevel = true → plain c) → Quiet plain (d.feed c) rest d' →
      Quiet plain d (c :: rest) d'

theorem Quiet.read_eq {plain : UInt8 → Prop} {text : Bytes} (h : Quiet plain d text d') :
    d.read text = d' := by
  induction h with
  | nil => rfl
  | enter admits _ ih => rw [read_enter admits, ih]
  | feed single _ _ ih => rw [read_cons single, ih]

end Delimiters

/-- Without a `$(` at their border, a dollar at the end of a text opens nothing behind it. -/
theorem not_opens_append {text after : Bytes} (h : ¬ d.Opens c text)
    (border : ¬ ((c :: text).getLast? = some Ascii.dollar ∧
      after.head? = some Ascii.openParen)) : ¬ d.Opens c (text ++ after) := by
  rintro ⟨rfl, opens, admits⟩
  cases text with
  | nil => exact border ⟨rfl, opens⟩
  | cons o text => exact h ⟨rfl, opens, admits⟩

end

/-! ## Escaped outputs -/

namespace Delimiters

/-- What can be around a place in an output that is escaped: outside double quotes never a quote,
and in them always those quotes. -/
def Within (d : Delimiters) : Bool → Prop
  | false => ∀ outer ∈ d.state :: d.enclosing, outer = .normal
  | true =>
    (d.state :: d.enclosing).getLast? = some .doubleQuoted ∧ .escaped ∉ d.state :: d.enclosing

namespace Within

variable {d d' : Delimiters} {inDoubleQuotes : Bool} {c : UInt8}

theorem of_between (h : d.Between ⟨false, inDoubleQuotes⟩) : d.Within inDoubleQuotes := by
  have state := h.outside rfl
  cases inDoubleQuotes <;> simp [Within, state, h.enclosing]

/-- What is open is what has been entered, unless it has all been left. -/
theorem between (h : d.Within inDoubleQuotes) (enclosing : d.enclosing = [])
    (inBacktick : d.inBacktick = false) : d.Between ⟨false, inDoubleQuotes⟩ := by
  refine ⟨?_, enclosing, inBacktick, fun quoted => by cases quoted⟩
  cases inDoubleQuotes <;> simp_all [Within]

theorem unquoted_of_atTopLevel (h : d.Within inDoubleQuotes) (top : d.atTopLevel = true) :
    inDoubleQuotes = false := by
  simp only [atTopLevel, Bool.and_eq_true, beq_iff_eq, List.isEmpty_iff] at top
  cases inDoubleQuotes with
  | false => rfl
  | true => simp [Within, top.1.1, top.1.2] at h

theorem enter (h : d.Within inDoubleQuotes) : d.enter.Within inDoubleQuotes := by
  cases inDoubleQuotes with
  | false => exact List.forall_mem_cons.2 ⟨rfl, h⟩
  | true => simp_all [Within, Delimiters.enter, List.getLast?_cons]

/-- Inside a substitution another state changes nothing around it. -/
theorem move (h : d.Within true) (inside : d.state ≠ .doubleQuoted)
    (stays : d'.enclosing = d.enclosing) (unescaped : d'.state ≠ .escaped) : d'.Within true := by
  obtain ⟨bottom, noEscape⟩ := h
  rw [List.mem_cons, not_or] at noEscape
  rw [List.getLast?_cons] at bottom
  refine ⟨?_, by rw [stays, List.mem_cons, not_or]; exact ⟨unescaped.symm, noEscape.2⟩⟩
  rw [stays, List.getLast?_cons]
  cases last : d.enclosing.getLast? with
  | none =>
    rw [last] at bottom
    exact absurd (Option.some.inj bottom) inside
  | some outer =>
    rw [last] at bottom
    exact bottom

/-- A byte that is not escaped. -/
theorem feed (h : d.Within inDoubleQuotes) (plain : isSpecialInOutput inDoubleQuotes c = false) :
    (d.feed c).Within inDoubleQuotes := by
  simp only [isSpecialInOutput, Bool.or_eq_false_iff, beq_eq_false_iff_ne] at plain
  obtain ⟨⟨noEscape, noDouble⟩, others⟩ := plain
  cases inDoubleQuotes with
  | false =>
    obtain ⟨state, around⟩ := List.forall_mem_cons.1 h
    simp only [Bool.not_false, Bool.true_and, Bool.or_eq_false_iff, beq_eq_false_iff_ne] at others
    rw [Delimiters.feed, state]
    dsimp only
    rw [if_neg noEscape, if_neg others.1.1, if_neg noDouble]
    split
    · split
      · exact h
      · exact List.forall_mem_cons.2 ⟨rfl, List.forall_mem_cons.2 ⟨rfl, around⟩⟩
    split
    · cases enclosing : d.enclosing with
      | nil => exact h
      | cons outer others =>
        rw [enclosing] at around
        exact around
    split
    · exact List.forall_mem_cons.2 ⟨rfl, around⟩
    · exact h
  | true =>
    cases state : d.state with
    | escaped => exact absurd (state ▸ List.mem_cons_self) h.2
    | doubleQuoted =>
      rw [Delimiters.feed, state]
      dsimp only
      rw [if_neg noEscape, if_neg noDouble]
      split
      · rw [Within, state] at h
        exact h
      · exact h
    | singleQuoted =>
      have inside : d.state ≠ .doubleQuoted := by simp [state]
      rw [Delimiters.feed, state]
      dsimp only
      split
      · exact h.move inside rfl (by simp)
      · exact h
    | normal =>
      have inside : d.state ≠ .doubleQuoted := by simp [state]
      rw [Delimiters.feed, state]
      dsimp only
      rw [if_neg noEscape, if_neg noDouble]
      split
      · exact h.move inside rfl (by simp)
      split
      · split
        · exact h
        · simp_all [Within, List.getLast?_cons]
      split
      · cases enclosing : d.enclosing with
        | nil => exact h
        | cons outer others => simp_all [Within, List.getLast?_cons]
      split
      · exact h.move inside rfl (by simp)
      · exact h

theorem state_ne_escaped (h : d.Within inDoubleQuotes) : d.state ≠ .escaped := by
  intro state
  cases inDoubleQuotes with
  | false => cases state.symm.trans (h _ List.mem_cons_self)
  | true => exact absurd (state ▸ List.mem_cons_self) h.2

/-- A byte that is escaped, with the backslash before it. In single quotes both are read as they
are. -/
theorem feed_escape (h : d.Within inDoubleQuotes)
    (special : isSpecialInOutput inDoubleQuotes c = true) :
    ((d.feed Ascii.backslash).feed c).Within inDoubleQuotes ∧
      (d.feed Ascii.backslash).atTopLevel = false := by
  cases state : d.state with
  | escaped => exact absurd state h.state_ne_escaped
  | singleQuoted =>
    obtain rfl : inDoubleQuotes = true := by
      cases inDoubleQuotes with
      | true => rfl
      | false => cases state.symm.trans (h _ List.mem_cons_self)
    have noQuote : c ≠ Ascii.quote := by
      rintro rfl
      cases special
    have first : d.feed Ascii.backslash = d := by
      rw [Delimiters.feed, state]
      rfl
    have second : d.feed c = d := by
      rw [Delimiters.feed, state]
      exact if_neg noQuote
    rw [first, second]
    exact ⟨h, by rw [atTopLevel, state]; rfl⟩
  | normal =>
    rw [feed_backslash (.inl state)]
    exact ⟨h, rfl⟩
  | doubleQuoted =>
    rw [feed_backslash (.inr state)]
    exact ⟨h, rfl⟩

end Within

theorem escapeOutput_cons (inDoubleQuotes : Bool) (c : UInt8) (rest : Bytes) :
    escapeOutput inDoubleQuotes (c :: rest) =
      (if isSpecialInOutput inDoubleQuotes c then [Ascii.backslash, c] else [c]) ++
        escapeOutput inDoubleQuotes rest :=
  List.flatMap_cons

theorem escapeOutput_openParen (inDoubleQuotes : Bool) (rest : Bytes) :
    escapeOutput inDoubleQuotes (Ascii.openParen :: rest) =
      Ascii.openParen :: escapeOutput inDoubleQuotes rest := by
  rw [escapeOutput_cons]
  cases inDoubleQuotes <;> rfl

/-- An escaped output that starts with a parenthesis does so before it is escaped. -/
theorem exists_of_head?_escapeOutput {inDoubleQuotes : Bool} {output : Bytes}
    (h : (escapeOutput inDoubleQuotes output).head? = some Ascii.openParen) :
    ∃ rest, output = Ascii.openParen :: rest := by
  cases output with
  | nil => cases h
  | cons c rest =>
    rw [escapeOutput_cons] at h
    split at h
    · cases h
    · exact ⟨rest, by rw [Option.some.inj h]⟩

/-- An escaped output is read with no operator at top level. -/
theorem Within.quiet_escapeOutput {plain : UInt8 → Prop} {d : Delimiters} {inDoubleQuotes : Bool}
    (output : Bytes) (h : d.Within inDoubleQuotes)
    (allowed : inDoubleQuotes = false → ∀ c ∈ escapeOutput inDoubleQuotes output,
      c ≠ Ascii.greater → c ≠ Ascii.less → plain c) :
    ∃ d', Quiet plain d (escapeOutput inDoubleQuotes output) d' ∧ d'.Within inDoubleQuotes := by
  match output with
  | [] => exact ⟨d, .nil, h⟩
  | c :: rest =>
    rw [escapeOutput_cons] at allowed ⊢
    have allowedRest := fun quoted c mem => allowed quoted c (List.mem_append_right _ mem)
    cases special : isSpecialInOutput inDoubleQuotes c with
    | true =>
      rw [special, if_pos rfl] at allowed
      rw [if_pos rfl]
      obtain ⟨again, covered⟩ := h.feed_escape special
      obtain ⟨d', quiet, within⟩ := Within.quiet_escapeOutput rest again allowedRest
      refine ⟨d', .feed (fun opens => absurd opens.1 (by decide)) (fun top => ?_)
        (.feed (fun opens => ?_) (fun top => ?_) quiet), within⟩
      · exact allowed (h.unquoted_of_atTopLevel top) _ List.mem_cons_self (by decide) (by decide)
      · obtain ⟨rfl, -⟩ := opens
        cases inDoubleQuotes <;> cases special
      · rw [covered] at top
        cases top
    | false =>
      rw [special, if_neg Bool.false_ne_true] at allowed
      rw [if_neg Bool.false_ne_true, List.singleton_append]
      by_cases opens : d.Opens c (escapeOutput inDoubleQuotes rest)
      · obtain ⟨rfl, second, admits⟩ := opens
        obtain ⟨others, rfl⟩ := exists_of_head?_escapeOutput second
        obtain ⟨d', quiet, within⟩ := Within.quiet_escapeOutput others h.enter
          fun quoted c mem => allowedRest quoted c (by
            rw [escapeOutput_openParen]
            exact List.mem_cons_of_mem _ mem)
        rw [escapeOutput_openParen]
        exact ⟨d', .enter admits quiet, within⟩
      · obtain ⟨d', quiet, within⟩ := Within.quiet_escapeOutput rest (h.feed special) allowedRest
        refine ⟨d', .feed opens (fun top => ?_) quiet, within⟩
        obtain rfl : inDoubleQuotes = false := h.unquoted_of_atTopLevel top
        simp only [isSpecialInOutput, Bool.not_false, Bool.true_and, Bool.or_eq_false_iff,
          beq_eq_false_iff_ne] at special
        exact allowed rfl c List.mem_cons_self special.2.1.2 special.2.2
termination_by output.length

/-- Between double quotes, or outside all quotes. -/
def around (inDoubleQuotes : Bool) : Delimiters :=
  { state := if inDoubleQuotes then .doubleQuoted else .normal }

/-- The text leaves no substitution and no backtick open. -/
def Closes (inDoubleQuotes : Bool) (text : Bytes) : Prop :=
  ((around inDoubleQuotes).read text).enclosing = [] ∧
    ((around inDoubleQuotes).read text).inBacktick = false

instance (inDoubleQuotes : Bool) (text : Bytes) : Decidable (Closes inDoubleQuotes text) :=
  inferInstanceAs (Decidable (_ ∧ _))

/-- **An escaped output that closes what it opens** leaves everything as it was. -/
theorem Between.quiet_escapeOutput {plain : UInt8 → Prop} {d : Delimiters} {inDoubleQuotes : Bool}
    {output : Bytes} (between : d.Between ⟨false, inDoubleQuotes⟩)
    (closes : Closes inDoubleQuotes (escapeOutput inDoubleQuotes output))
    (allowed : inDoubleQuotes = false → ∀ c ∈ escapeOutput inDoubleQuotes output,
      c ≠ Ascii.greater → c ≠ Ascii.less → plain c) :
    ∃ d', Quiet plain d (escapeOutput inDoubleQuotes output) d' ∧ d.Alike d' := by
  obtain ⟨d', quiet, within⟩ := (Within.of_between between).quiet_escapeOutput output allowed
  have start : (around inDoubleQuotes).Between ⟨false, inDoubleQuotes⟩ :=
    ⟨rfl, rfl, rfl, fun quoted => by cases quoted⟩
  have same := (start.alike between).read (escapeOutput inDoubleQuotes output)
  rw [quiet.read_eq] at same
  have left := within.between (same.enclosing.trans closes.1) (same.inBacktick.trans closes.2)
  exact ⟨d', quiet, between.alike left⟩

end Delimiters

end VirtualShell
