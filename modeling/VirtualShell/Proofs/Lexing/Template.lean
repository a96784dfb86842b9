import VirtualShell.Lexing.Redirect
import VirtualShell.Proofs.Lexing.Filling

/-!
# Redirects before the commands have run

A row of symbols has redirects of its own, its *templates*: operators among its bytes, each with the
symbols of a target. In a template an output is no separator and part of no operator; what makes
that true of the text in the end is that every output is *inert* where it goes.

* `redirectTemplates`: the templates of a segment.
* `Inert`: what is asked of outputs. They close what they open and make no `$(` at their ends; they
  make no `2` a word of its own before a `>`, set none apart behind them, and neither cut a target
  nor leave it empty.
* `targetFrom_fillAll`: the target that is read in the text is that of the template, filled in.
-/

namespace VirtualShell

/-! ## Templates -/

/-- Separators and operators end a target. -/
def isTargetEnd (c : UInt8) : Bool :=
  isSeparator c || c == Ascii.greater || c == Ascii.less

/-- They do so at top level. -/
def Delimiters.endsTargetAt (d : Delimiters) (c : UInt8) : Bool := d.atTopLevel && isTargetEnd c

/-- The symbols of a target that starts at the first one. -/
def sourceFrom (d : Delimiters) (symbols : List Symbol) : List Symbol :=
  match symbols with
  | [] => []
  | .output index inDoubleQuotes :: rest => .output index inDoubleQuotes :: sourceFrom d rest
  | .byte c :: rest =>
    if d.endsTargetAt c then []
    else if Symbol.Opens d c rest then
      .byte c :: .byte Ascii.openParen :: sourceFrom d.enter (rest.drop 1)
    else .byte c :: sourceFrom (d.feed c) rest
termination_by symbols.length
decreasing_by
  all_goals simp only [List.length_cons, List.length_drop]
  all_goals omega

/-- An operator with the symbols of its target. -/
structure RedirectTemplate where
  kind : RedirectKind
  source : List Symbol
  deriving DecidableEq

namespace RedirectTemplate

def fill (answers : Nat → Captured) (t : RedirectTemplate) : RawRedirect :=
  ⟨t.kind, fillAll answers t.source⟩

/-- The commands whose outputs are in the target. -/
def outputs (t : RedirectTemplate) : List Nat :=
  t.source.filterMap fun
    | .byte _ => none
    | .output index _ => some index

end RedirectTemplate

namespace Symbol

/-- The bytes before the first output. -/
def leading : List Symbol → Bytes
  | .byte c :: rest => c :: leading rest
  | _ => []

/-- A space or a tab, not in an output. -/
def isBlank : Symbol → Bool
  | byte c => c == Ascii.space || c == Ascii.tab
  | output _ _ => false

end Symbol

/-- The operator that the first symbols make at a place. -/
def operatorAt? (d : Delimiters) (wordStart : Bool) (symbols : List Symbol) : Option RedirectKind :=
  if d.atTopLevel then RedirectKind.read? wordStart (Symbol.leading symbols) else none

/-- The redirects in a row of symbols. An output is no separator, and part of no operator. -/
def templatesFrom (d : Delimiters) (wordStart : Bool) (symbols : List Symbol) :
    List RedirectTemplate :=
  match symbols with
  | [] => []
  | .output _ _ :: rest => templatesFrom d false rest
  | .byte c :: rest =>
    match operatorAt? d wordStart (.byte c :: rest) with
    | some kind =>
      -- an operator takes at least its first byte
      let target := (rest.drop (kind.symbol.length - 1)).dropWhile Symbol.isBlank
      let source := sourceFrom {} target
      ⟨kind, source⟩ :: templatesFrom d false (target.drop source.length)
    | none =>
      if Symbol.Opens d c rest then templatesFrom d.enter false (rest.drop 1)
      else templatesFrom (d.feed c) (isSeparator c) rest
termination_by symbols.length
decreasing_by
  · simp
  · have := (List.dropWhile_suffix Symbol.isBlank
      (l := rest.drop (kind.symbol.length - 1))).length_le
    simp only [List.length_drop, List.length_cons] at this ⊢
    omega
  · simp only [List.length_cons, List.length_drop]
    omega
  · simp

/-- The redirects of a segment, before its commands have run. -/
def redirectTemplates (segment : Bytes) : List RedirectTemplate :=
  templatesFrom {} true (symbols segment)

/-! ## Outputs that are read as data -/

/-- The last word is `2` so far. -/
def endsInTwo (text : Bytes) : Bool :=
  text.getLast? == some Ascii.two && text.dropLast.getLast?.all isSeparator

/-- The output that stands between two texts means nothing to the reader of redirects. -/
structure InertBetween (before output after : Bytes) (inDoubleQuotes : Bool) : Prop where
  /-- It closes the substitutions and the backticks that it opens. -/
  closes : Delimiters.Closes inDoubleQuotes output
  /-- It makes no `$(` of a dollar before it. -/
  noOpening : ¬ (before.getLast? = some Ascii.dollar ∧
    (output ++ after).head? = some Ascii.openParen)
  /-- It makes no `$(` of a parenthesis behind it. -/
  noOpener : ¬ (output.getLast? = some Ascii.dollar ∧ after.head? = some Ascii.openParen)
  /-- It makes no `2` stand alone before a `>`. -/
  noDescriptor : inDoubleQuotes = false → after.head? = some Ascii.greater →
    endsInTwo (before ++ output) = false
  /-- It sets no `2>` apart that comes behind it. -/
  noWordStart : inDoubleQuotes = false → ascii "2>" <+: after →
    (before ++ output).getLast?.all isSeparator = false

instance (before output after : Bytes) (inDoubleQuotes : Bool) :
    Decidable (InertBetween before output after inDoubleQuotes) :=
  decidable_of_iff (Delimiters.Closes inDoubleQuotes output ∧
    (¬ (before.getLast? = some Ascii.dollar ∧
      (output ++ after).head? = some Ascii.openParen)) ∧
    (¬ (output.getLast? = some Ascii.dollar ∧ after.head? = some Ascii.openParen)) ∧
    (inDoubleQuotes = false → after.head? = some Ascii.greater →
      endsInTwo (before ++ output) = false) ∧
    (inDoubleQuotes = false → ascii "2>" <+: after →
      (before ++ output).getLast?.all isSeparator = false))
    ⟨fun ⟨h1, h2, h3, h4, h5⟩ => ⟨h1, h2, h3, h4, h5⟩,
      fun ⟨h1, h2, h3, h4, h5⟩ => ⟨h1, h2, h3, h4, h5⟩⟩

/-- Every output among the symbols means nothing, with this text before them. -/
def InertFrom (answers : Nat → Captured) (before : Bytes) : List Symbol → Prop
  | [] => True
  | .byte c :: rest => InertFrom answers (before ++ [c]) rest
  | .output index inDoubleQuotes :: rest =>
    let output := (Symbol.output index inDoubleQuotes).fill answers
    InertBetween before output (fillAll answers rest) inDoubleQuotes ∧
      InertFrom answers (before ++ output) rest

instance InertFrom.decidable (answers : Nat → Captured) (before : Bytes) :
    (symbols : List Symbol) → Decidable (InertFrom answers before symbols)
  | [] => inferInstanceAs (Decidable True)
  | .byte c :: rest => InertFrom.decidable answers (before ++ [c]) rest
  | .output index inDoubleQuotes :: rest =>
    have := InertFrom.decidable answers
      (before ++ (Symbol.output index inDoubleQuotes).fill answers) rest
    inferInstanceAs (Decidable (InertBetween _ _ _ _ ∧ InertFrom _ _ rest))

/-- Outside quotes the output has no separator. -/
def Symbol.IsOneWord (answers : Nat → Captured) : Symbol → Prop
  | byte _ => True
  | output _ true => True
  | output index false => ∀ c ∈ (output index false).fill answers, isSeparator c = false

instance (answers : Nat → Captured) : (s : Symbol) → Decidable (s.IsOneWord answers)
  | .byte _ => inferInstanceAs (Decidable True)
  | .output _ true => inferInstanceAs (Decidable True)
  | .output index false =>
    inferInstanceAs (Decidable (∀ c ∈ (Symbol.output index false).fill answers, _))

/-- Outputs leave a target in one piece, and it still names something. -/
structure RedirectTemplate.Whole (answers : Nat → Captured) (t : RedirectTemplate) : Prop where
  oneWord : ∀ s ∈ t.source, s.IsOneWord answers
  named : t.outputs ≠ [] → (t.fill answers).resolve?.isSome = true

instance (answers : Nat → Captured) (t : RedirectTemplate) : Decidable (t.Whole answers) :=
  decidable_of_iff ((∀ s ∈ t.source, s.IsOneWord answers) ∧
    (t.outputs ≠ [] → (t.fill answers).resolve?.isSome = true))
    ⟨fun ⟨h1, h2⟩ => ⟨h1, h2⟩, fun ⟨h1, h2⟩ => ⟨h1, h2⟩⟩

/-- What the commands of a segment print is read as data. -/
structure Inert (answers : Nat → Captured) (segment : Bytes) : Prop where
  between : InertFrom answers [] (symbols segment)
  whole : ∀ t ∈ redirectTemplates segment, t.Whole answers

instance (answers : Nat → Captured) (segment : Bytes) : Decidable (Inert answers segment) :=
  decidable_of_iff (InertFrom answers [] (symbols segment) ∧
    ∀ t ∈ redirectTemplates segment, t.Whole answers)
    ⟨fun ⟨h1, h2⟩ => ⟨h1, h2⟩, fun ⟨h1, h2⟩ => ⟨h1, h2⟩⟩

/-! ## Targets -/

/-- The text of a target that starts here. -/
def targetFrom (d : Delimiters) (text : Bytes) : Bytes :=
  ((marks d text).takeWhile fun m => !endsTarget m).flatMap Mark.taken

section
variable {d d' : Delimiters} {c : UInt8} {rest : Bytes}

theorem targetFrom_of_ends (h : d.endsTargetAt c = true) : targetFrom d (c :: rest) = [] := by
  have stops : ∀ after, endsTarget ⟨[c], d, after⟩ = true := fun _ => h
  have plain : ¬ d.Opens c rest := by
    rintro ⟨rfl, -, -⟩
    rw [Delimiters.endsTargetAt, Bool.and_eq_true] at h
    exact absurd h.2 (by decide)
  rw [targetFrom, marks_cons plain, List.takeWhile_cons_of_neg (by simp [stops])]
  rfl

theorem targetFrom_cons (h : d.endsTargetAt c = false) (plain : ¬ d.Opens c rest) :
    targetFrom d (c :: rest) = c :: targetFrom (d.feed c) rest := by
  have goes : ∀ after, endsTarget ⟨[c], d, after⟩ = false := fun _ => h
  rw [targetFrom, marks_cons plain, List.takeWhile_cons_of_pos (by simp [goes])]
  rfl

theorem targetFrom_enter (h : d.admitsSubstitution = true) :
    targetFrom d (Ascii.dollar :: Ascii.openParen :: rest) =
      Ascii.dollar :: Ascii.openParen :: targetFrom d.enter rest := by
  have goes : endsTarget ⟨[Ascii.dollar, Ascii.openParen], d, d.enter⟩ = false := by
    show (d.atTopLevel && isTargetEnd Ascii.dollar) = false
    rw [show isTargetEnd Ascii.dollar = false by decide, Bool.and_false]
  rw [targetFrom, marks_enter h, List.takeWhile_cons_of_pos (by simp [goes])]
  rfl

/-- A target goes on through a text in which nothing ends it. -/
theorem targetFrom_append {output after : Bytes}
    (quiet : d.Quiet (fun c => isTargetEnd c = false) output d')
    (border : ¬ (output.getLast? = some Ascii.dollar ∧ after.head? = some Ascii.openParen)) :
    targetFrom d (output ++ after) = output ++ targetFrom d' after := by
  induction quiet with
  | nil => rfl
  | @enter d d' rest admits _ ih =>
    have following := ih fun ⟨last, first⟩ => border ⟨by simp [List.getLast?_cons, last], first⟩
    rw [List.cons_append, List.cons_append, targetFrom_enter admits, following]
    rfl
  | @feed d d' c rest single plain _ ih =>
    have stays : d.endsTargetAt c = false := by
      rw [Delimiters.endsTargetAt]
      cases top : d.atTopLevel with
      | false => rfl
      | true => exact plain top
    have following := ih fun ⟨last, first⟩ => border ⟨by simp [List.getLast?_cons, last], first⟩
    rw [List.cons_append, targetFrom_cons stays (not_opens_append single border), following]
    rfl

end

/-! ## Symbols, filled in -/

section
variable {answers : Nat → Captured} {before : Bytes} {d d' : Delimiters}

theorem InertFrom.append {first second : List Symbol}
    (h : InertFrom answers before (first ++ second)) :
    InertFrom answers (before ++ fillAll answers first) second := by
  induction first generalizing before with
  | nil => simpa using h
  | cons s first ih =>
    rw [fillAll_cons, ← List.append_assoc]
    cases s with
    | byte c => exact ih h
    | output index inDoubleQuotes => exact ih h.2

/-- A `$(` of the symbols is one of the text, and the other way round. -/
theorem opens_fillAll_iff {c : UInt8} {rest : List Symbol}
    (inert : InertFrom answers (before ++ [c]) rest) (alike : d.Alike d') :
    d'.Opens c (fillAll answers rest) ↔ Symbol.Opens d c rest := by
  rw [Delimiters.Opens, Symbol.Opens, alike.admitsSubstitution]
  refine and_congr_right fun dollar => and_congr_left fun _ => ?_
  subst dollar
  cases rest with
  | nil => simp
  | cons s rest =>
    cases s with
    | byte o => simp
    | output index inDoubleQuotes =>
      exact ⟨fun opens => absurd ⟨by simp, opens⟩ inert.1.noOpening, by simp⟩

/-- **A target is the symbols of its template, filled in.** -/
theorem targetFrom_fillAll {symbols : List Symbol} (placed : Placed d symbols)
    (alike : d.Alike d') (inert : InertFrom answers before symbols)
    (oneWord : ∀ s ∈ sourceFrom d symbols, s.IsOneWord answers) :
    targetFrom d' (fillAll answers symbols) = fillAll answers (sourceFrom d symbols) := by
  fun_induction sourceFrom d symbols generalizing d' before with
  | case1 d => rfl
  | case2 d index inDoubleQuotes rest ih =>
    obtain ⟨between, placed⟩ := placed.of_output
    obtain ⟨first, oneWord⟩ := List.forall_mem_cons.1 oneWord
    obtain ⟨d'', quiet, alike'⟩ : ∃ d'', d'.Quiet
        (fun c => isTargetEnd c = false) ((Symbol.output index inDoubleQuotes).fill answers) d'' ∧
          d'.Alike d'' := by
      refine (between.of_alike alike).quiet_escapeOutput inert.1.closes ?_
      intro quoted c mem noGreater noLess
      subst quoted
      simp [isTargetEnd, first c mem, noGreater, noLess]
    rw [fillAll_cons, fillAll_cons, targetFrom_append quiet inert.1.noOpener,
      ih placed (alike.trans alike') inert.2 oneWord]
  | case3 d c rest ends =>
    have ends : d'.endsTargetAt c = true := by
      rwa [Delimiters.endsTargetAt, alike.atTopLevel]
    exact targetFrom_of_ends ends
  | case4 d c rest stays opens ih =>
    have admits := alike.admitsSubstitution.trans opens.2.2
    obtain ⟨rfl, rest, rfl, inside⟩ := placed.of_opens opens
    have oneWord := (List.forall_mem_cons.1 (List.forall_mem_cons.1 oneWord).2).2
    have inert : InertFrom answers (before ++ [Ascii.dollar] ++ [Ascii.openParen]) rest := inert
    rw [fillAll_cons, fillAll_cons, fillAll_cons, fillAll_cons,
      ← ih inside alike.enter inert oneWord]
    exact targetFrom_enter admits
  | case5 d c rest stays plain ih =>
    have stays : d'.endsTargetAt c = false := by
      rw [Delimiters.endsTargetAt, alike.atTopLevel]
      exact eq_false_of_ne_true stays
    rw [fillAll_cons, fillAll_cons, ← ih (placed.of_not_opens plain) (alike.feed c) inert
      (List.forall_mem_cons.1 oneWord).2]
    exact targetFrom_cons stays (mt (opens_fillAll_iff inert alike).1 plain)

/-- Behind a target the symbols have ended, or go on with the byte that ended it. -/
theorem exists_behind {symbols : List Symbol} (placed : Placed d symbols)
    (top : d'.atTopLevel = true) :
    ∃ behind, symbols = sourceFrom d symbols ++ behind ∧ Placed d' behind ∧
      (behind = [] ∨ ∃ c others, behind = .byte c :: others ∧
        isTargetEnd c = true) := by
  fun_induction sourceFrom d symbols with
  | case1 d => exact ⟨[], rfl, .nil, .inl rfl⟩
  | case2 d index inDoubleQuotes rest ih =>
    obtain ⟨behind, same, others⟩ := ih placed.of_output.2
    exact ⟨behind, congrArg _ same, others⟩
  | case3 d c rest ends =>
    rw [Delimiters.endsTargetAt, Bool.and_eq_true] at ends
    exact ⟨.byte c :: rest, rfl, placed.of_alike (.of_atTopLevel ends.1 top),
      .inr ⟨c, rest, rfl, ends.2⟩⟩
  | case4 d c rest stays opens ih =>
    obtain ⟨rfl, rest, rfl, inside⟩ := placed.of_opens opens
    obtain ⟨behind, same, others⟩ := ih inside
    exact ⟨behind, congrArg (.byte Ascii.dollar :: .byte Ascii.openParen :: ·) same, others⟩
  | case5 d c rest stays plain ih =>
    obtain ⟨behind, same, others⟩ := ih (placed.of_not_opens plain)
    exact ⟨behind, congrArg _ same, others⟩

/-- What an output starts with, outside quotes, is no operator. -/
theorem head?_escapeOutput {output : Bytes} {c : UInt8}
    (h : (escapeOutput false output).head? = some c) : c ≠ Ascii.greater ∧ c ≠ Ascii.less := by
  cases output with
  | nil => cases h
  | cons first rest =>
    rw [escapeOutput, List.flatMap_cons] at h
    cases special : isSpecialInOutput false first with
    | true =>
      rw [special] at h
      cases h
      decide
    | false =>
      rw [special] at h
      cases h
      simp only [isSpecialInOutput, Bool.or_eq_false_iff, Bool.not_false, Bool.true_and,
        beq_eq_false_iff_ne] at special
      exact ⟨special.2.1.2, special.2.2⟩

/-- What a target with something in it starts with does not end it. -/
theorem head?_fillAll_of_source {symbols : List Symbol} {c : UInt8} (placed : Placed d symbols)
    (top : d.atTopLevel = true) (oneWord : ∀ s ∈ sourceFrom d symbols, s.IsOneWord answers)
    (nonempty : fillAll answers (sourceFrom d symbols) ≠ [])
    (first : (fillAll answers symbols).head? = some c) :
    isTargetEnd c = false := by
  induction symbols with
  | nil => cases first
  | cons s rest ih =>
    cases s with
    | byte b =>
      obtain rfl : b = c := by simpa using first
      rw [sourceFrom] at nonempty
      split at nonempty
      · exact absurd rfl nonempty
      · rename_i stays
        rw [Delimiters.endsTargetAt, top, Bool.true_and] at stays
        exact eq_false_of_ne_true stays
    | output index inDoubleQuotes =>
      obtain ⟨between, behind⟩ := placed.of_output
      obtain rfl : inDoubleQuotes = false := between.unquoted_of_atTopLevel top
      rw [sourceFrom] at oneWord nonempty
      obtain ⟨word, oneWord⟩ := List.forall_mem_cons.1 oneWord
      rw [fillAll_cons] at first nonempty
      cases output : (Symbol.output index false).fill answers with
      | nil =>
        rw [output] at first nonempty
        exact ih behind oneWord nonempty first
      | cons b others =>
        have start := head?_escapeOutput (congrArg List.head? output)
        have plain := word b (output ▸ List.mem_cons_self)
        rw [output] at first
        obtain rfl : b = c := by simpa using first
        simp [isTargetEnd, plain, start.1, start.2]

end

end VirtualShell
