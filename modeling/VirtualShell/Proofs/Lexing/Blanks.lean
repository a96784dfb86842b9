import Mathlib.Data.List.TakeWhile
import VirtualShell.Proofs.Lexing.Quoted

/-!
# Blanks around a line

The blanks at the ends of a line make no difference to what is run: variables are not read across
them, no separator cuts in them, and what is cut is trimmed (`statements_expandVariables_trim`).
What is left open may differ, since a blank can be behind a backslash.
-/

namespace VirtualShell

/-- There is nothing but separators. -/
def IsBlank (text : Bytes) : Prop := ∀ c ∈ text, isSeparator c = true

/-- A separator means nothing to the readers of delimiters, references and substitutions. -/
theorem eq_of_isSeparator {c : UInt8} (h : isSeparator c = true) :
    c = Ascii.space ∨ c = Ascii.tab ∨ c = Ascii.newline ∨ c = Ascii.carriageReturn := by
  simpa only [isSeparator, Bool.or_eq_true, beq_iff_eq, or_assoc] using h

theorem ne_dollar_of_isSeparator {c : UInt8} (h : isSeparator c = true) : c ≠ Ascii.dollar := by
  rintro rfl
  cases h

theorem isPlain_of_isSeparator {c : UInt8} (h : isSeparator c = true) :
    Delimiters.isPlain c = true := by
  obtain rfl | rfl | rfl | rfl := eq_of_isSeparator h <;> rfl

namespace IsBlank

variable {blank : Bytes} {p : UInt8 → Bool} (h : IsBlank blank)
include h

theorem head?_ne_openParen : blank.head? ≠ some Ascii.openParen := fun first =>
  absurd (h _ (List.mem_of_head? first)) (by decide)

theorem dropWhile_eq_nil (takes : ∀ c, isSeparator c = true → p c = true) :
    blank.dropWhile p = [] :=
  List.dropWhile_eq_nil_iff.2 fun c mem => takes c (h c mem)

theorem takeWhile_append (stops : ∀ c, isSeparator c = true → p c = false) (text : Bytes) :
    (text ++ blank).takeWhile p = text.takeWhile p := by
  induction text with
  | nil =>
    cases blank with
    | nil => rfl
    | cons c blank => exact List.takeWhile_cons_of_neg (by simp [stops c (h c List.mem_cons_self)])
  | cons c text ih => rw [List.cons_append, List.takeWhile_cons, List.takeWhile_cons, ih]

theorem dropWhile_append (stops : ∀ c, isSeparator c = true → p c = false) (text : Bytes) :
    (text ++ blank).dropWhile p = text.dropWhile p ++ blank := by
  induction text with
  | nil =>
    cases blank with
    | nil => rfl
    | cons c blank => exact List.dropWhile_cons_of_neg (by simp [stops c (h c List.mem_cons_self)])
  | cons c text ih =>
    rw [List.cons_append, List.dropWhile_cons, List.dropWhile_cons, ih]
    split <;> rfl

end IsBlank

/-! ## Trimming -/

namespace Bytes

variable {blank text : Bytes}

theorem trimRight_append_blank (h : IsBlank blank) :
    trimRight (text ++ blank) = trimRight text := by
  rw [trimRight, trimRight, dropTrailing, dropTrailing, List.reverse_append,
    List.dropWhile_append_of_pos]
  exact fun c mem => h c (List.mem_reverse.1 mem)

theorem trimLeft_blank_append (h : IsBlank blank) : trimLeft (blank ++ text) = trimLeft text :=
  List.dropWhile_append_of_pos h

theorem trimRight_append (before text : Bytes) :
    trimRight (before ++ text) =
      if (trimRight text).isEmpty then trimRight before else before ++ trimRight text := by
  simp only [trimRight, dropTrailing, List.reverse_append, List.dropWhile_append,
    List.isEmpty_reverse]
  split
  · rfl
  · rw [List.reverse_append, List.reverse_reverse]

theorem trimRight_blank (h : IsBlank blank) : trimRight blank = [] := by
  rw [← List.nil_append blank, trimRight_append_blank h]
  rfl

theorem trim_append_blank (h : IsBlank blank) : trim (text ++ blank) = trim text := by
  rw [trim, trimRight_append_blank h, trim]

theorem trim_blank_append (h : IsBlank blank) : trim (blank ++ text) = trim text := by
  rw [trim, trim, trimRight_append]
  split
  next empty => rw [trimRight_blank h, List.isEmpty_iff.1 empty]
  next => rw [trimLeft_blank_append h]

theorem exists_eq_append_trimLeft (text : Bytes) :
    ∃ before, IsBlank before ∧ text = before ++ trimLeft text :=
  ⟨text.takeWhile isSeparator, List.all_eq_true.1 List.all_takeWhile,
    (List.takeWhile_append_dropWhile).symm⟩

theorem exists_eq_trimRight_append (text : Bytes) :
    ∃ after, IsBlank after ∧ text = trimRight text ++ after := by
  refine ⟨(text.reverse.takeWhile isSeparator).reverse,
    fun c mem => List.all_eq_true.1 List.all_takeWhile c (List.mem_reverse.1 mem), ?_⟩
  rw [trimRight, dropTrailing, ← List.reverse_append, List.takeWhile_append_dropWhile,
    List.reverse_reverse]

/-- A text is its trimming between blanks. -/
theorem exists_eq_blank_append_trim (text : Bytes) :
    ∃ before after, IsBlank before ∧ IsBlank after ∧ text = before ++ (trim text ++ after) := by
  obtain ⟨after, ha, right⟩ := exists_eq_trimRight_append text
  obtain ⟨before, hb, left⟩ := exists_eq_append_trimLeft (trimRight text)
  exact ⟨before, after, hb, ha, by rw [trim, ← List.append_assoc, ← left, ← right]⟩

theorem trim_trim (text : Bytes) : trim (trim text) = trim text := by
  obtain ⟨before, after, hb, ha, eq⟩ := exists_eq_blank_append_trim text
  calc trim (trim text) = trim (before ++ (trim text ++ after)) := by
        rw [trim_blank_append hb, trim_append_blank ha]
    _ = trim text := by rw [← eq]

end Bytes

theorem isComment_blank_append {blank text : Bytes} (h : IsBlank blank) :
    isComment (blank ++ text) = isComment text := by
  rw [isComment, isComment, Bytes.trimLeft_blank_append h]

theorem isComment_append_blank {blank text : Bytes} (h : IsBlank blank) :
    isComment (text ++ blank) = isComment text := by
  rw [isComment, isComment, Bytes.trimLeft, Bytes.trimLeft, List.dropWhile_append]
  split
  next empty =>
    rw [h.dropWhile_eq_nil fun _ => id, List.isEmpty_iff.1 empty]
  next nonempty =>
    cases rest : text.dropWhile isSeparator with
    | nil => exact absurd (List.isEmpty_iff.2 rest) nonempty
    | cons c rest => rfl

theorem isComment_trim (line : Bytes) : isComment (Bytes.trim line) = isComment line := by
  obtain ⟨before, after, hb, ha, eq⟩ := Bytes.exists_eq_blank_append_trim line
  calc isComment (Bytes.trim line)
      = isComment (before ++ (Bytes.trim line ++ after)) := by
        rw [isComment_blank_append hb, isComment_append_blank ha]
    _ = isComment line := by rw [← eq]

/-! ## Variables -/

namespace Reference

variable {blank : Bytes}

theorem readBraced?_append_blank (h : IsBlank blank) (text : Bytes) :
    readBraced? (text ++ blank) = (readBraced? text).map fun r => (r.1, r.2 ++ blank) := by
  have noBrace : ∀ c, isSeparator c = true → (c != Ascii.closeBrace) = true := by
    intro c separator
    obtain rfl | rfl | rfl | rfl := eq_of_isSeparator separator <;> rfl
  rw [readBraced?, readBraced?, List.dropWhile_append]
  cases rest : text.dropWhile (· != Ascii.closeBrace) with
  | nil =>
    rw [h.dropWhile_eq_nil noBrace]
    rfl
  | cons c rest' =>
    have name : (text ++ blank).takeWhile (· != Ascii.closeBrace) =
        text.takeWhile (· != Ascii.closeBrace) := by
      have ends : text = text.takeWhile (· != Ascii.closeBrace) ++ c :: rest' := by
        rw [← rest, List.takeWhile_append_dropWhile]
      rw [List.takeWhile_append, if_neg fun all => ?_]
      have := congrArg List.length ends
      simp [all] at this
    rw [name]
    change (if isIdentifier _ then _ else _) = Option.map _ (if isIdentifier _ then _ else _)
    split <;> rfl

theorem read?_append_blank (h : IsBlank blank) (text : Bytes) :
    read? (text ++ blank) = (read? text).map fun r => (r.1, r.2 ++ blank) := by
  have noName : ∀ c, isSeparator c = true → isIdentifierByte c = false := by
    intro c separator
    obtain rfl | rfl | rfl | rfl := eq_of_isSeparator separator <;> rfl
  cases text with
  | nil =>
    cases blank with
    | nil => rfl
    | cons c blank =>
      obtain rfl | rfl | rfl | rfl := eq_of_isSeparator (h c List.mem_cons_self) <;> rfl
  | cons c rest =>
    simp only [List.cons_append, read?]
    split
    · rfl
    · split
      · exact readBraced?_append_blank h rest
      · split
        · rw [← List.cons_append, h.takeWhile_append noName, h.dropWhile_append noName]
          rfl
        · rfl

end Reference

theorem expandVariablesFrom_cons {c : UInt8} (h : c ≠ Ascii.dollar)
    (value : Reference → Bytes) (d : Delimiters) (rest : Bytes) :
    expandVariablesFrom value d (c :: rest) = c :: expandVariablesFrom value (d.feed c) rest :=
  expandVariablesFrom_feed (fun dollar => absurd dollar h) (fun opens => h opens.1) value

section

variable {blank : Bytes} (h : IsBlank blank)
include h

theorem expandVariablesFrom_blank (value : Reference → Bytes) (d : Delimiters) :
    expandVariablesFrom value d blank = blank := by
  induction blank generalizing d with
  | nil => rw [expandVariablesFrom]
  | cons c blank ih =>
    obtain ⟨separator, rest⟩ := List.forall_mem_cons.1 h
    rw [expandVariablesFrom_cons (ne_dollar_of_isSeparator separator), ih rest]

theorem expandVariablesFrom_append_blank (value : Reference → Bytes) (d : Delimiters)
    (text : Bytes) :
    expandVariablesFrom value d (text ++ blank) = expandVariablesFrom value d text ++ blank := by
  induction d, text using Delimiters.expandingInduction with
  | nil d =>
    rw [expandVariablesFrom]
    exact expandVariablesFrom_blank h value d
  | reference d r rest behind admits found ih =>
    have found' : Reference.read? (rest ++ blank) = some (r, behind ++ blank) := by
      rw [Reference.read?_append_blank h, found]
      rfl
    rw [List.cons_append, expandVariablesFrom_reference admits found',
      expandVariablesFrom_reference admits found, ih, List.append_assoc]
  | enter d rest admits ih =>
    rw [List.cons_append, List.cons_append, expandVariablesFrom_enter admits,
      expandVariablesFrom_enter admits, ih]
    rfl
  | feed d c rest noReference plain ih =>
    have noReference' (dollar : c = Ascii.dollar) (admits : d.admitsSubstitution = true) :
        Reference.read? (rest ++ blank) = none := by
      rw [Reference.read?_append_blank h, noReference dollar admits]
      rfl
    have plain' : ¬ d.Opens c (rest ++ blank) :=
      not_opens_append plain fun both => h.head?_ne_openParen both.2
    rw [List.cons_append, expandVariablesFrom_feed noReference' plain',
      expandVariablesFrom_feed noReference plain, ih]
    rfl

theorem expandVariables_blank_append (value : Reference → Bytes) (text : Bytes) :
    expandVariables value (blank ++ text) = blank ++ expandVariables value text := by
  induction blank with
  | nil => rfl
  | cons c blank ih =>
    obtain ⟨separator, rest⟩ := List.forall_mem_cons.1 h
    rw [List.cons_append, expandVariables,
      expandVariablesFrom_cons (ne_dollar_of_isSeparator separator),
      Delimiters.feed_eq_self_of_atTopLevel rfl (isPlain_of_isSeparator separator),
      ← expandVariables, ih rest, List.cons_append]

end

/-! ## Statements -/

theorem marks_append {d : Delimiters} {text after : Bytes}
    (border : after.head? ≠ some Ascii.openParen) :
    marks d (text ++ after) = marks d text ++ marks (d.read text) after := by
  induction d, text using Delimiters.readingInduction with
  | nil d => rfl
  | enter d rest admits ih =>
    rw [Delimiters.read_enter admits, List.cons_append, List.cons_append, marks_enter admits,
      marks_enter admits, ih]
    rfl
  | feed d c rest plain ih =>
    have plain' : ¬ d.Opens c (rest ++ after) :=
      not_opens_append plain fun both => border both.2
    rw [Delimiters.read_cons plain, List.cons_append, marks_cons plain', marks_cons plain, ih]
    rfl

section

variable {p : Mark → Bool} {steps : List Mark}

theorem cutWhere_previous (previous previous' : Option UInt8) (steps : List Mark) :
    cutWhere (fun _ m _ => p m) previous steps = cutWhere (fun _ m _ => p m) previous' steps := by
  cases steps <;> rfl

/-- Steps that do not cut lengthen the last piece when they are behind the others. -/
theorem cutWhere_append_of_never (previous : Option UInt8) (steps : List Mark) {after : List Mark}
    (never : ∀ m ∈ after, p m = false) :
    ∃ pieces last, cutWhere (fun _ m _ => p m) previous steps = pieces ++ [last] ∧
      cutWhere (fun _ m _ => p m) previous (steps ++ after) =
        pieces ++ [last ++ after.flatMap Mark.taken] := by
  induction steps generalizing previous with
  | nil =>
    exact ⟨[], [], rfl, cutWhere_of_forall_mem (fun m mem _ _ => never m mem) previous⟩
  | cons m rest ih =>
    obtain ⟨pieces, last, short, long⟩ := ih m.taken.getLast?
    rw [List.cons_append, cutWhere, cutWhere, short, long]
    cases cuts : p m with
    | true => exact ⟨[] :: pieces, last, rfl, rfl⟩
    | false =>
      cases pieces with
      | nil => exact ⟨[], m.taken ++ last, rfl, by simp⟩
      | cons first others => exact ⟨(m.taken ++ first) :: others, last, rfl, rfl⟩

/-- Steps that do not cut lengthen the first piece when they are before the others. -/
theorem append_cutWhere_of_never (previous : Option UInt8) (steps : List Mark) {before : List Mark}
    (never : ∀ m ∈ before, p m = false) :
    ∃ first pieces, cutWhere (fun _ m _ => p m) previous steps = first :: pieces ∧
      cutWhere (fun _ m _ => p m) previous (before ++ steps) =
        (before.flatMap Mark.taken ++ first) :: pieces := by
  induction before generalizing previous with
  | nil =>
    obtain ⟨first, pieces, eq⟩ := List.exists_cons_of_ne_nil
      (cutWhere_ne_nil (fun _ m _ => p m) previous steps)
    exact ⟨first, pieces, eq, eq⟩
  | cons m rest ih =>
    obtain ⟨cut, others⟩ := List.forall_mem_cons.1 never
    obtain ⟨first, pieces, short, long⟩ := ih m.taken.getLast? others
    refine ⟨first, pieces, (cutWhere_previous _ _ _).trans short, ?_⟩
    rw [List.cons_append, cutWhere, long, cut]
    simp

end

/-! ### Plain bytes -/

/-- Each byte is read in a step of its own, and at top level none changes what is open. -/
def IsPlain (text : Bytes) : Prop := ∀ c ∈ text, Delimiters.isPlain c = true ∧ c ≠ Ascii.dollar

instance (text : Bytes) : Decidable (IsPlain text) :=
  List.decidableBAll (fun c => Delimiters.isPlain c = true ∧ c ≠ Ascii.dollar) text

theorem IsPlain.marks_append {plain : Bytes} (h : IsPlain plain) {e : Delimiters}
    (top : e.atTopLevel = true) (rest : Bytes) :
    marks e (plain ++ rest) = plain.map (fun c => ⟨[c], e, e⟩) ++ marks e rest := by
  induction plain with
  | nil => rfl
  | cons c plain ih =>
    obtain ⟨⟨stays, other⟩, behind⟩ := List.forall_mem_cons.1 h
    rw [List.cons_append, marks_cons fun opens => other opens.1,
      Delimiters.feed_eq_self_of_atTopLevel top stays, ih behind]
    rfl

theorem IsPlain.read_append {plain : Bytes} (h : IsPlain plain) {e : Delimiters}
    (top : e.atTopLevel = true) (rest : Bytes) : e.read (plain ++ rest) = e.read rest := by
  induction plain with
  | nil => rfl
  | cons c plain ih =>
    obtain ⟨⟨stays, other⟩, behind⟩ := List.forall_mem_cons.1 h
    rw [List.cons_append, Delimiters.read_cons fun opens => other opens.1,
      Delimiters.feed_eq_self_of_atTopLevel top stays, ih behind]

/-! ### Blanks -/

section

variable {blank : Bytes} (h : IsBlank blank)
include h

theorem IsBlank.not_isTop (c : UInt8) (hc : isSeparator c = false) (d : Delimiters) :
    ∀ m ∈ marks d blank, m.isTop c = false := by
  induction blank generalizing d with
  | nil => simp
  | cons c' blank ih =>
    obtain ⟨separator, rest⟩ := List.forall_mem_cons.1 h
    rw [marks_cons fun opens => ne_dollar_of_isSeparator separator opens.1]
    refine List.forall_mem_cons.2 ⟨?_, ih rest _⟩
    have other : c' ≠ c := by
      rintro rfl
      rw [hc] at separator
      cases separator
    simp [Mark.isTop, other]

theorem statements_append_blank (line : Bytes) : statements (line ++ blank) = statements line := by
  obtain ⟨pieces, last, short, long⟩ := cutWhere_append_of_never none (marks {} line)
    (h.not_isTop Ascii.semicolon rfl (Delimiters.read {} line))
  rw [statements, statements, rawStatements, rawStatements, marks_append h.head?_ne_openParen,
    short, long, flatMap_taken_marks]
  simp only [trimmedPieces, List.map_append, List.map_cons, List.map_nil,
    Bytes.trim_append_blank h]

theorem IsBlank.isPlain : IsPlain blank := fun c mem =>
  ⟨isPlain_of_isSeparator (h c mem), ne_dollar_of_isSeparator (h c mem)⟩

theorem marks_blank_append {d : Delimiters} (top : d.atTopLevel = true) (line : Bytes) :
    marks d (blank ++ line) = marks d blank ++ marks d line := by
  have alone := h.isPlain.marks_append top []
  rw [List.append_nil, marks_nil, List.append_nil] at alone
  rw [h.isPlain.marks_append top, alone]

theorem read_blank_append {d : Delimiters} (top : d.atTopLevel = true) (line : Bytes) :
    d.read (blank ++ line) = d.read line := h.isPlain.read_append top line

theorem statements_blank_append (line : Bytes) : statements (blank ++ line) = statements line := by
  obtain ⟨first, pieces, short, long⟩ :=
    append_cutWhere_of_never none (marks {} line) (h.not_isTop Ascii.semicolon rfl {})
  rw [statements, statements, rawStatements, rawStatements, marks_blank_append h rfl, short, long,
    flatMap_taken_marks]
  simp only [trimmedPieces, List.map_cons, Bytes.trim_blank_append h]

end

/-- The blanks at the ends of a line make no difference to its statements. -/
theorem statements_expandVariables_trim (value : Reference → Bytes) (line : Bytes) :
    statements (expandVariables value (Bytes.trim line)) =
      statements (expandVariables value line) := by
  obtain ⟨before, after, hb, ha, eq⟩ := Bytes.exists_eq_blank_append_trim line
  calc statements (expandVariables value (Bytes.trim line))
      = statements (expandVariables value (before ++ (Bytes.trim line ++ after))) := by
        rw [expandVariables_blank_append hb, statements_blank_append hb, expandVariables,
          expandVariables, expandVariablesFrom_append_blank ha, statements_append_blank ha]
    _ = statements (expandVariables value line) := by rw [← eq]

end VirtualShell
