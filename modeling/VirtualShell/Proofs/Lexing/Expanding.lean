import VirtualShell.Proofs.Lexing.Joining
import VirtualShell.Proofs.Text.Digits
import VirtualShell.Shell.Interpreter

/-!
# Variables before and after cutting

The references of a line are replaced before it is cut into statements, and what takes their place
is not read for delimiters there, though it is read for them when the line is cut. Where the values
hold nothing that a reader of delimiters looks at (`IsInert`), it makes no difference: the
statements are those of the line as it was, each with its own references replaced
(`statements_expandVariables`).

Two readings must stay in step. A reference is read in no more than its own text, so it is read in
a statement as it is in the line; its text and its value leave the delimiters alike. One thing could
still come apart: a dollar sign right before a reference stands, when that has no value, before what
is behind it, and may open a substitution there. So no reference may stand directly behind a dollar
sign (`Undollared`).
-/

namespace VirtualShell

/-! ## Text that no reader looks at -/

/-- The bytes that open, close, escape, refer or cut. -/
def lexicalBytes : Bytes :=
  [Ascii.backslash, Ascii.quote, Ascii.doubleQuote, Ascii.openParen, Ascii.closeParen,
    Ascii.backtick, Ascii.dollar, Ascii.semicolon]

/-- There is nothing in the text that means anything to a reader of delimiters. -/
def IsInert (text : Bytes) : Prop := ∀ c ∈ text, c ∉ lexicalBytes

instance (text : Bytes) : Decidable (IsInert text) := List.decidableBAll (· ∉ lexicalBytes) text

theorem IsInert.of_forall {text : Bytes} {p : UInt8 → Bool}
    (outside : lexicalBytes.any p = false) (all : ∀ c ∈ text, p c = true) : IsInert text :=
  fun c mem lexical => List.any_eq_false.1 outside c lexical (all c mem)

theorem IsInert.append {text text' : Bytes} (h : IsInert text) (h' : IsInert text') :
    IsInert (text ++ text') :=
  List.forall_mem_append.2 ⟨h, h'⟩

theorem IsInert.isPlain {text : Bytes} (h : IsInert text) : IsPlain text := by
  intro c mem
  have other := h c mem
  simp only [lexicalBytes, List.mem_cons, not_or] at other
  simp [Delimiters.isPlain, other]

theorem Delimiters.feed_eq_self_of_admits {d : Delimiters} {c : UInt8}
    (admits : d.admitsSubstitution = true) (plain : isPlain c = true) : d.feed c = d := by
  rw [admitsSubstitution, Bool.or_eq_true, beq_iff_eq, beq_iff_eq] at admits
  rcases admits with state | state
  · exact feed_eq_self_of_isPlain state plain
  · simp only [isPlain, Bool.not_eq_true', Bool.or_eq_false_iff, beq_eq_false_iff_ne] at plain
    simp [feed, state, plain]

/-! ## References in a part of a line -/

namespace Reference

variable {r : Reference} {text start rest : Bytes}

theorem isInert_name {name : Bytes} (h : ∀ c ∈ name, isIdentifierByte c = true) : IsInert name :=
  .of_forall rfl h

theorem isIdentifierByte_of_mem {name : Bytes} (h : isIdentifier name = true) :
    ∀ c ∈ name, isIdentifierByte c = true := by
  cases name with
  | nil => exact nofun
  | cons first name => exact List.all_eq_true.1 (Bool.and_eq_true_iff.1 h).2

theorem readBraced?_of_isIdentifier {name : Bytes} (h : isIdentifier name = true) (rest : Bytes) :
    readBraced? (name ++ Ascii.closeBrace :: rest) = some (.variable name, rest) := by
  have inside : ∀ c ∈ name, (c != Ascii.closeBrace) = true := by
    intro c mem
    refine bne_iff_ne.2 ?_
    rintro rfl
    exact absurd (isIdentifierByte_of_mem h _ mem) (by decide)
  rw [readBraced?, List.dropWhile_append_of_pos inside, List.takeWhile_append_of_pos inside,
    List.dropWhile_cons_of_neg (by decide), List.takeWhile_cons_of_neg (by decide),
    List.append_nil]
  exact if_pos h

theorem exists_of_readBraced? (h : readBraced? text = some (r, rest)) :
    ∃ name, isIdentifier name = true ∧ r = .variable name ∧
      text = name ++ Ascii.closeBrace :: rest := by
  rw [readBraced?] at h
  split at h
  next => cases h
  next c behind eq =>
    dsimp only at h
    split at h
    next valid =>
      cases h
      refine ⟨_, valid, rfl, ?_⟩
      have closes : c = Ascii.closeBrace := by
        have := List.head?_dropWhile_not (fun c : UInt8 => c != Ascii.closeBrace) text
        rw [eq] at this
        simpa using this
      subst closes
      rw [← eq, List.takeWhile_append_dropWhile]
    next => cases h

theorem isIdentifierByte_of_isIdentifierStart {c : UInt8} (h : isIdentifierStart c = true) :
    isIdentifierByte c = true := by
  rw [isIdentifierStart, Bool.or_eq_true] at h
  rw [isIdentifierByte, isAlnum, Bool.or_eq_true, Bool.or_eq_true]
  exact h.imp_left .inl

theorem read?_openBrace (text : Bytes) :
    read? (Ascii.openBrace :: text) = readBraced? text := rfl

theorem read?_of_isIdentifierStart {c : UInt8} (h : isIdentifierStart c = true) (text : Bytes) :
    read? (c :: text) =
      some (.variable (c :: text.takeWhile isIdentifierByte), text.dropWhile isIdentifierByte) := by
  have noStatus : c ≠ Ascii.question := by
    rintro rfl
    cases h
  have noBrace : c ≠ Ascii.openBrace := by
    rintro rfl
    cases h
  rw [read?, if_neg noStatus, if_neg noBrace, if_pos h,
    List.takeWhile_cons_of_pos (isIdentifierByte_of_isIdentifierStart h)]

/-- What a dollar sign that starts a reference has behind it. -/
theorem read?_cases (h : read? text = some (r, rest)) :
    (text = Ascii.question :: rest ∧ r = .status)
    ∨ (∃ name, isIdentifier name = true ∧
      text = Ascii.openBrace :: (name ++ Ascii.closeBrace :: rest) ∧ r = .variable name)
    ∨ ∃ c behind, isIdentifierStart c = true ∧ text = c :: behind ∧
      r = .variable (c :: behind.takeWhile isIdentifierByte) ∧
      rest = behind.dropWhile isIdentifierByte := by
  cases text with
  | nil => cases h
  | cons c behind =>
    by_cases status : c = Ascii.question
    · subst status
      cases h
      exact .inl ⟨rfl, rfl⟩
    by_cases braced : c = Ascii.openBrace
    · subst braced
      obtain ⟨name, valid, rfl, rfl⟩ := exists_of_readBraced? h
      exact .inr (.inl ⟨name, valid, rfl, rfl⟩)
    by_cases named : isIdentifierStart c = true
    · rw [read?_of_isIdentifierStart named] at h
      cases h
      exact .inr (.inr ⟨c, behind, named, rfl, rfl, rfl⟩)
    · rw [read?, if_neg status, if_neg braced, if_neg named] at h
      cases h

/-- Behind the bytes that were taken there may stand any part of what was left. -/
theorem takeWhile_append_of_prefix {p : UInt8 → Bool} (part : start <+: text.dropWhile p) :
    (text.takeWhile p ++ start).takeWhile p = text.takeWhile p ∧
      (text.takeWhile p ++ start).dropWhile p = start := by
  have taken : ∀ c ∈ text.takeWhile p, p c = true := List.all_eq_true.1 List.all_takeWhile
  rw [List.takeWhile_append_of_pos taken, List.dropWhile_append_of_pos taken]
  cases start with
  | nil => exact ⟨List.append_nil _, rfl⟩
  | cons c start =>
    obtain ⟨more, eq⟩ := part
    have stops : ¬ p c = true := by
      have := List.head?_dropWhile_not p text
      rw [← eq] at this
      simpa using this
    rw [List.takeWhile_cons_of_neg stops, List.dropWhile_cons_of_neg stops, List.append_nil]
    exact ⟨rfl, rfl⟩

/-- A reference is read in its own text, whatever part of the line is behind it. -/
theorem exists_of_read? (h : read? text = some (r, rest)) :
    ∃ name, text = name ++ rest ∧ name ≠ [] ∧ IsInert name ∧
      ∀ start, start <+: rest → read? (name ++ start) = some (r, start) := by
  obtain ⟨rfl, rfl⟩ | ⟨name, valid, rfl, rfl⟩ | ⟨c, behind, named, rfl, rfl, rfl⟩ := read?_cases h
  · exact ⟨[Ascii.question], rfl, List.cons_ne_nil _ _, by decide, fun _ _ => rfl⟩
  · refine ⟨Ascii.openBrace :: (name ++ [Ascii.closeBrace]), by simp, List.cons_ne_nil _ _,
      ?_, fun start _ => ?_⟩
    · have opening : IsInert [Ascii.openBrace] := by decide
      exact opening.append ((isInert_name (isIdentifierByte_of_mem valid)).append (by decide))
    · rw [List.cons_append, List.append_assoc]
      exact readBraced?_of_isIdentifier valid start
  · refine ⟨c :: behind.takeWhile isIdentifierByte, ?_, List.cons_ne_nil _ _, ?_,
      fun start part => ?_⟩
    · rw [List.cons_append, List.takeWhile_append_dropWhile]
    · exact isInert_name (List.forall_mem_cons.2
        ⟨isIdentifierByte_of_isIdentifierStart named, List.all_eq_true.1 List.all_takeWhile⟩)
    · obtain ⟨taken, left⟩ := takeWhile_append_of_prefix part
      rw [List.cons_append, read?_of_isIdentifierStart named, taken, left]

/-- Where a line holds no reference, no part of it from there on does. -/
theorem read?_eq_none_of_prefix (h : read? text = none) (part : start <+: text) :
    read? start = none := by
  refine Option.eq_none_iff_forall_ne_some.2 fun ⟨r, rest⟩ found => ?_
  obtain ⟨more, rfl⟩ := part
  obtain ⟨rfl, rfl⟩ | ⟨name, valid, rfl, rfl⟩ | ⟨c, behind, named, rfl, -, -⟩ := read?_cases found
  · cases h
  · rw [List.cons_append, List.append_assoc, List.cons_append, read?_openBrace,
      readBraced?_of_isIdentifier valid] at h
    cases h
  · rw [List.cons_append, read?_of_isIdentifierStart named] at h
    cases h

end Reference

/-! ## References apart from dollar signs -/

/-- No reference in the rest of a line stands directly behind a dollar sign; whether one stands
directly before the rest is given. The rest is read as it is for references. -/
inductive Undollared : Delimiters → Bool → Bytes → Prop
  | nil {d : Delimiters} {dollar : Bool} : Undollared d dollar []
  | reference {d : Delimiters} {r : Reference} {rest behind : Bytes} :
    d.admitsSubstitution = true → Reference.read? rest = some (r, behind) →
      Undollared d false behind → Undollared d false (Ascii.dollar :: rest)
  | enter {d : Delimiters} {dollar : Bool} {rest : Bytes} :
    d.admitsSubstitution = true → Undollared d.enter false rest →
      Undollared d dollar (Ascii.dollar :: Ascii.openParen :: rest)
  | feed {d : Delimiters} {dollar : Bool} {c : UInt8} {rest : Bytes} :
    (c = Ascii.dollar → d.admitsSubstitution = true → Reference.read? rest = none) →
      ¬ d.Opens c rest → Undollared (d.feed c) (c == Ascii.dollar) rest →
        Undollared d dollar (c :: rest)

section

variable {d : Delimiters} {dollar : Bool} {text rest : Bytes} {value : Reference → Bytes}

/-- Behind a dollar sign a text starts, with its references replaced, as it did before. -/
theorem Undollared.head?_expandVariablesFrom (h : Undollared d true text)
    (value : Reference → Bytes) : (expandVariablesFrom value d text).head? = text.head? := by
  cases h with
  | nil => rw [expandVariablesFrom]
  | enter admits _ => rw [expandVariablesFrom_enter admits]; rfl
  | feed noReference plain _ => rw [expandVariablesFrom_feed noReference plain]; rfl

/-- Where no two dollar signs stand side by side, no reference stands behind one. -/
theorem Undollared.of_single_dollars (alone : ¬ [Ascii.dollar, Ascii.dollar] <:+: text)
    (first : dollar = true → text.head? ≠ some Ascii.dollar) : Undollared d dollar text := by
  have apart {text : Bytes} (h : false = true) : text.head? ≠ some Ascii.dollar :=
    absurd h Bool.false_ne_true
  induction d, text using Delimiters.expandingInduction generalizing dollar with
  | nil d => exact .nil
  | reference d r rest behind admits found ih =>
    obtain ⟨name, rfl, -, -, -⟩ := Reference.exists_of_read? found
    have noDollar : dollar = false := Bool.eq_false_iff.2 fun yes => first yes rfl
    have later : ¬ [Ascii.dollar, Ascii.dollar] <:+: behind := fun pair =>
      alone (pair.trans (List.suffix_append (Ascii.dollar :: name) behind).isInfix)
    rw [noDollar]
    exact .reference admits found (ih later apart)
  | enter d rest admits ih =>
    have later : ¬ [Ascii.dollar, Ascii.dollar] <:+: rest := fun pair =>
      alone (pair.trans (List.suffix_append [Ascii.dollar, Ascii.openParen] rest).isInfix)
    exact .enter admits (ih later apart)
  | feed d c rest noReference plain ih =>
    have later : ¬ [Ascii.dollar, Ascii.dollar] <:+: rest := fun pair =>
      alone (pair.trans (List.suffix_cons c rest).isInfix)
    refine .feed noReference plain (ih later fun dollar next => ?_)
    obtain rfl := beq_iff_eq.1 dollar
    obtain ⟨behind, rfl⟩ := List.head?_eq_some_iff.1 next
    exact alone ⟨[], behind, rfl⟩

/-! ## Cutting from anywhere -/

/-- The raw statements of the rest of a line. -/
def rawStatementsFrom (d : Delimiters) (text : Bytes) : List Bytes :=
  cutWhere (fun _ m _ => m.isTop Ascii.semicolon) none (marks d text)

theorem cutWhere_cons_of_not {p : Mark → Bool} {m : Mark} (h : p m = false)
    (previous : Option UInt8) (steps : List Mark) :
    cutWhere (fun _ m _ => p m) previous (m :: steps) =
      (cutWhere (fun _ m _ => p m) none steps).modifyHead (m.taken ++ ·) := by
  rw [cutWhere, h, cutWhere_previous _ none]
  cases eq : cutWhere (fun _ m _ => p m) none steps with
  | nil => exact absurd eq (cutWhere_ne_nil _ _ _)
  | cons first others => rfl

theorem rawStatementsFrom_enter (admits : d.admitsSubstitution = true) :
    rawStatementsFrom d (Ascii.dollar :: Ascii.openParen :: rest) =
      (rawStatementsFrom d.enter rest).modifyHead ([Ascii.dollar, Ascii.openParen] ++ ·) := by
  rw [rawStatementsFrom, marks_enter admits, cutWhere_cons_of_not rfl, ← rawStatementsFrom]

theorem rawStatementsFrom_feed {c : UInt8} (plain : ¬ d.Opens c rest)
    (inside : ¬ (c = Ascii.semicolon ∧ d.atTopLevel = true)) :
    rawStatementsFrom d (c :: rest) =
      (rawStatementsFrom (d.feed c) rest).modifyHead ([c] ++ ·) := by
  have stays : (Mark.mk [c] d (d.feed c)).isTop Ascii.semicolon = false := by
    rw [Mark.isTop]
    simpa using inside
  rw [rawStatementsFrom, marks_cons plain, cutWhere_cons_of_not stays, ← rawStatementsFrom]

theorem rawStatementsFrom_semicolon (top : d.atTopLevel = true) :
    rawStatementsFrom d (Ascii.semicolon :: rest) = [] :: rawStatementsFrom d rest := by
  have same : d.feed Ascii.semicolon = d := Delimiters.feed_eq_self_of_atTopLevel top rfl
  rw [rawStatementsFrom, marks_cons fun opens => absurd opens.1 (by decide), same, cutWhere,
    Mark.isTop, top, cutWhere_previous _ none]
  rfl

/-- An inert text is all of a statement, and leaves everything as it is. -/
theorem rawStatementsFrom_append {inert : Bytes} (h : IsInert inert)
    (admits : d.admitsSubstitution = true) (rest : Bytes) :
    rawStatementsFrom d (inert ++ rest) = (rawStatementsFrom d rest).modifyHead (inert ++ ·) := by
  induction inert with
  | nil => exact (congrFun List.modifyHead_id _).symm
  | cons c inert ih =>
    obtain ⟨plain, noDollar⟩ := h.isPlain c List.mem_cons_self
    have noCut : c ≠ Ascii.semicolon := fun cut => h c List.mem_cons_self (cut ▸ by decide)
    rw [List.cons_append, rawStatementsFrom_feed (fun opens => noDollar opens.1)
      (fun cut => noCut cut.1), Delimiters.feed_eq_self_of_admits admits plain,
      ih fun c mem => h c (.tail _ mem), List.modifyHead_modifyHead]
    rfl

/-! ## The two readings in step -/

/-- From alike delimiters the same references are read. -/
theorem Delimiters.Alike.expandVariablesFrom_eq {d' : Delimiters} (alike : d.Alike d') :
    expandVariablesFrom value d' text = expandVariablesFrom value d text := by
  induction d, text using expandingInduction generalizing d' with
  | nil d => rw [expandVariablesFrom, expandVariablesFrom]
  | reference d r rest behind admits found ih =>
    rw [expandVariablesFrom_reference admits found,
      expandVariablesFrom_reference (alike.admitsSubstitution.trans admits) found, ih alike]
  | enter d rest admits ih =>
    rw [expandVariablesFrom_enter admits,
      expandVariablesFrom_enter (alike.admitsSubstitution.trans admits), ih alike.enter]
  | feed d c rest noReference plain ih =>
    have noReference' (dollar : c = Ascii.dollar) (admits : d'.admitsSubstitution = true) :
        Reference.read? rest = none :=
      noReference dollar (alike.admitsSubstitution.symm.trans admits)
    rw [expandVariablesFrom_feed noReference plain,
      expandVariablesFrom_feed noReference' (mt alike.opens_iff.1 plain), ih (alike.feed c)]

/-- **Cutting and replacing commute**: the raw statements of a text whose references are replaced
are those of the text, each with its own references replaced; the first goes on in what is open
before the text. -/
theorem rawStatementsFrom_expandVariablesFrom (inert : ∀ r, IsInert (value r))
    (h : Undollared d dollar text) :
    ∃ first others, rawStatementsFrom d text = first :: others ∧ first <+: text ∧
      rawStatementsFrom d (expandVariablesFrom value d text) =
        expandVariablesFrom value d first :: others.map (expandVariables value) := by
  induction h with
  | nil =>
    refine ⟨[], [], rfl, List.nil_prefix, ?_⟩
    rw [expandVariablesFrom]
    rfl
  | @reference d r rest behind admits found _ ih =>
    obtain ⟨first, others, raw, part, expanded⟩ := ih
    obtain ⟨name, rfl, some, inertName, reads⟩ := Reference.exists_of_read? found
    have step : rawStatementsFrom d (Ascii.dollar :: (name ++ behind)) =
        (Ascii.dollar :: (name ++ first)) :: others := by
      rw [rawStatementsFrom_feed, Delimiters.feed_eq_self_of_admits admits (by decide),
        rawStatementsFrom_append inertName admits, raw]
      · rfl
      · exact fun opens => inertName.isPlain.head?_append_ne some behind opens.2.1
      · exact fun cut => absurd cut.1 (by decide)
    refine ⟨_, _, step, ?_, ?_⟩
    · exact List.cons_prefix_cons.2 ⟨rfl, (List.prefix_append_right_inj _).2 part⟩
    · rw [expandVariablesFrom_reference admits found, rawStatementsFrom_append (inert r) admits,
        expanded, expandVariablesFrom_reference admits (reads first part)]
      rfl
  | @enter d dollar rest admits _ ih =>
    obtain ⟨first, others, raw, part, expanded⟩ := ih
    refine ⟨Ascii.dollar :: Ascii.openParen :: first, others, ?_, ?_, ?_⟩
    · rw [rawStatementsFrom_enter admits, raw]
      rfl
    · exact (List.prefix_append_right_inj [Ascii.dollar, Ascii.openParen]).2 part
    · rw [expandVariablesFrom_enter admits, rawStatementsFrom_enter admits, expanded,
        expandVariablesFrom_enter admits]
      rfl
  | @feed d dollar c rest noReference plain behind ih =>
    obtain ⟨first, others, raw, part, expanded⟩ := ih
    have plain' : ¬ d.Opens c (expandVariablesFrom value (d.feed c) rest) := by
      intro opens
      obtain rfl := opens.1
      rw [Delimiters.Opens, behind.head?_expandVariablesFrom] at opens
      exact plain opens
    by_cases cut : c = Ascii.semicolon ∧ d.atTopLevel = true
    · obtain ⟨rfl, top⟩ := cut
      have same : d.feed Ascii.semicolon = d := Delimiters.feed_eq_self_of_atTopLevel top rfl
      rw [same] at raw expanded
      refine ⟨[], first :: others, ?_, List.nil_prefix, ?_⟩
      · rw [rawStatementsFrom_semicolon top, raw]
      · have fresh : expandVariables value first = expandVariablesFrom value d first :=
          (Delimiters.Alike.of_atTopLevel top rfl).expandVariablesFrom_eq
        rw [expandVariablesFrom_feed noReference plain, same, rawStatementsFrom_semicolon top,
          expanded, List.map_cons, fresh, expandVariablesFrom]
    · refine ⟨c :: first, others, ?_, List.cons_prefix_cons.2 ⟨rfl, part⟩, ?_⟩
      · rw [rawStatementsFrom_feed plain cut, raw]
        rfl
      · have still : ¬ d.Opens c first := by
          obtain ⟨more, rfl⟩ := part
          exact fun opens => plain
            ⟨opens.1, by rw [List.head?_append, opens.2.1, Option.some_or], opens.2.2⟩
        rw [expandVariablesFrom_feed noReference plain, rawStatementsFrom_feed plain' cut,
          expanded, expandVariablesFrom_feed (fun dollar admits =>
            Reference.read?_eq_none_of_prefix (noReference dollar admits) part) still]
        rfl

end

/-! ## Statements -/

section

variable {value : Reference → Bytes} {line : Bytes}

theorem trim_expandVariables_trim (value : Reference → Bytes) (text : Bytes) :
    Bytes.trim (expandVariables value (Bytes.trim text)) =
      Bytes.trim (expandVariables value text) := by
  obtain ⟨before, after, hb, ha, eq⟩ := Bytes.exists_eq_blank_append_trim text
  calc Bytes.trim (expandVariables value (Bytes.trim text))
      = Bytes.trim (expandVariables value (before ++ (Bytes.trim text ++ after))) := by
        rw [expandVariables_blank_append hb, Bytes.trim_blank_append hb, expandVariables,
          expandVariables, expandVariablesFrom_append_blank ha, Bytes.trim_append_blank ha]
    _ = Bytes.trim (expandVariables value text) := by rw [← eq]

theorem trimmedPieces_cons_of_blank {text : Bytes} {texts : List Bytes}
    (h : Bytes.trim text = []) : trimmedPieces (text :: texts) = trimmedPieces texts := by
  rw [trimmedPieces, List.map_cons, List.filter_cons_of_neg (by simp [h]), ← trimmedPieces]

theorem trimmedPieces_cons_congr {text text' : Bytes} {texts texts' : List Bytes}
    (first : Bytes.trim text = Bytes.trim text')
    (others : trimmedPieces texts = trimmedPieces texts') :
    trimmedPieces (text :: texts) = trimmedPieces (text' :: texts') := by
  by_cases blank : Bytes.trim text = []
  · rw [trimmedPieces_cons_of_blank blank, trimmedPieces_cons_of_blank (first.symm.trans blank),
      others]
  · rw [trimmedPieces_cons blank, trimmedPieces_cons (first ▸ blank), first, others]

/-- What is trimmed before its references are replaced, and dropped if it is empty then, comes to
the same as if it had not been. -/
theorem trimmedPieces_map_expandVariables (value : Reference → Bytes) (raw : List Bytes) :
    trimmedPieces ((trimmedPieces raw).map (expandVariables value)) =
      trimmedPieces (raw.map (expandVariables value)) := by
  induction raw with
  | nil => rfl
  | cons text raw ih =>
    have trimmed := trim_expandVariables_trim value text
    by_cases blank : Bytes.trim text = []
    · have nothing : Bytes.trim (expandVariables value text) = [] := by
        rw [← trimmed, blank, expandVariables, expandVariablesFrom]
        rfl
      rw [trimmedPieces_cons_of_blank blank, ih, List.map_cons,
        trimmedPieces_cons_of_blank nothing]
    · rw [trimmedPieces_cons blank]
      exact trimmedPieces_cons_congr trimmed ih

/-- What a reference stands for is inert if the values are. -/
theorem Session.isInert_referred {s : Session}
    (inert : ∀ e ∈ s.environment.entries, IsInert e.2) (r : Reference) :
    IsInert (s.referred r) := by
  match r with
  | .status =>
    have digits (n : Nat) : IsInert (decimal n) :=
      .of_forall rfl (isDigit_of_mem_decimal n)
    rw [referred, signedDecimal]
    have minus : IsInert [Ascii.minus] := by decide
    split
    · exact minus.append (digits _)
    · exact digits _
  | .variable name =>
    rw [referred, valueOf]
    cases found : s.environment.find? name with
    | none => exact nofun
    | some value => exact inert _ (ByteMap.mem_of_find? found)

/-- **It makes no difference whether references are replaced before the line is cut or after**, in a
session whose values are inert. -/
theorem statements_expandVariables (s : Session) (line : Bytes)
    (inert : ∀ e ∈ s.environment.entries, IsInert e.2) (apart : Undollared {} false line) :
    statements (expandVariables s.referred line) =
      trimmedPieces ((statements line).map (expandVariables s.referred)) := by
  obtain ⟨first, others, raw, -, expanded⟩ :=
    rawStatementsFrom_expandVariablesFrom (Session.isInert_referred inert) apart
  calc statements (expandVariables s.referred line)
      = trimmedPieces ((rawStatements line).map (expandVariables s.referred)) := by
        rw [show rawStatements line = first :: others from raw]
        exact congrArg trimmedPieces expanded
    _ = trimmedPieces ((statements line).map (expandVariables s.referred)) :=
        (trimmedPieces_map_expandVariables _ _).symm

/-- A reference is replaced in quotes as well, and a brace that is closed in another statement only
starts none. -/
theorem statements_expandVariables_of_braces :
    let s : Session :=
      { environment := ByteMap.ofList [(ascii "A", ascii "x|>"), (ascii "B", [])], lastStatus := 7 }
    let line := ascii "echo \"$A;\" '$A';$B; echo $\x7bA;\x7d $?$A\\$B"
    statements line =
        [ascii "echo \"$A;\" '$A'", ascii "$B", ascii "echo $\x7bA", ascii "\x7d $?$A\\$B"]
      ∧ statements (expandVariables s.referred line) =
        [ascii "echo \"x|>;\" '$A'", ascii "echo $\x7bA", ascii "\x7d 7x|>\\$B"]
      ∧ statements (expandVariables s.referred line) =
        trimmedPieces ((statements line).map (expandVariables s.referred)) := by
  intro s line
  have inert : ∀ e ∈ s.environment.entries, IsInert e.2 := by decide +kernel
  have alone : ¬ [Ascii.dollar, Ascii.dollar] <:+: line := by decide +kernel
  exact ⟨by decide +kernel, by decide +kernel,
    statements_expandVariables s line inert (.of_single_dollars alone nofun)⟩

end

end VirtualShell
