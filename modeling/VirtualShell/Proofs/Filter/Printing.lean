import Mathlib.Algebra.Order.Floor.Div
import Mathlib.Data.List.TakeWhile
import VirtualShell.Builtin.Printing
import VirtualShell.Proofs.Filter.Writing

/-!
# What `printf` prints

A format without an invalid directive spells literal texts and directives (`Format.Spells`), and
reading it finds just these (`Format.spells_iff`). A pass over them gives every directive the
argument whose turn it is, or an empty one when they have run out (`Format.pass_eq`); as long as
arguments are left another pass follows. So there are as many passes as it takes to use up the
arguments, one at least (`Format.passes_eq`), and no argument is left out or used twice
(`Builtin.printf_takes_arguments`).
-/

namespace VirtualShell

namespace Format

/-! ## What a format spells -/

/-- The digits of a precision, with the point in front of them. -/
def pointed : Option Bytes → Bytes
  | none => []
  | some digits => Ascii.dot :: digits

/-- What stands behind the percent sign of a directive: flags, the digits of a width, a point with
those of a precision, and the letter of a conversion. -/
structure DirectiveText where
  flags : Bytes
  width : Bytes
  precision : Option Bytes
  letter : UInt8
  conversion : Conversion
  flags_isFlag : ∀ c ∈ flags, Directive.isFlag c = true
  width_isDigit : ∀ c ∈ width, isDigit c = true
  precision_isDigit : ∀ digits ∈ precision, ∀ c ∈ digits, isDigit c = true
  letter_converts : Conversion.ofLetter? letter = some conversion
  /-- What comes behind the flags is none: a width does not start with a zero. -/
  isFlag_behind : ∀ c ∈ (width ++ (pointed precision ++ [letter])).head?,
    Directive.isFlag c = false

namespace DirectiveText

def text (t : DirectiveText) : Bytes :=
  t.flags ++ (t.width ++ (pointed t.precision ++ [t.letter]))

def directive (t : DirectiveText) : Directive where
  flags := t.flags
  width := digitsValue 10 t.width
  precision := t.precision.map (digitsValue 10)
  conversion := t.conversion

end DirectiveText

/-- The format is made of escapes, of other bytes and of directives. -/
inductive Spells : Bytes → List FormatPiece → Prop
  | nil : Spells [] []
  | backslash : Spells [Ascii.backslash] [.literal [Ascii.backslash]]
  | escape (e : UInt8) {text : Bytes} {pieces : List FormatPiece} : Spells text pieces →
      Spells (Ascii.backslash :: e :: text) (prepend [Ascii.backslash, e] pieces)
  | byte {c : UInt8} {text : Bytes} {pieces : List FormatPiece} : c ≠ Ascii.backslash →
      c ≠ Ascii.percent → Spells text pieces → Spells (c :: text) (prepend [c] pieces)
  | percent {text : Bytes} {pieces : List FormatPiece} : Spells text pieces →
      Spells (Ascii.percent :: Ascii.percent :: text) (prepend [Ascii.percent] pieces)
  | directive (t : DirectiveText) {text : Bytes} {pieces : List FormatPiece} : Spells text pieces →
      Spells (Ascii.percent :: (t.text ++ text)) (.directive t.directive :: pieces)

/-! ## Reading a directive -/

section

variable {p : UInt8 → Bool} {start rest : Bytes}

theorem takeWhile_append_of_stops (takes : ∀ c ∈ start, p c = true)
    (stops : ∀ c ∈ rest.head?, p c = false) : (start ++ rest).takeWhile p = start := by
  rw [List.takeWhile_append_of_pos takes]
  cases rest with
  | nil => rw [List.takeWhile_nil, List.append_nil]
  | cons c rest =>
    rw [List.takeWhile_cons_of_neg (by simp [stops c rfl]), List.append_nil]

/-- A text is cut behind what is taken from it. -/
theorem exists_takeWhile_append (p : UInt8 → Bool) (text : Bytes) :
    ∃ start rest, text = start ++ rest ∧ text.takeWhile p = start
      ∧ (∀ c ∈ start, p c = true) ∧ ∀ c ∈ rest.head?, p c = false := by
  refine ⟨text.takeWhile p, text.dropWhile p, List.takeWhile_append_dropWhile.symm, rfl,
    fun c => List.mem_takeWhile_imp, fun c first => ?_⟩
  have stops := List.head?_dropWhile_not p text
  rw [Option.mem_def.1 first] at stops
  exact stops

end

/-- The letters that name a conversion. -/
def conversionLetters : Bytes :=
  [0, 115, 98, 99, 100, 105, 111, 117, 120, 88, 101, 69, 102, 70, 103, 71]

theorem mem_of_ofLetter? {c : UInt8} {conversion : Conversion}
    (h : Conversion.ofLetter? c = some conversion) : c ∈ conversionLetters := by
  by_contra other
  simp only [conversionLetters, List.mem_cons, List.not_mem_nil, or_false, not_or] at other
  simp [Conversion.ofLetter?, other] at h

/-- A letter of a conversion is neither a digit nor a point. -/
theorem isDigit_of_ofLetter? {c : UInt8} {conversion : Conversion}
    (h : Conversion.ofLetter? c = some conversion) : isDigit c = false ∧ c ≠ Ascii.dot := by
  have others : conversionLetters.all (fun c => !isDigit c && c != Ascii.dot) = true := by decide
  simpa using List.all_eq_true.1 others c (mem_of_ofLetter? h)

namespace DirectiveText

variable (t : DirectiveText) (rest : Bytes)

/-- The flags end where the width starts, or what comes behind it. -/
theorem takeWhile_isFlag : (t.text ++ rest).takeWhile Directive.isFlag = t.flags := by
  rw [text, List.append_assoc]
  refine takeWhile_append_of_stops t.flags_isFlag fun c first => t.isFlag_behind c ?_
  rwa [List.head?_append_of_ne_nil _ (by simp)] at first

/-- Behind the width comes a point or the letter. -/
theorem takeWhile_isDigit :
    (t.width ++ (pointed t.precision ++ t.letter :: rest)).takeWhile isDigit = t.width := by
  refine takeWhile_append_of_stops t.width_isDigit fun c first => ?_
  cases given : t.precision with
  | none =>
    rw [given] at first
    obtain rfl := Option.some.inj first
    exact (isDigit_of_ofLetter? t.letter_converts).1
  | some digits =>
    rw [given] at first
    obtain rfl := Option.some.inj first
    rfl

end DirectiveText

/-- A precision and the text behind it. -/
def readPrecision (text : Bytes) : Option Nat × Bytes :=
  match text with
  | Ascii.dot :: behind =>
    let digits := behind.takeWhile isDigit
    (some (digitsValue 10 digits), behind.drop digits.length)
  | _ => (none, text)

theorem readPrecision_pointed {precision : Option Bytes} {rest : Bytes}
    (digits : ∀ digits ∈ precision, ∀ c ∈ digits, isDigit c = true)
    (stops : ∀ c ∈ rest.head?, isDigit c = false ∧ c ≠ Ascii.dot) :
    readPrecision (pointed precision ++ rest) = (precision.map (digitsValue 10), rest) := by
  cases precision with
  | none =>
    rw [pointed, List.nil_append, readPrecision.eq_def]
    split
    next => exact absurd rfl (stops _ rfl).2
    next => rfl
  | some taken =>
    have ends := takeWhile_append_of_stops (digits taken rfl) fun c first => (stops c first).1
    change (some (digitsValue 10 ((taken ++ rest).takeWhile isDigit)),
      (taken ++ rest).drop ((taken ++ rest).takeWhile isDigit).length) = _
    rw [ends, List.drop_left]
    rfl

theorem exists_pointed (text : Bytes) :
    ∃ precision rest, text = pointed precision ++ rest
      ∧ (∀ digits ∈ precision, ∀ c ∈ digits, isDigit c = true)
      ∧ readPrecision text = (precision.map (digitsValue 10), rest) := by
  unfold readPrecision
  split
  next behind =>
    obtain ⟨digits, rest, rfl, taken, areDigits, -⟩ := exists_takeWhile_append isDigit behind
    rw [taken]
    dsimp only
    rw [List.drop_left]
    refine ⟨some digits, rest, rfl, fun _ given => ?_, rfl⟩
    obtain rfl := Option.some.inj given
    exact areDigits
  next => exact ⟨none, text, rfl, nofun, rfl⟩

theorem readDirective_eq (text : Bytes) :
    readDirective text =
      let flags := text.takeWhile Directive.isFlag
      let width := (text.drop flags.length).takeWhile isDigit
      let (precision, rest) := readPrecision ((text.drop flags.length).drop width.length)
      match rest with
      | [] => .error (Ascii.percent :: text)
      | c :: behind =>
        match Conversion.ofLetter? c with
        | none => .error (Ascii.percent :: text.take (text.length - behind.length))
        | some conversion =>
          .ok ({ flags, width := digitsValue 10 width, precision, conversion }, behind) := rfl

/-- Behind flags and a width that are all that can be taken for them, a precision and a letter are
read. -/
theorem readDirective_eq_ok_iff {flags width text rest : Bytes} {d : Directive}
    (atFlags : (flags ++ (width ++ text)).takeWhile Directive.isFlag = flags)
    (atWidth : (width ++ text).takeWhile isDigit = width) :
    readDirective (flags ++ (width ++ text)) = .ok (d, rest) ↔
      ∃ precision c conversion, readPrecision text = (precision, c :: rest)
        ∧ Conversion.ofLetter? c = some conversion
        ∧ d = { flags, width := digitsValue 10 width, precision, conversion } := by
  rw [readDirective_eq, atFlags]
  dsimp only
  rw [List.drop_left, atWidth, List.drop_left]
  rcases readPrecision text with ⟨precision, - | ⟨c, behind⟩⟩
  · simp
  · dsimp only
    cases read : Conversion.ofLetter? c with
    | none =>
      refine ⟨nofun, ?_⟩
      rintro ⟨_, _, _, ⟨⟩, letter, -⟩
      cases read.symm.trans letter
    | some conversion =>
      refine ⟨?_, ?_⟩
      · rintro ⟨⟩
        exact ⟨precision, c, conversion, rfl, read, rfl⟩
      · rintro ⟨_, _, _, ⟨⟩, letter, rfl⟩
        obtain rfl := Option.some.inj (read.symm.trans letter)
        rfl

/-- **The text of a directive is read** as the directive. -/
theorem readDirective_text (t : DirectiveText) (rest : Bytes) :
    readDirective (t.text ++ rest) = .ok (t.directive, rest) := by
  have atFlags := t.takeWhile_isFlag rest
  rw [DirectiveText.text] at atFlags ⊢
  simp only [List.append_assoc, List.singleton_append] at atFlags ⊢
  refine (readDirective_eq_ok_iff atFlags (t.takeWhile_isDigit rest)).2
    ⟨_, t.letter, t.conversion, readPrecision_pointed t.precision_isDigit fun c first => ?_,
      t.letter_converts, rfl⟩
  obtain rfl := Option.some.inj first
  exact isDigit_of_ofLetter? t.letter_converts

/-- What is read as a directive is the text of one. -/
theorem exists_of_readDirective {text rest : Bytes} {d : Directive}
    (h : readDirective text = .ok (d, rest)) :
    ∃ t : DirectiveText, text = t.text ++ rest ∧ d = t.directive := by
  obtain ⟨flags, text, rfl, atFlags, areFlags, stops⟩ :=
    exists_takeWhile_append Directive.isFlag text
  obtain ⟨width, text, rfl, atWidth, areDigits, -⟩ := exists_takeWhile_append isDigit text
  obtain ⟨_, c, conversion, read, letter, rfl⟩ := (readDirective_eq_ok_iff atFlags atWidth).1 h
  obtain ⟨precision, behind, rfl, arePrecise, read'⟩ := exists_pointed text
  obtain ⟨rfl, rfl⟩ := Prod.mk.inj (read'.symm.trans read)
  refine ⟨⟨flags, width, precision, c, conversion, areFlags, areDigits, arePrecise, letter,
    fun first atHead => stops first ?_⟩, by simp [DirectiveText.text], rfl⟩
  rw [← List.singleton_append, ← List.append_assoc, ← List.append_assoc,
    List.head?_append_of_ne_nil _ (by simp), List.append_assoc]
  exact atHead

/-! ## Reading a format -/

/-- The directives among the pieces, in order. -/
def directives (pieces : List FormatPiece) : List Directive :=
  pieces.filterMap fun
    | .directive d => some d
    | _ => none

/-- No piece stands for an invalid directive. -/
def IsValid (pieces : List FormatPiece) : Prop := ∀ source, .invalid source ∉ pieces

theorem isValid_prepend_iff {text : Bytes} {pieces : List FormatPiece} :
    IsValid (prepend text pieces) ↔ IsValid pieces := by
  refine forall_congr' fun source => not_congr ?_
  cases pieces with
  | nil => simp [prepend]
  | cons piece rest => cases piece <;> simp [prepend]

theorem isValid_directive_cons_iff {d : Directive} {pieces : List FormatPiece} :
    IsValid (.directive d :: pieces) ↔ IsValid pieces := by
  simp [IsValid]

theorem Spells.isValid {text : Bytes} {pieces : List FormatPiece} (h : Spells text pieces) :
    IsValid pieces := by
  induction h with
  | nil | backslash => simp [IsValid]
  | escape _ _ ih => exact isValid_prepend_iff.2 ih
  | byte _ _ _ ih => exact isValid_prepend_iff.2 ih
  | percent _ ih => exact isValid_prepend_iff.2 ih
  | directive _ _ ih => exact isValid_directive_cons_iff.2 ih

section

variable {fuel : Nat} {rest : Bytes}

theorem readWithin_escape (e : UInt8) :
    readWithin (fuel + 1) (Ascii.backslash :: e :: rest) =
      prepend [Ascii.backslash, e] (readWithin fuel rest) := rfl

theorem readWithin_byte {c : UInt8} (noBackslash : c ≠ Ascii.backslash)
    (noPercent : c ≠ Ascii.percent) :
    readWithin (fuel + 1) (c :: rest) = prepend [c] (readWithin fuel rest) := by
  rw [readWithin.eq_def]
  dsimp only
  rw [if_neg noBackslash, if_pos noPercent]

theorem readWithin_percent :
    readWithin (fuel + 1) (Ascii.percent :: Ascii.percent :: rest) =
      prepend [Ascii.percent] (readWithin fuel rest) := rfl

theorem readWithin_directive {text : Bytes} (other : text.head? ≠ some Ascii.percent) :
    readWithin (fuel + 1) (Ascii.percent :: text) =
      match readDirective text with
      | .error source => [.invalid source]
      | .ok (d, rest) => .directive d :: readWithin fuel rest := by
  rw [readWithin.eq_def]
  dsimp only
  rw [if_neg (by decide), if_neg (by decide)]
  exact if_neg other

end

/-- A directive does not start with a percent sign, which would be one in the output. -/
theorem head?_text_ne (t : DirectiveText) (rest : Bytes) :
    (t.text ++ rest).head? ≠ some Ascii.percent := by
  intro first
  obtain ⟨behind, cut⟩ : ∃ behind, t.text ++ rest = Ascii.percent :: behind :=
    ⟨_, (List.cons_head?_tail first).symm⟩
  have read := readDirective_text t rest
  rw [cut] at read
  cases read

theorem Spells.readWithin_eq {text : Bytes} {pieces : List FormatPiece} (h : Spells text pieces)
    {fuel : Nat} (enough : text.length ≤ fuel) : readWithin fuel text = pieces := by
  induction h generalizing fuel with
  | nil => cases fuel <;> rfl
  | backslash =>
    cases fuel with
    | zero => cases enough
    | succ fuel => rfl
  | escape e _ ih =>
    cases fuel with
    | zero => cases enough
    | succ fuel =>
      rw [readWithin_escape, ih (Nat.le_of_succ_le (Nat.le_of_succ_le_succ enough))]
  | byte noBackslash noPercent _ ih =>
    cases fuel with
    | zero => cases enough
    | succ fuel =>
      rw [readWithin_byte noBackslash noPercent, ih (Nat.le_of_succ_le_succ enough)]
  | percent _ ih =>
    cases fuel with
    | zero => cases enough
    | succ fuel =>
      rw [readWithin_percent, ih (Nat.le_of_succ_le (Nat.le_of_succ_le_succ enough))]
  | @directive t text pieces _ ih =>
    cases fuel with
    | zero => cases enough
    | succ fuel =>
      have shorter : text.length ≤ fuel := by
        rw [List.length_cons, List.length_append] at enough
        omega
      rw [readWithin_directive (head?_text_ne t text), readDirective_text]
      dsimp only
      rw [ih shorter]

theorem spells_readWithin {fuel : Nat} {text : Bytes} (enough : text.length ≤ fuel)
    (valid : IsValid (readWithin fuel text)) : Spells text (readWithin fuel text) := by
  induction fuel generalizing text with
  | zero =>
    obtain rfl := List.length_eq_zero_iff.1 (Nat.le_zero.1 enough)
    exact .nil
  | succ fuel ih =>
    rcases text with - | ⟨c, rest⟩
    · exact .nil
    have shorter : rest.length ≤ fuel := Nat.le_of_succ_le_succ enough
    by_cases escape : c = Ascii.backslash
    · subst escape
      rcases rest with - | ⟨e, rest⟩
      · exact .backslash
      · rw [readWithin_escape] at valid ⊢
        exact .escape e (ih (Nat.le_of_succ_le shorter) (isValid_prepend_iff.1 valid))
    by_cases plain : c ≠ Ascii.percent
    · rw [readWithin_byte escape plain] at valid ⊢
      exact .byte escape plain (ih shorter (isValid_prepend_iff.1 valid))
    obtain rfl := not_not.1 plain
    by_cases percent : rest.head? = some Ascii.percent
    · obtain ⟨rest, rfl⟩ : ∃ behind, rest = Ascii.percent :: behind :=
        ⟨_, (List.cons_head?_tail percent).symm⟩
      rw [readWithin_percent] at valid ⊢
      exact .percent (ih (Nat.le_of_succ_le shorter) (isValid_prepend_iff.1 valid))
    · rw [readWithin_directive percent] at valid ⊢
      cases read : readDirective rest with
      | error source =>
        rw [read] at valid
        exact absurd List.mem_cons_self (valid source)
      | ok cut =>
        obtain ⟨d, rest⟩ := cut
        obtain ⟨t, rfl, rfl⟩ := exists_of_readDirective read
        rw [read] at valid
        refine .directive t (ih ?_ (isValid_directive_cons_iff.1 valid))
        rw [List.length_append] at shorter
        omega

/-- **What a format spells** is what it is read as, if nothing in it is invalid. -/
theorem spells_iff {text : Bytes} {pieces : List FormatPiece} :
    Spells text pieces ↔ read text = pieces ∧ IsValid pieces := by
  refine ⟨fun h => ⟨h.readWithin_eq (Nat.le_refl _), h.isValid⟩, ?_⟩
  rintro ⟨rfl, valid⟩
  exact spells_readWithin (Nat.le_refl _) valid

/-! ## One pass -/

variable {arguments : List Bytes} {pieces : List FormatPiece}

/-- What pieces write when the first directive among them takes the argument at a place: literal
text with its escapes resolved, and what each directive makes of its argument, which is empty behind
the last. -/
def written (arguments : List Bytes) : Nat → List FormatPiece → Bytes
  | _, [] => []
  | i, .literal source :: rest => (unescape source).text ++ written arguments i rest
  | i, .directive d :: rest =>
    (d.render (arguments.getD i [])).text ++ written arguments (i + 1) rest
  | i, .invalid _ :: rest => written arguments i rest

theorem written_append (i : Nat) (pieces more : List FormatPiece) :
    written arguments i (pieces ++ more) =
      written arguments i pieces ++ written arguments (i + (directives pieces).length) more := by
  induction pieces generalizing i with
  | nil => rfl
  | cons piece rest ih =>
    cases piece with
    | literal source =>
      rw [List.cons_append, written, ih, written, List.append_assoc]
      rfl
    | directive d =>
      rw [List.cons_append, written, ih, written, List.append_assoc]
      congr 3
      change i + 1 + (directives rest).length = i + ((directives rest).length + 1)
      omega
    | invalid source =>
      rw [List.cons_append, written, ih, written]
      rfl

/-- Only a `\\c` in an argument whose escapes are resolved stops a directive. -/
theorem stopped_render {d : Directive} {argument : Bytes}
    (h : d.conversion = .escapedText → (unescape argument).stopped = false) :
    (d.render argument).stopped = false := by
  unfold Directive.render
  cases conversion : d.conversion with
  | escapedText => exact h conversion
  | text | character | signed | unsigned | fixed | scientific | general => rfl

namespace Printed

variable {p : Printed}

theorem addLiteral_eq {source : Bytes} (unstopped : (unescape source).stopped = false) :
    p.addLiteral source = { p with output := p.output ++ (unescape source).text } := by
  rw [addLiteral, unstopped, Bool.or_false]

theorem addArgument_eq {d : Directive} (unstopped : (d.render (p.rest.headD [])).stopped = false) :
    ∃ bad, p.addArgument d =
      { p with
        output := p.output ++ (d.render (p.rest.headD [])).text, bad
        rest := p.rest.tail
        consumed := p.consumed || !p.rest.isEmpty } := by
  refine ⟨(p.addArgument d).bad, ?_⟩
  simp only [addArgument, unstopped, Bool.or_false]

end Printed

/-- **A pass gives every directive the argument whose turn it is**, and writes it with the literal
text around it. -/
theorem pass_eq {p : Printed} {i : Nat} (rest : p.rest = arguments.drop i)
    (going : p.stopped = false) (valid : IsValid pieces)
    (literals : ∀ source, .literal source ∈ pieces → (unescape source).stopped = false)
    (renders : ∀ (m : Nat) (d : Directive), (directives pieces)[m]? = some d →
      (d.render (arguments.getD (i + m) [])).stopped = false) :
    ∃ bad, pass p pieces =
      { p with
        output := p.output ++ written arguments i pieces, bad
        rest := arguments.drop (i + (directives pieces).length)
        consumed := p.consumed || decide (directives pieces ≠ [] ∧ i < arguments.length) } := by
  induction pieces generalizing p i with
  | nil =>
    refine ⟨p.bad, ?_⟩
    simp [pass, written, directives, ← rest]
  | cons piece behind ih =>
    have valid' : IsValid behind := fun source mem => valid source (List.mem_cons_of_mem _ mem)
    have literals' := fun source mem => literals source (List.mem_cons_of_mem _ mem)
    cases piece with
    | literal source =>
      have same : directives (.literal source :: behind) = directives behind := rfl
      rw [same] at renders ⊢
      rw [pass, Printed.addLiteral_eq (literals source List.mem_cons_self), written]
      obtain ⟨bad, run⟩ := ih (p := { p with output := p.output ++ (unescape source).text })
        rest going valid' literals' renders
      exact ⟨bad, by rw [run, List.append_assoc]⟩
    | directive d =>
      have more : directives (.directive d :: behind) = d :: directives behind := rfl
      rw [more] at renders ⊢
      have turn : p.rest.headD [] = arguments.getD i [] := by
        rw [rest, List.headD_eq_head?_getD, List.head?_drop, List.getD_eq_getElem?_getD]
      have left : (!p.rest.isEmpty) = decide (i < arguments.length) := by
        rw [rest, Bool.eq_iff_iff]
        simp
      obtain ⟨bad, taken⟩ := Printed.addArgument_eq (p := p) (d := d) (turn ▸ renders 0 d rfl)
      rw [pass, taken, if_neg (by simp [going]), written, left, turn]
      obtain ⟨bad', run⟩ := ih (p := { p with
        output := p.output ++ (d.render (arguments.getD i [])).text, bad
        rest := p.rest.tail
        consumed := p.consumed || decide (i < arguments.length) }) (i := i + 1)
        (by rw [rest, List.tail_drop]) going valid' literals' fun m d' at_ => by
          rw [Nat.add_right_comm]
          exact renders (m + 1) d' at_
      have counted : i + 1 + (directives behind).length = i + (d :: directives behind).length := by
        rw [List.length_cons]
        omega
      have consumed : (p.consumed || decide (i < arguments.length)
            || decide (directives behind ≠ [] ∧ i + 1 < arguments.length)) =
          (p.consumed || decide (d :: directives behind ≠ [] ∧ i < arguments.length)) := by
        by_cases more : i < arguments.length
        · simp [more]
        · simp [more, show ¬ i + 1 < arguments.length by omega]
      refine ⟨bad', ?_⟩
      rw [run]
      dsimp only
      rw [List.append_assoc, counted, consumed]
    | invalid source => exact absurd List.mem_cons_self (valid source)

/-! ## All passes -/

/-- One more pass, which has not taken an argument yet. -/
def nextPass (pieces : List FormatPiece) (p : Printed) : Printed :=
  pass { p with consumed := false } pieces

/-- So many passes are made, each but the last because the one before it calls for it. -/
inductive Passes (pieces : List FormatPiece) : Nat → Printed → Printed → Prop
  | last {p : Printed} : (nextPass pieces p).goesOn = false →
      Passes pieces 1 p (nextPass pieces p)
  | again {n : Nat} {p q : Printed} : (nextPass pieces p).goesOn = true →
      Passes pieces n (nextPass pieces p) q → Passes pieces (n + 1) p q

/-- Where escapes are resolved, in literal text and in the arguments whose turn comes at a `%b`,
there is no `\\c`. -/
structure Unstopped (pieces : List FormatPiece) (arguments : List Bytes) : Prop where
  literals : ∀ source, .literal source ∈ pieces → (unescape source).stopped = false
  escaped : ∀ (i : Nat) (d : Directive) (argument : Bytes), arguments[i]? = some argument →
    (directives pieces)[i % (directives pieces).length]? = some d →
      d.conversion = .escapedText → (unescape argument).stopped = false

/-- So many passes have been made that take a number of arguments each. -/
structure PassedOver (k : Nat) (arguments : List Bytes) (j : Nat) (p : Printed) : Prop where
  rest : p.rest = arguments.drop (j * k)
  going : p.stopped = false
  valid : p.invalid = none

/-- The number of passes that take a number of arguments each until none is left. -/
def passCount (left k : Nat) : Nat := max 1 (left ⌈/⌉ k)

theorem passCount_eq_one {left k : Nat} (positive : 0 < k) (few : left ≤ k) :
    passCount left k = 1 := by
  have atMost : left ⌈/⌉ k ≤ 1 := by
    rw [ceilDiv_le_iff_le_mul positive]
    omega
  exact Nat.max_eq_left atMost

theorem passCount_eq_succ {left k : Nat} (positive : 0 < k) (many : k < left) :
    passCount left k = passCount (left - k) k + 1 := by
  have once : left ⌈/⌉ k = (left - k) ⌈/⌉ k + 1 := by
    rw [Nat.ceilDiv_eq_add_pred_div, Nat.ceilDiv_eq_add_pred_div, ← Nat.add_div_right _ positive]
    congr 1
    omega
  have some : 0 < (left - k) ⌈/⌉ k := by
    rw [Nat.ceilDiv_eq_add_pred_div]
    exact Nat.div_pos (by omega) positive
  rw [passCount, passCount, once]
  omega

section

variable {k j : Nat} {p : Printed} (number : (directives pieces).length = k)
  (unstopped : Unstopped pieces arguments)
include number unstopped

theorem Unstopped.renders (m : Nat) (d : Directive) (turn : (directives pieces)[m]? = some d) :
    (d.render (arguments.getD (j * k + m) [])).stopped = false := by
  obtain ⟨within, -⟩ := List.getElem?_eq_some_iff.1 turn
  refine stopped_render fun conversion => ?_
  rw [List.getD_eq_getElem?_getD]
  cases given : arguments[j * k + m]? with
  | none => rfl
  | some argument =>
    refine unstopped.escaped _ d argument given ?_ conversion
    rw [number, Nat.mul_add_mod', Nat.mod_eq_of_lt (number ▸ within), turn]

variable (valid : IsValid pieces) (positive : 0 < k) (h : PassedOver k arguments j p)
include valid positive h

/-- **One pass more**: it writes what the pieces make of the arguments whose turn it is, and another
one follows just if arguments are left. -/
theorem PassedOver.next :
    PassedOver k arguments (j + 1) (nextPass pieces p)
      ∧ (nextPass pieces p).output = p.output ++ written arguments (j * k) pieces
      ∧ (nextPass pieces p).goesOn = decide ((j + 1) * k < arguments.length) := by
  obtain ⟨bad, run⟩ := pass_eq (p := { p with consumed := false }) h.rest h.going valid
    unstopped.literals (unstopped.renders number)
  have some : directives pieces ≠ [] := List.length_pos_iff.1 (number ▸ positive)
  have next : (j + 1) * k = j * k + k := Nat.succ_mul j k
  rw [nextPass, run, number, next]
  refine ⟨⟨?_, h.going, h.valid⟩, rfl, ?_⟩
  · rw [next]
  · rw [Printed.goesOn, h.going, h.valid, Bool.eq_iff_iff]
    simp [some]
    omega

/-- The last pass takes what is left. -/
theorem PassedOver.last (few : arguments.length ≤ (j + 1) * k) :
    let count := passCount (arguments.length - j * k) k
    Passes pieces count p (nextPass pieces p)
      ∧ (nextPass pieces p).rest = [] ∧ (nextPass pieces p).invalid = none
      ∧ (nextPass pieces p).output =
        p.output ++ written arguments (j * k) (List.replicate count pieces).flatten := by
  obtain ⟨passed, output, goesOn⟩ := h.next number unstopped valid positive
  have next : (j + 1) * k = j * k + k := Nat.succ_mul j k
  have single : passCount (arguments.length - j * k) k = 1 := passCount_eq_one positive (by omega)
  rw [decide_eq_false (by omega)] at goesOn
  rw [single]
  refine ⟨.last goesOn, ?_, passed.valid, ?_⟩
  · rw [passed.rest, List.drop_eq_nil_of_le few]
  · rw [output]
    simp

/-- **The passes use up the arguments**, of which each but the last leaves some. -/
theorem passes_eq {fuel : Nat} (enough : arguments.length - j * k ≤ fuel + 1) :
    let count := passCount (arguments.length - j * k) k
    Passes pieces count p (passes pieces fuel p)
      ∧ (passes pieces fuel p).rest = [] ∧ (passes pieces fuel p).invalid = none
      ∧ (passes pieces fuel p).output =
        p.output ++ written arguments (j * k) (List.replicate count pieces).flatten := by
  induction fuel generalizing j p with
  | zero =>
    have next : (j + 1) * k = j * k + k := Nat.succ_mul j k
    exact h.last number unstopped valid positive (by omega)
  | succ fuel ih =>
    have next : (j + 1) * k = j * k + k := Nat.succ_mul j k
    have unfolds : passes pieces (fuel + 1) p =
        if (nextPass pieces p).goesOn then passes pieces fuel (nextPass pieces p)
        else nextPass pieces p := rfl
    obtain ⟨passed, output, goesOn⟩ := h.next number unstopped valid positive
    by_cases more : (j + 1) * k < arguments.length
    · have counted : passCount (arguments.length - j * k) k =
          passCount (arguments.length - (j + 1) * k) k + 1 := by
        rw [passCount_eq_succ positive (by omega), next, Nat.sub_add_eq]
      rw [decide_eq_true more] at goesOn
      obtain ⟨others, rest, all, written⟩ := ih passed (by omega)
      rw [unfolds, if_pos goesOn, counted]
      refine ⟨.again goesOn others, rest, all, ?_⟩
      rw [written, output, List.replicate_succ, List.flatten_cons, written_append, number, next,
        List.append_assoc]
    · rw [unfolds, goesOn, decide_eq_false more, if_neg (by decide)]
      exact h.last number unstopped valid positive (by omega)

end

end Format

/-! ## The command -/

namespace Builtin

open ShellAction

/-- The complaint about an argument that was to be a number. -/
def badNumber (c : Call) (argument : Bytes) : Report where
  kind := .invalidArgument
  command := c.name
  message := ascii "'" ++ argument ++ ascii "': expected a numeric value"

theorem run_forM_complain (c : Call) (bad : List Bytes) (w : World) :
    ((bad.forM fun argument => c.complain .invalidArgument
        (ascii "'" ++ argument ++ ascii "': expected a numeric value")).run w) =
      ⟨⟨⟩, bad.map fun argument => .err (badNumber c argument).render, w⟩ := by
  induction bad with
  | nil => rfl
  | cons argument rest ih =>
    exact congrArg (fun r : ActionResult PUnit =>
      { r with emitted := .err (badNumber c argument).render :: r.emitted }) ih

/-- What a call does whose format has no invalid directive. -/
theorem run_answer_printf {c : Call} {format : Bytes} {arguments : List Bytes}
    (given : c.arguments = format :: arguments)
    (valid : (Format.print (Format.read format) arguments).invalid = none) (w : World) :
    let printed := Format.print (Format.read format) arguments
    (printf.answer c).run w =
      { value := statusOf [printed.bad.isEmpty]
        emitted := printed.bad.map (fun argument => .err (badNumber c argument).render)
          ++ [.out printed.output]
        world := w } := by
  intro printed
  rw [printf]
  dsimp only
  rw [given]
  dsimp only
  rw [run_bind, run_forM_complain, valid]
  rfl

/-- **Every argument is printed once.** A format spells literal texts and directives just if nothing
in it is invalid. If there are directives among them, so many passes are made over the format as it
takes to use up the arguments, one at least; in all of them together each directive takes the
argument whose turn it is, or an empty one behind the last, and what `printf` writes is the literal
text, escapes resolved, and what the directives make of their arguments, in order. -/
theorem printf_takes_arguments :
    (∀ format, (∃ pieces, Format.Spells format pieces) ↔ Format.IsValid (Format.read format))
      ∧ ∀ (format : Bytes) (pieces : List FormatPiece) (arguments : List Bytes) (c : Call)
          (w : World),
        Format.Spells format pieces → Format.directives pieces ≠ [] →
        Format.Unstopped pieces arguments → c.arguments = format :: arguments →
          let count := max 1 (arguments.length ⌈/⌉ (Format.directives pieces).length)
          let printed := Format.print (Format.read format) arguments
          Format.Passes (Format.read format) count { rest := arguments } printed
            ∧ printed.rest = []
            ∧ printed.output =
              Format.written arguments 0 (List.replicate count pieces).flatten
            ∧ (printf.invoke c).run w =
              { value := statusOf [printed.bad.isEmpty]
                emitted := printed.bad.map (fun argument => .err (badNumber c argument).render)
                  ++ [.out printed.output]
                world := w } := by
  refine ⟨fun format => ⟨?_, fun valid => ⟨_, Format.spells_iff.2 ⟨rfl, valid⟩⟩⟩, ?_⟩
  · rintro ⟨pieces, spells⟩
    obtain ⟨rfl, valid⟩ := Format.spells_iff.1 spells
    exact valid
  · intro format pieces arguments c w spells some unstopped given count printed
    obtain ⟨rfl, valid⟩ := Format.spells_iff.1 spells
    have started : Format.PassedOver (Format.directives (Format.read format)).length arguments 0
        { rest := arguments } := ⟨by simp, rfl, rfl⟩
    have enough : arguments.length - 0 * (Format.directives (Format.read format)).length ≤
        arguments.length + 1 := by omega
    obtain ⟨passes, rest, all, output⟩ := Format.passes_eq rfl unstopped valid
      (List.length_pos_iff.2 some) started enough
    rw [Nat.zero_mul, Nat.sub_zero] at passes output
    -- The words that ask for help have no directives in them.
    have noLong : format ≠ ascii "--help" := by
      rintro rfl
      exact some rfl
    have noShort : format ≠ ascii "-h" := by
      rintro rfl
      exact some rfl
    refine ⟨passes, rest, output, ?_⟩
    rw [invoke_of_noHelp printf given noLong noShort]
    exact run_answer_printf given all w

/-- Two directives, the first of which resolves escapes. -/
def pairFormat : Bytes := ascii "%b:%%%d\\n"

def pairArguments : List Bytes := [ascii "a\\tb", ascii "1", ascii "c"]

/-- A world without files. -/
def bareWorld : World :=
  { session := {}, now := 0, system := { volume := { store := .memory ∅ } } }

theorem print_pairFormat :
    Format.print (Format.read pairFormat) pairArguments =
      { output := ascii "a\tb:%1\nc:%0\n", consumed := true } := by
  decide +kernel

/-- Three arguments take two passes, at the end of which there is none for the number. -/
theorem printf_takes_arguments_of_pairs :
    Format.Passes (Format.read pairFormat) 2 { rest := pairArguments }
        (Format.print (Format.read pairFormat) pairArguments)
      ∧ (printf.invoke { name := ascii "printf", arguments := pairFormat :: pairArguments }).run
          bareWorld =
        { value := 0, emitted := [.out (ascii "a\tb:%1\nc:%0\n")], world := bareWorld } := by
  have pieces : Format.read pairFormat = [.directive { conversion := .escapedText },
      .literal (ascii ":%"), .directive { conversion := .signed }, .literal (ascii "\\n")] := by
    decide +kernel
  have spells : Format.Spells pairFormat (Format.read pairFormat) := by
    refine Format.spells_iff.2 ⟨rfl, fun source mem => ?_⟩
    rw [pieces] at mem
    simp at mem
  have unstopped : Format.Unstopped (Format.read pairFormat) pairArguments := by
    refine ⟨fun source mem => ?_, fun i d argument given _ _ => ?_⟩
    · rw [pieces] at mem
      simp only [List.mem_cons, FormatPiece.literal.injEq, reduceCtorEq, false_or, or_false,
        List.not_mem_nil] at mem
      rcases mem with rfl | rfl <;> decide +kernel
    · have mem := List.mem_of_getElem? given
      clear given
      revert argument
      decide +kernel
  obtain ⟨passes, -, -, run⟩ := printf_takes_arguments.2 pairFormat (Format.read pairFormat)
    pairArguments { name := ascii "printf", arguments := pairFormat :: pairArguments } bareWorld
    spells (by rw [pieces]; simp [Format.directives]) unstopped rfl
  rw [print_pairFormat] at run
  refine ⟨?_, run⟩
  rw [pieces] at passes ⊢
  exact passes

end Builtin

end VirtualShell
