import Mathlib.Data.List.TakeWhile
import Mathlib.Data.Nat.Digits.Defs
import VirtualShell.Proofs.Text.Digits

/-!
# Whole numbers as they are written

`Numeral` is the grammar of a whole number: blanks, a sign and decimal digits, each digit standing
for itself times the power of ten of its place. `parseInt` reads a text up to its first NUL and
takes the numerals of the signed 64-bit range, and nothing else (`parseInt_eq_some_iff`).

* `parseInt_numeral_iff` : so it keeps to the grammar of whole texts exactly for the texts that do
  not go on behind a numeral with a NUL; `parseInt_ne_of_nul` is one that does.
* `parseInt_decimal` : what `decimal` writes is read back.
-/

namespace VirtualShell

/-! ## The grammar -/

/-- A sign, which may be missing, and whether it is a minus. -/
inductive IsSign : Bool → Bytes → Prop
  | missing : IsSign false []
  | plus : IsSign false [Ascii.plus]
  | minus : IsSign true [Ascii.minus]

/-- The number of decimal digits, the last of them counting ones. -/
def placeValue (digits : Bytes) : Nat := Nat.ofDigits 10 (digits.reverse.map digitValue)

/-- The whole of a text writes a number: blanks, a sign, decimal digits. -/
inductive Numeral : Bytes → Int → Prop
  | of {blanks sign digits : Bytes} {negative : Bool} (blank : ∀ c ∈ blanks, isSpace c = true)
      (signed : IsSign negative sign) (digit : ∀ c ∈ digits, isDigit c = true)
      (nonempty : digits ≠ []) :
      Numeral (blanks ++ sign ++ digits)
        (if negative then -(placeValue digits : Int) else placeValue digits)

/-- The number is one of the signed 64-bit range. -/
def FitsWord (n : Int) : Prop := -2 ^ 63 ≤ n ∧ n < 2 ^ 63

instance (n : Int) : Decidable (FitsWord n) := inferInstanceAs (Decidable (_ ∧ _))

theorem digitsValue_eq_placeValue (digits : Bytes) :
    digitsValue 10 digits = placeValue digits := by
  rw [placeValue, Nat.ofDigits_eq_foldr, List.map_reverse, List.foldr_reverse, List.foldl_map,
    digitsValue]
  congr 1
  funext n c
  exact (Nat.add_comm ..).trans (congrArg _ (Nat.mul_comm ..))

/-! ## Signs -/

theorem isSpace_of_isDigit {c : UInt8} (h : isDigit c = true) : isSpace c = false := by
  simp only [isDigit, Bool.and_eq_true, decide_eq_true_eq, UInt8.le_iff_toNat_le] at h
  have other : c ≠ Ascii.space := fun e => by
    rw [e] at h
    exact absurd h (by decide)
  simp only [isSpace, beq_eq_false_iff_ne.2 other, Bool.false_or, Bool.and_eq_false_iff,
    decide_eq_false_iff_not, UInt8.le_iff_toNat_le]
  exact .inr (Nat.not_le.2 (Nat.lt_of_lt_of_le (by decide) h.1))

/-- A text is cut into blanks, a sign and what is left behind them. -/
theorem exists_of_readSign {text rest : Bytes} {negative : Bool}
    (h : readSign text = (negative, rest)) :
    ∃ blanks sign, text = blanks ++ sign ++ rest ∧ (∀ c ∈ blanks, isSpace c = true)
      ∧ IsSign negative sign := by
  have cut := (List.takeWhile_append_dropWhile (p := isSpace) (l := text)).symm
  have blank : ∀ c ∈ text.takeWhile isSpace, isSpace c = true := fun c mem =>
    List.mem_takeWhile_imp mem
  rw [readSign] at h
  split at h
  next behind start =>
    cases h
    rw [start, List.append_cons] at cut
    exact ⟨_, [Ascii.minus], cut, blank, .minus⟩
  next behind start =>
    cases h
    rw [start, List.append_cons] at cut
    exact ⟨_, [Ascii.plus], cut, blank, .plus⟩
  next =>
    cases h
    exact ⟨_, [], by rwa [List.append_nil], blank, .missing⟩

/-- Before a digit, blanks and a sign are read off. -/
theorem readSign_append {blanks sign digits : Bytes} {negative : Bool}
    (blank : ∀ c ∈ blanks, isSpace c = true) (signed : IsSign negative sign)
    (digit : ∀ c ∈ digits, isDigit c = true) (nonempty : digits ≠ []) :
    readSign (blanks ++ sign ++ digits) = (negative, digits) := by
  obtain ⟨c, rest, rfl⟩ := List.exists_cons_of_ne_nil nonempty
  have first := digit c List.mem_cons_self
  have behind (next : UInt8) (others : Bytes) (h : isSpace next = false) :
      (blanks ++ next :: others).dropWhile isSpace = next :: others := by
    rw [List.dropWhile_append_of_pos blank, List.dropWhile_cons_of_neg (by simp [h])]
  cases signed with
  | missing =>
    rw [List.append_nil, readSign, behind c rest (isSpace_of_isDigit first)]
    split
    next h => cases h; cases first
    next h => cases h; cases first
    next => rfl
  | plus =>
    rw [List.append_assoc, readSign, List.singleton_append, behind _ _ rfl]
    rfl
  | minus =>
    rw [List.append_assoc, readSign, List.singleton_append, behind _ _ rfl]
    rfl

/-! ## Reading a number -/

/-- A number is read where nothing but digits stands behind the sign. -/
theorem parseInt_of_readSign {text digits : Bytes} {negative : Bool} {n : Int}
    (h : readSign (Bytes.beforeNul text) = (negative, digits)) :
    parseInt text = some n ↔ digits ≠ [] ∧ (∀ c ∈ digits, isDigit c = true)
      ∧ (if negative then -(placeValue digits : Int) else placeValue digits) = n
      ∧ FitsWord n := by
  rw [parseInt, h]
  dsimp only
  rw [digitsValue_eq_placeValue, Binary.signed]
  simp only [Option.ite_none_left_eq_some, Option.ite_none_right_eq_some, Bool.or_eq_true, not_or,
    List.isEmpty_iff, Bool.not_eq_true', Bool.not_eq_false, List.all_eq_true, Option.some.injEq]
  exact ⟨fun ⟨⟨nonempty, digit⟩, fits, value⟩ => ⟨nonempty, digit, value, value ▸ fits⟩,
    fun ⟨nonempty, digit, value, fits⟩ => ⟨⟨nonempty, digit⟩, value ▸ fits, value⟩⟩

/-- **What is read** as a whole number: up to its first NUL the text is a numeral, of a number of
the signed 64-bit range. -/
theorem parseInt_eq_some_iff {text : Bytes} {n : Int} :
    parseInt text = some n ↔ Numeral (Bytes.beforeNul text) n ∧ FitsWord n := by
  constructor
  · intro h
    cases read : readSign (Bytes.beforeNul text) with
    | mk negative digits =>
      obtain ⟨blanks, sign, cut, blank, signed⟩ := exists_of_readSign read
      obtain ⟨nonempty, digit, rfl, fits⟩ := (parseInt_of_readSign read).1 h
      exact ⟨cut ▸ .of blank signed digit nonempty, fits⟩
  · generalize read : Bytes.beforeNul text = numeral
    rintro ⟨⟨blank, signed, digit, nonempty⟩, fits⟩
    have cut := readSign_append blank signed digit nonempty
    exact (parseInt_of_readSign (read ▸ cut)).2 ⟨nonempty, digit, rfl, fits⟩

/-- What `decimal` writes is read back. -/
theorem parseInt_decimal {n : Nat} (h : n < 2 ^ 63) : parseInt (decimal n) = some (n : Int) := by
  have digit := isDigit_of_mem_decimal n
  have free : 0 ∉ decimal n := fun mem => absurd (digit 0 mem) (by decide)
  obtain ⟨c, rest, first, -⟩ := decimal_eq_cons n
  rw [parseInt_eq_some_iff, Bytes.beforeNul_of_not_mem free]
  refine ⟨?_, by simp only [FitsWord]; omega⟩
  have numeral : Numeral ([] ++ [] ++ decimal n) (placeValue (decimal n)) :=
    .of (by simp) .missing digit (by simp [first])
  rwa [← digitsValue_eq_placeValue, digitsValue_decimal] at numeral

/-! ## Whole texts -/

/-- No byte of a numeral is a NUL. -/
theorem Numeral.not_mem_zero {text : Bytes} {n : Int} (h : Numeral text n) : 0 ∉ text := by
  obtain ⟨blank, signed, digit, -⟩ := h
  simp only [List.mem_append, not_or]
  refine ⟨⟨fun mem => ?_, fun mem => ?_⟩, fun mem => ?_⟩
  · exact absurd (blank 0 mem) (by decide)
  · cases signed <;> revert mem <;> decide
  · exact absurd (digit 0 mem) (by decide)

/-- **Numbers are read by their grammar**, up to the first NUL of the text. That is the grammar of
the whole text unless a numeral of the range stands before a NUL: where there is no number before
the first NUL, or there is no NUL, a text is read if and only if the whole of it is a numeral of the
signed 64-bit range, and then as its number. -/
theorem parseInt_numeral_iff (text : Bytes) :
    (∀ n, parseInt text = some n ↔ Numeral (Bytes.beforeNul text) n ∧ FitsWord n)
      ∧ ((∀ n, parseInt text = some n ↔ Numeral text n ∧ FitsWord n)
        ↔ ¬ (0 ∈ text ∧ ∃ n, Numeral (Bytes.beforeNul text) n ∧ FitsWord n)) := by
  refine ⟨fun n => parseInt_eq_some_iff, fun same => ?_, fun harmless n => ?_⟩
  · rintro ⟨nul, n, numeral⟩
    exact ((same n).1 (parseInt_eq_some_iff.2 numeral)).1.not_mem_zero nul
  · rw [parseInt_eq_some_iff]
    by_cases nul : 0 ∈ text
    · have none : ¬ (Numeral (Bytes.beforeNul text) n ∧ FitsWord n) := fun numeral =>
        harmless ⟨nul, n, numeral⟩
      exact ⟨fun numeral => absurd numeral none, fun numeral =>
        absurd nul numeral.1.not_mem_zero⟩
    · rw [Bytes.beforeNul_of_not_mem nul]

/-- A digit, a NUL and a letter are read as the digit, and are no numeral. -/
theorem parseInt_ne_of_nul :
    parseInt [53, 0, 120] = some 5 ∧ ∀ n, ¬ Numeral [53, 0, 120] n :=
  ⟨by decide, fun _ numeral => numeral.not_mem_zero (by decide)⟩

end VirtualShell
