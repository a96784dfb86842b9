import VirtualShell.Json.Reader
import VirtualShell.Json.Writer
import VirtualShell.Proofs.Text.Digits

/-!
# Strings and numbers read back

A written string is read back whatever its bytes are (`readString?_renderString`), a whole number
below two to the sixty-four from the digits that are written for it (`readNumber?_signedDecimal`).
A number ends where a document goes on with a comma, a bracket or white space (`Ends`).
-/

namespace VirtualShell.Json

/-! ## Strings -/

/-- A unit of two zeros and two digits. -/
theorem readUnit?_control : ∀ n < 0x20, ∀ rest,
    readUnit? (48 :: 48 :: digitByte (n / 16) :: digitByte (n % 16) :: rest) =
      some (n, rest) := by
  have digits : ∀ n < 0x20,
      [48, 48, digitByte (n / 16), digitByte (n % 16)].all isHexDigit = true ∧
        digitsValue 16 [48, 48, digitByte (n / 16), digitByte (n % 16)] = n := by
    decide
  intro n small rest
  obtain ⟨hex, value⟩ := digits n small
  simp only [readUnit?, List.take_succ_cons, List.take_zero, List.drop_succ_cons, List.drop_zero,
    hex, value]
  rfl

theorem readUnicodeEscape?_control {n : Nat} (h : n < 0x20) (rest : Bytes) :
    readUnicodeEscape? (48 :: 48 :: digitByte (n / 16) :: digitByte (n % 16) :: rest) =
      some (n, rest) := by
  have low : ¬ 0xD800 ≤ n := by omega
  have mid : ¬ 0xDC00 ≤ n := by omega
  simp [readUnicodeEscape?, readUnit?_control n h, low, mid]

section
variable {c e : UInt8} (fuel : Nat) (rest : Bytes)

theorem readStringWithin_of_plain (quote : c ≠ Ascii.doubleQuote) (control : ¬ c < 0x20)
    (escape : c ≠ Ascii.backslash) :
    readStringWithin (fuel + 1) (c :: rest) =
      (readStringWithin fuel rest).map fun r => (c :: r.1, r.2) := by
  simp only [readStringWithin, if_neg quote, if_neg control, if_neg escape]
  cases readStringWithin fuel rest <;> rfl

theorem readStringWithin_of_short (short : shortEscape? e = some c) (ne : e ≠ 117) :
    readStringWithin (fuel + 1) (Ascii.backslash :: e :: rest) =
      (readStringWithin fuel rest).map fun r => (c :: r.1, r.2) := by
  have quote : Ascii.backslash ≠ Ascii.doubleQuote := by decide
  have control : ¬ Ascii.backslash < 0x20 := by decide
  simp only [readStringWithin, if_neg quote, if_neg control, if_true, short]
  cases readStringWithin fuel rest <;> rfl

theorem readStringWithin_of_control (control : c < 0x20) :
    readStringWithin (fuel + 1) (ascii "\\u00" ++
        [digitByte (c.toNat / 16), digitByte (c.toNat % 16)] ++ rest) =
      (readStringWithin fuel rest).map fun r => (c :: r.1, r.2) := by
  have small : c.toNat < 0x20 := UInt8.lt_iff_toNat_lt.1 control
  have quote : Ascii.backslash ≠ Ascii.doubleQuote := by decide
  have low : ¬ Ascii.backslash < 0x20 := by decide
  have scalar : encodeScalar c.toNat = [c] := by
    have ascii : c.toNat < 0x80 := by omega
    rw [encodeScalar, if_pos ascii]
    exact congrArg (fun c => [c]) UInt8.ofNat_toNat
  change readStringWithin (fuel + 1) (Ascii.backslash :: 117 :: 48 :: 48 ::
    digitByte (c.toNat / 16) :: digitByte (c.toNat % 16) :: rest) = _
  simp only [readStringWithin, if_neg quote, if_neg low, if_true,
    readUnicodeEscape?_control small rest, Option.bind_eq_bind, Option.bind_some, scalar]
  cases readStringWithin fuel rest <;> rfl

/-- **Every byte of a string** is read back from how it is written. -/
theorem readStringWithin_escapeByte (c : UInt8) :
    readStringWithin (fuel + 1) (escapeByte c ++ rest) =
      (readStringWithin fuel rest).map fun r => (c :: r.1, r.2) := by
  unfold escapeByte
  -- the seven bytes with an escape of one letter
  iterate 7
    split
    next same => exact same ▸ readStringWithin_of_short fuel rest (by rfl) (by decide)
  split
  next control => exact readStringWithin_of_control fuel rest control
  next quote escape _ _ _ _ _ control =>
    exact readStringWithin_of_plain fuel rest quote control escape

end

theorem length_escapeByte_pos (c : UInt8) : 0 < (escapeByte c).length := by
  unfold escapeByte
  repeat' split
  all_goals exact Nat.succ_pos _

theorem length_le_length_flatMap (s : Bytes) : s.length ≤ (s.flatMap escapeByte).length := by
  induction s with
  | nil => exact Nat.le_refl 0
  | cons c s ih =>
    have := length_escapeByte_pos c
    rw [List.flatMap_cons, List.length_append, List.length_cons]
    omega

theorem readStringWithin_flatMap {s : Bytes} {fuel : Nat} (h : s.length < fuel) (rest : Bytes) :
    readStringWithin fuel (s.flatMap escapeByte ++ Ascii.doubleQuote :: rest) =
      some (s, rest) := by
  induction s generalizing fuel with
  | nil =>
    obtain ⟨fuel, rfl⟩ := Nat.exists_eq_succ_of_ne_zero (Nat.ne_of_gt h)
    rfl
  | cons c s ih =>
    obtain ⟨fuel, rfl⟩ := Nat.exists_eq_succ_of_ne_zero (Nat.ne_of_gt (Nat.zero_lt_of_lt h))
    rw [List.flatMap_cons, List.append_assoc, readStringWithin_escapeByte,
      ih (Nat.lt_of_succ_lt_succ h)]
    rfl

/-- **A written string is read back** whatever its bytes are. -/
theorem readString?_renderString (s rest : Bytes) :
    readString? (s.flatMap escapeByte ++ Ascii.doubleQuote :: rest) = some (s, rest) := by
  have := length_le_length_flatMap s
  refine readStringWithin_flatMap ?_ rest
  rw [List.length_append]
  omega

/-! ## Numbers -/

/-- A document goes on behind a value with a comma, a closing bracket or white space, or not at
all. -/
def Ends (rest : Bytes) : Prop :=
  ∀ c, rest.head? = some c → c = Ascii.comma ∨ c = Ascii.closeBracket ∨ c = Ascii.closeBrace ∨
    c = Ascii.newline ∨ c = Ascii.space

theorem Ends.cases {rest : Bytes} (h : Ends rest) : rest = [] ∨
    ∃ c more, rest = c :: more ∧ (c = Ascii.comma ∨ c = Ascii.closeBracket ∨
      c = Ascii.closeBrace ∨ c = Ascii.newline ∨ c = Ascii.space) := by
  cases rest with
  | nil => exact .inl rfl
  | cons c more => exact .inr ⟨c, more, rfl, h c rfl⟩

theorem ends_comma (rest : Bytes) : Ends (Ascii.comma :: rest) := by
  rintro c ⟨⟩
  exact .inl rfl

/-- Behind white space the document goes on or does not. -/
theorem ends_blank {space : Bytes} (blank : ∀ c ∈ space, c = Ascii.newline ∨ c = Ascii.space)
    {rest : Bytes} (h : Ends rest) : Ends (space ++ rest) := by
  cases space with
  | nil => exact h
  | cons c space =>
    rintro d ⟨⟩
    exact .inr (.inr (.inr (blank c (List.mem_cons_self ..))))

section
variable {rest : Bytes} (ends : Ends rest)
include ends

theorem readDigits?_append {digits : Bytes} (h : ∀ c ∈ digits, isDigit c = true)
    (ne : digits ≠ []) : readDigits? (digits ++ rest) = some (digits, rest) := by
  have stop : rest.takeWhile isDigit = [] ∧ rest.dropWhile isDigit = rest := by
    rcases ends.cases with rfl | ⟨c, more, rfl, rfl | rfl | rfl | rfl | rfl⟩ <;> exact ⟨rfl, rfl⟩
  rw [readDigits?, List.takeWhile_append_of_pos h, List.dropWhile_append_of_pos h, stop.1, stop.2,
    List.append_nil, if_neg (by simpa using ne)]

theorem readFraction?_of_ends : readFraction? rest = some (none, rest) := by
  rcases ends.cases with rfl | ⟨c, more, rfl, rfl | rfl | rfl | rfl | rfl⟩ <;> rfl

theorem readExponent?_of_ends : readExponent? rest = some (none, rest) := by
  rcases ends.cases with rfl | ⟨c, more, rfl, rfl | rfl | rfl | rfl | rfl⟩ <;> rfl

theorem readWholePart?_decimal (n : Nat) :
    readWholePart? (VirtualShell.decimal n ++ rest) = some (VirtualShell.decimal n, rest) := by
  by_cases zero : n = 0
  · subst zero
    rfl
  · obtain ⟨c, others, digits, ne⟩ := decimal_eq_cons n
    have read := readDigits?_append ends (isDigit_of_mem_decimal n) (by simp [digits])
    rw [digits, List.cons_append] at read ⊢
    simp [readWholePart?, read, ne zero]

end

/-- A number of sixty-four bits is in the range of the doubles. -/
theorem isFinite_round {n : Nat} (h : n < 0x10000000000000000) (negative : Bool) :
    (BinaryFormat.double.round negative n 1).isFinite = true := by
  unfold BinaryFormat.round
  split
  · rfl
  next some =>
    have bits : n.log2 < 64 := (Nat.log2_lt (by omega)).2 h
    have one : Nat.log2 1 = 0 := by decide
    have guess : max (-1074) ((n.log2 : Int) - (0 : Nat) - (53 : Nat)) ≤ 11 := by omega
    simp only [BinaryFormat.double, one]
    rw [if_neg]
    · rfl
    · split <;> omega

theorem isFinite_scale {n : Nat} (h : n < 0x10000000000000000) {size : Nat} (hs : size ≤ 20)
    (negative : Bool) : (Binary.scale .double negative 10 n size 0).isFinite = true := by
  unfold Binary.scale
  split
  · rfl
  next some =>
    have near : ¬ (40000 : Int) < 0 + (size : Int) ∧ ¬ (0 : Int) + (size : Int) < -40000 := by omega
    simp only [if_neg near.1, if_neg near.2]
    exact isFinite_round (by simpa using h) negative

theorem numberOf?_decimal {n : Nat} (h : n < 0x10000000000000000) (negative : Bool) :
    numberOf? negative (VirtualShell.decimal n) none none =
      some (.integer (Binary.signed negative n)) := by
  have short : ((VirtualShell.decimal n).dropWhile (· == Ascii.zero)).length ≤ 20 := by
    have := (List.dropWhile_sublist (· == Ascii.zero) (l := VirtualShell.decimal n)).length_le
    have := length_decimal_le (k := 20) (by omega) (Nat.lt_trans h (by decide))
    omega
  have value : (Binary.signed negative n).natAbs = n := by
    cases negative <;> simp [Binary.signed]
  simp [numberOf?, digitsValue_decimal, value, isFinite_scale h short]

/-- **A whole number is read back** from its digits. -/
theorem readNumber?_signedDecimal {n : Int} (h : n.natAbs < 0x10000000000000000) {rest : Bytes}
    (ends : Ends rest) : readNumber? (signedDecimal n ++ rest) = some (.integer n, rest) := by
  have minus : readMinus (signedDecimal n ++ rest) =
      (decide (n < 0), VirtualShell.decimal n.natAbs ++ rest) := by
    obtain ⟨c, others, digits, -⟩ := decimal_eq_cons n.natAbs
    have isDigit := isDigit_of_mem_decimal n.natAbs c (by simp [digits])
    have ne : c ≠ Ascii.minus := isDigit_ne isDigit (by decide)
    unfold signedDecimal
    split
    next negative =>
      rw [decide_eq_true negative]
      rfl
    next positive => simp [readMinus, digits, ne, positive]
  have value : Binary.signed (decide (n < 0)) n.natAbs = n := by
    by_cases negative : n < 0
    · rw [decide_eq_true negative, Binary.signed, if_pos rfl]
      omega
    · rw [decide_eq_false negative, Binary.signed, if_neg nofun]
      omega
  simp [readNumber?, minus, readWholePart?_decimal ends, readFraction?_of_ends ends,
    readExponent?_of_ends ends, numberOf?_decimal h, value]

end VirtualShell.Json
