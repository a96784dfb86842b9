import VirtualShell.Number.Reading

/-!
# Decimal digits

What `decimal` writes of a number: digits and nothing else, at least one, with a zero in front for
zero alone, and the number they stand for is the number itself (`digitsValue_decimal`). In a fixed
number of places (`inPlaces`) the texts are in the order of the numbers (`inPlaces_lt`).
-/

namespace VirtualShell

theorem digitByte_digitChar : ∀ d < 10, (Nat.digitChar d).toUInt8 = digitByte d := by decide

theorem isDigit_digitByte : ∀ d < 10, isDigit (digitByte d) = true := by decide

theorem digitValue_digitByte : ∀ d < 10, digitValue (digitByte d) = d := by decide

theorem digitByte_ne_zero : ∀ d < 10, d ≠ 0 → digitByte d ≠ Ascii.zero := by decide

theorem isDigit_ne {c d : UInt8} (h : isDigit c = true) (hd : isDigit d = false) : c ≠ d := by
  rintro rfl
  rw [h] at hd
  cases hd

theorem isDigit_lt {c : UInt8} (h : isDigit c = true) : c < 0x80 := by
  simp only [isDigit, Bool.and_eq_true, decide_eq_true_eq] at h
  exact UInt8.lt_of_le_of_lt h.2 (by decide)

/-! ## The digits of a number -/

/-- The last digit stands for the rest of a division by ten, those before it for the quotient. -/
theorem decimal_eq (n : Nat) :
    decimal n = if n < 10 then [digitByte n] else decimal (n / 10) ++ [digitByte (n % 10)] := by
  rw [decimal, inBase, Nat.toDigits_eq_if (by omega)]
  split
  next small => rw [List.map_singleton, digitByte_digitChar n small]
  next large =>
    rw [List.map_append, List.map_singleton, digitByte_digitChar _ (Nat.mod_lt n (by omega))]
    rfl

theorem decimal_of_lt {n : Nat} (h : n < 10) : decimal n = [digitByte n] := by
  rw [decimal_eq, if_pos h]

theorem decimal_of_le {n : Nat} (h : 10 ≤ n) :
    decimal n = decimal (n / 10) ++ [digitByte (n % 10)] := by
  rw [decimal_eq, if_neg (Nat.not_lt.2 h)]

theorem isDigit_of_mem_decimal (n : Nat) : ∀ c ∈ decimal n, isDigit c = true := by
  induction n using Nat.strongRecOn with
  | ind n ih =>
    intro c mem
    by_cases small : n < 10
    · rw [decimal_of_lt small, List.mem_singleton] at mem
      exact mem ▸ isDigit_digitByte n small
    · rw [decimal_of_le (Nat.not_lt.1 small), List.mem_append, List.mem_singleton] at mem
      rcases mem with mem | rfl
      · exact ih (n / 10) (by omega) c mem
      · exact isDigit_digitByte _ (Nat.mod_lt n (by omega))

/-- The first digit is a zero for zero alone. -/
theorem decimal_eq_cons (n : Nat) :
    ∃ c rest, decimal n = c :: rest ∧ (n ≠ 0 → c ≠ Ascii.zero) := by
  induction n using Nat.strongRecOn with
  | ind n ih =>
    by_cases small : n < 10
    · exact ⟨_, _, decimal_of_lt small, digitByte_ne_zero n small⟩
    · obtain ⟨c, rest, first, ne⟩ := ih (n / 10) (by omega)
      refine ⟨c, rest ++ [digitByte (n % 10)], ?_, fun _ => ne (by omega)⟩
      rw [decimal_of_le (Nat.not_lt.1 small), first, List.cons_append]

theorem digitsValue_append (base : Nat) (digits : Bytes) (c : UInt8) :
    digitsValue base (digits ++ [c]) = digitsValue base digits * base + digitValue c := by
  rw [digitsValue, List.foldl_append]
  rfl

/-- **The digits of a number** stand for it. -/
theorem digitsValue_decimal (n : Nat) : digitsValue 10 (decimal n) = n := by
  induction n using Nat.strongRecOn with
  | ind n ih =>
    by_cases small : n < 10
    · rw [decimal_of_lt small]
      have := digitValue_digitByte n small
      simpa [digitsValue] using this
    · rw [decimal_of_le (Nat.not_lt.1 small), digitsValue_append, ih _ (by omega),
        digitValue_digitByte _ (Nat.mod_lt n (by omega))]
      omega

theorem length_decimal_le {n k : Nat} (hk : 0 < k) (h : n < Nat.pow 10 k) :
    (decimal n).length ≤ k := by
  rw [decimal, inBase, List.length_map]
  exact (Nat.length_toDigits_le_iff (by omega) hk).2 h

theorem lt_length_decimal {n k : Nat} (hk : 0 < k) (h : Nat.pow 10 k ≤ n) :
    k < (decimal n).length := by
  rw [decimal, inBase, List.length_map]
  exact Nat.lt_of_not_le fun short =>
    Nat.not_lt.2 h ((Nat.length_toDigits_le_iff (by omega) hk).1 short)

/-! ## Digits in a fixed number of places -/

/-- The last digits of a number, so many of them. -/
def inPlaces : Nat → Nat → Bytes
  | 0, _ => []
  | width + 1, n => inPlaces width (n / 10) ++ [digitByte (n % 10)]

theorem length_inPlaces (width n : Nat) : (inPlaces width n).length = width := by
  induction width generalizing n with
  | zero => rfl
  | succ width ih => rw [inPlaces, List.length_append, ih]; rfl

theorem isDigit_of_mem_inPlaces {width n : Nat} :
    ∀ c ∈ inPlaces width n, isDigit c = true := by
  induction width generalizing n with
  | zero => exact fun c mem => nomatch mem
  | succ width ih =>
    intro c mem
    rw [inPlaces, List.mem_append, List.mem_singleton] at mem
    rcases mem with mem | rfl
    · exact ih c mem
    · exact isDigit_digitByte _ (Nat.mod_lt n (by omega))

theorem inPlaces_zero (width : Nat) : inPlaces width 0 = List.replicate width Ascii.zero := by
  induction width with
  | zero => rfl
  | succ width ih => rw [inPlaces, ih, List.replicate_succ']; rfl

/-- Zeros in front fill the places up. -/
theorem padLeft_decimal {width n : Nat} (hw : 0 < width) (h : n < Nat.pow 10 width) :
    Bytes.padLeft width Ascii.zero (decimal n) = inPlaces width n := by
  induction width generalizing n with
  | zero => exact absurd hw (Nat.lt_irrefl 0)
  | succ width ih =>
    by_cases small : n < 10
    · rw [decimal_of_lt small, inPlaces, Nat.div_eq_of_lt small, inPlaces_zero,
        Nat.mod_eq_of_lt small]
      rfl
    · have within : n / 10 < Nat.pow 10 width := Nat.div_lt_of_lt_mul (Nat.mul_comm .. ▸ h)
      have places : 0 < width := by
        cases width with
        | zero => exact absurd h small
        | succ width => exact Nat.succ_pos width
      rw [decimal_of_le (Nat.not_lt.1 small), inPlaces, ← ih places within, Bytes.padLeft,
        Bytes.padLeft, List.length_append, List.append_assoc]
      congr 2
      exact Nat.add_sub_add_right width 1 _

/-- A number that needs all the places. -/
theorem decimal_eq_inPlaces {width n : Nat} (hw : 0 < width) (low : Nat.pow 10 width ≤ n)
    (high : n < Nat.pow 10 (width + 1)) : decimal n = inPlaces (width + 1) n := by
  rw [← padLeft_decimal (Nat.succ_pos width) high, Bytes.padLeft,
    Nat.sub_eq_zero_of_le (lt_length_decimal hw low)]
  rfl

/-- Texts of one length are in the order of their first parts, and where these are one in that of
their second. -/
theorem append_lt_append {a b c d : Bytes} (length : a.length = b.length)
    (h : a < b ∨ a = b ∧ c < d) : a ++ c < b ++ d := by
  induction a generalizing b with
  | nil =>
    obtain rfl := List.length_eq_zero_iff.1 length.symm
    simpa using h
  | cons x a ih =>
    obtain ⟨y, b, rfl⟩ := List.exists_cons_of_length_eq_add_one length.symm
    rw [List.cons_append, List.cons_append, List.cons_lt_cons_iff]
    rw [List.cons_lt_cons_iff, List.cons.injEq] at h
    obtain (first | ⟨same, rest⟩) | ⟨⟨same, rest⟩, behind⟩ := h
    · exact .inl first
    · exact .inr ⟨same, ih (Nat.succ.inj length) (.inl rest)⟩
    · exact .inr ⟨same, ih (Nat.succ.inj length) (.inr ⟨rest, behind⟩)⟩

theorem digitByte_lt : ∀ d < 10, ∀ e < 10, d < e → digitByte d < digitByte e := by decide

/-- In the same places a greater number has a greater text. -/
theorem inPlaces_lt {width m n : Nat} (h : m < n) (fits : n < Nat.pow 10 width) :
    inPlaces width m < inPlaces width n := by
  induction width generalizing m n with
  | zero => exact absurd (Nat.lt_of_lt_of_le h (Nat.le_of_lt_succ fits)) (Nat.not_lt_zero m)
  | succ width ih =>
    apply append_lt_append (by rw [length_inPlaces, length_inPlaces])
    obtain before | same : m / 10 < n / 10 ∨ m / 10 = n / 10 := by omega
    · exact .inl (ih before (Nat.div_lt_of_lt_mul (Nat.mul_comm .. ▸ fits)))
    · refine .inr ⟨by rw [same], List.cons_lt_cons_iff.2 (.inl ?_)⟩
      exact digitByte_lt _ (Nat.mod_lt m (by omega)) _ (Nat.mod_lt n (by omega)) (by omega)

end VirtualShell
