import Mathlib.Data.Option.NAry
import VirtualShell.Proofs.Text.Utf8

/-!
# Scalar values and their encodings

Reading UTF-8 gives the scalar values whose shortest forms the text is made of, and no other text is
read (`decodeUtf8?_eq_some_iff`). A scan comes to the same as reading does (`Utf8.scan_eq`): it says
no more and no less, and it never looks behind the end.
-/

namespace VirtualShell

variable {a b c d : UInt8} {n : Nat} {rest : Bytes}

/-! ## Bytes -/

theorem toUInt8_eq_iff (h : n < 256) : n.toUInt8 = c ↔ n = c.toNat := by
  rw [← UInt8.toNat_inj, Nat.toUInt8_eq, UInt8.toNat_ofNat', Nat.mod_eq_of_lt h]

theorem isContinuation_iff : isContinuation c = true ↔ 0x80 ≤ c.toNat ∧ c.toNat < 0xC0 := by
  simp [isContinuation, UInt8.le_iff_toNat_le, UInt8.lt_iff_toNat_lt]

theorem isScalar_iff : isScalar n = true ↔ n ≤ 0x10FFFF ∧ (n < 0xD800 ∨ 0xDFFF < n) := by
  simp only [isScalar, Bool.and_eq_true, decide_eq_true_eq, Bool.not_eq_true',
    Bool.and_eq_false_iff, decide_eq_false_iff_not]
  omega

theorem toNat_lt_of_lt (h : a < b) : a.toNat < b.toNat := UInt8.lt_iff_toNat_lt.1 h

theorem toNat_le_of_not_lt (h : ¬ a < b) : b.toNat ≤ a.toNat :=
  UInt8.le_iff_toNat_le.1 (UInt8.not_lt.1 h)

/-! ## One encoding

The bytes of one encoding are read as the scalar value that is written with them. -/

theorem encodeScalar_toNat (low : a < 0x80) :
    isScalar a.toNat = true ∧ encodeScalar a.toNat = [a] := by
  have low := toNat_lt_of_lt low
  simp only [UInt8.reduceToNat] at low
  rw [isScalar_iff, encodeScalar, if_pos low]
  exact ⟨by omega, congrArg (fun c => [c]) ((toUInt8_eq_iff (by omega)).2 rfl)⟩

theorem decodeTwo?_eq_some_iff (lead : ¬ a < 0xC0) (two : a < 0xE0) :
    decodeTwo? a b = some n ↔ isScalar n = true ∧ encodeScalar n = [a, b] := by
  have lead := toNat_le_of_not_lt lead
  have two := toNat_lt_of_lt two
  simp only [UInt8.reduceToNat] at lead two
  simp only [decodeTwo?, Option.ite_none_right_eq_some, Bool.and_eq_true, isContinuation_iff,
    decide_eq_true_eq, Option.some.injEq]
  simp only [continuationBits]
  constructor
  · rintro ⟨⟨⟨lb, hb⟩, least⟩, rfl⟩
    rw [encodeScalar, if_neg (by omega), if_pos (by omega), isScalar_iff, List.cons.injEq,
      List.cons.injEq, toUInt8_eq_iff (by omega), toUInt8_eq_iff (by omega)]
    exact ⟨by omega, by omega, by omega, rfl⟩
  · rintro ⟨-, e⟩
    unfold encodeScalar at e
    split at e
    · cases e
    split at e
    · rw [List.cons.injEq, List.cons.injEq, toUInt8_eq_iff (by omega),
        toUInt8_eq_iff (by omega)] at e
      omega
    split at e <;> cases e

theorem decodeThree?_eq_some_iff (lead : ¬ a < 0xE0) (three : a < 0xF0) :
    decodeThree? a b c = some n ↔ isScalar n = true ∧ encodeScalar n = [a, b, c] := by
  have lead := toNat_le_of_not_lt lead
  have three := toNat_lt_of_lt three
  simp only [UInt8.reduceToNat] at lead three
  simp only [decodeThree?, Option.ite_none_right_eq_some, Bool.and_eq_true, isContinuation_iff,
    decide_eq_true_eq, Option.some.injEq]
  simp only [continuationBits]
  constructor
  · rintro ⟨⟨⟨⟨⟨lb, hb⟩, lc, hc⟩, least⟩, scalar⟩, rfl⟩
    refine ⟨scalar, ?_⟩
    rw [encodeScalar, if_neg (by omega), if_neg (by omega), if_pos (by omega), List.cons.injEq,
      List.cons.injEq, List.cons.injEq, toUInt8_eq_iff (by omega), toUInt8_eq_iff (by omega),
      toUInt8_eq_iff (by omega)]
    exact ⟨by omega, by omega, by omega, rfl⟩
  · rintro ⟨scalar, e⟩
    unfold encodeScalar at e
    split at e
    · cases e
    split at e
    · cases e
    split at e
    · rw [List.cons.injEq, List.cons.injEq, List.cons.injEq, toUInt8_eq_iff (by omega),
        toUInt8_eq_iff (by omega), toUInt8_eq_iff (by omega)] at e
      have value : (a.toNat % 16 * 64 + b.toNat % 64) * 64 + c.toNat % 64 = n := by omega
      rw [value]
      exact ⟨⟨⟨⟨by omega, by omega⟩, by omega⟩, scalar⟩, rfl⟩
    · cases e

theorem decodeFour?_eq_some_iff (lead : ¬ a < 0xF0) (four : a < 0xF8) :
    decodeFour? a b c d = some n ↔ isScalar n = true ∧ encodeScalar n = [a, b, c, d] := by
  have lead := toNat_le_of_not_lt lead
  have four := toNat_lt_of_lt four
  simp only [UInt8.reduceToNat] at lead four
  simp only [decodeFour?, Option.ite_none_right_eq_some, Bool.and_eq_true, isContinuation_iff,
    decide_eq_true_eq, Option.some.injEq]
  simp only [continuationBits]
  constructor
  · rintro ⟨⟨⟨⟨⟨⟨lb, hb⟩, lc, hc⟩, ld, hd⟩, least⟩, scalar⟩, rfl⟩
    have most := (isScalar_iff.1 scalar).1
    refine ⟨scalar, ?_⟩
    rw [encodeScalar, if_neg (by omega), if_neg (by omega), if_neg (by omega), List.cons.injEq,
      List.cons.injEq, List.cons.injEq, List.cons.injEq, toUInt8_eq_iff (by omega),
      toUInt8_eq_iff (by omega), toUInt8_eq_iff (by omega), toUInt8_eq_iff (by omega)]
    exact ⟨by omega, by omega, by omega, by omega, rfl⟩
  · rintro ⟨scalar, e⟩
    have most := (isScalar_iff.1 scalar).1
    unfold encodeScalar at e
    split at e
    · cases e
    split at e
    · cases e
    split at e
    · cases e
    rw [List.cons.injEq, List.cons.injEq, List.cons.injEq, List.cons.injEq,
      toUInt8_eq_iff (by omega), toUInt8_eq_iff (by omega), toUInt8_eq_iff (by omega),
      toUInt8_eq_iff (by omega)] at e
    have value : ((a.toNat % 8 * 64 + b.toNat % 64) * 64 + c.toNat % 64) * 64 + d.toNat % 64 = n :=
      by omega
    rw [value]
    exact ⟨⟨⟨⟨⟨by omega, by omega⟩, by omega⟩, by omega⟩, scalar⟩, rfl⟩

/-! ## Texts -/

theorem return_cons_eq (first : Option Nat) (others : Option (List Nat)) :
    (do return (← first) :: (← others)) = Option.map₂ List.cons first others := by
  cases first <;> cases others <;> rfl

section
variable (low : ¬ a < 0x80) (lead : ¬ a < 0xC0)
include low lead

theorem decodeUtf8?_two (two : a < 0xE0) :
    decodeUtf8? (a :: b :: rest) = Option.map₂ List.cons (decodeTwo? a b) (decodeUtf8? rest) := by
  rw [decodeUtf8?, if_neg low, if_neg lead, if_pos two]
  exact return_cons_eq _ _

theorem decodeUtf8?_three (more : ¬ a < 0xE0) (three : a < 0xF0) :
    decodeUtf8? (a :: b :: c :: rest) =
      Option.map₂ List.cons (decodeThree? a b c) (decodeUtf8? rest) := by
  rw [decodeUtf8?, if_neg low, if_neg lead, if_neg more, if_pos three]
  exact return_cons_eq _ _

theorem decodeUtf8?_four (more : ¬ a < 0xE0) (most : ¬ a < 0xF0) (four : a < 0xF8) :
    decodeUtf8? (a :: b :: c :: d :: rest) =
      Option.map₂ List.cons (decodeFour? a b c d) (decodeUtf8? rest) := by
  rw [decodeUtf8?, if_neg low, if_neg lead, if_neg more, if_neg most, if_pos four]
  exact return_cons_eq _ _

end

/-- A number that is read from one encoding in front of a text. -/
theorem read_group (group : Bytes) {first : Option Nat} {scalars : List Nat}
    (one : ∀ n, first = some n → isScalar n = true ∧ encodeScalar n = group)
    (others : ∀ tail, decodeUtf8? rest = some tail →
      (∀ n ∈ tail, isScalar n = true) ∧ rest = tail.flatMap encodeScalar)
    (h : Option.map₂ List.cons first (decodeUtf8? rest) = some scalars) :
    (∀ n ∈ scalars, isScalar n = true) ∧ group ++ rest = scalars.flatMap encodeScalar := by
  obtain ⟨n, tail, found, read, rfl⟩ := Option.map₂_eq_some_iff.1 h
  obtain ⟨scalar, rfl⟩ := one n found
  obtain ⟨all, e⟩ := others tail read
  exact ⟨List.forall_mem_cons.2 ⟨scalar, all⟩, by rw [List.flatMap_cons, ← e]⟩

/-- A text that is read is made of the shortest forms of scalar values. -/
theorem eq_of_decodeUtf8? {text : Bytes} {scalars : List Nat}
    (h : decodeUtf8? text = some scalars) :
    (∀ n ∈ scalars, isScalar n = true) ∧ text = scalars.flatMap encodeScalar := by
  fun_induction decodeUtf8? text generalizing scalars with
  | case1 =>
    cases h
    exact ⟨List.forall_mem_nil _, rfl⟩
  | case2 a rest low ih =>
    have whole : Option.map₂ List.cons (some a.toNat) (decodeUtf8? rest) = some scalars := h
    refine read_group [a] (fun n found => ?_) (fun _ => ih) whole
    cases found
    exact encodeScalar_toNat low
  | case4 a low lead two b rest ih =>
    rw [return_cons_eq] at h
    exact read_group [a, b] (fun n => (decodeTwo?_eq_some_iff lead two).1)
      (fun _ => ih) h
  | case6 a low lead more three b c rest ih =>
    rw [return_cons_eq] at h
    exact read_group [a, b, c] (fun n => (decodeThree?_eq_some_iff more three).1)
      (fun _ => ih) h
  | case8 a low lead more most four b c d rest ih =>
    rw [return_cons_eq] at h
    exact read_group [a, b, c, d] (fun n => (decodeFour?_eq_some_iff most four).1)
      (fun _ => ih) h
  | case3 | case5 | case7 | case9 | case10 => cases h

/-- The bytes of a scalar value are one of the four encodings that are read. -/
theorem encodeScalar_cases (scalar : isScalar n = true) :
    (∃ a, encodeScalar n = [a] ∧ a < 0x80 ∧ a.toNat = n) ∨
    (∃ a b, encodeScalar n = [a, b] ∧ ¬ a < 0xC0 ∧ a < 0xE0) ∨
    (∃ a b c, encodeScalar n = [a, b, c] ∧ ¬ a < 0xE0 ∧ a < 0xF0) ∨
    ∃ a b c d, encodeScalar n = [a, b, c, d] ∧ ¬ a < 0xF0 ∧ a < 0xF8 := by
  have most := (isScalar_iff.1 scalar).1
  have byte : ∀ {m : Nat}, m < 256 → m.toUInt8.toNat = m := fun small =>
    ((toUInt8_eq_iff small).1 rfl).symm
  simp only [UInt8.lt_iff_toNat_lt, UInt8.reduceToNat]
  unfold encodeScalar
  split
  · exact .inl ⟨_, rfl, by rw [byte (by omega)]; omega, byte (by omega)⟩
  split
  · exact .inr (.inl ⟨_, _, rfl, by rw [byte (by omega)]; omega⟩)
  split
  · exact .inr (.inr (.inl ⟨_, _, _, rfl, by rw [byte (by omega)]; omega⟩))
  · exact .inr (.inr (.inr ⟨_, _, _, _, rfl, by rw [byte (by omega)]; omega⟩))

theorem decodeUtf8?_encodeScalar_append (scalar : isScalar n = true) (rest : Bytes) :
    decodeUtf8? (encodeScalar n ++ rest) = (decodeUtf8? rest).map (n :: ·) := by
  have at_least : ∀ {c d e : UInt8}, ¬ c < d → e ≤ d → ¬ c < e := fun h le lt =>
    h (UInt8.lt_of_lt_of_le lt le)
  obtain ⟨a, e, low, rfl⟩ | ⟨a, b, e, lead, two⟩ | ⟨a, b, c, e, lead, three⟩ |
    ⟨a, b, c, d, e, lead, four⟩ := encodeScalar_cases scalar
  · rw [e]
    exact decodeUtf8?_cons_of_lt low rest
  · rw [e]
    refine (decodeUtf8?_two (at_least lead (by decide)) lead two).trans ?_
    rw [(decodeTwo?_eq_some_iff lead two).2 ⟨scalar, e⟩, Option.map₂_coe_left]
    rfl
  · rw [e]
    refine (decodeUtf8?_three (at_least lead (by decide)) (at_least lead (by decide)) lead
      three).trans ?_
    rw [(decodeThree?_eq_some_iff lead three).2 ⟨scalar, e⟩, Option.map₂_coe_left]
    rfl
  · rw [e]
    refine (decodeUtf8?_four (at_least lead (by decide)) (at_least lead (by decide))
      (at_least lead (by decide)) lead four).trans ?_
    rw [(decodeFour?_eq_some_iff lead four).2 ⟨scalar, e⟩, Option.map₂_coe_left]
    rfl

/-- **What is read from UTF-8** is written as the text, in shortest forms. -/
theorem decodeUtf8?_eq_some_iff {text : Bytes} {scalars : List Nat} :
    decodeUtf8? text = some scalars ↔
      (∀ n ∈ scalars, isScalar n = true) ∧ text = scalars.flatMap encodeScalar := by
  refine ⟨eq_of_decodeUtf8?, ?_⟩
  rintro ⟨all, rfl⟩
  induction scalars with
  | nil => rfl
  | cons n scalars ih =>
    obtain ⟨scalar, others⟩ := List.forall_mem_cons.1 all
    rw [List.flatMap_cons, decodeUtf8?_encodeScalar_append scalar, ih others, Option.map_some]

/-! ## Scanning -/

namespace Utf8

/-- What holds of the first 256 numbers holds of all bytes. -/
theorem forall_byte {p : UInt8 → Prop} (h : ∀ n < 256, p n.toUInt8) (c : UInt8) : p c := by
  have := h c.toNat c.toNat_lt
  rwa [Nat.toUInt8_eq, UInt8.ofNat_toNat] at this

theorem Lead.of?_eq (c : UInt8) : Lead.of? c =
    if c < 0xC0 then none
    else if c < 0xE0 then some ⟨1, 0x80, c.toNat % 32⟩
    else if c < 0xF0 then some ⟨2, 0x800, c.toNat % 16⟩
    else if c < 0xF8 then some ⟨3, 0x10000, c.toNat % 8⟩
    else none := by
  revert c
  exact forall_byte (by decide +kernel)

theorem mask_eq_iff (c : UInt8) : c &&& 0xC0 = 0x80 ↔ isContinuation c = true := by
  revert c
  exact forall_byte (by decide +kernel)

theorem shift_or_eq (value : Nat) (c : UInt8) :
    value <<< 6 ||| (c &&& 0x3F).toNat = value * 64 + continuationBits c := by
  have bits : (c &&& 0x3F).toNat = continuationBits c := by
    revert c
    exact forall_byte (by decide +kernel)
  have small : continuationBits c < 2 ^ 6 := Nat.mod_lt _ (by decide)
  rw [bits, ← Nat.shiftLeft_add_eq_or_of_lt small, Nat.shiftLeft_eq]

/-! ### Continuation bytes -/

theorem gather_tail (c : UInt8) (rest : Bytes) (place value count : Nat) :
    gather (c :: rest) (place + 1) value count = gather rest place value count := by
  induction count generalizing place value with
  | zero => rfl
  | succ count ih => simp only [gather, List.getElem?_cons_succ, ih]

/-- One byte of those that follow. -/
theorem gather_cons (c : UInt8) (rest : Bytes) (value count : Nat) :
    gather (c :: rest) 0 value (count + 1) =
      if isContinuation c then gather rest 0 (value * 64 + continuationBits c) count
      else .error .invalid := by
  rw [gather, List.getElem?_cons_zero]
  simp only [mask_eq_iff, shift_or_eq, gather_tail]

/-! ### Judging -/

/-- The verdict on what can or cannot be read. -/
def verdictOn {α : Type} (read : Option α) : Verdict := if read.isSome then .valid else .invalid

theorem verdictOn_ite {α : Type} (p : Bool) (a : α) :
    verdictOn (if p then some a else none) = if p then .valid else .invalid := by
  cases p <;> rfl

/-- Too few bytes are invalid; none behind the end is looked at. -/
theorem judge_of_short {lead : Lead} (short : rest.length < lead.extra) :
    lead.judge rest = .invalid := by
  rw [Lead.judge, if_pos]
  rw [List.length_take]
  omega

theorem judge_of_enough {lead : Lead} (enough : lead.extra ≤ rest.length) :
    lead.judge rest = match gather rest 0 lead.bits lead.extra with
      | .error verdict => verdict
      | .ok n => if lead.least ≤ n && isScalar n then .valid else .invalid := by
  have taken : ¬ (rest.take lead.extra).length < lead.extra := by
    rw [List.length_take]
    omega
  exact if_neg taken

theorem judge_two :
    Lead.judge ⟨1, 0x80, a.toNat % 32⟩ (b :: rest) = verdictOn (decodeTwo? a b) := by
  have scalar : isScalar (a.toNat % 32 * 64 + continuationBits b) = true := by
    have : continuationBits b < 64 := Nat.mod_lt _ (by decide)
    exact isScalar_iff.2 (by omega)
  rw [judge_of_enough (Nat.le_add_left 1 _), gather_cons, decodeTwo?, verdictOn_ite]
  cases isContinuation b
  · rfl
  · simp [gather, scalar]

theorem judge_three : Lead.judge ⟨2, 0x800, a.toNat % 16⟩ (b :: c :: rest) =
    verdictOn (decodeThree? a b c) := by
  rw [judge_of_enough (Nat.le_add_left 2 _), gather_cons, gather_cons, decodeThree?, verdictOn_ite]
  cases isContinuation b
  · rfl
  cases isContinuation c
  · rfl
  · rfl

theorem judge_four : Lead.judge ⟨3, 0x10000, a.toNat % 8⟩ (b :: c :: d :: rest) =
    verdictOn (decodeFour? a b c d) := by
  rw [judge_of_enough (Nat.le_add_left 3 _), gather_cons, gather_cons, gather_cons, decodeFour?,
    verdictOn_ite]
  cases isContinuation b
  · rfl
  cases isContinuation c
  · rfl
  cases isContinuation d
  · rfl
  · rfl

/-! ### Scanning a text -/

/-- The bytes that have been judged are passed over. -/
theorem scanBehind_eq (judged : Nat) (text : Bytes) :
    scanBehind judged text = scan (text.drop judged) := by
  induction judged generalizing text with
  | zero => rfl
  | succ judged ih =>
    cases text with
    | nil => rfl
    | cons c rest => exact ih rest

theorem scan_cons_of_lt (low : a < 0x80) : scan (a :: rest) = scan rest := by
  rw [scan, scanBehind, if_pos low]
  rfl

theorem scan_of_no_lead (low : ¬ a < 0x80) (none : Lead.of? a = none) :
    scan (a :: rest) = .invalid := by
  rw [scan, scanBehind, if_neg low, none]

theorem scan_of_lead {lead : Lead} (low : ¬ a < 0x80) (some : Lead.of? a = some lead) :
    scan (a :: rest) =
      if lead.judge rest = .valid then scan (rest.drop lead.extra) else lead.judge rest := by
  rw [scan, scanBehind, if_neg low, some]
  dsimp only
  split
  next valid => rw [if_pos valid, scanBehind_eq]
  next invalid => rw [if_neg invalid]

theorem scan_of_short {lead : Lead} (low : ¬ a < 0x80) (some : Lead.of? a = some lead)
    (short : rest.length < lead.extra) : scan (a :: rest) = .invalid := by
  rw [scan_of_lead low some, judge_of_short short, if_neg (by decide)]

/-- An encoding in front of a text is judged as it is read. -/
theorem scan_group {lead : Lead} (others : Bytes) {first : Option Nat} (low : ¬ a < 0x80)
    (some : Lead.of? a = some lead) (whole : others.length = lead.extra)
    (judge : lead.judge (others ++ rest) = verdictOn first)
    (ih : scan rest = verdictOn (decodeUtf8? rest)) :
    scan (a :: (others ++ rest)) =
      verdictOn (Option.map₂ List.cons first (decodeUtf8? rest)) := by
  rw [scan_of_lead low some, judge, List.drop_left' whole, ih]
  cases first
  · rfl
  · cases decodeUtf8? rest <;> rfl

/-- **A scan comes to what reading comes to.** The cases are those of the reader. -/
theorem scan_eq (text : Bytes) : scan text = verdictOn (decodeUtf8? text) := by
  fun_induction decodeUtf8? text with
  | case1 => rfl
  | case2 a rest low ih =>
    rw [scan_cons_of_lt low, ih, verdictOn, verdictOn, Option.isSome_map]
  | case3 a rest low lead =>
    exact scan_of_no_lead low (by rw [Lead.of?_eq, if_pos lead])
  | case4 a low lead two b rest ih =>
    rw [return_cons_eq]
    exact scan_group [b] low (by rw [Lead.of?_eq, if_neg lead, if_pos two]) rfl
      judge_two ih
  | case5 a rest low lead two short =>
    refine scan_of_short low (by rw [Lead.of?_eq, if_neg lead, if_pos two]) ?_
    cases rest with
    | nil => exact Nat.zero_lt_one
    | cons b rest => exact (short b rest rfl).elim
  | case6 a low lead more three b c rest ih =>
    rw [return_cons_eq]
    exact scan_group [b, c] low
      (by rw [Lead.of?_eq, if_neg lead, if_neg more, if_pos three]) rfl judge_three ih
  | case7 a rest low lead more three short =>
    refine scan_of_short low (by rw [Lead.of?_eq, if_neg lead, if_neg more, if_pos three]) ?_
    obtain _ | ⟨b, _ | ⟨c, rest⟩⟩ := rest
    · exact Nat.zero_lt_two
    · exact Nat.one_lt_two
    · exact (short b c rest rfl).elim
  | case8 a low lead more most four b c d rest ih =>
    rw [return_cons_eq]
    exact scan_group [b, c, d] low
      (by rw [Lead.of?_eq, if_neg lead, if_neg more, if_neg most, if_pos four]) rfl judge_four ih
  | case9 a rest low lead more most four short =>
    refine scan_of_short low
      (by rw [Lead.of?_eq, if_neg lead, if_neg more, if_neg most, if_pos four]) ?_
    obtain _ | ⟨b, _ | ⟨c, _ | ⟨d, rest⟩⟩⟩ := rest
    · exact Nat.zero_lt_succ 2
    · exact Nat.one_lt_succ_succ 1
    · exact Nat.lt_succ_self 2
    · exact (short b c d rest rfl).elim
  | case10 a rest low lead more most none =>
    exact scan_of_no_lead low
      (by rw [Lead.of?_eq, if_neg lead, if_neg more, if_neg most, if_neg none])

/-- The scan and the reader accept the same texts. -/
theorem scan_eq_valid_iff {text : Bytes} : scan text = .valid ↔ isValidUtf8 text = true := by
  rw [scan_eq, verdictOn, isValidUtf8]
  split <;> simp [*]

/-- **A scan never looks behind the end** of the text. -/
theorem scan_ne_overrun (text : Bytes) : scan text ≠ .overrun := by
  rw [scan_eq, verdictOn]
  split <;> decide

end Utf8

end VirtualShell
