import Mathlib.Tactic.IntervalCases
import VirtualShell.Text.Base64

/-!
# Base 64 loses nothing

A text in base 64 is the letters of six-bit values and the padding (`encode_eq`), and the values
pack to the bytes that were written. The buffer of a reader keeps more bits than are still to be
given out; only those at its low end count (`Reader.Holds`), and pushing the values gives out the
bytes that they pack to (`Reader.bytes_foldl_push`). So reading gives back what was written
(`decode?_encode`), whatever the bytes are, and it takes whole groups of letters and padding and
nothing else (`decode?_laws`). The text is ASCII (`lt_of_mem_encode`).
-/

namespace VirtualShell.Base64

/-! ## Letters -/

theorem value?_letter : ∀ n < 64, value? (letter n) = some n := by decide +kernel

theorem letter_ne_equals : ∀ n < 64, letter n ≠ Ascii.equals := by decide +kernel

theorem letter_lt : ∀ n < 64, letter n < 0x80 := by decide +kernel

theorem length_alphabet : alphabet.length = 64 := by decide +kernel

theorem zero_not_mem_alphabet : 0 ∉ alphabet := by decide +kernel

/-- **The letters have six bits**, and no other byte has: the NUL behind them is found, but it is
refused. -/
theorem isSome_value?_iff {c : UInt8} : (value? c).isSome = true ↔ c ∈ alphabet := by
  by_cases nul : c = 0
  · rw [value?, if_pos nul, nul]
    exact iff_of_false (by simp) zero_not_mem_alphabet
  · rw [value?, if_neg nul, place?, ← Option.ne_none_iff_isSome, Ne, List.idxOf?_eq_none_iff,
      not_not, List.mem_append, List.mem_singleton, or_iff_left nul]

/-- A byte has the six bits whose letter it is. -/
theorem eq_letter_of_value? {c : UInt8} {n : Nat} (h : value? c = some n) :
    n < 64 ∧ c = letter n := by
  rw [value?, Option.ite_none_left_eq_some, place?, List.idxOf?_eq_some_iff] at h
  obtain ⟨nul, within, found, -⟩ := h
  by_cases small : n < alphabet.length
  · rw [List.getElem_append_left small] at found
    rw [letter, List.getD_eq_getElem?_getD, List.getElem?_eq_getElem small]
    exact ⟨length_alphabet ▸ small, found.symm⟩
  · rw [List.getElem_append_right (Nat.not_lt.1 small), List.getElem_singleton] at found
    exact absurd found.symm nul

theorem toUInt8_of_eq {n : Nat} {a : UInt8} (h : n % 256 = a.toNat) : n.toUInt8 = a := by
  rw [← UInt8.toNat_inj, Nat.toUInt8_eq, UInt8.toNat_ofNat', ← h]

theorem toUInt8_congr {m n : Nat} (h : m % 256 = n % 256) : m.toUInt8 = n.toUInt8 := by
  rw [← UInt8.toNat_inj, Nat.toUInt8_eq, Nat.toUInt8_eq, UInt8.toNat_ofNat', UInt8.toNat_ofNat', h]

/-! ## Writing -/

/-- The bytes of six-bit values; bits that make no whole byte are dropped. -/
def pack : List Nat → Bytes
  | a :: b :: c :: d :: rest =>
    let n := a * 0x40000 + b * 0x1000 + c * 0x40 + d
    (n / 0x10000).toUInt8 :: (n / 0x100).toUInt8 :: n.toUInt8 :: pack rest
  | [a, b, c] =>
    let n := a * 0x1000 + b * 0x40 + c
    [(n / 0x400).toUInt8, (n / 4).toUInt8]
  | [a, b] => [((a * 0x40 + b) / 0x10).toUInt8]
  | _ => []

/-- **A text in base 64**: the letters of values that pack to the bytes, and up to two equals signs
that fill the last group. -/
theorem encode_eq (bytes : Bytes) : ∃ values padding, (∀ n ∈ values, n < 64) ∧
    encode bytes = values.map letter ++ List.replicate padding Ascii.equals ∧
      pack values = bytes ∧ padding ≤ 2 ∧ (values.length + padding) % 4 = 0 := by
  induction bytes using encode.induct with
  | case1 => exact ⟨[], 0, by simp, rfl, rfl, by omega, rfl⟩
  | case2 a =>
    have := a.toNat_lt
    obtain ⟨n, hn⟩ : ∃ n, n = a.toNat * 0x10000 := ⟨_, rfl⟩
    refine ⟨[n / 0x40000 % 64, n / 0x1000 % 64], 2, ?_, by rw [hn]; rfl, ?_, by omega, by simp⟩
    · simp only [List.forall_mem_cons, List.not_mem_nil, false_implies, implies_true, and_true]
      omega
    · simp only [pack]
      rw [toUInt8_of_eq (a := a) (by omega)]
  | case3 a b =>
    have := a.toNat_lt
    have := b.toNat_lt
    obtain ⟨n, hn⟩ : ∃ n, n = a.toNat * 0x10000 + b.toNat * 0x100 := ⟨_, rfl⟩
    refine ⟨[n / 0x40000 % 64, n / 0x1000 % 64, n / 0x40 % 64], 1, ?_, by rw [hn]; rfl, ?_,
      by omega, by simp⟩
    · simp only [List.forall_mem_cons, List.not_mem_nil, false_implies, implies_true, and_true]
      omega
    · simp only [pack]
      rw [toUInt8_of_eq (a := a) (by omega), toUInt8_of_eq (a := b) (by omega)]
  | case4 a b c rest ih =>
    have := a.toNat_lt
    have := b.toNat_lt
    have := c.toNat_lt
    obtain ⟨n, hn⟩ : ∃ n, n = a.toNat * 0x10000 + b.toNat * 0x100 + c.toNat := ⟨_, rfl⟩
    obtain ⟨values, padding, small, e, packed, le, whole⟩ := ih
    refine ⟨n / 0x40000 % 64 :: n / 0x1000 % 64 :: n / 0x40 % 64 :: n % 64 :: values, padding, ?_,
      ?_, ?_, le, ?_⟩
    · simp only [List.forall_mem_cons]
      exact ⟨by omega, by omega, by omega, by omega, small⟩
    · rw [encode, e, hn]
      rfl
    · simp only [pack]
      rw [packed, toUInt8_of_eq (a := a) (by omega), toUInt8_of_eq (a := b) (by omega),
        toUInt8_of_eq (a := c) (by omega)]
    · simp only [List.length_cons]
      omega

theorem lt_of_mem_encode {bytes : Bytes} {c : UInt8} (h : c ∈ encode bytes) : c < 0x80 := by
  obtain ⟨values, padding, small, e, -⟩ := encode_eq bytes
  rw [e] at h
  rcases List.mem_append.1 h with h | h
  · obtain ⟨n, mem, rfl⟩ := List.mem_map.1 h
    exact letter_lt n (small n mem)
  · rw [(List.mem_replicate.1 h).2]
    decide

/-! ## Pushing values -/

namespace Reader

variable {r : Reader} {n value : Nat}

/-- So many bits are still to be given out, and they are these. What the buffer holds above them
was given out before. -/
structure Holds (r : Reader) (bits n : Nat) : Prop where
  bits_eq : r.bits = bits
  low_eq : r.buffer.toNat % 2 ^ bits = n

/-- The buffer moves up by six bits, of which the topmost leave the word. -/
theorem toNat_shift (buffer : UInt32) (small : value < 64) :
    (buffer <<< 6 ||| value.toUInt32).toNat = buffer.toNat * 64 % 0x100000000 + value := by
  have whole : buffer.toNat <<< 6 % 0x100000000 = (buffer.toNat % 0x4000000) <<< 6 := by
    rw [Nat.shiftLeft_eq, Nat.shiftLeft_eq]
    omega
  have word : value.toUInt32.toNat = value := by
    rw [Nat.toUInt32_eq, UInt32.toNat_ofNat', Nat.mod_eq_of_lt (by omega)]
  rw [UInt32.toNat_or, UInt32.toNat_shiftLeft, word]
  show buffer.toNat <<< 6 % 0x100000000 ||| value = _
  rw [whole, ← Nat.shiftLeft_add_eq_or_of_lt (i := 6) small, ← whole, Nat.shiftLeft_eq]

/-- The eight bits above the lowest ones. -/
theorem toUInt8_shift (buffer : UInt32) {bits : Nat} (small : bits < 32) :
    (buffer >>> bits.toUInt32 &&& 0xFF).toUInt8 = (buffer.toNat / 2 ^ bits).toUInt8 := by
  have amount : bits.toUInt32.toNat % 32 = bits := by
    rw [Nat.toUInt32_eq, UInt32.toNat_ofNat']
    omega
  have mask : ∀ m : Nat, m &&& 255 = m % 256 := fun m => Nat.and_two_pow_sub_one_eq_mod m 8
  rw [← UInt8.toNat_inj, UInt32.toNat_toUInt8, UInt32.toNat_and, UInt32.toNat_shiftRight, amount,
    Nat.shiftRight_eq_div_pow, Nat.toUInt8_eq, UInt8.toNat_ofNat']
  show (buffer.toNat / 2 ^ bits &&& 255) % 2 ^ 8 = _
  rw [mask, Nat.mod_mod]

/-- The first value of a group gives no byte. -/
theorem Holds.push_first (h : r.Holds 0 n) (small : value < 64) :
    (r.push value).Holds 6 value ∧ (r.push value).bytes = r.bytes := by
  have short : ¬ 8 ≤ r.bits + 6 := by rw [h.bits_eq]; omega
  rw [push]
  dsimp only
  rw [if_neg short]
  refine ⟨⟨by rw [h.bits_eq], ?_⟩, rfl⟩
  rw [toNat_shift _ small]
  omega

/-- Each of the others gives the oldest eight bits of those that were held and its own. -/
theorem Holds.push (bits : Nat) (h : r.Holds (bits + 2) n) (le : bits ≤ 4) (small : value < 64) :
    (r.push value).Holds bits ((n * 64 + value) % 2 ^ bits) ∧
      (r.push value).bytes = ((n * 64 + value) / 2 ^ bits).toUInt8 :: r.bytes := by
  have enough : 8 ≤ r.bits + 6 := by rw [h.bits_eq]; omega
  have left : r.bits + 6 - 8 = bits := by rw [h.bits_eq]; omega
  have low := h.low_eq
  have moved := toNat_shift r.buffer small
  rw [Reader.push]
  dsimp only
  rw [if_pos enough, left]
  refine ⟨⟨rfl, ?_⟩, congrArg (· :: r.bytes) ?_⟩
  · show (r.buffer <<< 6 ||| value.toUInt32).toNat % 2 ^ bits = _
    rw [moved]
    interval_cases bits <;> omega
  · rw [toUInt8_shift _ (by omega), moved, ← UInt8.toNat_inj, Nat.toUInt8_eq, Nat.toUInt8_eq,
      UInt8.toNat_ofNat', UInt8.toNat_ofNat']
    interval_cases bits <;> omega

/-- **Pushed values give out the bytes that they pack to.** The cases are those of `pack`; a whole
group leaves a reader that holds nothing, as it was found. -/
theorem bytes_foldl_push {values : List Nat} (small : ∀ v ∈ values, v < 64)
    (start : r.Holds 0 0) :
    (values.foldl Reader.push r).bytes = (pack values).reverse ++ r.bytes := by
  induction values using pack.induct generalizing r with
  | case1 a b c d rest ih =>
    simp only [List.forall_mem_cons] at small
    obtain ⟨ha, hb, hc, hd, small⟩ := small
    obtain ⟨first, none⟩ := start.push_first ha
    obtain ⟨second, one⟩ := first.push 4 (by omega) hb
    obtain ⟨third, two⟩ := second.push 2 (by omega) hc
    obtain ⟨fourth, three⟩ := third.push 0 (by omega) hd
    rw [Nat.pow_zero, Nat.mod_one] at fourth
    rw [List.foldl_cons, List.foldl_cons, List.foldl_cons, List.foldl_cons, ih small fourth, three,
      two, one, none, pack]
    simp only [List.reverse_cons, List.append_assoc, List.cons_append, List.nil_append]
    congr 2
    · exact toUInt8_congr (by omega)
    · congr 1
      · exact toUInt8_congr (by omega)
      · congr 1
        exact toUInt8_congr (by omega)
  | case2 a b c =>
    simp only [List.forall_mem_cons] at small
    obtain ⟨ha, hb, hc, -⟩ := small
    obtain ⟨first, none⟩ := start.push_first ha
    obtain ⟨second, one⟩ := first.push 4 (by omega) hb
    obtain ⟨-, two⟩ := second.push 2 (by omega) hc
    rw [List.foldl_cons, List.foldl_cons, List.foldl_cons, List.foldl_nil, two, one, none, pack]
    simp only [List.reverse_cons, List.reverse_nil, List.cons_append, List.nil_append]
    congr 1
    · exact toUInt8_congr (by omega)
    · congr 1
      exact toUInt8_congr (by omega)
  | case3 a b =>
    simp only [List.forall_mem_cons] at small
    obtain ⟨ha, hb, -⟩ := small
    obtain ⟨first, none⟩ := start.push_first ha
    obtain ⟨-, one⟩ := first.push 4 (by omega) hb
    rw [List.foldl_cons, List.foldl_cons, List.foldl_nil, one, none, pack]
    rfl
  | case4 values h4 h3 h2 =>
    match values, h4, h3, h2 with
    | [], _, _, _ => rfl
    | [a], _, _, _ => exact (start.push_first (small a List.mem_cons_self)).2
    | [a, b], _, _, h2 => exact absurd rfl (h2 a b)
    | [a, b, c], _, h3, _ => exact absurd rfl (h3 a b c)
    | a :: b :: c :: d :: rest, h4, _, _ => exact absurd rfl (h4 a b c d rest)

theorem padding_push (r : Reader) (value : Nat) : (r.push value).padding = r.padding := by
  rw [push]
  split <;> rfl

theorem padding_foldl_push (values : List Nat) (r : Reader) :
    (values.foldl Reader.push r).padding = r.padding := by
  induction values generalizing r with
  | nil => rfl
  | cons value values ih => rw [List.foldl_cons, ih, padding_push]

/-! ## Reading a text -/

theorem foldlM_step_signs (count : Nat) (r : Reader) :
    (List.replicate count Ascii.equals).foldlM step r =
      some { r with padding := r.padding + count } := by
  induction count generalizing r with
  | zero => rfl
  | succ count ih =>
    have first : r.step Ascii.equals = some { r with padding := r.padding + 1 } := if_pos rfl
    rw [List.replicate_succ, List.foldlM_cons, first]
    refine (ih _).trans ?_
    rw [Nat.add_assoc, Nat.add_comm 1]

theorem foldlM_step_letters {values : List Nat} (small : ∀ v ∈ values, v < 64)
    (early : r.padding = 0) :
    (values.map letter).foldlM step r = some (values.foldl Reader.push r) := by
  induction values generalizing r with
  | nil => rfl
  | cons value values ih =>
    obtain ⟨first, others⟩ := List.forall_mem_cons.1 small
    have pushed : r.step (letter value) = some (r.push value) := by
      rw [step, if_neg (letter_ne_equals value first), if_pos early, value?_letter value first]
      rfl
    rw [List.map_cons, List.foldlM_cons, pushed]
    exact ih others ((padding_push r value).trans early)

/-- Behind an equals sign stand equals signs. -/
theorem eq_signs_of_foldlM {text : Bytes} {s : Reader} (late : r.padding ≠ 0)
    (h : text.foldlM step r = some s) : text = List.replicate text.length Ascii.equals := by
  induction text generalizing r with
  | nil => rfl
  | cons c text ih =>
    rw [List.foldlM_cons] at h
    obtain ⟨next, taken, rest⟩ := Option.bind_eq_some_iff.1 h
    by_cases sign : c = Ascii.equals
    · rw [step, if_pos sign] at taken
      cases taken
      rw [List.length_cons, List.replicate_succ, ← ih (Nat.succ_ne_zero _) rest, sign]
    · rw [step, if_neg sign, if_neg late] at taken
      cases taken

/-- **A text that is read** is letters and the equals signs behind them. -/
theorem exists_of_foldlM {text : Bytes} {s : Reader} (early : r.padding = 0)
    (h : text.foldlM step r = some s) : ∃ (values : List Nat) (padding : Nat),
      (∀ v ∈ values, v < 64) ∧
        text = values.map letter ++ List.replicate padding Ascii.equals := by
  induction text generalizing r with
  | nil => exact ⟨[], 0, List.forall_mem_nil _, rfl⟩
  | cons c text ih =>
    rw [List.foldlM_cons] at h
    obtain ⟨next, taken, rest⟩ := Option.bind_eq_some_iff.1 h
    by_cases sign : c = Ascii.equals
    · rw [step, if_pos sign] at taken
      cases taken
      refine ⟨[], text.length + 1, List.forall_mem_nil _, ?_⟩
      rw [List.map_nil, List.nil_append, List.replicate_succ,
        ← eq_signs_of_foldlM (Nat.succ_ne_zero _) rest, sign]
    · rw [step, if_neg sign, if_pos early] at taken
      obtain ⟨value, found, rfl⟩ := Option.map_eq_some_iff.1 taken
      obtain ⟨small, rfl⟩ := eq_letter_of_value? found
      obtain ⟨values, padding, others, rfl⟩ := ih ((padding_push r value).trans early) rest
      exact ⟨value :: values, padding, List.forall_mem_cons.2 ⟨small, others⟩, rfl⟩

end Reader

/-- **What is read** from a text: it is whole groups of letters and padding, and the bytes are those
that the values of the letters pack to. -/
theorem decode?_eq_some_iff {text bytes : Bytes} :
    decode? text = some bytes ↔ ∃ values padding, (∀ v ∈ values, v < 64) ∧
      text = values.map letter ++ List.replicate padding Ascii.equals ∧ padding ≤ 2 ∧
      text.length % 4 = 0 ∧ pack values = bytes := by
  have read : ∀ (values : List Nat) (padding : Nat), (∀ v ∈ values, v < 64) →
      (values.map letter ++ List.replicate padding Ascii.equals).foldlM Reader.step {} =
        some { values.foldl Reader.push {} with padding } := by
    intro values padding small
    rw [List.foldlM_append, Reader.foldlM_step_letters small rfl]
    refine (Reader.foldlM_step_signs padding _).trans ?_
    rw [Reader.padding_foldl_push, Nat.zero_add]
  have packed : ∀ values : List Nat, (∀ v ∈ values, v < 64) →
      (values.foldl Reader.push {}).bytes.reverse = pack values := by
    intro values small
    rw [Reader.bytes_foldl_push small ⟨rfl, rfl⟩, List.append_nil, List.reverse_reverse]
  constructor
  · intro h
    obtain ⟨r, run, rest⟩ := Option.bind_eq_some_iff.1 h
    obtain ⟨values, padding, small, rfl⟩ := Reader.exists_of_foldlM rfl run
    rw [read values padding small] at run
    cases run
    rw [Option.ite_none_left_eq_some, not_or, not_not, Nat.not_lt] at rest
    obtain ⟨⟨le, whole⟩, same⟩ := rest
    cases same
    exact ⟨values, padding, small, rfl, le, whole, (packed values small).symm⟩
  · rintro ⟨values, padding, small, rfl, le, whole, rfl⟩
    rw [decode?, read values padding small]
    refine (if_neg ?_).trans (congrArg some (packed values small))
    rw [not_or, not_not, Nat.not_lt]
    exact ⟨le, whole⟩

/-- **Reading base 64** gives back what was written. -/
theorem decode?_encode (bytes : Bytes) : decode? (encode bytes) = some bytes := by
  obtain ⟨values, padding, small, e, packed, le, whole⟩ := encode_eq bytes
  refine decode?_eq_some_iff.2 ⟨values, padding, small, e, le, ?_, packed⟩
  rw [e, List.length_append, List.length_map, List.length_replicate, whole]

/-- Letters are those of six-bit values. -/
theorem forall_mem_alphabet_iff {text : Bytes} :
    (∀ c ∈ text, c ∈ alphabet) ↔
      ∃ values : List Nat, (∀ v ∈ values, v < 64) ∧ text = values.map letter := by
  constructor
  · intro letters
    induction text with
    | nil => exact ⟨[], List.forall_mem_nil _, rfl⟩
    | cons c text ih =>
      obtain ⟨first, others⟩ := List.forall_mem_cons.1 letters
      obtain ⟨value, found⟩ := Option.isSome_iff_exists.1 (isSome_value?_iff.2 first)
      obtain ⟨small, rfl⟩ := eq_letter_of_value? found
      obtain ⟨values, smaller, rfl⟩ := ih others
      exact ⟨value :: values, List.forall_mem_cons.2 ⟨small, smaller⟩, rfl⟩
  · rintro ⟨values, small, rfl⟩ c mem
    obtain ⟨value, there, rfl⟩ := List.mem_map.1 mem
    rw [← isSome_value?_iff, value?_letter value (small value there)]
    rfl

/-- **A text can be read** when it has whole groups of four bytes and is letters, then up to two
equals signs, and nothing else. -/
theorem isSome_decode?_iff {text : Bytes} :
    (decode? text).isSome = true ↔ text.length % 4 = 0 ∧
      ∃ letters padding, text = letters ++ List.replicate padding Ascii.equals ∧ padding ≤ 2 ∧
        ∀ c ∈ letters, c ∈ alphabet := by
  rw [Option.isSome_iff_exists]
  constructor
  · rintro ⟨bytes, read⟩
    obtain ⟨values, padding, small, e, le, whole, -⟩ := decode?_eq_some_iff.1 read
    exact ⟨whole, _, padding, e, le, forall_mem_alphabet_iff.2 ⟨values, small, rfl⟩⟩
  · rintro ⟨whole, letters, padding, e, le, known⟩
    obtain ⟨values, small, rfl⟩ := forall_mem_alphabet_iff.1 known
    exact ⟨_, decode?_eq_some_iff.2 ⟨values, padding, small, e, le, whole, rfl⟩⟩

/-- **Base 64 is read exactly where it is well formed.** Reading undoes writing, whatever the bytes
are; a text can be read when it has whole groups of four bytes and is letters, then up to two equals
signs, and nothing else; and a NUL is never read as one of the letters. -/
theorem decode?_laws :
    (∀ bytes, decode? (encode bytes) = some bytes) ∧
    (∀ text, (decode? text).isSome = true ↔ text.length % 4 = 0 ∧
      ∃ letters padding, text = letters ++ List.replicate padding Ascii.equals ∧ padding ≤ 2 ∧
        ∀ c ∈ letters, c ∈ alphabet) ∧
    ∀ text, 0 ∈ text → decode? text = none := by
  refine ⟨decode?_encode, fun _ => isSome_decode?_iff, fun text nul => ?_⟩
  by_contra readable
  obtain ⟨-, letters, padding, rfl, -, known⟩ :=
    isSome_decode?_iff.1 (Option.isSome_iff_ne_none.2 readable)
  rcases List.mem_append.1 nul with letter | sign
  · exact zero_not_mem_alphabet (known 0 letter)
  · exact absurd (List.eq_of_mem_replicate sign) (by decide)

end VirtualShell.Base64
