import VirtualShell.Proofs.Filter.Writing
import VirtualShell.Proofs.Number.Numeral

/-!
# The first and the last lines

`head` and `tail` read a count behind its option, joined to it or behind a dash (`CountWords`), and
cut the lines of their inputs there. What `head` leaves out is what `tail` writes, so that the two
outputs, one behind the other, are the text with a newline at its end (`head_append_tail`).
-/

namespace VirtualShell.Builtin

open ShellAction

/-! ## Written counts -/

/-- The words that give a written count: behind its option, joined to it, or behind a dash. -/
inductive CountWords (count : Bytes) : List Bytes → Prop
  | apart : CountWords count [ascii "-n", count]
  | joined : CountWords count [ascii "-n" ++ count]
  | bare (digit : ∀ c ∈ count.head?, isDigit c = true) : CountWords count [Ascii.minus :: count]

/-- In the world as it is, the call gives a written count and reads a text: from files whose names
are no counts, or from what is piped in. -/
def CountsLines (count text : Bytes) (c : Call) (w : World) : Prop :=
  ∃ words files, c.arguments = words ++ files ∧ CountWords count words
    ∧ (∀ file ∈ files, file ≠ ascii "-n" ∧ LineCount.inWord? file = none)
    ∧ c.inputText files w = text

/-- A word that holds a count. -/
theorem readWords_word (count : LineCount) {word value : Bytes} (rest : List Bytes)
    (other : word ≠ ascii "-n") (holds : LineCount.inWord? word = some value) :
    LineCount.readWords count (word :: rest) =
      LineCount.read value >>= fun count => LineCount.readWords count rest := by
  rw [LineCount.readWords.eq_def]
  dsimp only
  rw [if_neg other, holds]

/-- Words that are no counts are files. -/
theorem readWords_files (count : LineCount) {files : List Bytes}
    (names : ∀ file ∈ files, file ≠ ascii "-n" ∧ LineCount.inWord? file = none) :
    LineCount.readWords count files = .ok (count, files) := by
  induction files with
  | nil => rfl
  | cons file files ih =>
    obtain ⟨other, none⟩ := names file List.mem_cons_self
    rw [LineCount.readWords.eq_def]
    dsimp only
    rw [if_neg other, none]
    dsimp only
    rw [ih fun file mem => names file (List.mem_cons_of_mem _ mem)]
    rfl

theorem inWord?_joined (c : UInt8) (digits : Bytes) :
    LineCount.inWord? (ascii "-n" ++ c :: digits) = some (c :: digits) := rfl

theorem inWord?_bare {c : UInt8} (digits : Bytes) (digit : isDigit c = true) :
    LineCount.inWord? (Ascii.minus :: c :: digits) = some (c :: digits) := by
  have other : c ≠ 110 := isDigit_ne digit (by decide)
  change (if c = 110 ∧ _ then _ else if isDigit c = true then _ else _) = _
  rw [if_neg fun h => other h.1, if_pos digit]

/-- A count that can be read is read off the words. -/
theorem CountWords.readWords {written : Bytes} {words files : List Bytes} {count : LineCount}
    (h : CountWords written words) (read : LineCount.read written = .ok count)
    (names : ∀ file ∈ files, file ≠ ascii "-n" ∧ LineCount.inWord? file = none) :
    LineCount.readWords {} (words ++ files) = .ok (count, files) := by
  have rest := readWords_files count names
  cases written with
  | nil => exact nomatch read
  | cons c digits =>
    cases h with
    | apart =>
      change (LineCount.read (c :: digits) >>= fun count => LineCount.readWords count files) = _
      rw [read]
      exact rest
    | joined =>
      rw [List.singleton_append, readWords_word {} files (by simp [ascii])
        (inWord?_joined c digits), read]
      exact rest
    | bare digit =>
      have digit : isDigit c = true := digit c rfl
      have other : Ascii.minus :: c :: digits ≠ ascii "-n" := fun e =>
        absurd ((List.cons.inj (List.cons.inj e).2).1) (isDigit_ne digit (by decide))
      rw [List.singleton_append, readWords_word {} files other (inWord?_bare digits digit), read]
      exact rest

/-- A first word whose second byte is neither a dash nor an `h` asks for no help. -/
theorem asksForHelp_of_second {c : Call} {first second : UInt8} {word : Bytes} {rest : List Bytes}
    (given : c.arguments = (first :: second :: word) :: rest) (noDash : second ≠ Ascii.minus)
    (noHelp : second ≠ 104) : asksForHelp c = false := by
  have long : ascii "--help" = Ascii.minus :: Ascii.minus :: ascii "help" := by decide
  have short : ascii "-h" = [Ascii.minus, 104] := by decide
  rw [asksForHelp, given, long, short]
  simp [noDash, noHelp]

/-- Words for a count ask for no help. -/
theorem CountWords.asksForHelp_eq_false {written : Bytes} {words files : List Bytes} {c : Call}
    (h : CountWords written words) (nonempty : written ≠ [])
    (given : c.arguments = words ++ files) : asksForHelp c = false := by
  obtain ⟨d, digits, rfl⟩ := List.exists_cons_of_ne_nil nonempty
  cases h with
  | apart => exact asksForHelp_of_second given (by decide) (by decide)
  | joined => exact asksForHelp_of_second given (by decide) (by decide)
  | bare digit =>
    have digit : isDigit d = true := digit d rfl
    exact asksForHelp_of_second given (isDigit_ne digit (by decide)) (isDigit_ne digit (by decide))

/-! ## Reading a count -/

theorem read_decimal {k : Nat} (h : k < 2 ^ 63) : LineCount.read (decimal k) = .ok ⟨k, false⟩ := by
  obtain ⟨d, digits, first, -⟩ := decimal_eq_cons k
  have digit : isDigit d = true := isDigit_of_mem_decimal k d (by rw [first]; simp)
  have noPlus : (decimal k).head? ≠ some Ascii.plus := by
    rw [first]
    exact fun e => isDigit_ne digit (by decide) (Option.some.inj e)
  have noMinus : (decimal k).head? ≠ some Ascii.minus := by
    rw [first]
    exact fun e => isDigit_ne digit (by decide) (Option.some.inj e)
  have natural : ¬ (k : Int) < 0 := Int.not_lt.2 (Int.natCast_nonneg k)
  rw [LineCount.read, beq_eq_false_iff_ne.2 noPlus, beq_eq_false_iff_ne.2 noMinus]
  simp [parseInt_decimal h, natural]

theorem read_plus_decimal {k : Nat} (h : k < 2 ^ 63) :
    LineCount.read (Ascii.plus :: decimal k) = .ok ⟨k, true⟩ := by
  simp [LineCount.read, parseInt_decimal h]

/-! ## Cutting -/

variable {written text : Bytes} {count : LineCount} {c c' : Call} {w w' : World}

theorem CountsLines.invoke_eq {b : Builtin} {k : LineCount → List Bytes → ShellAction Int}
    (h : CountsLines written text c w) (read : LineCount.read written = .ok count)
    (answer : b.answer c = withLineCount c k) :
    ∃ files, c.inputText files w = text ∧ b.invoke c = k count files := by
  obtain ⟨words, files, given, counts, names, reads⟩ := h
  have nonempty : written ≠ [] := fun e => nomatch e ▸ read
  refine ⟨files, reads, ?_⟩
  rw [invoke, counts.asksForHelp_eq_false nonempty given, answer, withLineCount, given,
    counts.readWords read names]
  rfl

/-- `head` writes the first lines. -/
theorem CountsLines.out_head (h : CountsLines written text c w)
    (read : LineCount.read written = .ok count) :
    ((head.invoke c).run w).out = Bytes.unlines (firstLines count.count (Bytes.lines text)) := by
  obtain ⟨files, rfl, invoked⟩ := h.invoke_eq (b := head) read rfl
  rw [invoked, out_filterLines]

/-- `tail` writes the lines at the end that are asked for. -/
theorem CountsLines.out_tail (h : CountsLines written text c w)
    (read : LineCount.read written = .ok count) :
    ((tail.invoke c).run w).out = Bytes.unlines (count.tail (Bytes.lines text)) := by
  obtain ⟨files, rfl, invoked⟩ := h.invoke_eq (b := tail) read rfl
  rw [invoked, out_filterLines]

/-- **The ends of a text make the text.** What `head` writes of the first lines and `tail` of those
from the next one on is the text, with a newline at its end; so is what `head` writes of all lines
but the last ones and `tail` of these. The counts are those of the signed 64-bit range. -/
theorem head_append_tail (text : Bytes) (c c' : Call) (w w' : World) :
    (∀ k : Nat, k + 1 < 2 ^ 63 → CountsLines (decimal k) text c w →
      CountsLines (Ascii.plus :: decimal (k + 1)) text c' w' →
        ((head.invoke c).run w).out ++ ((tail.invoke c').run w').out = Bytes.terminated text)
    ∧ ∀ k : Nat, k ≤ (Bytes.lines text).length → (Bytes.lines text).length < 2 ^ 63 →
      CountsLines (decimal ((Bytes.lines text).length - k)) text c w →
      CountsLines (decimal k) text c' w' →
        ((head.invoke c).run w).out ++ ((tail.invoke c').run w').out = Bytes.terminated text := by
  refine ⟨fun k fits first last => ?_, fun k inside fits first last => ?_⟩
  · rw [first.out_head (read_decimal (by omega)), last.out_tail (read_plus_decimal fits),
      ← Bytes.unlines_append, ← Bytes.unlines_lines]
    exact congrArg _ (firstLines_append_fromLine k _)
  · rw [first.out_head (read_decimal (by omega)), last.out_tail (read_decimal (by omega)),
      ← Bytes.unlines_append, ← Bytes.unlines_lines]
    exact congrArg _ (firstLines_append_lastLines k _)

/-- An empty line in the middle and a missing newline at the end, and three ways to write a
count. -/
theorem head_append_tail_of_three_lines :
    let text := ascii "a\n\nb"
    let call (words : List String) : Call :=
      { name := [], arguments := words.map ascii, input := some text }
    let w : World := { session := {}, system := { volume := { store := .memory ∅ } }, now := 0 }
    ((head.invoke (call ["-n", "1"])).run w).out ++ ((tail.invoke (call ["-n+2"])).run w).out =
        ascii "a\n\nb\n"
      ∧ ((head.invoke (call ["-n1"])).run w).out ++ ((tail.invoke (call ["-2"])).run w).out =
        ascii "a\n\nb\n" := by
  intro text call w
  have counts {written : Bytes} {words : List String} (h : CountWords written (words.map ascii)) :
      CountsLines written text (call words) w :=
    ⟨_, [], (List.append_nil _).symm, h, by simp, rfl⟩
  have one : decimal ((Bytes.lines text).length - 2) = ascii "1" := by decide
  have two : ∀ c ∈ (decimal 2).head?, isDigit c = true := fun c mem =>
    isDigit_of_mem_decimal 2 c (List.mem_of_mem_head? mem)
  have parts := head_append_tail text
  exact ⟨(parts (call ["-n", "1"]) (call ["-n+2"]) w w).1 1 (by decide) (counts .apart)
      (counts .joined),
    (parts (call ["-n1"]) (call ["-2"]) w w).2 2 (by decide) (by decide) (one ▸ counts .joined)
      (counts (.bare two))⟩

end VirtualShell.Builtin
