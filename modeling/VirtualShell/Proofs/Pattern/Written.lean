import VirtualShell.Pattern.Glob
import VirtualShell.Pattern.Syntax

/-!
# Patterns in writing

The regular expression that a file name pattern is written as is read back, whatever the pattern
is, and as the expression that it means (`Glob.parse?_regexText`). Each item of the pattern is one
term, with its quantifier where it has one (`Glob.readBranch?_item`); none begins with a byte that
could be a quantifier of the one before it (`Glob.unquantified`).
-/

namespace VirtualShell

namespace Regex

variable {fuel : Nat} {tally : Tally} {text rest : Bytes}

/-! ## Terms and quantifiers -/

/-- The text does not begin with a quantifier. -/
def Unquantified (text : Bytes) : Prop :=
  ∀ c, text.head? = some c →
    c ≠ Ascii.star ∧ c ≠ Ascii.plus ∧ c ≠ Ascii.question ∧ c ≠ Ascii.openBrace

theorem Unquantified.read? (h : Unquantified text) : Quantifier.read? text = some none := by
  cases text with
  | nil => rfl
  | cons c rest =>
    obtain ⟨star, plus, question, brace⟩ := h c rfl
    simp only [Quantifier.read?, if_neg star, if_neg plus, if_neg question, if_neg brace]

/-- What does not begin with a quantifier is left behind the term. -/
theorem Unquantified.readQuantifiers? (h : Unquantified text) (piece : Piece) :
    readQuantifiers? fuel tally piece text = some (piece, tally, text) := by
  cases fuel with
  | zero => rfl
  | succ fuel => rw [Regex.readQuantifiers?, h.read?]; rfl

/-- Without a mark behind it a quantifier is greedy. -/
theorem readQuantifiers?_cons {c : UInt8} {quantifier : Quantifier} (piece : Piece)
    (read : Quantifier.read? (c :: rest) = some (some (quantifier, rest)))
    (h : Unquantified rest) :
    readQuantifiers? (c :: rest).length tally piece (c :: rest) =
      some ((quantifier.apply true piece).1, tally.add (quantifier.apply true piece).2, rest) := by
  rw [List.length_cons, readQuantifiers?, read]
  simp only [Option.bind_eq_bind, Option.bind_some]
  split
  next others _ => exact absurd rfl (h Ascii.question rfl).2.2.1
  next => exact h.readQuantifiers? _

theorem readQuantifiers?_star (piece : Piece) (h : Unquantified rest) :
    readQuantifiers? (Ascii.star :: rest).length tally piece (Ascii.star :: rest) =
      some (⟨.star true piece.regex, piece.states + 1⟩, tally.add 1, rest) := by
  have read : Quantifier.read? (Ascii.star :: rest) = some (some (.star, rest)) := rfl
  exact readQuantifiers?_cons piece read h

theorem readQuantifiers?_optional (piece : Piece) (h : Unquantified rest) :
    readQuantifiers? (Ascii.question :: rest).length tally piece (Ascii.question :: rest) =
      some (⟨.upTo 1 true piece.regex, piece.states + 2⟩, tally.add 2, rest) := by
  have read : Quantifier.read? (Ascii.question :: rest) = some (some (.optional, rest)) := rfl
  exact readQuantifiers?_cons piece read h

/-- A branch is its first term, under its quantifiers, and the branch behind them. -/
theorem readBranch?_cons {c : UInt8} {term piece : Piece} {tally' tally'' : Tally}
    {behind : Bytes} (bar : c ≠ Ascii.bar) (closes : c ≠ Ascii.closeParen)
    (read : readTerm? false fuel tally (c :: text) = some (term, tally', behind))
    (takesRoom : isAssertion term.regex = false)
    (quantified : readQuantifiers? behind.length tally' term behind = some (piece, tally'', rest)) :
    readBranch? false (fuel + 1) tally (c :: text) =
      (readBranch? false fuel tally'' rest).map fun others =>
        (⟨.seq piece.regex others.1.regex, piece.states + others.1.states⟩, others.2) := by
  rw [readBranch?]
  · simp only [read, Option.bind_eq_bind, Option.bind_some, takesRoom, quantified]
    cases readBranch? false fuel tally'' rest <;> rfl
  · exact nofun
  · rintro text ⟨⟩
    exact bar rfl
  · rintro text ⟨⟩
    exact closes rfl

/-- Where no bar stands behind a branch there is no other. -/
theorem readBranches?_of_branch {piece : Piece} {tally' : Tally} {behind : Bytes}
    (read : readBranch? false fuel tally text = some (piece, tally', behind))
    (alone : behind.head? ≠ some Ascii.bar) :
    readBranches? false (fuel + 1) tally text = some (piece, tally', behind) := by
  rw [readBranches?, read]
  simp only [Option.bind_eq_bind, Option.bind_some]
  split
  next => exact absurd rfl alone
  next => rfl

/-! ## The terms of patterns -/

theorem readTerm?_dot : readTerm? false (fuel + 1) tally (Ascii.dot :: rest) =
    some (⟨Glob.Item.lineByte, 1⟩, tally.add 1, rest) := rfl

theorem readTerm?_slash : readTerm? false (fuel + 1) tally (Ascii.slash :: rest) =
    some (⟨.byte (· == Ascii.slash), 1⟩, tally.add 1, rest) := rfl

/-- A bracket expression of all bytes but the slash. -/
theorem readTerm?_bracket : readTerm? false (fuel + 1) tally (ascii "[^/]" ++ rest) =
    some (⟨Glob.Item.nameByte, 1⟩, tally.add 1, rest) := by
  have others : (fun c => (false || acceptsByte false Ascii.slash c) != true) =
      (· != Ascii.slash) := by
    funext c
    cases same : c == Ascii.slash <;> simp [acceptsByte, bne, same]
  rw [Glob.Item.nameByte, ← others]
  rfl

/-- A byte that is written with a backslash stands for itself. -/
theorem readTerm?_special {c : UInt8} (h : Glob.Item.isSpecial c = true) :
    readTerm? false (fuel + 1) tally (Ascii.backslash :: c :: rest) =
      some (⟨.byte (· == c), 1⟩, tally.add 1, rest) := by
  have escaped : readEscape? false (c :: rest) = some (.char c, rest) := by
    have mem : c ∈ ascii ".+^$()\x7b\x7d|[]\\" := List.contains_iff_mem.1 h
    simp only [show ascii ".+^$()\x7b\x7d|[]\\" =
      [46, 43, 94, 36, 40, 41, 123, 125, 124, 91, 93, 92] from rfl, List.mem_cons,
      List.not_mem_nil, or_false] at mem
    rcases mem with rfl | rfl | rfl | rfl | rfl | rfl | rfl | rfl | rfl | rfl | rfl | rfl <;> rfl
  show (readSimple? false tally _).bind _ = _
  rw [readSimple?, if_neg (by decide), if_neg (by decide), if_pos rfl, escaped]
  rfl

/-- Any other byte that is no quantifier does so as it is. -/
theorem readTerm?_plain {c : UInt8} (h : Glob.Item.isSpecial c = false) (star : c ≠ Ascii.star)
    (question : c ≠ Ascii.question) : readTerm? false (fuel + 1) tally (c :: rest) =
      some (⟨.byte (· == c), 1⟩, tally.add 1, rest) := by
  have ne : ∀ d, Glob.Item.isSpecial d = true → c ≠ d := by
    rintro d special rfl
    rw [h] at special
    cases special
  have simple : readSimple? false tally (c :: rest) = some (.byte (· == c), rest) := by
    rw [readSimple?, if_neg (ne _ (by decide)), if_neg (ne _ (by decide)),
      if_neg (ne _ (by decide)), if_neg]
    · rfl
    · simp [star, question, ne Ascii.plus (by decide), ne Ascii.openBrace (by decide)]
  rw [readTerm?]
  · rw [simple]
    rfl
  all_goals
    intros
    rename_i other
    exact ne _ (by decide) (List.cons.inj other).1

/-- Leading directories are a group that may be missing. -/
theorem readTerm?_directories :
    readTerm? false (fuel + 5) tally (Ascii.openParen :: Ascii.question :: Ascii.colon ::
        Ascii.dot :: Ascii.star :: Ascii.slash :: Ascii.closeParen :: rest) =
      some (⟨.seq (.star true Glob.Item.lineByte) (.seq (.byte (· == Ascii.slash)) .empty), 5⟩,
        tally.add 5, rest) := by
  have behindSlash : Unquantified (Ascii.closeParen :: rest) := by
    rintro c ⟨⟩
    decide
  have behindStar : Unquantified (Ascii.slash :: Ascii.closeParen :: rest) := by
    rintro c ⟨⟩
    decide
  have body : readBranch? false (fuel + 3) tally
      (Ascii.dot :: Ascii.star :: Ascii.slash :: Ascii.closeParen :: rest) =
      some (⟨.seq (.star true Glob.Item.lineByte) (.seq (.byte (· == Ascii.slash)) .empty), 4⟩,
        tally.add 4, Ascii.closeParen :: rest) := by
    rw [readBranch?_cons (by decide) (by decide) readTerm?_dot rfl
      (readQuantifiers?_star _ behindStar)]
    rw [readBranch?_cons (by decide) (by decide) readTerm?_slash rfl
      (behindSlash.readQuantifiers? _)]
    rfl
  rw [readTerm?.eq_def]
  show (readBranches? false (fuel + 4) tally _).bind _ = _
  rw [readBranches?_of_branch body nofun]
  rfl

end Regex

namespace Glob

open Regex

variable {item : Item} {list : List Item} {fuel : Nat} {tally : Tally} {rest : Bytes}

/-! ## Items -/

/-- The states of the automaton that an item takes. -/
def Item.states : Item → Nat
  | directories => 7
  | anything | anyName => 2
  | anyNameByte | literal _ => 1

/-- The states of the automaton that items take one after another. -/
def states (list : List Item) : Nat := list.foldr (fun item rest => item.states + rest) 0

/-- A byte that stands for itself is no wildcard. -/
def Item.Proper : Item → Prop
  | literal c => c ≠ Ascii.star ∧ c ≠ Ascii.question
  | _ => True

theorem proper_of_mem_items (pattern : Bytes) : ∀ item ∈ items pattern, item.Proper := by
  induction pattern using readingInduction with
  | nil => exact fun _ mem => absurd mem List.not_mem_nil
  | directories rest ih | anyNameByte rest ih => exact List.forall_mem_cons.2 ⟨trivial, ih⟩
  | anything rest next ih =>
    rw [items_anything next]
    exact List.forall_mem_cons.2 ⟨trivial, ih⟩
  | anyName rest next ih =>
    rw [items_anyName next]
    exact List.forall_mem_cons.2 ⟨trivial, ih⟩
  | literal c rest star question ih =>
    rw [items_literal star question]
    exact List.forall_mem_cons.2 ⟨⟨star, question⟩, ih⟩

theorem unquantified_regexText (h : item.Proper) (rest : Bytes) :
    Unquantified (item.regexText ++ rest) := by
  intro c first
  cases item with
  | directories | anything | anyName | anyNameByte =>
    cases first
    decide
  | literal d =>
    rw [Item.regexText] at first
    split at first
    next =>
      cases first
      decide
    next plain =>
      cases first
      obtain ⟨star, question⟩ := h
      refine ⟨star, ?_, question, ?_⟩ <;>
      · rintro rfl
        exact plain (by decide)

theorem unquantified (h : ∀ item ∈ list, item.Proper) :
    Unquantified (list.flatMap Item.regexText) := by
  cases list with
  | nil => exact nofun
  | cons item list =>
    rw [List.flatMap_cons]
    exact unquantified_regexText (h item (List.mem_cons_self ..)) _

/-- **An item is read as one term**, under its quantifier where it has one. -/
theorem readBranch?_item (h : item.Proper) (behind : Unquantified rest) :
    readBranch? false (fuel + 5 + 1) tally (item.regexText ++ rest) =
      (readBranch? false (fuel + 5) (tally.add item.states) rest).map fun others =>
        (⟨.seq item.regex others.1.regex, item.states + others.1.states⟩, others.2) := by
  cases item with
  | directories =>
    exact readBranch?_cons (by decide) (by decide) readTerm?_directories rfl
      (readQuantifiers?_optional _ behind)
  | anything =>
    exact readBranch?_cons (by decide) (by decide) readTerm?_dot rfl
      (readQuantifiers?_star _ behind)
  | anyName =>
    exact readBranch?_cons (by decide) (by decide) readTerm?_bracket rfl
      (readQuantifiers?_star _ behind)
  | anyNameByte =>
    exact readBranch?_cons (by decide) (by decide) readTerm?_bracket rfl
      (behind.readQuantifiers? _)
  | literal c =>
    obtain ⟨star, question⟩ := h
    rw [Item.regexText]
    split
    next special =>
      exact readBranch?_cons (by decide) (by decide) (readTerm?_special special) rfl
        (behind.readQuantifiers? _)
    next plain =>
      refine readBranch?_cons ?_ ?_ (readTerm?_plain (by simpa using plain) star question) rfl
        (behind.readQuantifiers? _)
      all_goals
        rintro rfl
        exact plain (by decide)

/-! ## Whole patterns -/

theorem length_regexText_pos (item : Item) : 0 < item.regexText.length := by
  cases item with
  | literal c => rw [Item.regexText]; split <;> exact Nat.succ_pos _
  | _ => exact Nat.succ_pos _

theorem readBranch?_items (h : ∀ item ∈ list, item.Proper)
    (enough : 4 * (list.flatMap Item.regexText).length + 3 ≤ fuel) :
    readBranch? false fuel tally (list.flatMap Item.regexText) =
      some (⟨list.foldr (fun item rest => .seq item.regex rest) .empty,
        states list + 1⟩, tally.add (states list + 1), []) := by
  induction list generalizing fuel tally with
  | nil =>
    obtain ⟨fuel, rfl⟩ := Nat.exists_eq_add_of_le enough
    rw [Nat.add_comm]
    rfl
  | cons item list ih =>
    have some := length_regexText_pos item
    rw [List.flatMap_cons] at enough ⊢
    rw [List.length_append] at enough
    obtain ⟨fuel, rfl⟩ : ∃ less, fuel = less + 5 + 1 := ⟨fuel - 6, by omega⟩
    obtain ⟨first, others⟩ := List.forall_mem_cons.1 h
    rw [readBranch?_item first (unquantified others), ih others (by omega)]
    simp only [Option.map_some, states, List.foldr_cons, Tally.add, Nat.add_assoc]

/-- **The written pattern is a regular expression**, and is read as the one that the pattern
means, whatever the pattern is. -/
theorem parse?_regexText (pattern : Bytes) :
    parse? false (regexText pattern) =
      some (regex pattern, states (items pattern) + 4) := by
  have enough := Nat.le_refl (4 * ((items pattern).flatMap Item.regexText).length + 3)
  have branch := @readBranch?_items _ _ {} (proper_of_mem_items pattern) enough
  have whole := readBranches?_of_branch branch nofun
  rw [parse?, regexText, whole]
  simp only [Option.bind_eq_bind, Option.bind_some, List.isEmpty_nil, if_true, Tally.add, regex,
    Nat.zero_add]

end Glob

end VirtualShell
