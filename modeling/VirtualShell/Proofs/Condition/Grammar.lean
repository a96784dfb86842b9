import VirtualShell.Builtin.Conditions
import VirtualShell.Proofs.Condition.Steps

/-!
# Conditions and their words

A `Condition` is a tree of tests, and `Condition.words` are its words as they are given to `test`:
`-a` binds tighter than `-o`, a negation tighter than both, and what binds weaker than its place
asks for stands in parentheses.

What a condition says of a world (`Condition.Holds`) is said without the evaluation: of the records
that paths lead to, of texts and of whole numbers. Each test decides what it says
(`examine_eq_true_iff`, `exists_compare`), and the words of a proper condition are read back as
whether it holds (`readAt_wordsAt`), whatever its tests look like, since the reader looks at most
one word ahead of a test, and no word that can stand behind a condition is an operator of two
operands.
-/

namespace VirtualShell

namespace World

/-- The record that a path leads to from where the session is. -/
def stat (w : World) (path : Bytes) : Outcome Inode := w.system.tree.stat (w.session.resolve path)

/-- The record of the path itself. -/
def lstat (w : World) (path : Bytes) : Outcome Inode := w.system.tree.lstat (w.session.resolve path)

/-- The tests of files as the commands make them in the world. -/
def probe (w : World) (t : FileTest) (path : Bytes) : Bool :=
  t.holds w.system.tree (w.session.resolve path)

end World

/-! ## Operators, their words and what they say -/

/-- The word of a test. -/
def UnaryTest.word : UnaryTest → Bytes
  | emptyText => ascii "-z"
  | someText => ascii "-n"
  | file .present => ascii "-e"
  | file .regular => ascii "-f"
  | file .directory => ascii "-d"
  | file .symlink => ascii "-L"
  | file .nonEmpty => ascii "-s"

/-- What a test says of its operand in a world. Only the test for a link asks for the record of the
path itself. -/
def UnaryTest.Says (w : World) (operand : Bytes) : UnaryTest → Prop
  | emptyText => operand = []
  | someText => operand ≠ []
  | file .present => ∃ node, w.stat operand = .ok node
  | file .regular => ∃ node, w.stat operand = .ok node ∧ node.kind = .file
  | file .directory => ∃ node, w.stat operand = .ok node ∧ node.kind = .directory
  | file .symlink => ∃ node, w.lstat operand = .ok node ∧ node.kind = .symlink
  | file .nonEmpty => ∃ node, w.stat operand = .ok node ∧ 0 < node.size

/-- The word of a relation. -/
def Relation.word : Relation → Bytes
  | eq => ascii "-eq"
  | ne => ascii "-ne"
  | lt => ascii "-lt"
  | le => ascii "-le"
  | gt => ascii "-gt"
  | ge => ascii "-ge"

/-- What a relation says of two whole numbers. -/
def Relation.Says (a b : Int) : Relation → Prop
  | eq => a = b
  | ne => a ≠ b
  | lt => a < b
  | le => a ≤ b
  | gt => a > b
  | ge => a ≥ b

/-- What stands between two texts that are compared. -/
inductive BinaryOperator
  | equal
  /-- The same, written with two signs. -/
  | doubleEqual
  | unequal
  | number (r : Relation)
  deriving DecidableEq

/-- The word of a comparison. -/
def BinaryOperator.word : BinaryOperator → Bytes
  | equal => ascii "="
  | doubleEqual => ascii "=="
  | unequal => ascii "!="
  | number r => r.word

/-- What a comparison says of two texts. -/
def BinaryOperator.Says (left right : Bytes) : BinaryOperator → Prop
  | equal | doubleEqual => left = right
  | unequal => left ≠ right
  | number r => ∃ a b, parseInt left = some a ∧ parseInt right = some b ∧ r.Says a b

/-! ## Conditions -/

/-- A condition. -/
inductive Condition
  /-- A word that stands alone; it is true when there is something in it. -/
  | text (word : Bytes)
  | examination (t : UnaryTest) (operand : Bytes)
  | comparison (left : Bytes) (c : BinaryOperator) (right : Bytes)
  | negation (c : Condition)
  | group (c : Condition)
  | both (a b : Condition)
  | either (a b : Condition)
  deriving DecidableEq

namespace Condition

/-- How tightly a condition must bind where it stands. -/
inductive Binding
  | either
  | both
  | term
  deriving DecidableEq

def enclosed (words : List Bytes) : List Bytes := ascii "(" :: (words ++ [ascii ")"])

/-- The words of a condition at a place, in parentheses if it binds weaker than the place asks
for. -/
def wordsAt : Binding → Condition → List Bytes
  | _, text word => [word]
  | _, examination t operand => [t.word, operand]
  | _, comparison left c right => [left, c.word, right]
  | _, negation c => ascii "!" :: c.wordsAt .term
  | _, group c => enclosed (c.wordsAt .either)
  | .term, both a b => enclosed (a.wordsAt .both ++ ascii "-a" :: b.wordsAt .term)
  | _, both a b => a.wordsAt .both ++ ascii "-a" :: b.wordsAt .term
  | .either, either a b => a.wordsAt .either ++ ascii "-o" :: b.wordsAt .both
  | _, either a b => enclosed (a.wordsAt .either ++ ascii "-o" :: b.wordsAt .both)

/-- The words of a condition. -/
def words (c : Condition) : List Bytes := c.wordsAt .either

/-- The condition holds in a world. -/
def Holds (w : World) : Condition → Prop
  | text word => word ≠ []
  | examination t operand => t.Says w operand
  | comparison left c right => c.Says left right
  | negation c => ¬ c.Holds w
  | group c => c.Holds w
  | both a b => a.Holds w ∧ b.Holds w
  | either a b => a.Holds w ∨ b.Holds w

/-- The word is an operator of one operand. -/
def IsUnary (word : Bytes) : Prop := ∃ t : UnaryTest, word = t.word

/-- The word is an operator of two operands. -/
def IsBinary (word : Bytes) : Prop := ∃ c : BinaryOperator, word = c.word

/-- The words that join conditions. -/
def joiningWords : List Bytes := [ascii "!", ascii "(", ascii ")", ascii "-a", ascii "-o"]

/-- Every word has the meaning that its place gives it: a word alone is no operator, what is
examined is no operator of two operands, what is compared starts with no negation or parenthesis,
and what is compared as numbers are numbers. -/
def IsProper : Condition → Prop
  | text word => ¬ IsUnary word ∧ ¬ IsBinary word ∧ word ∉ joiningWords
  | examination _ operand => ¬ IsBinary operand
  | comparison left c right =>
    left ≠ ascii "!" ∧ left ≠ ascii "(" ∧
      ∀ r, c = .number r → (parseInt left).isSome ∧ (parseInt right).isSome
  | negation c | group c => c.IsProper
  | both a b | either a b => a.IsProper ∧ b.IsProper

variable {probe : FileTest → Bytes → Bool} {w : World} {operand left right : Bytes}

/-! ## What the tests decide -/

theorem ofWord?_word (t : UnaryTest) : UnaryTest.ofWord? t.word = some t := by
  rcases t with _ | _ | (_ | _ | _ | _ | _) <;> decide

theorem ofWord?_eq_none_of_not_isUnary {word : Bytes} (h : ¬ IsUnary word) :
    UnaryTest.ofWord? word = none := by
  have other (t : UnaryTest) : word ≠ t.word := fun same => h ⟨t, same⟩
  simp only [UnaryTest.ofWord?, FileTest.ofWord?, show word ≠ ascii "-z" from other .emptyText,
    show word ≠ ascii "-n" from other .someText, show word ≠ ascii "-e" from other (.file .present),
    show word ≠ ascii "-f" from other (.file .regular),
    show word ≠ ascii "-d" from other (.file .directory),
    show word ≠ ascii "-L" from other (.file .symlink),
    show word ≠ ascii "-s" from other (.file .nonEmpty), if_false, Option.map_none]

theorem ofWord?_eq_none_iff {word : Bytes} :
    BinaryTest.ofWord? word = none ↔ ¬ IsBinary word := by
  constructor
  · rintro none ⟨c, rfl⟩
    rcases c with _ | _ | _ | (_ | _ | _ | _ | _ | _) <;> exact absurd none (by decide)
  · intro h
    have other (c : BinaryOperator) : word ≠ c.word := fun same => h ⟨c, same⟩
    simp only [BinaryTest.ofWord?, show word ≠ ascii "=" from other .equal,
      show word ≠ ascii "==" from other .doubleEqual, show word ≠ ascii "!=" from other .unequal,
      show word ≠ ascii "-eq" from other (.number .eq),
      show word ≠ ascii "-ne" from other (.number .ne),
      show word ≠ ascii "-lt" from other (.number .lt),
      show word ≠ ascii "-le" from other (.number .le),
      show word ≠ ascii "-gt" from other (.number .gt),
      show word ≠ ascii "-ge" from other (.number .ge), or_self, if_false]

/-- **A test of one operand** decides what it says. -/
theorem examine_eq_true_iff (t : UnaryTest) :
    examine w.probe t operand = true ↔ t.Says w operand := by
  rcases t with _ | _ | (_ | _ | _ | _ | _)
  case emptyText => exact List.isEmpty_iff
  case someText => simp [examine, UnaryTest.Says]
  case file.symlink =>
    simp only [examine, World.probe, FileTest.holds, UnaryTest.Says, World.lstat]
    cases w.system.tree.lstat (w.session.resolve operand) <;> simp [Inode.isSymlink]
  all_goals
    simp only [examine, World.probe, FileTest.holds, UnaryTest.Says, World.stat]
    cases w.system.tree.stat (w.session.resolve operand) <;>
      simp [Inode.isFile, Inode.isDirectory]

theorem holds_eq_true_iff {a b : Int} (r : Relation) : r.holds a b = true ↔ r.Says a b := by
  cases r <;> simp [Relation.holds, Relation.Says]

/-- **A comparison** of texts, or of numbers that are numbers, decides what it says. -/
theorem exists_compare {c : BinaryOperator}
    (numbers : ∀ r, c = .number r → (parseInt left).isSome ∧ (parseInt right).isSome) :
    ∃ op value, BinaryTest.ofWord? c.word = some op ∧ compare op left right = .ok value ∧
      (value = true ↔ c.Says left right) := by
  cases c with
  | equal => exact ⟨.sameText, left == right, by decide, rfl, beq_iff_eq⟩
  | doubleEqual => exact ⟨.sameText, left == right, by decide, rfl, beq_iff_eq⟩
  | unequal => exact ⟨.otherText, left != right, by decide, rfl, bne_iff_ne⟩
  | number r =>
    obtain ⟨readLeft, readRight⟩ := numbers r rfl
    obtain ⟨a, readLeft⟩ := Option.isSome_iff_exists.1 readLeft
    obtain ⟨b, readRight⟩ := Option.isSome_iff_exists.1 readRight
    refine ⟨.number r, r.holds a b, by cases r <;> decide, ?_, ?_⟩
    · rw [compare, readInteger, readInteger, readLeft, readRight]
      rfl
    · simp [BinaryOperator.Says, readLeft, readRight, holds_eq_true_iff]

/-! ## Reading the words back -/

/-- What can stand behind a condition: nothing, or what closes a group or joins conditions. -/
def Follows (rest : List Bytes) : Prop :=
  ∀ word ∈ rest.head?, word = ascii ")" ∨ word = ascii "-a" ∨ word = ascii "-o"

theorem head?_cons_ne {word other : Bytes} (h : word ≠ other) (rest : List Bytes) :
    (word :: rest).head? ≠ some other :=
  fun same => h (Option.some.inj same)

theorem Follows.ofWord?_eq_none {word : Bytes} {rest : List Bytes} (h : Follows (word :: rest)) :
    BinaryTest.ofWord? word = none := by
  obtain rfl | rfl | rfl := h word rfl <;> decide

theorem follows_closing (rest : List Bytes) : Follows (ascii ")" :: rest) :=
  fun _ h => .inl (Option.mem_some.1 h).symm

theorem follows_and (rest : List Bytes) : Follows (ascii "-a" :: rest) :=
  fun _ h => .inr (.inl (Option.mem_some.1 h).symm)

theorem follows_or (rest : List Bytes) : Follows (ascii "-o" :: rest) :=
  fun _ h => .inr (.inr (Option.mem_some.1 h).symm)

theorem evaluateTest_text {word : Bytes} {rest : List Bytes}
    (unary : UnaryTest.ofWord? word = none) (follows : Follows rest) :
    evaluateTest probe (word :: rest) = .ok (!word.isEmpty, rest) := by
  match rest with
  | [] => rfl
  | [next] => rw [evaluateTest, unary]
  | next :: third :: others => rw [evaluateTest, follows.ofWord?_eq_none, unary]

theorem evaluateTest_examination (t : UnaryTest) (rest : List Bytes)
    (binary : BinaryTest.ofWord? operand = none) :
    evaluateTest probe (t.word :: operand :: rest) = .ok (examine probe t operand, rest) := by
  match rest with
  | [] => rw [evaluateTest, ofWord?_word]
  | third :: others => rw [evaluateTest, binary, ofWord?_word]

theorem evaluateTest_comparison {operator : Bytes} {op : BinaryTest} {value : Bool}
    (rest : List Bytes) (binary : BinaryTest.ofWord? operator = some op)
    (compared : compare op left right = .ok value) :
    evaluateTest probe (left :: operator :: right :: rest) = .ok (value, rest) := by
  rw [evaluateTest, binary]
  simp only [compared]
  rfl

/-- The words are read as the value where a condition may stand, whatever follows them there. What
is joined is read on by whoever reads the place. -/
def ReadAt (probe : FileTest → Bytes → Bool) : Binding → List Bytes → Bool → Prop
  | .term, words, value => ∀ rest, Follows rest →
    readTerm probe (words ++ rest) = .ok (value, rest)
  | .both, words, value => ∀ rest, Follows rest →
    readBoth probe (words ++ rest) = readBothRest probe value rest
  | .either, words, value => ∀ rest, Follows rest → rest.head? ≠ some (ascii "-a") →
    readEither probe (words ++ rest) = readEitherRest probe value rest

namespace ReadAt

variable {words words' : List Bytes} {value value' : Bool}

theorem both_of_term (h : ReadAt probe .term words value) : ReadAt probe .both words value := by
  intro rest follows
  rw [readBoth_eq, h rest follows]
  rfl

theorem either_of_both (h : ReadAt probe .both words value) :
    ReadAt probe .either words value := by
  intro rest follows noConjunct
  rw [readEither_eq, h rest follows, readBothRest_of_head? noConjunct]
  rfl

/-- What is read as a term is read wherever a condition may stand. -/
theorem of_term (h : ReadAt probe .term words value) (place : Binding) :
    ReadAt probe place words value := by
  cases place with
  | term => exact h
  | both => exact h.both_of_term
  | either => exact h.both_of_term.either_of_both

theorem negate (h : ReadAt probe .term words value) :
    ReadAt probe .term (ascii "!" :: words) (!value) := by
  intro rest follows
  rw [List.cons_append, readTerm_negation, h rest follows]
  rfl

theorem enclose (h : ReadAt probe .either words value) :
    ReadAt probe .term (enclosed words) value := by
  intro rest _
  have inside : readEither probe (words ++ ascii ")" :: rest) = .ok (value, ascii ")" :: rest) := by
    rw [h _ (follows_closing rest) (head?_cons_ne (by decide) rest),
      readEitherRest_of_head? (head?_cons_ne (by decide) rest)]
  rw [enclosed, List.cons_append, List.append_assoc, List.singleton_append,
    readTerm_group (by simp), inside]
  rfl

theorem conjoin (h : ReadAt probe .both words value) (h' : ReadAt probe .term words' value') :
    ReadAt probe .both (words ++ ascii "-a" :: words') (value && value') := by
  intro rest follows
  rw [List.append_assoc, List.cons_append, h _ (follows_and _), readBothRest_and,
    h' rest follows]
  rfl

theorem disjoin (h : ReadAt probe .either words value) (h' : ReadAt probe .both words' value') :
    ReadAt probe .either (words ++ ascii "-o" :: words') (value || value') := by
  intro rest follows noConjunct
  rw [List.append_assoc, List.cons_append, h _ (follows_or _) (head?_cons_ne (by decide) _),
    readEitherRest_or, h' rest follows, readBothRest_of_head? noConjunct]
  rfl

end ReadAt

theorem readAt_text {word : Bytes} (h : (text word).IsProper) :
    ReadAt probe .term [word] (!word.isEmpty) := by
  obtain ⟨noOperator, -, noJoining⟩ := h
  have noJoin {other : Bytes} (joins : other ∈ joiningWords) : word ≠ other :=
    fun same => noJoining (same ▸ joins)
  intro rest follows
  rw [List.singleton_append, readTerm_test (noJoin (by decide)) (noJoin (by decide)),
    evaluateTest_text (ofWord?_eq_none_of_not_isUnary noOperator) follows]

theorem readAt_examination {t : UnaryTest} (h : (examination t operand).IsProper) :
    ReadAt probe .term [t.word, operand] (examine probe t operand) := by
  have noJoin {other : Bytes} (joins : UnaryTest.ofWord? other = none) : t.word ≠ other := by
    rintro rfl
    rw [ofWord?_word] at joins
    cases joins
  intro rest _
  rw [List.cons_append, readTerm_test (noJoin (by decide)) (noJoin (by decide))]
  exact evaluateTest_examination t rest (ofWord?_eq_none_iff.2 h)

theorem readAt_comparison {operator : Bytes} {op : BinaryTest} {value : Bool}
    (noNegation : left ≠ ascii "!") (noGroup : left ≠ ascii "(")
    (binary : BinaryTest.ofWord? operator = some op)
    (compared : compare op left right = .ok value) :
    ReadAt probe .term [left, operator, right] value := by
  intro rest _
  rw [List.cons_append, readTerm_test noNegation noGroup]
  exact evaluateTest_comparison rest binary compared

/-- **The words of a proper condition are read as whether it holds** wherever it may stand. -/
theorem readAt_wordsAt {c : Condition} (h : c.IsProper) :
    ∃ value, (value = true ↔ c.Holds w) ∧
      ∀ place, ReadAt w.probe place (c.wordsAt place) value := by
  induction c with
  | text word =>
    refine ⟨!word.isEmpty, by cases word <;> simp [Holds], fun place => ?_⟩
    rw [wordsAt]
    exact (readAt_text h).of_term place
  | examination t operand =>
    refine ⟨examine w.probe t operand, examine_eq_true_iff t, fun place => ?_⟩
    rw [wordsAt]
    exact (readAt_examination h).of_term place
  | comparison left c right =>
    obtain ⟨op, value, binary, compared, tells⟩ := exists_compare h.2.2
    refine ⟨value, tells, fun place => ?_⟩
    rw [wordsAt]
    exact (readAt_comparison h.1 h.2.1 binary compared).of_term place
  | negation c ih =>
    obtain ⟨value, tells, read⟩ := ih h
    refine ⟨!value, by simp [Holds, ← tells], fun place => ?_⟩
    rw [wordsAt]
    exact (read .term).negate.of_term place
  | group c ih =>
    obtain ⟨value, tells, read⟩ := ih h
    refine ⟨value, tells, fun place => ?_⟩
    rw [wordsAt]
    exact (read .either).enclose.of_term place
  | both a b ihA ihB =>
    obtain ⟨first, tellsA, readA⟩ := ihA h.1
    obtain ⟨second, tellsB, readB⟩ := ihB h.2
    have joined := (readA .both).conjoin (readB .term)
    refine ⟨first && second, by simp [Holds, ← tellsA, ← tellsB], fun place => ?_⟩
    cases place with
    | term => exact joined.either_of_both.enclose
    | both => exact joined
    | either => exact joined.either_of_both
  | either a b ihA ihB =>
    obtain ⟨first, tellsA, readA⟩ := ihA h.1
    obtain ⟨second, tellsB, readB⟩ := ihB h.2
    have joined := (readA .either).disjoin (readB .both)
    refine ⟨first || second, by simp [Holds, ← tellsA, ← tellsB], fun place => ?_⟩
    cases place with
    | term => exact joined.enclose
    | both => exact joined.enclose.both_of_term
    | either => exact joined

theorem words_ne_nil (c : Condition) : c.words ≠ [] := by
  cases c <;> simp [words, wordsAt, enclosed]

theorem evaluate_of_readAt {words : List Bytes} {value : Bool}
    (h : ReadAt probe .either words value) : evaluate probe words = .ok value := by
  have read := h [] nofun nofun
  rw [List.append_nil] at read
  rw [evaluate_eq, read]
  rfl

/-- The words of a proper condition are evaluated to whether it holds. -/
theorem evaluate_words {c : Condition} (h : c.IsProper) :
    ∃ value, (value = true ↔ c.Holds w) ∧ evaluate w.probe c.words = .ok value := by
  obtain ⟨value, tells, read⟩ := readAt_wordsAt h
  exact ⟨value, tells, evaluate_of_readAt (read .either)⟩

end Condition

end VirtualShell
