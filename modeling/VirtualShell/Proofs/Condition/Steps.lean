import VirtualShell.Condition.Expression

/-!
# The steps that a condition takes

The evaluation of a condition counts its steps down, and a word takes at most three of them. So the
count decides nothing: two evaluations agree as soon as both are allowed three steps for every word
(`agrees`), and what is read can be described without it. `readTerm`, `readBoth` and `readEither`
are the readings of the words with the steps that these take; each has one equation for each form of
the words, and none of these counts.
-/

namespace VirtualShell.Condition

variable {probe : FileTest → Bytes → Bool} {steps steps' : Nat} {word : Bytes}
  {words rest : List Bytes} {value before : Bool}

/-! ## What is left of the words -/

/-- With so many steps, whatever is read takes words away. -/
structure Consumes (probe : FileTest → Bytes → Bool) (steps : Nat) : Prop where
  term : ∀ {words value rest}, evaluateTerm probe steps words = .ok (value, rest) →
    rest.length < words.length
  both : ∀ {words value rest}, evaluateBoth probe steps words = .ok (value, rest) →
    rest.length < words.length
  bothRest : ∀ {before words value rest},
    evaluateBothRest probe steps before words = .ok (value, rest) → rest.length ≤ words.length
  either : ∀ {words value rest}, evaluateEither probe steps words = .ok (value, rest) →
    rest.length < words.length
  eitherRest : ∀ {before words value rest},
    evaluateEitherRest probe steps before words = .ok (value, rest) → rest.length ≤ words.length

theorem length_lt_of_evaluateTest (h : evaluateTest probe words = .ok (value, rest)) :
    rest.length < words.length := by
  unfold evaluateTest at h
  split at h
  · cases h
  · cases h
    simp
  · split at h <;> cases h <;> simp
  next third others =>
    split at h
    next op _ =>
      cases read : compare op _ third with
      | error => rw [read] at h; cases h
      | ok => rw [read] at h; cases h; simp; omega
    · split at h <;> cases h <;> simp

/-- Where two readings, one behind the other, succeed, both do. -/
theorem exists_of_bind {first : Reading} {next : Bool × List Bytes → Reading}
    (h : first >>= next = .ok (value, rest)) :
    ∃ found left, first = .ok (found, left) ∧ next (found, left) = .ok (value, rest) := by
  cases first with
  | error e => cases h
  | ok between => exact ⟨between.1, between.2, rfl, h⟩

namespace Consumes

variable (ih : Consumes probe steps)
include ih

theorem term_succ (h : evaluateTerm probe (steps + 1) words = .ok (value, rest)) :
    rest.length < words.length := by
  cases words with
  | nil => cases h
  | cons word words =>
    rw [evaluateTerm] at h
    split at h
    · obtain ⟨found, left, read, h⟩ := exists_of_bind h
      have shorter := ih.term read
      cases h
      exact Nat.lt_succ_of_lt shorter
    · split at h
      · obtain ⟨found, left, read, h⟩ := exists_of_bind h
        have shorter := ih.either read
        cases left with
        | nil => cases h
        | cons closing left =>
          dsimp only at h
          split at h
          · cases h
            simp only [List.length_cons] at shorter ⊢
            omega
          · cases h
      · exact length_lt_of_evaluateTest h

theorem both_succ (h : evaluateBoth probe (steps + 1) words = .ok (value, rest)) :
    rest.length < words.length := by
  obtain ⟨found, left, read, h⟩ := exists_of_bind h
  exact Nat.lt_of_le_of_lt (ih.bothRest h) (ih.term read)

theorem bothRest_succ (h : evaluateBothRest probe (steps + 1) before words = .ok (value, rest)) :
    rest.length ≤ words.length := by
  cases words with
  | nil => cases h; exact Nat.le_refl _
  | cons word words =>
    rw [evaluateBothRest] at h
    split at h
    · obtain ⟨found, left, read, h⟩ := exists_of_bind h
      exact Nat.le_succ_of_le (Nat.le_of_lt (Nat.lt_of_le_of_lt (ih.bothRest h) (ih.term read)))
    · cases h
      exact Nat.le_refl _

theorem either_succ (h : evaluateEither probe (steps + 1) words = .ok (value, rest)) :
    rest.length < words.length := by
  obtain ⟨found, left, read, h⟩ := exists_of_bind h
  exact Nat.lt_of_le_of_lt (ih.eitherRest h) (ih.both read)

theorem eitherRest_succ
    (h : evaluateEitherRest probe (steps + 1) before words = .ok (value, rest)) :
    rest.length ≤ words.length := by
  cases words with
  | nil => cases h; exact Nat.le_refl _
  | cons word words =>
    rw [evaluateEitherRest] at h
    split at h
    · obtain ⟨found, left, read, h⟩ := exists_of_bind h
      exact Nat.le_succ_of_le (Nat.le_of_lt (Nat.lt_of_le_of_lt (ih.eitherRest h) (ih.both read)))
    · cases h
      exact Nat.le_refl _

end Consumes

/-- **Whatever is read** takes words away, except what goes on behind an operand. -/
theorem consumes (steps : Nat) : Consumes probe steps := by
  induction steps with
  | zero =>
    refine ⟨nofun, nofun, fun h => ?_, nofun, fun h => ?_⟩
    all_goals
      cases h
      exact Nat.le_refl _
  | succ steps ih =>
    exact ⟨ih.term_succ, ih.both_succ, ih.bothRest_succ, ih.either_succ, ih.eitherRest_succ⟩

/-! ## Enough steps -/

/-- The two counts lead to the same, if both are enough: three for every word, and those that it
takes to come to the first. -/
structure Agrees (probe : FileTest → Bytes → Bool) (steps steps' : Nat) : Prop where
  term : ∀ words : List Bytes, 3 * words.length ≤ steps → 3 * words.length ≤ steps' →
    evaluateTerm probe steps words = evaluateTerm probe steps' words
  both : ∀ words : List Bytes, 3 * words.length + 1 ≤ steps → 3 * words.length + 1 ≤ steps' →
    evaluateBoth probe steps words = evaluateBoth probe steps' words
  bothRest : ∀ (before : Bool) (words : List Bytes), 3 * words.length ≤ steps →
    3 * words.length ≤ steps' →
      evaluateBothRest probe steps before words = evaluateBothRest probe steps' before words
  either : ∀ words : List Bytes, 3 * words.length + 2 ≤ steps → 3 * words.length + 2 ≤ steps' →
    evaluateEither probe steps words = evaluateEither probe steps' words
  eitherRest : ∀ (before : Bool) (words : List Bytes), 3 * words.length ≤ steps →
    3 * words.length ≤ steps' →
      evaluateEitherRest probe steps before words = evaluateEitherRest probe steps' before words

theorem bind_congr {first first' : Reading} {next next' : Bool × List Bytes → Reading}
    (same : first = first') (h : ∀ value rest, first = .ok (value, rest) →
      next (value, rest) = next' (value, rest)) : first >>= next = first' >>= next' := by
  subst same
  cases first with
  | error e => rfl
  | ok between => exact h between.1 between.2 rfl

namespace Agrees

variable (ih : Agrees probe steps steps')
include ih

theorem term_succ (h : 3 * words.length ≤ steps + 1) (h' : 3 * words.length ≤ steps' + 1) :
    evaluateTerm probe (steps + 1) words = evaluateTerm probe (steps' + 1) words := by
  cases words with
  | nil => rfl
  | cons word words =>
    rw [List.length_cons] at h h'
    rw [evaluateTerm, evaluateTerm, ih.term words (by omega) (by omega),
      ih.either words (by omega) (by omega)]

theorem both_succ (h : 3 * words.length ≤ steps) (h' : 3 * words.length ≤ steps') :
    evaluateBoth probe (steps + 1) words = evaluateBoth probe (steps' + 1) words := by
  refine bind_congr (ih.term words h h') fun value rest read => ?_
  have := (consumes steps).term read
  exact ih.bothRest value rest (by omega) (by omega)

theorem bothRest_succ (h : 3 * words.length ≤ steps + 1) (h' : 3 * words.length ≤ steps' + 1) :
    evaluateBothRest probe (steps + 1) before words =
      evaluateBothRest probe (steps' + 1) before words := by
  cases words with
  | nil => rfl
  | cons word words =>
    rw [List.length_cons] at h h'
    rw [evaluateBothRest, evaluateBothRest]
    split
    · refine bind_congr (ih.term words (by omega) (by omega)) fun value rest read => ?_
      have := (consumes steps).term read
      exact ih.bothRest _ rest (by omega) (by omega)
    · rfl

theorem either_succ (h : 3 * words.length + 1 ≤ steps) (h' : 3 * words.length + 1 ≤ steps') :
    evaluateEither probe (steps + 1) words = evaluateEither probe (steps' + 1) words := by
  refine bind_congr (ih.both words h h') fun value rest read => ?_
  have := (consumes steps).both read
  exact ih.eitherRest value rest (by omega) (by omega)

theorem eitherRest_succ (h : 3 * words.length ≤ steps + 1) (h' : 3 * words.length ≤ steps' + 1) :
    evaluateEitherRest probe (steps + 1) before words =
      evaluateEitherRest probe (steps' + 1) before words := by
  cases words with
  | nil => rfl
  | cons word words =>
    rw [List.length_cons] at h h'
    rw [evaluateEitherRest, evaluateEitherRest]
    split
    · refine bind_congr (ih.both words (by omega) (by omega)) fun value rest read => ?_
      have := (consumes steps).both read
      exact ih.eitherRest _ rest (by omega) (by omega)
    · rfl

end Agrees

theorem Agrees.symm (h : Agrees probe steps steps') : Agrees probe steps' steps :=
  ⟨fun _ e e' => (h.term _ e' e).symm, fun _ e e' => (h.both _ e' e).symm,
    fun _ _ e e' => (h.bothRest _ _ e' e).symm, fun _ e e' => (h.either _ e' e).symm,
    fun _ _ e e' => (h.eitherRest _ _ e' e).symm⟩

/-- No steps are enough for no words. -/
theorem agrees_zero (steps : Nat) : Agrees probe 0 steps := by
  have nothing {words : List Bytes} (h : 3 * words.length ≤ 0) : words = [] :=
    List.length_eq_zero_iff.1 (by omega)
  refine ⟨fun words h _ => ?_, fun _ h => absurd h (Nat.not_succ_le_zero _), fun _ words h _ => ?_,
    fun _ h => absurd h (Nat.not_succ_le_zero _), fun _ words h _ => ?_⟩
  all_goals
    rw [nothing h]
    cases steps <;> rfl

/-- **The count of steps decides nothing.** -/
theorem agrees (steps steps' : Nat) : Agrees probe steps steps' := by
  induction steps generalizing steps' with
  | zero => exact agrees_zero steps'
  | succ steps ih =>
    cases steps' with
    | zero => exact (agrees_zero _).symm
    | succ steps' =>
      have ih := ih steps'
      exact ⟨fun _ => ih.term_succ, fun _ h h' => ih.both_succ (by omega) (by omega),
        fun _ _ => ih.bothRest_succ, fun _ h h' => ih.either_succ (by omega) (by omega),
        fun _ _ => ih.eitherRest_succ⟩

/-! ## What is read -/

/-- A term at the start of the words. -/
def readTerm (probe : FileTest → Bytes → Bool) (words : List Bytes) : Reading :=
  evaluateTerm probe (3 * words.length) words

/-- Terms joined by `-a` at the start of the words. -/
def readBoth (probe : FileTest → Bytes → Bool) (words : List Bytes) : Reading :=
  evaluateBoth probe (3 * words.length + 1) words

/-- More terms, behind those that have been read. -/
def readBothRest (probe : FileTest → Bytes → Bool) (before : Bool) (words : List Bytes) : Reading :=
  evaluateBothRest probe (3 * words.length) before words

/-- Conjunctions joined by `-o` at the start of the words. -/
def readEither (probe : FileTest → Bytes → Bool) (words : List Bytes) : Reading :=
  evaluateEither probe (3 * words.length + 2) words

/-- More conjunctions, behind those that have been read. -/
def readEitherRest (probe : FileTest → Bytes → Bool) (before : Bool) (words : List Bytes) :
    Reading :=
  evaluateEitherRest probe (3 * words.length) before words

theorem readTerm_negation (words : List Bytes) :
    readTerm probe (ascii "!" :: words) =
      readTerm probe words >>= fun r => .ok (!r.1, r.2) := by
  rw [readTerm, List.length_cons, Nat.mul_succ, evaluateTerm, if_pos rfl,
    (agrees _ (3 * words.length)).term words (by omega) (Nat.le_refl _)]
  rfl

/-- What is read in parentheses, if it is closed. -/
def closeGroup (found : Bool × List Bytes) : Reading :=
  match found.2 with
  | [] => .error .closingExpected
  | closing :: rest =>
    if closing = ascii ")" then .ok (found.1, rest) else .error .closingExpected

theorem readTerm_group (some : words ≠ []) :
    readTerm probe (ascii "(" :: words) = readEither probe words >>= closeGroup := by
  have nonempty : (!words.isEmpty) = true := by simpa using some
  rw [readTerm, List.length_cons, Nat.mul_succ, evaluateTerm, if_neg (by decide),
    if_pos ⟨rfl, nonempty⟩,
    (agrees _ (3 * words.length + 2)).either words (by omega) (Nat.le_refl _)]
  rfl

/-- Where neither a negation nor a group starts, there is a test. -/
theorem readTerm_test (noNegation : word ≠ ascii "!") (noGroup : word ≠ ascii "(") :
    readTerm probe (word :: words) = evaluateTest probe (word :: words) := by
  rw [readTerm, List.length_cons, Nat.mul_succ, evaluateTerm, if_neg noNegation,
    if_neg fun h => noGroup h.1]

theorem readBoth_eq (words : List Bytes) :
    readBoth probe words = readTerm probe words >>= fun r => readBothRest probe r.1 r.2 := by
  refine bind_congr rfl fun value rest read => ?_
  have := (consumes _).term read
  exact (agrees _ _).bothRest value rest (by omega) (Nat.le_refl _)

theorem readBothRest_and (before : Bool) (words : List Bytes) :
    readBothRest probe before (ascii "-a" :: words) =
      readTerm probe words >>= fun r => readBothRest probe (before && r.1) r.2 := by
  rw [readBothRest, List.length_cons, Nat.mul_succ, evaluateBothRest, if_pos rfl]
  refine bind_congr ((agrees _ _).term words (by omega) (Nat.le_refl _)) fun value rest read => ?_
  have := (consumes _).term read
  exact (agrees _ _).bothRest _ rest (by omega) (Nat.le_refl _)

theorem readBothRest_of_head? (h : words.head? ≠ some (ascii "-a")) (before : Bool) :
    readBothRest probe before words = .ok (before, words) := by
  cases words with
  | nil => rfl
  | cons word words =>
    rw [readBothRest, List.length_cons, Nat.mul_succ, evaluateBothRest,
      if_neg fun e => h (congrArg some e)]

theorem readEither_eq (words : List Bytes) :
    readEither probe words = readBoth probe words >>= fun r => readEitherRest probe r.1 r.2 := by
  refine bind_congr rfl fun value rest read => ?_
  have := (consumes _).both read
  exact (agrees _ _).eitherRest value rest (by omega) (Nat.le_refl _)

theorem readEitherRest_or (before : Bool) (words : List Bytes) :
    readEitherRest probe before (ascii "-o" :: words) =
      readBoth probe words >>= fun r => readEitherRest probe (before || r.1) r.2 := by
  rw [readEitherRest, List.length_cons, Nat.mul_succ, evaluateEitherRest, if_pos rfl]
  refine bind_congr ((agrees _ _).both words (by omega) (Nat.le_refl _)) fun value rest read => ?_
  have := (consumes _).both read
  exact (agrees _ _).eitherRest _ rest (by omega) (Nat.le_refl _)

theorem readEitherRest_of_head? (h : words.head? ≠ some (ascii "-o")) (before : Bool) :
    readEitherRest probe before words = .ok (before, words) := by
  cases words with
  | nil => rfl
  | cons word words =>
    rw [readEitherRest, List.length_cons, Nat.mul_succ, evaluateEitherRest,
      if_neg fun e => h (congrArg some e)]

/-- **The value of the words** is that of conjunctions joined by `-o`, if there is nothing behind
them. -/
theorem evaluate_eq (words : List Bytes) :
    evaluate probe words = (do
      let (value, rest) ← readEither probe words
      match rest with
      | [] => return value
      | word :: _ => throw (.unexpectedOperator word)) := by
  rw [evaluate, (agrees _ _).either words (by omega) (Nat.le_refl (3 * words.length + 2))]
  rfl

end VirtualShell.Condition
