import Mathlib.Algebra.Group.Nat.Defs
import Mathlib.Data.List.TakeWhile
import VirtualShell.Tree.Mode

/-!
# What a mode text does to the bits

Every clause of a symbolic text sets a bit, clears it or leaves it as it is, whatever the other bits
are (`Clause.forces`), and so does the whole list: of the clauses that force the bit the last
decides (`hasBit_foldl`). An octal text gives the same mode whatever it changes. So a mode text does
nothing more when it is applied again (`read?_read?`), and leaves alone every bit outside the
classes that it names (`hasBit_read?`).
-/

namespace VirtualShell.Mode

/-! ## Bits -/

/-- The bit at a place is set. -/
def hasBit (mode : UInt32) (k : Nat) : Bool := mode.toBitVec.getLsbD k

theorem eq_of_hasBit {m m' : UInt32} (h : ∀ k, hasBit m k = hasBit m' k) : m = m' :=
  UInt32.toBitVec_inj.1 (BitVec.eq_of_getLsbD_eq fun k _ => h k)

theorem hasBit_zero (k : Nat) : hasBit 0 k = false := BitVec.getLsbD_zero

theorem hasBit_or (m m' : UInt32) (k : Nat) :
    hasBit (m ||| m') k = (hasBit m k || hasBit m' k) := by
  simp [hasBit]

theorem hasBit_and (m m' : UInt32) (k : Nat) :
    hasBit (m &&& m') k = (hasBit m k && hasBit m' k) := by
  simp [hasBit]

theorem hasBit_remove (m m' : UInt32) (k : Nat) :
    hasBit (m &&& ~~~m') k = (hasBit m k && !hasBit m' k) := by
  by_cases inside : k < 32
  · simp [hasBit, inside]
  · simp [hasBit, BitVec.getLsbD_of_ge m.toBitVec k (by omega)]

/-- The lowest places are those of the bits below a power of two. -/
theorem hasBit_of_lt_two_pow {m : UInt32} {n k : Nat} (small : m.toNat < 2 ^ n) (high : n ≤ k) :
    hasBit m k = false :=
  Nat.testBit_lt_two_pow (Nat.lt_of_lt_of_le small (Nat.pow_le_pow_right (by decide) high))

theorem hasBit_two_pow_sub_one {m : UInt32} {n : Nat} (all : m.toNat = 2 ^ n - 1) (k : Nat) :
    hasBit m k = decide (k < n) := by
  change m.toNat.testBit k = _
  rw [all, Nat.testBit_two_pow_sub_one]

/-- The bits that count are the lowest twelve. -/
theorem hasBit_mask (k : Nat) : hasBit mask k = decide (k < 12) :=
  hasBit_two_pow_sub_one (by decide) k

/-- The permission bits are the lowest nine. -/
theorem hasBit_permissions (k : Nat) : hasBit 0o777 k = decide (k < 9) :=
  hasBit_two_pow_sub_one (by decide) k

theorem hasBit_foldl_or (l : List UInt32) (m : UInt32) (k : Nat) :
    hasBit (l.foldl (· ||| ·) m) k = (hasBit m k || l.any (hasBit · k)) := by
  induction l generalizing m with
  | nil => simp
  | cons b l ih => rw [List.foldl_cons, ih, hasBit_or, List.any_cons, Bool.or_assoc]

/-! ## Clauses -/

/-- What a clause makes of the bit at a place, if it does not leave it as it is. -/
def Clause.forces (clause : Clause) (k : Nat) : Option Bool :=
  match clause.operator with
  | .add => if hasBit clause.bits k then some true else none
  | .remove => if hasBit clause.bits k then some false else none
  | .set =>
    if hasBit clause.bits k then some true
    else if hasBit clause.who k && decide (k < 9) then some false
    else none

theorem Clause.hasBit_apply (mode : UInt32) (clause : Clause) (k : Nat) :
    hasBit (clause.apply mode) k = (clause.forces k).getD (hasBit mode k) := by
  unfold apply forces
  cases clause.operator with
  | add =>
    rw [hasBit_or]
    cases hasBit clause.bits k <;> simp
  | remove =>
    rw [hasBit_remove]
    cases hasBit clause.bits k <;> simp
  | set =>
    rw [hasBit_or, hasBit_remove, hasBit_and, hasBit_permissions]
    cases hasBit clause.bits k <;> cases hasBit clause.who k && decide (k < 9) <;> simp

/-- What clauses make of the bit at a place: what the last that forces it makes of it. -/
def forced (clauses : List Clause) (k : Nat) : Option Bool :=
  clauses.reverse.findSome? (·.forces k)

theorem forced_cons (clause : Clause) (rest : List Clause) (k : Nat) :
    forced (clause :: rest) k = (forced rest k).or (clause.forces k) := by
  simp [forced, List.findSome?_append]

theorem hasBit_foldl (clauses : List Clause) (mode : UInt32) (k : Nat) :
    hasBit (clauses.foldl Clause.apply mode) k = (forced clauses k).getD (hasBit mode k) := by
  induction clauses generalizing mode with
  | nil => rfl
  | cons clause rest ih =>
    rw [List.foldl_cons, ih, Clause.hasBit_apply, forced_cons]
    cases forced rest k <;> rfl

/-! ## Classes -/

/-- The letters of classes in front of a clause. -/
def classLetters (piece : Bytes) : Bytes := piece.takeWhile fun c => (classBits? c).isSome

/-- The clause names a class that the bit belongs to, or none, which stands for all. -/
def Names (piece : Bytes) (k : Nat) : Prop :=
  classLetters piece = []
    ∨ ∃ c ∈ classLetters piece, ∃ bits, classBits? c = some bits ∧ hasBit bits k = true

instance (piece : Bytes) (k : Nat) : Decidable (Names piece k) :=
  decidable_of_iff (classLetters piece = []
      ∨ ∃ c ∈ classLetters piece, (classBits? c).any (hasBit · k) = true) <| by
    simp only [Names, Option.any_eq_true]

theorem classBits?_ne_zero {c : UInt8} {bits : UInt32} (h : classBits? c = some bits) :
    bits ≠ 0 := by
  unfold classBits? at h
  repeat' split at h
  all_goals
    cases h
    try decide

/-- Letters of classes stand together for some bits. -/
theorem classLetters_eq_nil {piece : Bytes}
    (none : ((classLetters piece).filterMap classBits?).foldl (· ||| ·) 0 = 0) :
    classLetters piece = [] := by
  by_contra some
  obtain ⟨c, rest, first⟩ := List.exists_cons_of_ne_nil some
  have letter : c ∈ classLetters piece := first ▸ List.mem_cons_self
  obtain ⟨bits, found⟩ := Option.isSome_iff_exists.1
    (List.mem_takeWhile_imp (p := fun c => (classBits? c).isSome) letter)
  refine classBits?_ne_zero found (eq_of_hasBit fun k => ?_)
  have unset := hasBit_foldl_or ((classLetters piece).filterMap classBits?) 0 k
  rw [none, hasBit_zero, Bool.false_or, eq_comm, List.any_eq_false] at unset
  rw [hasBit_zero]
  simpa using unset bits (List.mem_filterMap.2 ⟨c, letter, found⟩)

/-- A clause is for the classes that it names, and changes no bits outside them. -/
theorem Clause.of_read? {piece : Bytes} {clause : Clause} (h : read? piece = some clause)
    (k : Nat) :
    (hasBit clause.who k = true → Names piece k)
      ∧ (hasBit clause.bits k = true → hasBit clause.who k = true) := by
  unfold read? at h
  dsimp only at h
  split at h
  · cases h
  next op permissions behind =>
    obtain ⟨operator, -, h⟩ := Option.bind_eq_some_iff.1 h
    obtain ⟨bits, -, h⟩ := Option.bind_eq_some_iff.1 h
    obtain rfl := Option.some.inj h
    refine ⟨fun inside => ?_, fun set => ?_⟩
    · dsimp only at inside
      split at inside
      next zero => exact .inl (classLetters_eq_nil zero)
      next =>
        rw [hasBit_foldl_or, hasBit_zero, Bool.false_or, List.any_eq_true] at inside
        obtain ⟨bits, mem, set⟩ := inside
        obtain ⟨c, letter, found⟩ := List.mem_filterMap.1 mem
        exact .inr ⟨c, letter, bits, found, set⟩
    · rw [hasBit_and, Bool.and_eq_true] at set
      exact set.2

/-- Outside the classes that it names a clause forces no bit. -/
theorem Clause.forces_eq_none {piece : Bytes} {clause : Clause} (h : read? piece = some clause)
    {k : Nat} (outside : ¬ Names piece k) : clause.forces k = none := by
  obtain ⟨named, within⟩ := of_read? h k
  have who : hasBit clause.who k = false := Bool.eq_false_iff.2 fun set => outside (named set)
  have bits : hasBit clause.bits k = false := Bool.eq_false_iff.2 fun set =>
    outside (named (within set))
  unfold forces
  rw [bits, who]
  cases clause.operator <;> rfl

/-! ## Texts -/

/-- A text is symbolic if it is not all octal digits. -/
def IsSymbolic (text : Bytes) : Prop := text.all isOctalDigit = false

instance (text : Bytes) : Decidable (IsSymbolic text) := inferInstanceAs (Decidable (_ = _))

/-- **What a text is read as:** a mode of at most four octal digits, or clauses. -/
theorem read?_eq_some_iff {text : Bytes} {m r : UInt32} :
    read? text m = some r ↔
      text ≠ [] ∧ text.all isOctalDigit = true ∧ text.length ≤ 4
          ∧ r = (text.foldl (fun n c => n * 8 + digitValue c) 0).toUInt32
        ∨ IsSymbolic text ∧ ∃ clauses, (clauseTexts text).mapM Clause.read? = some clauses
          ∧ r = clauses.foldl Clause.apply m &&& mask := by
  unfold read? IsSymbolic
  by_cases empty : text = []
  · simp [empty]
  rw [if_neg (by simpa using empty)]
  cases text.all isOctalDigit with
  | true => by_cases short : text.length ≤ 4 <;> simp [empty, short, eq_comm]
  | false =>
    rw [if_neg (by decide)]
    refine Option.bind_eq_some_iff.trans ?_
    simp [eq_comm (a := r)]

/-- Octal digits write a number below the power of eight. -/
theorem foldl_octal_lt {digits : Bytes} (octal : digits.all isOctalDigit = true) (n : Nat) :
    digits.foldl (fun n c => n * 8 + digitValue c) n < (n + 1) * 8 ^ digits.length := by
  induction digits generalizing n with
  | nil => simp
  | cons c rest ih =>
    rw [List.all_cons, Bool.and_eq_true] at octal
    have digit : digitValue c < 8 := by
      obtain ⟨low, high⟩ : 48 ≤ c ∧ c ≤ 55 := by simpa [isOctalDigit] using octal.1
      have := UInt8.le_iff_toNat_le.1 high
      have decimal : isDigit c = true := by
        simp only [isDigit, Bool.and_eq_true, decide_eq_true_eq]
        exact ⟨low, Nat.le_trans high (by decide)⟩
      rw [digitValue, if_pos decimal]
      have : c.toNat ≤ 55 := this
      omega
    calc (c :: rest).foldl (fun n c => n * 8 + digitValue c) n
        < (n * 8 + digitValue c + 1) * 8 ^ rest.length := ih octal.2 _
      _ ≤ ((n + 1) * 8) * 8 ^ rest.length := Nat.mul_le_mul_right _ (by omega)
      _ = (n + 1) * 8 ^ (c :: rest).length := by
        rw [List.length_cons, Nat.pow_succ, Nat.mul_assoc, Nat.mul_comm 8]

/-- **A mode that is read has no bits but those that count.** -/
theorem hasBit_of_read? {text : Bytes} {m r : UInt32} (h : read? text m = some r) {k : Nat}
    (high : 12 ≤ k) : hasBit r k = false := by
  rcases read?_eq_some_iff.1 h with ⟨-, octal, short, rfl⟩ | ⟨-, clauses, -, rfl⟩
  · refine hasBit_of_lt_two_pow (n := 12) ?_ high
    have small := foldl_octal_lt octal 0
    have : 8 ^ text.length ≤ 8 ^ 4 := Nat.pow_le_pow_right (by decide) short
    rw [Nat.toUInt32, UInt32.toNat_ofNat']
    omega
  · rw [hasBit_and, hasBit_mask, decide_eq_false (by omega), Bool.and_false]

/-- Whether a text is a mode has nothing to do with the mode that it changes. -/
theorem isSome_read? (text : Bytes) (m m' : UInt32) :
    (read? text m).isSome = (read? text m').isSome := by
  have changes (m m' : UInt32) (h : (read? text m).isSome = true) :
      (read? text m').isSome = true := by
    obtain ⟨r, read⟩ := Option.isSome_iff_exists.1 h
    rcases read?_eq_some_iff.1 read with octal | ⟨symbolic, clauses, all, -⟩
    · exact Option.isSome_iff_exists.2 ⟨r, read?_eq_some_iff.2 (.inl octal)⟩
    · exact Option.isSome_iff_exists.2
        ⟨_, read?_eq_some_iff.2 (.inr ⟨symbolic, clauses, all, rfl⟩)⟩
  exact Bool.eq_iff_iff.2 ⟨changes m m', changes m' m⟩

/-- **A mode text applied again** changes nothing more. -/
theorem read?_read? {text : Bytes} {m r : UInt32} (h : read? text m = some r) :
    read? text r = some r := by
  rcases read?_eq_some_iff.1 h with octal | ⟨symbolic, clauses, all, rfl⟩
  · exact read?_eq_some_iff.2 (.inl octal)
  · refine read?_eq_some_iff.2 (.inr ⟨symbolic, clauses, all, eq_of_hasBit fun k => ?_⟩)
    simp only [hasBit_and, hasBit_foldl]
    cases forced clauses k with
    | some b => rfl
    | none => simp

theorem forced_eq_none {pieces : List Bytes} {clauses : List Clause}
    (all : pieces.mapM Clause.read? = some clauses) {k : Nat}
    (outside : ∀ piece ∈ pieces, ¬ Names piece k) : forced clauses k = none := by
  induction pieces generalizing clauses with
  | nil =>
    obtain rfl := Option.some.inj all
    rfl
  | cons piece rest ih =>
    rw [List.mapM_cons] at all
    obtain ⟨clause, read, all⟩ := Option.bind_eq_some_iff.1 all
    obtain ⟨others, reads, all⟩ := Option.bind_eq_some_iff.1 all
    obtain rfl := Option.some.inj all
    obtain ⟨here, behind⟩ := List.forall_mem_cons.1 outside
    rw [forced_cons, ih reads behind, Clause.forces_eq_none read here]
    rfl

/-- **Outside the classes that it names** a symbolic text leaves every bit that counts. -/
theorem hasBit_read? {text : Bytes} {m r : UInt32} (symbolic : IsSymbolic text)
    (h : read? text m = some r) {k : Nat} (low : k < 12)
    (outside : ∀ piece ∈ clauseTexts text, ¬ Names piece k) : hasBit r k = hasBit m k := by
  rcases read?_eq_some_iff.1 h with ⟨-, octal, -⟩ | ⟨-, clauses, all, rfl⟩
  · exact absurd (symbolic.symm.trans octal) (by decide)
  · rw [hasBit_and, hasBit_mask, hasBit_foldl, forced_eq_none all outside, decide_eq_true low,
      Bool.and_true]
    rfl

end VirtualShell.Mode
