import Mathlib.Computability.Language
import VirtualShell.Pattern.Regex

/-!
# The language of an expression

A matcher is given a goal, what is to be matched behind the expression. In front of a goal that asks
for a rest in some language (`restGoal`), an expression that *spans* a language asks for a text of
that language and then for the rest (`Spans`): to put a goal behind an expression is to multiply
languages. The laws of languages then do the reasoning about where a text is cut.

* `Spans.seq`, `Spans.upTo_one`, `spans_byte`, `spans_star_byte`: one lemma for each kind of
  expression without groups that a file name pattern needs.
* `Spans.matchesAll_iff`: such an expression matches just the texts of its language.
-/

namespace VirtualShell.Regex

variable {r s : Regex} {L M : Language UInt8}

/-! ## Goals -/

open Classical in
/-- The rest of the text is in a language. -/
noncomputable def restGoal (L : Language UInt8) : Goal :=
  fun place groups => ⟨decide (place.rest ∈ L), groups⟩

@[simp] theorem matched_restGoal {place : Place} {groups : Groups} :
    (restGoal L place groups).matched = true ↔ place.rest ∈ L := by
  simp [restGoal]

theorem eq_restGoal {place : Place} {groups : Groups} {verdict : Verdict}
    (kept : verdict.groups = groups) (h : verdict.matched = true ↔ place.rest ∈ L) :
    verdict = restGoal L place groups := by
  obtain ⟨matched, inner⟩ := verdict
  subst kept
  have same : matched = (restGoal L place inner).matched :=
    Bool.eq_iff_iff.2 (h.trans matched_restGoal.symm)
  rw [same]
  rfl

/-- To try the one goal and then the other is to ask for a rest in either language. -/
theorem orElse_restGoal (place : Place) (groups : Groups) :
    orElse (restGoal L place groups) (fun groups => restGoal M place groups) =
      restGoal (L + M) place groups := by
  unfold orElse
  split
  next ok => exact eq_restGoal rfl (iff_of_true ok (.inl (matched_restGoal.1 ok)))
  next no =>
    refine eq_restGoal rfl (matched_restGoal.trans ?_)
    rw [Language.mem_add, or_iff_right fun h => no (matched_restGoal.2 h)]

/-- In front of every goal the expression asks for a text of the language. -/
def Spans (r : Regex) (L : Language UInt8) : Prop :=
  ∀ (midText : Bool) (place : Place) (groups : Groups) (M : Language UInt8),
    run midText r place groups (restGoal M) = restGoal (L * M) place groups

/-! ## Expressions -/

theorem spans_empty : Spans empty 1 := by
  intro midText place groups M
  rw [one_mul]
  rfl

theorem Spans.seq (hr : Spans r L) (hs : Spans s M) : Spans (seq r s) (L * M) := by
  intro midText place groups N
  have behind : (fun place groups => run midText s place groups (restGoal N)) =
      restGoal (M * N) := funext₂ fun place groups => hs midText place groups N
  rw [run, behind, hr, mul_assoc]

theorem Spans.upTo_one {greedy : Bool} (h : Spans r L) : Spans (upTo 1 greedy r) (L + 1) := by
  intro midText place groups M
  rw [add_mul, one_mul]
  cases greedy with
  | true =>
    show orElse (run midText r place groups (restGoal M)) _ = _
    rw [h]
    exact orElse_restGoal place groups
  | false =>
    have skips := orElse_restGoal (L := M) (M := L * M) place groups
    rw [add_comm] at skips
    rw [← skips]
    exact congrArg (orElse _) (funext fun groups => h midText place groups M)

/-- One byte of a class. -/
def oneOf (p : UInt8 → Prop) : Language UInt8 := {text | ∃ c, p c ∧ text = [c]}

/-- Any number of bytes of a class. -/
def manyOf (p : UInt8 → Prop) : Language UInt8 := {text | ∀ c ∈ text, p c}

section
variable {p : UInt8 → Prop} {c : UInt8} {text : Bytes}

theorem mem_manyOf : text ∈ manyOf p ↔ ∀ c ∈ text, p c := Iff.rfl

theorem nil_not_mem_oneOf_mul : [] ∉ oneOf p * M := by
  rintro ⟨first, ⟨c, -, rfl⟩, behind, -, e⟩
  exact List.cons_ne_nil _ _ e

theorem cons_mem_oneOf_mul : c :: text ∈ oneOf p * M ↔ p c ∧ text ∈ M := by
  constructor
  · rintro ⟨first, ⟨d, hd, rfl⟩, behind, mem, e⟩
    obtain ⟨rfl, rfl⟩ := List.cons.inj e
    exact ⟨hd, mem⟩
  · rintro ⟨hc, mem⟩
    exact ⟨[c], ⟨c, hc, rfl⟩, text, mem, rfl⟩

theorem exists_of_mem_oneOf_mul (h : text ∈ oneOf p * M) :
    ∃ c rest, text = c :: rest ∧ p c ∧ rest ∈ M := by
  cases text with
  | nil => exact absurd h nil_not_mem_oneOf_mul
  | cons c rest => exact ⟨c, rest, rfl, cons_mem_oneOf_mul.1 h⟩

/-- Many bytes are none, or one and then many. -/
theorem manyOf_eq (p : UInt8 → Prop) : manyOf p = oneOf p * manyOf p + 1 := by
  ext text
  rw [Language.mem_add, Language.mem_one]
  cases text with
  | nil => exact ⟨fun _ => .inr rfl, fun _ => by simp [mem_manyOf]⟩
  | cons c text => rw [cons_mem_oneOf_mul]; simp [mem_manyOf]

end

/-! ## Bytes -/

section
variable {midText : Bool} {accepts : UInt8 → Bool} {place : Place} {groups : Groups}

/-- A byte asks for one byte of its class and then for the rest, if that is what its goal asks for
behind a byte. -/
theorem run_byte {goal : Goal}
    (behind : place.rest ≠ [] →
      goal (place.advance 1) groups = restGoal M (place.advance 1) groups) :
    run midText (byte accepts) place groups goal =
      restGoal (oneOf (accepts · = true) * M) place groups := by
  obtain ⟨previous, rest, offset, atStart⟩ := place
  cases rest with
  | nil => exact eq_restGoal rfl (iff_of_false nofun nil_not_mem_oneOf_mul)
  | cons c rest =>
    have after := behind (List.cons_ne_nil _ _)
    simp only [run]
    split
    next ok =>
      rw [after]
      refine eq_restGoal rfl (matched_restGoal.trans ?_)
      exact (cons_mem_oneOf_mul.trans (and_iff_right ok)).symm
    next no => exact eq_restGoal rfl (iff_of_false nofun fun h => no (cons_mem_oneOf_mul.1 h).1)

theorem spans_byte {p : UInt8 → Prop} (h : ∀ c, accepts c = true ↔ p c) :
    Spans (byte accepts) (oneOf p) := by
  obtain rfl : (accepts · = true) = p := funext fun c => propext (h c)
  exact fun _ _ _ _ => run_byte fun _ => rfl

/-- A byte is entered once at a place, and the next time further on; so there is fuel for all of
the rest. -/
theorem runStar_byte {fuel : Nat} {last : Nat × Nat} (enough : place.rest.length < fuel)
    (fresh : last.1 = place.offset → last.2 < 2) :
    runStar (run midText (byte accepts)) true (restGoal M) fuel last place groups =
      restGoal (manyOf (accepts · = true) * M) place groups := by
  induction fuel generalizing place last with
  | zero => exact absurd enough (Nat.not_lt_zero _)
  | succ fuel ih =>
    have entered : (if last.1 = place.offset then last.2 else 0) < 2 := by
      split
      next here => exact fresh here
      next => exact Nat.succ_pos 1
    rw [runStar]
    simp only [if_pos entered, if_true]
    rw [run_byte (M := manyOf (accepts · = true) * M), orElse_restGoal, ← mul_assoc]
    · have once := congrArg (· * M) (manyOf_eq (accepts · = true))
      simp only [add_mul, one_mul] at once
      rw [← once]
    · intro some
      have shorter : (place.advance 1).rest.length < fuel := by
        have := List.length_pos_of_ne_nil some
        show (place.rest.drop 1).length < fuel
        rw [List.length_drop]
        omega
      have further : place.offset ≠ (place.advance 1).offset := Nat.ne_of_lt (Nat.lt_succ_self _)
      exact ih shorter fun same => absurd same further

theorem spans_star_byte {p : UInt8 → Prop} (h : ∀ c, accepts c = true ↔ p c) :
    Spans (star true (byte accepts)) (manyOf p) := by
  obtain rfl : (accepts · = true) = p := funext fun c => propext (h c)
  intro midText place groups M
  rw [run]
  exact runStar_byte (by omega) fun _ => Nat.succ_pos 1

end

/-! ## Whole texts -/

/-- **An expression that spans a language** matches just the texts of it. -/
theorem Spans.matchesAll_iff (h : Spans r L) (text : Bytes) :
    r.matchesAll text = true ↔ text ∈ L := by
  have atEnd : (fun place groups => ⟨place.rest.isEmpty, groups⟩ : Goal) = restGoal 1 := by
    funext place groups
    exact eq_restGoal rfl (by rw [Language.mem_one, List.isEmpty_iff])
  rw [matchesAll, atEnd, h, mul_one, matched_restGoal]

end VirtualShell.Regex
