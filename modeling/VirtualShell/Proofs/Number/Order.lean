import Mathlib.Algebra.Order.Field.Power
import Mathlib.Data.Rat.Cast.Order
import Mathlib.Order.WithBot
import Mathlib.Tactic.Ring
import VirtualShell.Number.Binary

/-!
# The order of binary numbers

A number has its place among the rational numbers and the two infinities (`Binary.place?`), and a
NaN has none. What is compared are the places: `Binary.lt` and `Binary.eq` hold of two numbers as
`<` and `=` hold of their places, and of a NaN never (`lt_iff`, `eq_iff`).
-/

namespace VirtualShell.Binary

variable {x y : Binary}

/-- The value of a finite number. -/
def value (negative : Bool) (significand : Nat) (exponent : Int) : ℚ :=
  signed negative significand * 2 ^ exponent

/-- Where a number stands: between the infinities at its value. A NaN stands nowhere. -/
def place? : Binary → Option (WithBot (WithTop ℚ))
  | finite negative significand exponent =>
    some ((value negative significand exponent : WithTop ℚ) : WithBot (WithTop ℚ))
  | infinity true => some ⊥
  | infinity false => some ⊤
  | nan _ => none

/-- The significand at a lower exponent. -/
theorem signed_shiftLeft (negative : Bool) (significand : Nat) {unit exponent : Int}
    (h : unit ≤ exponent) :
    (signed negative (significand <<< (exponent - unit).toNat) : ℚ) * 2 ^ unit =
      value negative significand exponent := by
  have split : (2 : ℚ) ^ exponent = 2 ^ (exponent - unit).toNat * 2 ^ unit := by
    rw [← zpow_natCast, ← zpow_add₀ (by norm_num)]
    congr 1
    omega
  rw [value, split, Nat.shiftLeft_eq]
  cases negative <;> simp [signed] <;> ring

theorem align_eq (n m : Bool) (s t : Nat) (e f : Int) :
    ((align (n, s, e) (m, t, f)).1 : ℚ) * 2 ^ min e f = value n s e
      ∧ ((align (n, s, e) (m, t, f)).2.1 : ℚ) * 2 ^ min e f = value m t f :=
  ⟨signed_shiftLeft n s (min_le_left e f), signed_shiftLeft m t (min_le_right e f)⟩

/-- Finite numbers compare as their values do. -/
theorem lt_finite_iff {n m : Bool} {s t : Nat} {e f : Int} :
    (finite n s e).lt (finite m t f) = true ↔ value n s e < value m t f := by
  obtain ⟨left, right⟩ := align_eq n m s t e f
  rw [← left, ← right, mul_lt_mul_iff_left₀ (by positivity), Int.cast_lt, lt]
  exact decide_eq_true_iff

theorem eq_finite_iff {n m : Bool} {s t : Nat} {e f : Int} :
    (finite n s e).eq (finite m t f) = true ↔ value n s e = value m t f := by
  obtain ⟨left, right⟩ := align_eq n m s t e f
  rw [← left, ← right, mul_left_inj' (by positivity), Int.cast_inj, eq]
  exact beq_iff_eq

/-- **One number is below another** where its place is. -/
theorem lt_iff : x.lt y = true ↔ ∃ p ∈ x.place?, ∃ q ∈ y.place?, p < q := by
  cases x with
  | nan => simp [lt, place?]
  | infinity n =>
    cases y with
    | nan => cases n <;> simp [lt, place?]
    | infinity m => cases n <;> cases m <;> simp [lt, place?]
    | finite m t f => cases n <;> simp [lt, place?]
  | finite n s e =>
    cases y with
    | nan => simp [lt, place?]
    | infinity m =>
      have below (q : ℚ) : ((q : WithTop ℚ) : WithBot (WithTop ℚ)) < ⊤ :=
        WithBot.coe_lt_coe.2 (WithTop.coe_lt_top q)
      cases m <;> simp [lt, place?, below]
    | finite m t f => simp [lt_finite_iff, place?]

/-- **Numbers are the same** where their places are. -/
theorem eq_iff : x.eq y = true ↔ ∃ p ∈ x.place?, p ∈ y.place? := by
  cases x with
  | nan => simp [eq, place?]
  | infinity n =>
    cases y with
    | nan => cases n <;> simp [eq, place?]
    | infinity m => cases n <;> cases m <;> simp [eq, place?]
    | finite m t f => cases n <;> simp [eq, place?]
  | finite n s e =>
    cases y with
    | nan => simp [eq, place?]
    | infinity m => cases m <;> simp [eq, place?]
    | finite m t f =>
      rw [eq_finite_iff]
      simp only [place?, Option.mem_some_iff, exists_eq_left', WithBot.coe_inj, WithTop.coe_inj]
      exact eq_comm

end VirtualShell.Binary
