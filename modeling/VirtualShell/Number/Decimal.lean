import VirtualShell.Text.Bytes
import VirtualShell.Number.Binary

/-!
# Decimal forms of binary numbers

The exact value of a binary number, rounded to a number of decimal places or of significant
digits, a tie to the even digit. `fixed` writes it with the point in place, `scientific` with an
exponent of at least two digits, and `general` picks the shorter of the two by the size of the
exponent. Signs, infinities and NaNs are for the caller to write.
-/

namespace VirtualShell.Decimal

/-- The quotient of whole numbers that a significand and an exponent stand for. -/
def quotient (significand : Nat) (exponent : Int) : Nat × Nat :=
  (significand <<< exponent.toNat, 1 <<< (-exponent).toNat)

/-- Digits with a point before the last `places` of them. With no places the point is written
only on demand. -/
def withPoint (places : Nat) (alwaysPoint : Bool) (n : Nat) : Bytes :=
  let digits := Bytes.padLeft (places + 1) Ascii.zero (decimal n)
  let whole := digits.take (digits.length - places)
  if places = 0 then (if alwaysPoint then whole ++ [Ascii.dot] else whole)
  else whole ++ Ascii.dot :: digits.drop (digits.length - places)

/-- The number with so many decimal places. -/
def fixed (significand : Nat) (exponent : Int) (places : Nat) (alwaysPoint : Bool) : Bytes :=
  let (num, den) := quotient significand exponent
  withPoint places alwaysPoint (roundHalfEven (num * Nat.pow 10 places) den)

/-- The exponent of the power of ten at or next below a positive quotient. -/
def orderOfMagnitude (num den : Nat) : Int :=
  let guess : Int := ((Nat.toDigits 10 num).length : Int) - (Nat.toDigits 10 den).length
  if den * Nat.pow 10 guess.toNat ≤ num * Nat.pow 10 (-guess).toNat then guess else guess - 1

/-- The digits of a number rounded to `places + 1` significant ones, as a whole number, and the
exponent of the first. -/
def significant (significand : Nat) (exponent : Int) (places : Nat) : Nat × Int :=
  if significand = 0 then (0, 0)
  else
    let (num, den) := quotient significand exponent
    let order := orderOfMagnitude num den
    let shift : Int := places - order
    let digits :=
      roundHalfEven (num * Nat.pow 10 shift.toNat) (den * Nat.pow 10 (-shift).toNat)
    if digits < Nat.pow 10 (places + 1) then (digits, order) else (digits / 10, order + 1)

/-- An exponent behind its mark: a sign and at least two digits. -/
def exponentPart (mark : UInt8) (order : Int) : Bytes :=
  mark :: (if order < 0 then Ascii.minus else Ascii.plus)
    :: Bytes.padLeft 2 Ascii.zero (decimal order.natAbs)

/-- One digit, so many decimal places, and an exponent. -/
def scientific (mark : UInt8) (significand : Nat) (exponent : Int) (places : Nat)
    (alwaysPoint : Bool) : Bytes :=
  let (digits, order) := significant significand exponent places
  withPoint places alwaysPoint digits ++ exponentPart mark order

/-- A form with a point, without the zeros at its end and a point left bare by that. -/
def dropTrailingZeros (text : Bytes) : Bytes :=
  if text.contains Ascii.dot then
    let shorter := Bytes.dropTrailing (· == Ascii.zero) text
    if shorter.getLast? = some Ascii.dot then shorter.dropLast else shorter
  else text

/-- So many significant digits (at least one): with the point in place while the exponent is at
least -4 and below their number, else with an exponent. Zeros at the end are dropped unless they
are asked for. -/
def general (mark : UInt8) (significand : Nat) (exponent : Int) (digits : Nat)
    (keepZeros : Bool) : Bytes :=
  let digits := max digits 1
  let (_, order) := significant significand exponent (digits - 1)
  let strip := fun text => if keepZeros then text else dropTrailingZeros text
  if -4 ≤ order ∧ order < digits then
    strip (fixed significand exponent (digits - 1 - order).toNat keepZeros)
  else
    let (all, _) := significant significand exponent (digits - 1)
    strip (withPoint (digits - 1) keepZeros all) ++ exponentPart mark order

end VirtualShell.Decimal
