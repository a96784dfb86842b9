/-!
# Binary floating-point numbers

Exact arithmetic on binary floating-point values. A finite value is a signed whole significand
times a power of two; a format says which of them it holds, and every result is the exact one,
rounded to the nearest value of the format, a tie to the even significand.

* `roundHalfEven` rounds a quotient of whole numbers.
* `BinaryFormat.round` brings a quotient into a format.
* `Binary.lt` compares; nothing is below, above or equal to a NaN.
-/

namespace VirtualShell

/-- The sizes of a binary format. -/
structure BinaryFormat where
  /-- Significands are below two to this power. -/
  precision : Nat
  /-- The least exponent of a significand's last bit. -/
  least : Int
  /-- The greatest exponent of a significand's last bit. -/
  greatest : Int

namespace BinaryFormat

/-- Sixty-four bits in all, fifty-three of them significant. -/
def double : BinaryFormat := ⟨53, -1074, 971⟩

/-- Eighty bits in all, sixty-four of them significant. -/
def extended : BinaryFormat := ⟨64, -16445, 16320⟩

end BinaryFormat

/-- A value of a binary format. -/
inductive Binary
  /-- The significand times two to the exponent; a zero has a sign too. -/
  | finite (negative : Bool) (significand : Nat) (exponent : Int)
  | infinity (negative : Bool)
  | nan (negative : Bool)
  deriving DecidableEq, Inhabited

/-! ## Rounding -/

/-- The quotient rounded to the nearest whole number, a tie to the even one. -/
def roundHalfEven (num den : Nat) : Nat :=
  let quotient := num / den
  let twice := 2 * (num % den)
  if twice < den then quotient
  else if den < twice then quotient + 1
  else quotient + quotient % 2

namespace BinaryFormat

/-- Brings a quotient into the format. -/
def round (f : BinaryFormat) (negative : Bool) (num den : Nat) : Binary :=
  if num = 0 ∨ den = 0 then .finite negative 0 0
  else
    -- the quotient over two to an exponent, as a quotient of whole numbers
    let scaled (e : Int) : Nat × Nat := (num <<< (-e).toNat, den <<< e.toNat)
    let guess := max f.least ((num.log2 : Int) - den.log2 - f.precision)
    let (n, d) := scaled guess
    let exponent := if 1 <<< f.precision ≤ n / d then guess + 1 else guess
    let (n, d) := scaled exponent
    let significand := roundHalfEven n d
    if f.greatest < exponent ∨ (exponent = f.greatest ∧ 1 <<< f.precision ≤ significand) then
      .infinity negative
    else .finite negative significand exponent

end BinaryFormat

namespace Binary

/-! ## Parts of a value -/

def zero : Binary := .finite false 0 0

/-- The value of a whole number. -/
def ofInt (n : Int) : Binary := .finite (n < 0) n.natAbs 0

def isFinite : Binary → Bool
  | finite .. => true
  | _ => false

def isNegative : Binary → Bool
  | finite negative .. | infinity negative | nan negative => negative

/-- The signed significand. -/
def signed (negative : Bool) (significand : Nat) : Int :=
  if negative then -significand else significand

/-- A finite value cut off toward zero. -/
def truncate : Binary → Int
  | finite negative significand exponent =>
    signed negative (significand <<< exponent.toNat >>> (-exponent).toNat)
  | _ => 0

/-- A finite value with nothing behind the point. -/
def isWhole : Binary → Bool
  | finite _ significand exponent => significand % (1 <<< (-exponent).toNat) == 0
  | _ => true

/-- The greatest whole number that is not above a finite value. -/
def floor (x : Binary) : Int :=
  if x.isNegative && !x.isWhole then x.truncate - 1 else x.truncate

/-! ## Order -/

/-- Two finite values as whole numbers of one common unit, and the exponent of that unit. -/
def align (x y : Bool × Nat × Int) : Int × Int × Int :=
  let unit := min x.2.2 y.2.2
  (signed x.1 (x.2.1 <<< (x.2.2 - unit).toNat), signed y.1 (y.2.1 <<< (y.2.2 - unit).toNat), unit)

/-- Strictly below; never with a NaN. -/
def lt : Binary → Binary → Bool
  | nan _, _ | _, nan _ => false
  | infinity n, infinity m => n && !m
  | infinity n, finite .. => n
  | finite .., infinity m => !m
  | finite n s e, finite m t f =>
    let (a, b, _) := align (n, s, e) (m, t, f)
    a < b

/-- The same value, both zeros being one; never with a NaN. -/
def eq : Binary → Binary → Bool
  | nan _, _ | _, nan _ => false
  | infinity n, infinity m => n == m
  | finite n s e, finite m t f =>
    let (a, b, _) := align (n, s, e) (m, t, f)
    a == b
  | _, _ => false

/-! ## Arithmetic -/

def negate : Binary → Binary
  | finite n s e => finite (!n) s e
  | infinity n => infinity (!n)
  | nan n => nan (!n)

def abs : Binary → Binary
  | finite _ s e => finite false s e
  | infinity _ => infinity false
  | nan _ => nan false

/-- A whole number of units, brought into the format. A zero takes the given sign. -/
def ofUnits (f : BinaryFormat) (zeroSign : Bool) (n unit : Int) : Binary :=
  if n = 0 then finite zeroSign 0 0
  else f.round (n < 0) (n.natAbs <<< unit.toNat) (1 <<< (-unit).toNat)

def add (f : BinaryFormat) : Binary → Binary → Binary
  | nan n, _ => nan n
  | _, nan m => nan m
  | infinity n, infinity m => if n = m then infinity n else nan true
  | infinity n, _ => infinity n
  | _, infinity m => infinity m
  | finite n s e, finite m t g =>
    let (a, b, unit) := align (n, s, e) (m, t, g)
    ofUnits f (n && m) (a + b) unit

def sub (f : BinaryFormat) (x y : Binary) : Binary := add f x (negate y)

def mul (f : BinaryFormat) : Binary → Binary → Binary
  | nan n, _ => nan n
  | _, nan m => nan m
  | infinity n, infinity m => infinity (n != m)
  | infinity n, finite m t _ | finite m t _, infinity n =>
    if t = 0 then nan true else infinity (n != m)
  | finite n s e, finite m t g =>
    ofUnits f (n != m) (signed (n != m) (s * t)) (e + g)

def div (f : BinaryFormat) : Binary → Binary → Binary
  | nan n, _ => nan n
  | _, nan m => nan m
  | infinity _, infinity _ => nan true
  | infinity n, finite m _ _ => infinity (n != m)
  | finite n _ _, infinity m => finite (n != m) 0 0
  | finite n s e, finite m t g =>
    if t = 0 then (if s = 0 then nan true else infinity (n != m))
    else f.round (n != m) (s <<< (e - g).toNat) (t <<< (g - e).toNat)

end Binary

end VirtualShell
