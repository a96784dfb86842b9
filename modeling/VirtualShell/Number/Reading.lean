import VirtualShell.Text.Bytes
import VirtualShell.Number.Binary

/-!
# Reading numbers

A number may start with blanks and a sign. `parseInt` reads decimal digits into the signed
64-bit range; `Binary.read?` reads a decimal or hexadecimal number with point and exponent,
`inf`, `infinity`, `nan` and `nan(…)`, letters of either case, into a binary format. A reader that
does not ask for the whole text takes the longest start that is a number; a NUL byte ends every
text.
-/

namespace VirtualShell

/-! ## Signs and digits -/

/-- The text behind blanks and a sign, and whether the sign is a minus. -/
def readSign (text : Bytes) : Bool × Bytes :=
  match text.dropWhile isSpace with
  | Ascii.minus :: rest => (true, rest)
  | Ascii.plus :: rest => (false, rest)
  | rest => (false, rest)

/-- The number that digits of a base write. -/
def digitsValue (base : Nat) (digits : Bytes) : Nat :=
  digits.foldl (fun n c => n * base + digitValue c) 0

/-! ## Whole numbers -/

/-- Reads a whole text as a number of the signed 64-bit range: blanks, a sign, decimal digits. -/
def parseInt (text : Bytes) : Option Int :=
  let (negative, digits) := readSign (Bytes.beforeNul text)
  if digits.isEmpty || !digits.all isDigit then none
  else
    let n := Binary.signed negative (digitsValue 10 digits)
    if -0x8000000000000000 ≤ n ∧ n < 0x8000000000000000 then some n else none

namespace Binary

/-! ## Digits with a point and an exponent -/

/-- Digits before and behind a point, with the text behind them. -/
structure PointedDigits where
  whole : Bytes
  fraction : Bytes
  rest : Bytes

/-- Reads digits with at most one point; at least one digit must be there. -/
def readPointed? (isDigit : UInt8 → Bool) (text : Bytes) : Option PointedDigits :=
  let whole := text.takeWhile isDigit
  match text.dropWhile isDigit with
  | Ascii.dot :: rest =>
    let fraction := rest.takeWhile isDigit
    if whole.isEmpty && fraction.isEmpty then none
    else some ⟨whole, fraction, rest.dropWhile isDigit⟩
  | rest => if whole.isEmpty then none else some ⟨whole, [], rest⟩

/-- Reads an exponent behind its mark, a letter in lower case. Without digits there is none. -/
def readExponent (mark : UInt8) (text : Bytes) : Int × Bytes :=
  match text with
  | [] => (0, [])
  | c :: behind =>
    if toLower c ≠ mark then (0, text)
    else
      let (negative, digits) : Bool × Bytes := match behind with
        | Ascii.minus :: rest => (true, rest)
        | Ascii.plus :: rest => (false, rest)
        | rest => (false, rest)
      let exponent := digits.takeWhile isDigit
      if exponent.isEmpty then (0, text)
      else (signed negative (digitsValue 10 exponent), digits.dropWhile isDigit)

/-- A significand times a power of the base, brought into a format. Exponents far outside the
range of every format are brought near it first, which changes no result. -/
def scale (f : BinaryFormat) (negative : Bool) (base significand : Nat) (digits : Nat)
    (exponent : Int) : Binary :=
  if significand = 0 then finite negative 0 0
  else
    let far : Int := 40000
    if far < exponent + digits then infinity negative
    else if exponent + digits < -far then finite negative 0 0
    else
      f.round negative (significand * base.pow exponent.toNat) (base.pow (-exponent).toNat)

def ofDecimal (f : BinaryFormat) (negative : Bool) (d : PointedDigits) (exponent : Int) : Binary :=
  let digits := (d.whole ++ d.fraction).dropWhile (· == Ascii.zero)
  scale f negative 10 (digitsValue 10 digits) digits.length (exponent - d.fraction.length)

def ofHexadecimal (f : BinaryFormat) (negative : Bool) (d : PointedDigits) (exponent : Int) :
    Binary :=
  let digits := (d.whole ++ d.fraction).dropWhile (· == Ascii.zero)
  scale f negative 2 (digitsValue 16 digits) (4 * digits.length)
    (exponent - 4 * d.fraction.length)

/-! ## Names -/

/-- The text behind a name, letters of either case. -/
def dropName? (name : String) (text : Bytes) : Option Bytes :=
  let name := ascii name
  if (text.take name.length).map toLower == name then some (text.drop name.length) else none

/-- The text behind the letters, digits and underscores in parentheses that may follow `nan`. -/
def dropNanLabel (text : Bytes) : Bytes :=
  match text with
  | Ascii.openParen :: behind =>
    match behind.dropWhile (fun c => isAlnum c || c == Ascii.underscore) with
    | Ascii.closeParen :: rest => rest
    | _ => text
  | _ => text

/-! ## Any number -/

/-- Reads a number without blanks and sign before it. -/
def readUnsigned? (f : BinaryFormat) (negative : Bool) (text : Bytes) : Option (Binary × Bytes) :=
  match dropName? "infinity" text <|> dropName? "inf" text with
  | some rest => some (infinity negative, rest)
  | none =>
    match dropName? "nan" text with
    | some rest => some (nan negative, dropNanLabel rest)
    | none =>
      match (dropName? "0x" text).bind (readPointed? isHexDigit) with
      | some d =>
        let (exponent, rest) := readExponent 112 d.rest
        some (ofHexadecimal f negative d exponent, rest)
      | none =>
        match readPointed? isDigit text with
        | some d =>
          let (exponent, rest) := readExponent 101 d.rest
          some (ofDecimal f negative d exponent, rest)
        | none => none

/-- The number at the start of a text and the text behind it. -/
def read? (f : BinaryFormat) (text : Bytes) : Option (Binary × Bytes) :=
  let (negative, unsigned) := readSign (Bytes.beforeNul text)
  readUnsigned? f negative unsigned

end Binary

end VirtualShell
