import VirtualShell.Number.Decimal
import VirtualShell.Number.Reading
import VirtualShell.Text.Escape

/-!
# Formatted output

A format is literal text with directives in it. A directive takes the next argument, or an empty one
when they have run out, and writes it as text or as a number. The format is used again for as long
as arguments are left.

* `Format.read` takes a format apart, up to the first directive that is none.
* `Directive.render` writes one argument; a number that cannot be read counts as far as it can, and
  is complained about.
* `Format.print` makes the passes; `\c` ends all output.
-/

namespace VirtualShell

/-! ## Directives -/

inductive Conversion
  | text
  | escapedText
  | character
  | signed
  /-- An unsigned number in a base; the letters of its digits and its mark are in upper case. -/
  | unsigned (base : Nat) (upper : Bool)
  | fixed (upper : Bool)
  | scientific (upper : Bool)
  | general (upper : Bool)
  deriving DecidableEq

/-- The conversion of a letter; a NUL stands for text. -/
def Conversion.ofLetter? (c : UInt8) : Option Conversion :=
  if c = 115 ∨ c = 0 then some .text
  else if c = 98 then some .escapedText
  else if c = 99 then some .character
  else if c = 100 ∨ c = 105 then some .signed
  else if c = 111 then some (.unsigned 8 false)
  else if c = 117 then some (.unsigned 10 false)
  else if c = 120 then some (.unsigned 16 false)
  else if c = 88 then some (.unsigned 16 true)
  else if c = 101 then some (.scientific false)
  else if c = 69 then some (.scientific true)
  else if c = 102 then some (.fixed false)
  else if c = 70 then some (.fixed true)
  else if c = 103 then some (.general false)
  else if c = 71 then some (.general true)
  else none

/-- A directive: how one argument is to be written. -/
structure Directive where
  /-- The bytes between the percent sign and the width, in any order and number. -/
  flags : Bytes := []
  width : Nat := 0
  precision : Option Nat := none
  conversion : Conversion
  deriving DecidableEq

namespace Directive

def isFlag (c : UInt8) : Bool :=
  c == Ascii.minus || c == Ascii.plus || c == Ascii.space || c == Ascii.numberSign
    || c == Ascii.zero || c == 0

def leftAligned (d : Directive) : Bool := d.flags.contains Ascii.minus
def zeroFilled (d : Directive) : Bool := d.flags.contains Ascii.zero
def alternate (d : Directive) : Bool := d.flags.contains Ascii.numberSign

/-- A NUL among the flags, or a width or precision that is too large, spoils the directive: it
writes nothing. -/
def isSpoilt (d : Directive) : Bool :=
  d.flags.contains 0 || 0x80000000 ≤ d.width || d.precision.any (0x80000000 ≤ ·)

/-! ## Filling -/

/-- Fills up with spaces to the width. -/
def fill (d : Directive) (text : Bytes) : Bytes :=
  let gap := List.replicate (d.width - text.length) Ascii.space
  if d.leftAligned then text ++ gap else gap ++ text

/-- Fills up a number behind its sign or mark, with zeros if `zeros` holds. -/
def fillNumber (d : Directive) (zeros : Bool) (mark digits : Bytes) : Bytes :=
  if zeros && !d.leftAligned then
    mark ++ Bytes.padLeft (d.width - mark.length) Ascii.zero digits
  else d.fill (mark ++ digits)

/-- The sign of a number. -/
def sign (d : Directive) (negative : Bool) : Bytes :=
  if negative then [Ascii.minus]
  else if d.flags.contains Ascii.plus then [Ascii.plus]
  else if d.flags.contains Ascii.space then [Ascii.space]
  else []

/-! ## Whole numbers -/

/-- Digits filled up to the precision; with a precision of zero, zero has none. -/
def wholeDigits (d : Directive) (base n : Nat) : Bytes :=
  let digits := if n = 0 ∧ d.precision = some 0 then [] else inBase base n
  Bytes.padLeft (d.precision.getD 1) Ascii.zero digits

def renderSigned (d : Directive) (n : Int) : Bytes :=
  d.fillNumber (d.zeroFilled && d.precision.isNone) (d.sign (n < 0)) (d.wholeDigits 10 n.natAbs)

def renderUnsigned (d : Directive) (base : Nat) (upper : Bool) (n : Nat) : Bytes :=
  let digits := d.wholeDigits base n
  let digits :=
    if d.alternate ∧ base = 8 ∧ digits.head? ≠ some Ascii.zero then Ascii.zero :: digits else digits
  let mark := if d.alternate ∧ base = 16 ∧ n ≠ 0 then ascii "0x" else []
  let case := fun text : Bytes => if upper then text.map toUpper else text
  d.fillNumber (d.zeroFilled && d.precision.isNone) (case mark) (case digits)

/-! ## Numbers with a point -/

/-- A number without its sign. -/
def magnitude (d : Directive) (x : Binary) : Bytes :=
  match x with
  | .infinity _ => ascii "inf"
  | .nan _ => ascii "nan"
  | .finite _ significand exponent =>
    let precision := d.precision.getD 6
    match d.conversion with
    | .scientific _ => Decimal.scientific 101 significand exponent precision d.alternate
    | .general _ => Decimal.general 101 significand exponent precision d.alternate
    | _ => Decimal.fixed significand exponent precision d.alternate

def renderReal (d : Directive) (upper : Bool) (x : Binary) : Bytes :=
  let digits := d.magnitude x
  d.fillNumber (d.zeroFilled && x.isFinite) (d.sign x.isNegative)
    (if upper then digits.map toUpper else digits)

/-! ## Arguments -/

/-- Reads an argument as a number: the code of the byte behind a quote, or a number. What is left
of a text that is not all number makes it bad. -/
def readNumber (text : Bytes) : Binary × Bool :=
  match text with
  | [] => (.zero, true)
  | c :: rest =>
    if c = Ascii.quote ∨ c = Ascii.doubleQuote then
      (.ofInt ((rest.head?.map UInt8.toNat).getD 0 : Nat), true)
    else match Binary.read? .extended text with
      | some (x, behind) => (x, behind.isEmpty)
      | none => (.zero, false)

/-- The whole number that a number is cut off to, at most what 64 bits can hold. -/
def clamp : Binary → Int
  | .nan _ => 0
  | .infinity negative => if negative then -0x8000000000000000 else 0x7FFFFFFFFFFFFFFF
  | x => max (-0x8000000000000000) (min 0x7FFFFFFFFFFFFFFF x.truncate)

/-- An argument as it is written. -/
structure Rendered where
  text : Bytes
  /-- The argument was to be a number and is none. -/
  bad : Bool := false
  /-- Nothing more is to be written. -/
  stopped : Bool := false
  deriving DecidableEq

/-- Writes an argument. -/
def render (d : Directive) (argument : Bytes) : Rendered :=
  let number (f : Binary → Bytes) : Rendered :=
    let (x, good) := readNumber argument
    { text := if d.isSpoilt then [] else f x, bad := !good }
  match d.conversion with
  | .escapedText =>
    let u := unescape argument
    { text := u.text, stopped := u.stopped }
  | .text =>
    let text := Bytes.beforeNul argument
    { text := if d.isSpoilt then [] else d.fill ((d.precision.map text.take).getD text) }
  | .character => { text := if d.isSpoilt then [] else d.fill [argument.headD 0] }
  | .signed => number fun x => d.renderSigned (clamp x)
  | .unsigned base upper =>
    number fun x => d.renderUnsigned base upper (clamp x % 0x10000000000000000).toNat
  | .fixed upper | .scientific upper | .general upper => number (d.renderReal upper)

end Directive

/-! ## Formats -/

/-- A piece of a format. -/
inductive FormatPiece
  /-- Text with its escapes still in it. -/
  | literal (source : Bytes)
  | directive (d : Directive)
  /-- A percent sign and what stands behind it in the place of a directive; it ends the format. -/
  | invalid (source : Bytes)
  deriving DecidableEq

namespace Format

/-- Puts text before the pieces. -/
def prepend (text : Bytes) : List FormatPiece → List FormatPiece
  | .literal source :: rest => .literal (text ++ source) :: rest
  | pieces => .literal text :: pieces

/-- The directive behind a percent sign and the text behind it; else what stands for one. -/
def readDirective (text : Bytes) : Except Bytes (Directive × Bytes) :=
  let flags := text.takeWhile Directive.isFlag
  let rest := text.drop flags.length
  let width := rest.takeWhile isDigit
  let rest := rest.drop width.length
  let (precision, rest) : Option Nat × Bytes := match rest with
    | Ascii.dot :: behind =>
      let digits := behind.takeWhile isDigit
      (some (digitsValue 10 digits), behind.drop digits.length)
    | _ => (none, rest)
  match rest with
  | [] => .error (Ascii.percent :: text)
  | c :: behind =>
    match Conversion.ofLetter? c with
    | none => .error (Ascii.percent :: text.take (text.length - behind.length))
    | some conversion =>
      .ok ({ flags, width := digitsValue 10 width, precision, conversion }, behind)

/-- Takes a format apart, in at most `fuel` steps. -/
def readWithin : Nat → Bytes → List FormatPiece
  | 0, _ => []
  | _, [] => []
  | fuel + 1, c :: rest =>
    if c = Ascii.backslash then
      match rest with
      | [] => [.literal [c]]
      | e :: rest => prepend [c, e] (readWithin fuel rest)
    else if c ≠ Ascii.percent then prepend [c] (readWithin fuel rest)
    else if rest.head? = some Ascii.percent then
      prepend [Ascii.percent] (readWithin fuel (rest.drop 1))
    else match readDirective rest with
      | .error source => [.invalid source]
      | .ok (d, rest) => .directive d :: readWithin fuel rest

/-- Takes a format apart. Every step takes at least one byte. -/
def read (text : Bytes) : List FormatPiece := readWithin text.length text

/-- What has been printed. -/
structure Printed where
  output : Bytes := []
  /-- The arguments that were to be numbers and are none. -/
  bad : List Bytes := []
  /-- What stands in the place of a directive; printing ends there. -/
  invalid : Option Bytes := none
  /-- A `\c` was met. -/
  stopped : Bool := false
  /-- The arguments that are left. -/
  rest : List Bytes := []
  /-- The pass has taken an argument. -/
  consumed : Bool := false
  deriving DecidableEq

namespace Printed

/-- Writes literal text. -/
def addLiteral (p : Printed) (source : Bytes) : Printed :=
  let u := unescape source
  { p with output := p.output ++ u.text, stopped := p.stopped || u.stopped }

/-- Writes the next argument. -/
def addArgument (p : Printed) (d : Directive) : Printed :=
  let argument := p.rest.headD []
  let r := d.render argument
  { p with
    output := p.output ++ r.text
    bad := if r.bad then p.bad ++ [argument] else p.bad
    stopped := p.stopped || r.stopped
    rest := p.rest.tail
    consumed := p.consumed || !p.rest.isEmpty }

/-- Another pass is to follow. -/
def goesOn (p : Printed) : Bool :=
  p.consumed && !p.rest.isEmpty && !p.stopped && p.invalid.isNone

end Printed

/-- Prints one pass over the pieces. A `\c` in literal text ends the output behind the directive
that follows it. -/
def pass (p : Printed) : List FormatPiece → Printed
  | [] => p
  | .literal source :: rest => pass (p.addLiteral source) rest
  | .invalid source :: _ => { p with invalid := some source }
  | .directive d :: rest =>
    let p := p.addArgument d
    if p.stopped then p else pass p rest

/-- Makes at most `fuel + 1` passes. -/
def passes (pieces : List FormatPiece) : Nat → Printed → Printed
  | 0, p => pass { p with consumed := false } pieces
  | fuel + 1, p =>
    let q := pass { p with consumed := false } pieces
    if q.goesOn then passes pieces fuel q else q

/-- Prints arguments. Every pass but the last takes at least one of them. -/
def print (pieces : List FormatPiece) (arguments : List Bytes) : Printed :=
  passes pieces arguments.length { rest := arguments }

end Format

end VirtualShell
