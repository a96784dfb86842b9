import VirtualShell.Number.Decimal
import VirtualShell.Number.Reading

/-!
# Sequences of numbers

From a first number to a last by a step, in 64-bit floating-point arithmetic. How many numbers there
are is settled before the first is made, so a step too small to change a number does no harm. When
all operands are whole the numbers are written in full, else with six significant digits.
-/

namespace VirtualShell

inductive SequenceError
  | notANumber (text : Bytes)
  | missingOperand
  | extraOperand
  | zeroStep
  | tooMany
  | outOfRange
  deriving DecidableEq

def SequenceError.message : SequenceError → Bytes
  | notANumber text => ascii "invalid floating point argument: '" ++ text ++ ascii "'"
  | missingOperand => ascii "missing operand"
  | extraOperand => ascii "extra operand"
  | zeroStep => ascii "invalid Zero increment value"
  | tooMany => ascii "too many values"
  | outOfRange => ascii "value out of range"

namespace Sequence

/-- A finite number that is the whole of a text; a text that starts with a NUL stands for zero. -/
def readOperand? (text : Bytes) : Option Binary :=
  match Binary.read? .double text with
  | some (x, []) => if x.isFinite then some x else none
  | some _ => none
  | none => if !text.isEmpty && (Bytes.beforeNul text).isEmpty then some .zero else none

/-- Bounds of what can be counted and written. -/
def limit : Binary := .ofInt 9200000000000000000

/-- A billionth, so that rounding loses no last number. -/
def tolerance : Binary := BinaryFormat.double.round false 1 1000000000

/-- What a sequence runs over. -/
structure Range where
  first : Binary := .ofInt 1
  step : Binary := .ofInt 1
  last : Binary

/-- The range of the operands. -/
def rangeOf : List Binary → Except SequenceError Range
  | [] => .error .missingOperand
  | [last] => .ok { last }
  | [first, last] => .ok { first, last }
  | [first, step, last] => .ok { first, step, last }
  | _ => .error .extraOperand

namespace Range

/-- The number of steps that fit, as a quotient. -/
def span (r : Range) : Binary := Binary.div .double (Binary.sub .double r.last r.first) r.step

/-- How many numbers there are. -/
def count (r : Range) : Nat :=
  if r.span.lt .zero then 0
  else (Binary.add .double r.span tolerance).floor.toNat + 1

/-- The number so many steps behind the first. -/
def value (r : Range) (k : Nat) : Binary :=
  let steps := BinaryFormat.double.round false k 1
  Binary.add .double r.first (Binary.mul .double steps r.step)

end Range

/-- A number with at most six significant digits. -/
def renderShort (x : Binary) : Bytes :=
  let sign := if x.isNegative then [Ascii.minus] else []
  match x with
  | .finite _ significand exponent => sign ++ Decimal.general 101 significand exponent 6 false
  | .infinity _ => sign ++ ascii "inf"
  | .nan _ => sign ++ ascii "nan"

/-- The texts of the numbers that the operands ask for. -/
def texts (operands : List Bytes) : Except SequenceError (List Bytes) := do
  let values ← operands.mapM fun text =>
    match readOperand? text with
    | some x => .ok x
    | none => .error (.notANumber text)
  let range ← rangeOf values
  if range.step.eq .zero then throw .zeroStep
  if limit.lt range.span then throw .tooMany
  let whole := values.all Binary.isWhole
  if whole && (limit.lt range.first.abs || limit.lt range.last.abs) then throw .outOfRange
  return (List.range range.count).map fun k =>
    let x := range.value k
    if whole then signedDecimal x.truncate else renderShort x

end Sequence

end VirtualShell
