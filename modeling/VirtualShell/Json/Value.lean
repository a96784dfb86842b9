import VirtualShell.ByteMap
import VirtualShell.Number.Reading

/-!
# JSON values

The values of a JSON document, strings as UTF-8 bytes and numbers exact. An object lists its
fields in byte order of their keys; `Json.ofFields` builds one.

The readers of fields (`asString`, `asUInt32`, …) follow one rule: strings, booleans and numbers
do not turn into each other, numbers of every kind turn into each other, and a boolean counts as 0
or 1 for the 32-bit kinds. What has the wrong shape is `Json.Mismatch`.
-/

namespace VirtualShell

inductive Json
  | null
  | bool (value : Bool)
  /-- A number written without point and exponent. -/
  | integer (value : Int)
  /-- A number written with point or exponent: the significand times ten to the exponent. -/
  | decimal (significand : Int) (exponent : Int)
  | string (value : Bytes)
  | array (items : List Json)
  | object (fields : List (Bytes × Json))
  deriving Inhabited

namespace Json

/-- A value of another shape than the one asked for, or a field that is not there. -/
inductive Mismatch
  | mismatch
  deriving DecidableEq

/-- An object of the fields; of two fields with one key the later counts. -/
def ofFields (fields : List (Bytes × Json)) : Json := object (ByteMap.ofList fields).entries

/-! ## Fields -/

/-- The field of an object; `none` for any other value. -/
def field? (key : String) : Json → Option Json
  | object fields => (fields.find? (fun f => f.1 == ascii key)).map (·.2)
  | _ => none

/-- The field of an object. -/
def field (key : String) (j : Json) : Except Mismatch Json :=
  match j.field? key with
  | some value => .ok value
  | none => .error .mismatch

/-- The field of an object, read, or the default when it is missing. -/
def fieldOr {α : Type} (key : String) (default : α) (read : Json → Except Mismatch α) (j : Json) :
    Except Mismatch α :=
  match j with
  | object _ =>
    match j.field? key with
    | some value => read value
    | none => .ok default
  | _ => .error .mismatch

/-- The values inside: an array's items, an object's values in the order of their keys, nothing
for `null`, and any other value itself. -/
def items : Json → List Json
  | array items => items
  | object fields => fields.map (·.2)
  | null => []
  | scalar => [scalar]

/-! ## Readers -/

def asString : Json → Except Mismatch Bytes
  | string value => .ok value
  | _ => .error .mismatch

def asBool : Json → Except Mismatch Bool
  | bool value => .ok value
  | _ => .error .mismatch

/-- A whole number of the double nearest to a number. -/
def nearestWhole (significand exponent : Int) : Int :=
  (Binary.scale .double (significand < 0) 10 significand.natAbs
    (VirtualShell.decimal significand.natAbs).length exponent).truncate

/-- The number as a whole number of at most 64 bits, anything larger as `overflow`. -/
def asWhole (overflow : Int) : Json → Except Mismatch Int
  | integer n =>
    if -0x8000000000000000 ≤ n ∧ n < 0x10000000000000000 then .ok n else .ok overflow
  | decimal significand exponent =>
    let n := nearestWhole significand exponent
    if -0x8000000000000000 ≤ n ∧ n < 0x8000000000000000 then .ok n else .ok overflow
  | _ => .error .mismatch

/-- The number modulo 2^32, or a boolean as 0 or 1. -/
def asUInt32 : Json → Except Mismatch Nat
  | bool value => .ok value.toNat
  | j => do return ((← asWhole (-0x8000000000000000) j) % 0x100000000).toNat

/-- The number in the signed 32-bit range it wraps to, or a boolean as 0 or 1. -/
def asInt32 : Json → Except Mismatch Int
  | bool value => .ok value.toNat
  | decimal significand exponent =>
    let n := nearestWhole significand exponent
    if -0x80000000 ≤ n ∧ n < 0x80000000 then .ok n else .ok (-0x80000000)
  | j => do return (← asWhole (-0x80000000) j).bmod 0x100000000

/-- The number in the signed 64-bit range it wraps to. -/
def asInt64 (j : Json) : Except Mismatch Int := do
  return (← asWhole (-0x8000000000000000) j).bmod 0x10000000000000000

end Json

end VirtualShell
