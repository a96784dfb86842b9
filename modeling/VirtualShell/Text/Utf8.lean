import VirtualShell.Text.Bytes

/-!
# UTF-8

`isValidUtf8` accepts exactly the sequences of shortest-form encodings of scalar values, that is of
the numbers up to 0x10FFFF that are no surrogates; `encodeScalar` writes one of them. `Utf8.scan`
decides the same with a look ahead from every first byte, and says so when it looks at a byte behind
the end of the text.
-/

namespace VirtualShell

/-- A number that UTF-8 can write. -/
def isScalar (n : Nat) : Bool := n ≤ 0x10FFFF && !(0xD800 ≤ n && n ≤ 0xDFFF)

/-- A byte that continues an encoding. -/
def isContinuation (c : UInt8) : Bool := 0x80 ≤ c && c < 0xC0

/-- The six bits that a continuation byte carries. -/
def continuationBits (c : UInt8) : Nat := c.toNat % 64

/-- The bytes of a scalar value. -/
def encodeScalar (n : Nat) : Bytes :=
  let tail (n : Nat) : UInt8 := (0x80 + n % 64).toUInt8
  if n < 0x80 then [n.toUInt8]
  else if n < 0x800 then [(0xC0 + n / 64).toUInt8, tail n]
  else if n < 0x10000 then [(0xE0 + n / 0x1000).toUInt8, tail (n / 64), tail n]
  else [(0xF0 + n / 0x40000).toUInt8, tail (n / 0x1000), tail (n / 64), tail n]

/-- The scalar value of two bytes. -/
def decodeTwo? (a b : UInt8) : Option Nat :=
  let n := a.toNat % 32 * 64 + continuationBits b
  if isContinuation b && 0x80 ≤ n then some n else none

/-- The scalar value of three bytes. -/
def decodeThree? (a b c : UInt8) : Option Nat :=
  let n := (a.toNat % 16 * 64 + continuationBits b) * 64 + continuationBits c
  if isContinuation b && isContinuation c && 0x800 ≤ n && isScalar n then some n else none

/-- The scalar value of four bytes. -/
def decodeFour? (a b c d : UInt8) : Option Nat :=
  let n := ((a.toNat % 8 * 64 + continuationBits b) * 64 + continuationBits c) * 64
    + continuationBits d
  if isContinuation b && isContinuation c && isContinuation d && 0x10000 ≤ n && isScalar n then
    some n
  else none

/-- The scalar values that a text encodes, if it is nothing but encodings. -/
def decodeUtf8? : Bytes → Option (List Nat)
  | [] => some []
  | a :: rest =>
    if a < 0x80 then (decodeUtf8? rest).map (a.toNat :: ·)
    else if a < 0xC0 then none
    else if a < 0xE0 then
      match rest with
      | b :: rest => do return (← decodeTwo? a b) :: (← decodeUtf8? rest)
      | _ => none
    else if a < 0xF0 then
      match rest with
      | b :: c :: rest => do return (← decodeThree? a b c) :: (← decodeUtf8? rest)
      | _ => none
    else if a < 0xF8 then
      match rest with
      | b :: c :: d :: rest => do return (← decodeFour? a b c d) :: (← decodeUtf8? rest)
      | _ => none
    else none

/-- A sequence of encodings and nothing else. -/
def isValidUtf8 (text : Bytes) : Bool := (decodeUtf8? text).isSome

/-! ## Scanning -/

namespace Utf8

/-- What a scan finds. -/
inductive Verdict
  | valid
  | invalid
  /-- A byte behind the end was looked at. -/
  | overrun
  deriving DecidableEq

/-- What a first byte outside ASCII says. -/
structure Lead where
  /-- How many bytes follow it. -/
  extra : Nat
  /-- The least number that needs so many. -/
  least : Nat
  /-- The bits of the number that the byte holds itself. -/
  bits : Nat
  deriving DecidableEq

/-- The high bits of a first byte are as many ones as the encoding has bytes, and a zero. -/
def Lead.of? (c : UInt8) : Option Lead :=
  if c &&& 0xE0 = 0xC0 then some ⟨1, 0x80, (c &&& 0x1F).toNat⟩
  else if c &&& 0xF0 = 0xE0 then some ⟨2, 0x800, (c &&& 0x0F).toNat⟩
  else if c &&& 0xF8 = 0xF0 then some ⟨3, 0x10000, (c &&& 0x07).toNat⟩
  else none

/-- Reads so many continuation bytes from a place on and adds their bits to a value. -/
def gather (text : Bytes) (place value : Nat) : Nat → Except Verdict Nat
  | 0 => .ok value
  | count + 1 =>
    match text[place]? with
    | none => .error .overrun
    | some next =>
      if next &&& 0xC0 = 0x80 then
        gather text (place + 1) (value <<< 6 ||| (next &&& 0x3F).toNat) count
      else .error .invalid

/-- Judges what follows a first byte: enough bytes, and a scalar value that needs so many. -/
def Lead.judge (lead : Lead) (rest : Bytes) : Verdict :=
  if (rest.take lead.extra).length < lead.extra then .invalid
  else match gather rest 0 lead.bits lead.extra with
    | .error verdict => verdict
    | .ok n => if lead.least ≤ n && isScalar n then .valid else .invalid

/-- Scans a text behind so many bytes that have been judged. -/
def scanBehind : Nat → Bytes → Verdict
  | _, [] => .valid
  | judged + 1, _ :: rest => scanBehind judged rest
  | 0, c :: rest =>
    if c < 0x80 then scanBehind 0 rest
    else match Lead.of? c with
      | none => .invalid
      | some lead =>
        match lead.judge rest with
        | .valid => scanBehind lead.extra rest
        | verdict => verdict

/-- Scans a text. -/
def scan (text : Bytes) : Verdict := scanBehind 0 text

end Utf8

end VirtualShell
