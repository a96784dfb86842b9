import VirtualShell.Text.Bytes

/-!
# Base64

Three bytes are written as four letters of six bits each; a last group of one or two bytes is
filled up with equals signs. A `Reader` takes the letters one after the other, six bits at a time,
and gives out a byte whenever it has eight. Reading wants whole groups of letters with at most two
equals signs, all at the end, and does not look at the bits that the padding leaves over.
-/

namespace VirtualShell.Base64

/-! ## Letters -/

/-- The letters of the six-bit numbers, in order. -/
def alphabet : Bytes :=
  ascii "ABCDEFGHIJKLMNOPQRSTUVWXYZabcdefghijklmnopqrstuvwxyz0123456789+/"

/-- The letter of six bits. -/
def letter (n : Nat) : UInt8 := alphabet.getD n 0

/-- Where a byte stands among the letters. A NUL ends them and is found there. -/
def place? (c : UInt8) : Option Nat := (alphabet ++ [0]).idxOf? c

/-- The six bits of a letter; the NUL behind the letters is none of them. -/
def value? (c : UInt8) : Option Nat := if c = 0 then none else place? c

/-! ## Writing -/

def encode : Bytes → Bytes
  | [] => []
  | [a] =>
    let n := a.toNat * 0x10000
    [letter (n / 0x40000 % 64), letter (n / 0x1000 % 64), Ascii.equals, Ascii.equals]
  | [a, b] =>
    let n := a.toNat * 0x10000 + b.toNat * 0x100
    [letter (n / 0x40000 % 64), letter (n / 0x1000 % 64), letter (n / 0x40 % 64), Ascii.equals]
  | a :: b :: c :: rest =>
    let n := a.toNat * 0x10000 + b.toNat * 0x100 + c.toNat
    letter (n / 0x40000 % 64) :: letter (n / 0x1000 % 64) :: letter (n / 0x40 % 64)
      :: letter (n % 64) :: encode rest

/-! ## Reading -/

/-- How far a text has been read. -/
structure Reader where
  /-- The bits of the letters, the latest at the low end. Those that leave the word are lost. -/
  buffer : UInt32 := 0
  /-- How many bits at the low end have not been given out yet. -/
  bits : Nat := 0
  /-- The equals signs. -/
  padding : Nat := 0
  /-- The bytes given out, the latest first. -/
  bytes : Bytes := []

namespace Reader

/-- Takes six bits more, and gives out the oldest eight when there are so many. -/
def push (r : Reader) (value : Nat) : Reader :=
  let buffer := r.buffer <<< 6 ||| value.toUInt32
  if 8 ≤ r.bits + 6 then
    let bits := r.bits + 6 - 8
    { r with buffer, bits, bytes := (buffer >>> bits.toUInt32 &&& 0xFF).toUInt8 :: r.bytes }
  else { r with buffer, bits := r.bits + 6 }

/-- Reads one byte: an equals sign, or a letter that stands before all of them. -/
def step (r : Reader) (c : UInt8) : Option Reader :=
  if c = Ascii.equals then some { r with padding := r.padding + 1 }
  else if r.padding = 0 then (value? c).map r.push
  else none

end Reader

/-- Reads whole groups of letters. -/
def decode? (text : Bytes) : Option Bytes := do
  let r ← text.foldlM Reader.step {}
  if r.padding > 2 ∨ text.length % 4 ≠ 0 then none else some r.bytes.reverse

end VirtualShell.Base64
