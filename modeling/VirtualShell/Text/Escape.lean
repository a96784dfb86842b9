import VirtualShell.Text.Bytes

/-!
# Backslash escapes

The escapes of `echo -e` and `printf`: one letter (`\n`, `\t`, `\\`, …), `\0` with up to three
octal digits, `\x` with one or two hexadecimal ones, and `\c`, which ends all output. A backslash
before anything else, or at the end of the text, stays as it is.
-/

namespace VirtualShell

/-- The byte of an escape of one letter. -/
def letterEscape? (c : UInt8) : Option UInt8 :=
  if c = 97 then some 7
  else if c = 98 then some 8
  else if c = 101 then some 27
  else if c = 102 then some 12
  else if c = 110 then some Ascii.newline
  else if c = 114 then some Ascii.carriageReturn
  else if c = 116 then some Ascii.tab
  else if c = 118 then some 11
  else if c = Ascii.backslash then some Ascii.backslash
  else none

/-- A text with its escapes resolved. -/
structure Unescaped where
  text : Bytes
  /-- A `\c` was met: nothing more is to be written. -/
  stopped : Bool := false
  deriving DecidableEq, Inhabited

/-- The byte that digits of a base write, modulo 256. -/
def byteOfDigits (base : Nat) (digits : Bytes) : UInt8 :=
  (digits.foldl (fun n c => n * base + digitValue c) 0).toUInt8

/-- Resolves the escapes of a text, in at most `fuel` steps. -/
def unescapeWithin : Nat → Bytes → Unescaped
  | 0, _ => ⟨[], false⟩
  | _, [] => ⟨[], false⟩
  | fuel + 1, c :: rest =>
    let put (b : UInt8) (rest : Bytes) : Unescaped :=
      let tail := unescapeWithin fuel rest
      { tail with text := b :: tail.text }
    match rest with
    | [] => put c []
    | e :: behind =>
      if c ≠ Ascii.backslash then put c rest
      else match letterEscape? e with
        | some b => put b behind
        | none =>
          if e = 99 then ⟨[], true⟩
          else if e = Ascii.zero then
            let digits := (behind.take 3).takeWhile isOctalDigit
            put (byteOfDigits 8 digits) (behind.drop digits.length)
          else
            let digits := (behind.take 2).takeWhile isHexDigit
            if e = 120 && !digits.isEmpty then
              put (byteOfDigits 16 digits) (behind.drop digits.length)
            else put c rest

/-- Resolves the escapes of a text. Every step takes at least one byte. -/
def unescape (text : Bytes) : Unescaped := unescapeWithin text.length text

end VirtualShell
