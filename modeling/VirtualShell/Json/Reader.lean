import VirtualShell.Json.Value
import VirtualShell.Text.Utf8

/-!
# Reading JSON

`Json.read?` reads a whole text as one document of the strict grammar: no comments, no comma
before a closing bracket, nothing but white space around the value, no control bytes in strings,
surrogate escapes only in pairs, valid UTF-8 throughout. A byte order mark at the start is
skipped. Of two fields with one key the later counts. A number too large for a double is refused.
-/

namespace VirtualShell.Json

def isJsonSpace (c : UInt8) : Bool :=
  c == Ascii.space || c == Ascii.tab || c == Ascii.newline || c == Ascii.carriageReturn

def skipSpace (text : Bytes) : Bytes := text.dropWhile isJsonSpace

/-! ## Strings -/

/-- Reads the four digits of a `\u` escape. -/
def readUnit? (text : Bytes) : Option (Nat × Bytes) :=
  let digits := text.take 4
  if digits.length = 4 && digits.all isHexDigit then
    some (digitsValue 16 digits, text.drop 4)
  else none

/-- Reads what follows the `\u` of an escape: a unit, or a pair of surrogate units. -/
def readUnicodeEscape? (text : Bytes) : Option (Nat × Bytes) := do
  let (unit, rest) ← readUnit? text
  if 0xD800 ≤ unit && unit < 0xDC00 then
    match rest with
    | Ascii.backslash :: 117 :: rest =>
      let (low, rest) ← readUnit? rest
      if 0xDC00 ≤ low && low < 0xE000 then
        some (0x10000 + (unit - 0xD800) * 0x400 + (low - 0xDC00), rest)
      else none
    | _ => none
  else if 0xDC00 ≤ unit && unit < 0xE000 then none
  else some (unit, rest)

/-- The byte of an escape of one letter. -/
def shortEscape? (c : UInt8) : Option UInt8 :=
  if c = Ascii.doubleQuote || c = Ascii.backslash || c = Ascii.slash then some c
  else if c = 98 then some 8
  else if c = 102 then some 12
  else if c = 110 then some Ascii.newline
  else if c = 114 then some Ascii.carriageReturn
  else if c = 116 then some Ascii.tab
  else none

/-- Reads the rest of a string behind its opening quote, in at most `fuel` steps. -/
def readStringWithin : Nat → Bytes → Option (Bytes × Bytes)
  | 0, _ => none
  | fuel + 1, text =>
    match text with
    | [] => none
    | c :: rest =>
      if c = Ascii.doubleQuote then some ([], rest)
      else if c < 0x20 then none
      else if c = Ascii.backslash then
        match rest with
        | [] => none
        | 117 :: rest => do
          let (scalar, rest) ← readUnicodeEscape? rest
          let (tail, rest) ← readStringWithin fuel rest
          some (encodeScalar scalar ++ tail, rest)
        | e :: rest => do
          let byte ← shortEscape? e
          let (tail, rest) ← readStringWithin fuel rest
          some (byte :: tail, rest)
      else do
        let (tail, rest) ← readStringWithin fuel rest
        some (c :: tail, rest)

/-- Reads the rest of a string behind its opening quote, and what follows it. -/
def readString? (text : Bytes) : Option (Bytes × Bytes) := readStringWithin (text.length + 1) text

/-! ## Numbers -/

/-- Splits digits from the text behind them; there must be one. -/
def readDigits? (text : Bytes) : Option (Bytes × Bytes) :=
  let digits := text.takeWhile isDigit
  if digits.isEmpty then none else some (digits, text.dropWhile isDigit)

/-- Whether there is a minus sign, and the text behind it. -/
def readMinus (text : Bytes) : Bool × Bytes :=
  match text with
  | Ascii.minus :: rest => (true, rest)
  | _ => (false, text)

/-- Reads the digits of a whole part, which has no zero before other digits. -/
def readWholePart? (text : Bytes) : Option (Bytes × Bytes) :=
  match text with
  | Ascii.zero :: rest => some ([Ascii.zero], rest)
  | _ => readDigits? text

/-- Reads the digits behind a point, if there is one. -/
def readFraction? (text : Bytes) : Option (Option Bytes × Bytes) :=
  match text with
  | Ascii.dot :: rest => (readDigits? rest).map fun (d, r) => (some d, r)
  | _ => some (none, text)

/-- Reads the exponent behind its mark, if there is one. -/
def readExponent? (text : Bytes) : Option (Option Int × Bytes) :=
  match text with
  | c :: behind =>
    if toLower c = 101 then
      let (minus, digits) : Bool × Bytes := match behind with
        | Ascii.minus :: rest => (true, rest)
        | Ascii.plus :: rest => (false, rest)
        | _ => (false, behind)
      (readDigits? digits).map fun (d, r) =>
        (some (Binary.signed minus (digitsValue 10 d)), r)
    else some (none, text)
  | [] => some (none, [])

/-- The number of its parts, unless a double cannot hold it. -/
def numberOf? (negative : Bool) (whole : Bytes) (fraction : Option Bytes)
    (exponent : Option Int) : Option Json :=
  let digits := whole ++ fraction.getD []
  let significand := Binary.signed negative (digitsValue 10 digits)
  let shift : Int := exponent.getD 0 - (fraction.getD []).length
  let size := (digits.dropWhile (· == Ascii.zero)).length
  if !(Binary.scale .double negative 10 significand.natAbs size shift).isFinite then none
  else if fraction.isNone && exponent.isNone then some (.integer significand)
  else some (.decimal significand shift)

/-- Reads a number. -/
def readNumber? (text : Bytes) : Option (Json × Bytes) := do
  let (negative, text) := readMinus text
  let (whole, rest) ← readWholePart? text
  let (fraction, rest) ← readFraction? rest
  let (exponent, rest) ← readExponent? rest
  return (← numberOf? negative whole fraction exponent, rest)

/-! ## Values -/

/-- The text behind a word. -/
def dropWord? (word : String) (text : Bytes) : Option Bytes :=
  if (ascii word).isPrefixOf text then some (text.drop word.length) else none

mutual

/-- Reads a value at the start of a text without white space before it, in at most `fuel` steps. -/
def readValueWithin : Nat → Bytes → Option (Json × Bytes)
  | 0, _ => none
  | fuel + 1, text =>
    match text with
    | [] => none
    | c :: rest =>
      if c = Ascii.doubleQuote then
        (readString? rest).map fun (s, rest) => (.string s, rest)
      else if c = Ascii.openBracket then
        match skipSpace rest with
        | Ascii.closeBracket :: rest => some (.array [], rest)
        | rest => (readItemsWithin fuel rest).map fun (items, rest) => (.array items, rest)
      else if c = Ascii.openBrace then
        match skipSpace rest with
        | Ascii.closeBrace :: rest => some (.object [], rest)
        | rest =>
          (readFieldsWithin fuel rest).map fun (fields, rest) => (ofFields fields, rest)
      else if c = Ascii.minus || isDigit c then readNumber? text
      else
        (dropWord? "true" text).map (Json.bool true, ·)
          <|> (dropWord? "false" text).map (Json.bool false, ·)
          <|> (dropWord? "null" text).map (Json.null, ·)

/-- Reads the items of an array up to and with the closing bracket. -/
def readItemsWithin : Nat → Bytes → Option (List Json × Bytes)
  | 0, _ => none
  | fuel + 1, text => do
    let (item, rest) ← readValueWithin fuel text
    match skipSpace rest with
    | Ascii.comma :: rest =>
      let (items, rest) ← readItemsWithin fuel (skipSpace rest)
      some (item :: items, rest)
    | Ascii.closeBracket :: rest => some ([item], rest)
    | _ => none

/-- Reads the fields of an object up to and with the closing brace. -/
def readFieldsWithin : Nat → Bytes → Option (List (Bytes × Json) × Bytes)
  | 0, _ => none
  | fuel + 1, text =>
    match text with
    | Ascii.doubleQuote :: rest => do
      let (key, rest) ← readString? rest
      match skipSpace rest with
      | Ascii.colon :: rest =>
        let (value, rest) ← readValueWithin fuel (skipSpace rest)
        match skipSpace rest with
        | Ascii.comma :: rest =>
          let (fields, rest) ← readFieldsWithin fuel (skipSpace rest)
          some ((key, value) :: fields, rest)
        | Ascii.closeBrace :: rest => some ([(key, value)], rest)
        | _ => none
      | _ => none
    | _ => none

end

/-- The text without a byte order mark at its start. -/
def dropByteOrderMark (text : Bytes) : Bytes :=
  if [0xEF, 0xBB, 0xBF].isPrefixOf text then text.drop 3 else text

/-- Reads a whole text as one document. -/
def read? (text : Bytes) : Option Json :=
  if !isValidUtf8 text then none
  else
    let text := skipSpace (dropByteOrderMark text)
    match readValueWithin (text.length + 1) text with
    | some (j, rest) => if (skipSpace rest).isEmpty then some j else none
    | none => none

end VirtualShell.Json
