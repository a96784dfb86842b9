import VirtualShell.Json.Value
import VirtualShell.Text.Utf8

/-!
# Writing JSON

A value is written in a `Layout`: `Json.render` writes it without any white space,
`Json.renderIndented` with two spaces of indentation for each level, `"key": value`, and `[]` or
`{}` for what is empty. Bytes outside ASCII stay as they are; quotes, backslashes and bytes below
0x20 are escaped. `Json.writable` says whether every string is UTF-8, without which there is no
document.
-/

namespace VirtualShell.Json

/-- A byte of a string as it is written. -/
def escapeByte (c : UInt8) : Bytes :=
  if c = Ascii.doubleQuote then ascii "\\\""
  else if c = Ascii.backslash then ascii "\\\\"
  else if c = 8 then ascii "\\b"
  else if c = 12 then ascii "\\f"
  else if c = Ascii.newline then ascii "\\n"
  else if c = Ascii.carriageReturn then ascii "\\r"
  else if c = Ascii.tab then ascii "\\t"
  else if c < 0x20 then
    ascii "\\u00" ++ [digitByte (c.toNat / 16), digitByte (c.toNat % 16)]
  else [c]

def renderString (s : Bytes) : Bytes :=
  Ascii.doubleQuote :: (s.flatMap escapeByte ++ [Ascii.doubleQuote])

/-- The values without others inside. -/
def renderScalar : Json → Bytes
  | bool true => ascii "true"
  | bool false => ascii "false"
  | integer n => signedDecimal n
  | decimal significand exponent =>
    signedDecimal significand ++ ascii "e" ++ signedDecimal exponent
  | string s => renderString s
  | _ => ascii "null"

/-! ## Layouts -/

/-- The white space of a text. -/
structure Layout where
  /-- What stands in front of an item at a level. -/
  lineBreak : Nat → Bytes
  /-- What stands between the colon of a field and its value. -/
  gap : Bytes
  blank_lineBreak : ∀ level, ∀ c ∈ lineBreak level, c = Ascii.newline ∨ c = Ascii.space
  blank_gap : ∀ c ∈ gap, c = Ascii.newline ∨ c = Ascii.space

namespace Layout

/-- No white space. -/
def compact : Layout where
  lineBreak _ := []
  gap := []
  blank_lineBreak := by simp
  blank_gap := by simp

/-- Every item on a line of its own, with two spaces of indentation for each level. -/
def indented : Layout where
  lineBreak level := Ascii.newline :: List.replicate (2 * level) Ascii.space
  gap := [Ascii.space]
  blank_lineBreak := by simp
  blank_gap := by simp

/-- The key and the colon in front of a field's value. -/
def keyText (layout : Layout) (key : Bytes) : Bytes :=
  renderString key ++ Ascii.colon :: layout.gap

end Layout

mutual

/-- The value as it stands at a level. -/
def renderAt (layout : Layout) (level : Nat) : Json → Bytes
  | array [] => ascii "[]"
  | array items =>
    Ascii.openBracket :: (itemsAt layout (level + 1) items ++ layout.lineBreak level ++
      [Ascii.closeBracket])
  | object [] => ascii "\x7b\x7d"
  | object fields =>
    Ascii.openBrace :: (fieldsAt layout (level + 1) fields ++ layout.lineBreak level ++
      [Ascii.closeBrace])
  | j => renderScalar j

/-- The items with commas between them. -/
def itemsAt (layout : Layout) (level : Nat) : List Json → Bytes
  | [] => []
  | [j] => layout.lineBreak level ++ renderAt layout level j
  | j :: rest =>
    layout.lineBreak level ++ renderAt layout level j ++ Ascii.comma :: itemsAt layout level rest

/-- The fields with commas between them. -/
def fieldsAt (layout : Layout) (level : Nat) : List (Bytes × Json) → Bytes
  | [] => []
  | [(key, j)] => layout.lineBreak level ++ layout.keyText key ++ renderAt layout level j
  | (key, j) :: rest =>
    layout.lineBreak level ++ layout.keyText key ++ renderAt layout level j
      ++ Ascii.comma :: fieldsAt layout level rest

end

/-- The value without white space. -/
def render (j : Json) : Bytes := renderAt .compact 0 j

/-- The value with two spaces of indentation for each level. -/
def renderIndented (j : Json) : Bytes := renderAt .indented 0 j

/-! ## What can be written -/

mutual

/-- Every string in the value is UTF-8. -/
def writable : Json → Bool
  | string s => isValidUtf8 s
  | array items => itemsWritable items
  | object fields => fieldsWritable fields
  | _ => true

def itemsWritable : List Json → Bool
  | [] => true
  | j :: rest => writable j && itemsWritable rest

def fieldsWritable : List (Bytes × Json) → Bool
  | [] => true
  | (key, j) :: rest => isValidUtf8 key && writable j && fieldsWritable rest

end

end VirtualShell.Json
