import VirtualShell.Text.Bytes

/-!
# Named bytes and classes

The classes of bytes that a bracket expression can name (`[:alpha:]`, `[:digit:]`, …) and the names
of single ASCII characters (`[.hyphen.]`).
-/

namespace VirtualShell.ByteClass

/-! ## Classes -/

/-- Space and tab. -/
def isBlank (c : UInt8) : Bool := c == Ascii.space || c == Ascii.tab

/-- Bytes without a shape: those below the space, and 127. -/
def isControl (c : UInt8) : Bool := c < 32 || c == 127

/-- ASCII characters with a shape. -/
def isGraphic (c : UInt8) : Bool := 33 ≤ c && c ≤ 126

def isPrintable (c : UInt8) : Bool := 32 ≤ c && c ≤ 126

/-- Graphic characters that are neither letter nor digit. -/
def isPunctuation (c : UInt8) : Bool := isGraphic c && !isAlnum c

/-- Letters, digits and the underscore. -/
def isWord (c : UInt8) : Bool := isAlnum c || c == Ascii.underscore

/-- The class of a name. Where case does not count, upper and lower case are all letters. -/
def ofName? (ignoreCase : Bool) (name : Bytes) : Option (UInt8 → Bool) :=
  let cased (p : UInt8 → Bool) : UInt8 → Bool := if ignoreCase then isAlpha else p
  [(ascii "d", isDigit), (ascii "w", isWord), (ascii "s", isSpace), (ascii "alnum", isAlnum),
    (ascii "alpha", isAlpha), (ascii "blank", isBlank), (ascii "cntrl", isControl),
    (ascii "digit", isDigit), (ascii "graph", isGraphic), (ascii "lower", cased isLower),
    (ascii "print", isPrintable), (ascii "punct", isPunctuation), (ascii "space", isSpace),
    (ascii "upper", cased isUpper), (ascii "xdigit", isHexDigit)].lookup (name.map toLower)

/-! ## Single characters -/

/-- The names of the 128 ASCII characters, in order. -/
def characterNames : List Bytes :=
  let letters (first : Nat) : List Bytes := (List.range 26).map (fun i => [(first + i).toUInt8])
  let names (text : String) : List Bytes := Bytes.fields Ascii.space (ascii text)
  names "NUL SOH STX ETX EOT ENQ ACK alert backspace tab newline vertical-tab form-feed"
  ++ names "carriage-return SO SI DLE DC1 DC2 DC3 DC4 NAK SYN ETB CAN EM SUB ESC IS4 IS3 IS2 IS1"
  ++ names "space exclamation-mark quotation-mark number-sign dollar-sign percent-sign ampersand"
  ++ names "apostrophe left-parenthesis right-parenthesis asterisk plus-sign comma hyphen period"
  ++ names "slash zero one two three four five six seven eight nine colon semicolon"
  ++ names "less-than-sign equals-sign greater-than-sign question-mark commercial-at"
  ++ letters 65
  ++ names "left-square-bracket backslash right-square-bracket circumflex underscore grave-accent"
  ++ letters 97
  ++ names "left-curly-bracket vertical-line right-curly-bracket tilde DEL"

/-- The character of a name. -/
def character? (name : Bytes) : Option UInt8 :=
  (characterNames.findIdx? (· == name)).map Nat.toUInt8

end VirtualShell.ByteClass
