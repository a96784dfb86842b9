/-!
# Byte strings

Every text of the shell (a command line, a path, a file's content) is a list of bytes in no
particular encoding. This module holds the classes of bytes, the cutting and joining of texts, and
the decimal, octal and hexadecimal writing of numbers.

* `fields` cuts at one byte and drops nothing but the separators; a separator at the very end opens
  no further field (`fields_concat_separator`).
* `trim` takes blanks off both ends and touches nothing between them (`trim_eq_self`).
* The order on texts is the lexicographic order of unsigned bytes, core's order on `List UInt8`.
-/

namespace VirtualShell

/-- A text: bytes in no particular encoding. -/
abbrev Bytes := List UInt8

/-- The bytes of an ASCII literal. -/
def ascii (s : String) : Bytes := s.toList.map Char.toUInt8

namespace Ascii

/-! ## Bytes with a name -/

@[match_pattern] abbrev tab : UInt8 := 9
@[match_pattern] abbrev newline : UInt8 := 10
@[match_pattern] abbrev carriageReturn : UInt8 := 13
@[match_pattern] abbrev space : UInt8 := 32
@[match_pattern] abbrev exclamation : UInt8 := 33
@[match_pattern] abbrev doubleQuote : UInt8 := 34
@[match_pattern] abbrev numberSign : UInt8 := 35
@[match_pattern] abbrev dollar : UInt8 := 36
@[match_pattern] abbrev percent : UInt8 := 37
@[match_pattern] abbrev ampersand : UInt8 := 38
@[match_pattern] abbrev quote : UInt8 := 39
@[match_pattern] abbrev openParen : UInt8 := 40
@[match_pattern] abbrev closeParen : UInt8 := 41
@[match_pattern] abbrev star : UInt8 := 42
@[match_pattern] abbrev plus : UInt8 := 43
@[match_pattern] abbrev comma : UInt8 := 44
@[match_pattern] abbrev minus : UInt8 := 45
@[match_pattern] abbrev dot : UInt8 := 46
@[match_pattern] abbrev slash : UInt8 := 47
@[match_pattern] abbrev zero : UInt8 := 48
@[match_pattern] abbrev two : UInt8 := 50
@[match_pattern] abbrev colon : UInt8 := 58
@[match_pattern] abbrev semicolon : UInt8 := 59
@[match_pattern] abbrev less : UInt8 := 60
@[match_pattern] abbrev equals : UInt8 := 61
@[match_pattern] abbrev greater : UInt8 := 62
@[match_pattern] abbrev question : UInt8 := 63
@[match_pattern] abbrev openBracket : UInt8 := 91
@[match_pattern] abbrev backslash : UInt8 := 92
@[match_pattern] abbrev closeBracket : UInt8 := 93
@[match_pattern] abbrev caret : UInt8 := 94
@[match_pattern] abbrev underscore : UInt8 := 95
@[match_pattern] abbrev backtick : UInt8 := 96
@[match_pattern] abbrev openBrace : UInt8 := 123
@[match_pattern] abbrev bar : UInt8 := 124
@[match_pattern] abbrev closeBrace : UInt8 := 125
@[match_pattern] abbrev tilde : UInt8 := 126

end Ascii

/-! ## Classes of bytes -/

/-- Space, tab, newline and carriage return separate words. -/
def isSeparator (c : UInt8) : Bool :=
  c == Ascii.space || c == Ascii.tab || c == Ascii.newline || c == Ascii.carriageReturn

/-- Space and the bytes 9 to 13 (tab, newline, vertical tab, form feed, carriage return). -/
def isSpace (c : UInt8) : Bool := c == Ascii.space || (9 ≤ c && c ≤ 13)

def isDigit (c : UInt8) : Bool := 48 ≤ c && c ≤ 57

def isOctalDigit (c : UInt8) : Bool := 48 ≤ c && c ≤ 55

def isUpper (c : UInt8) : Bool := 65 ≤ c && c ≤ 90

def isLower (c : UInt8) : Bool := 97 ≤ c && c ≤ 122

def isAlpha (c : UInt8) : Bool := isUpper c || isLower c

def isAlnum (c : UInt8) : Bool := isAlpha c || isDigit c

def isHexDigit (c : UInt8) : Bool := isDigit c || (65 ≤ c && c ≤ 70) || (97 ≤ c && c ≤ 102)

/-- Upper-case ASCII letters become lower-case; every other byte stays. -/
def toLower (c : UInt8) : UInt8 := if isUpper c then c + 32 else c

def toUpper (c : UInt8) : UInt8 := if isLower c then c - 32 else c

/-- The value of a digit in bases up to 36, letters of either case counting from ten. -/
def digitValue (c : UInt8) : Nat :=
  if isDigit c then c.toNat - 48
  else if isUpper c then c.toNat - 55
  else c.toNat - 87

namespace Bytes

/-! ## Trimming -/

/-- The text without its longest tail of bytes in the class. -/
def dropTrailing (p : UInt8 → Bool) (text : Bytes) : Bytes := (text.reverse.dropWhile p).reverse

def trimLeft (text : Bytes) : Bytes := text.dropWhile isSeparator

def trimRight (text : Bytes) : Bytes := dropTrailing isSeparator text

/-- The text without separators at either end. -/
def trim (text : Bytes) : Bytes := trimLeft (trimRight text)

@[simp] theorem trim_nil : trim [] = [] := rfl

/-- A text that neither starts nor ends with a separator is its own trimming. -/
theorem trim_eq_self {text : Bytes} (first : ∀ c ∈ text.head?, isSeparator c = false)
    (last : ∀ c ∈ text.getLast?, isSeparator c = false) : trim text = text := by
  have right : trimRight text = text := by
    unfold trimRight dropTrailing
    cases h : text.reverse with
    | nil => simp_all
    | cons c rest =>
      have hc : isSeparator c = false := last c (by simp [← List.head?_reverse, h])
      rw [List.dropWhile_cons_of_neg (by simp [hc]), ← h, List.reverse_reverse]
  rw [trim, right, trimLeft]
  cases text with
  | nil => rfl
  | cons c rest =>
    exact List.dropWhile_cons_of_neg (by simp [first c rfl])

/-! ## Cutting and joining -/

/-- The pieces between separators; a separator at the very end opens no further piece. -/
def fields (separator : UInt8) : Bytes → List Bytes
  | [] => []
  | c :: rest =>
    if c = separator then [] :: fields separator rest
    else match fields separator rest with
      | [] => [[c]]
      | first :: others => (c :: first) :: others

/-- The lines of a text, newlines removed. -/
def lines (text : Bytes) : List Bytes := fields Ascii.newline text

/-- Each line followed by a newline. -/
def unlines (lines : List Bytes) : Bytes := lines.flatMap (· ++ [Ascii.newline])

/-- The parts with the separator between neighbours. -/
def join (separator : Bytes) (parts : List Bytes) : Bytes := separator.intercalate parts

@[simp] theorem fields_nil (separator : UInt8) : fields separator [] = [] := rfl

theorem fields_eq_nil_iff {separator : UInt8} {text : Bytes} :
    fields separator text = [] ↔ text = [] := by
  cases text with
  | nil => simp
  | cons c rest =>
    simp only [fields, reduceCtorEq, iff_false]
    split
    · simp
    · split <;> simp

/-- A piece free of the separator, then the separator, is the first field. -/
theorem fields_concat_separator {separator : UInt8} {piece : Bytes} (h : separator ∉ piece)
    (rest : Bytes) :
    fields separator (piece ++ separator :: rest) = piece :: fields separator rest := by
  induction piece with
  | nil => simp [fields]
  | cons c piece ih =>
    have hc : c ≠ separator := fun e => h (by simp [e])
    rw [List.cons_append, fields, if_neg hc, ih (fun m => h (List.mem_cons_of_mem _ m))]

/-- A non-empty text free of the separator is one field. -/
theorem fields_eq_singleton {separator : UInt8} {piece : Bytes} (h : separator ∉ piece)
    (ne : piece ≠ []) : fields separator piece = [piece] := by
  induction piece with
  | nil => exact absurd rfl ne
  | cons c piece ih =>
    have hc : c ≠ separator := fun e => h (by simp [e])
    rw [fields, if_neg hc]
    cases piece with
    | nil => rfl
    | cons d piece => rw [ih (fun m => h (List.mem_cons_of_mem _ m)) (by simp)]

/-! ## Searching -/

/-- The parts before and after the last occurrence of a byte. -/
def splitAtLast? (c : UInt8) (text : Bytes) : Option (Bytes × Bytes) :=
  match text.reverse.dropWhile (· != c) with
  | [] => none
  | _ :: before => some (before.reverse, (text.reverse.takeWhile (· != c)).reverse)

/-- Every occurrence of a non-empty pattern, read from the left, gives way to the replacement. -/
def replaceAll (pattern replacement : Bytes) (text : Bytes) : Bytes :=
  go text.length text
where
  /-- Works through at most `fuel` more bytes. -/
  go : Nat → Bytes → Bytes
    | 0, text => text
    | _, [] => []
    | fuel + 1, c :: rest =>
      if pattern.isEmpty then c :: rest
      else if pattern.isPrefixOf (c :: rest) then
        replacement ++ go fuel ((c :: rest).drop pattern.length)
      else c :: go fuel rest

/-- The bytes before the first NUL. -/
def beforeNul (text : Bytes) : Bytes := text.takeWhile (· != 0)

theorem beforeNul_of_not_mem {text : Bytes} (h : 0 ∉ text) : beforeNul text = text := by
  induction text with
  | nil => rfl
  | cons c text ih =>
    have hc : c ≠ 0 := fun e => h (by simp [e])
    have := ih fun mem => h (List.mem_cons_of_mem _ mem)
    simp only [beforeNul] at this ⊢
    rw [List.takeWhile_cons_of_pos (by simpa using hc), this]

theorem beforeNul_append_of_mem {text : Bytes} (h : 0 ∈ text) (more : Bytes) :
    beforeNul (text ++ more) = beforeNul text := by
  induction text with
  | nil => cases h
  | cons c text ih =>
    by_cases hc : c = 0
    · simp [beforeNul, hc]
    · have mem : 0 ∈ text := (List.mem_cons.1 h).resolve_left fun e => hc e.symm
      have := ih mem
      simp only [beforeNul] at this ⊢
      rw [List.cons_append, List.takeWhile_cons_of_pos (by simpa using hc),
        List.takeWhile_cons_of_pos (by simpa using hc), this]

/-- Left-padded with a byte to at least the width. -/
def padLeft (width : Nat) (fill : UInt8) (text : Bytes) : Bytes :=
  List.replicate (width - text.length) fill ++ text

end Bytes

/-! ## Writing numbers -/

/-- A digit below sixteen, letters in lower case. -/
def digitByte (d : Nat) : UInt8 := if d < 10 then (48 + d).toUInt8 else (87 + d).toUInt8

/-- The digits of a number in a base from two to sixteen, without leading zeros. -/
def inBase (base n : Nat) : Bytes := (Nat.toDigits base n).map Char.toUInt8

def decimal (n : Nat) : Bytes := inBase 10 n

/-- Decimal digits after a minus sign for a negative number. -/
def signedDecimal (n : Int) : Bytes :=
  if n < 0 then Ascii.minus :: decimal n.natAbs else decimal n.natAbs

end VirtualShell
