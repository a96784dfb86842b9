import VirtualShell.Lexing.Delimiters

/-!
# Words

A command text is cut into words at separators outside quotes. Quotes are taken away and escapes
resolved on the way: outside quotes a backslash makes the next byte literal, inside double quotes
it does so before `$`, a backtick, `"`, a backslash and a newline only, and stays in the word
before anything else. Quotes with nothing between them still make a word. An open quote runs to
the end of the text, and a lone backslash at the end is dropped.

A word is a *glob candidate* when `*` or `?` appears in it unquoted and none appears quoted.
-/

namespace VirtualShell

/-- A word of a command, quotes and escapes resolved. -/
structure Word where
  text : Bytes
  globCandidate : Bool := false
  deriving DecidableEq

/-- A byte that makes a word a pattern of file names. -/
def isGlobByte (c : UInt8) : Bool := c == Ascii.star || c == Ascii.question

/-- A backslash inside double quotes makes just these literal. -/
def isEscapableInQuotes (c : UInt8) : Bool :=
  c == Ascii.dollar || c == Ascii.backtick || c == Ascii.doubleQuote || c == Ascii.backslash
    || c == Ascii.newline

/-- The reading of a text so far: the quoting state, the word in progress and the words done. -/
structure WordScan where
  state : LexState := .normal
  /-- The state that an escape goes back to. -/
  resume : LexState := .normal
  /-- The word in progress, last byte first; `none` between words. -/
  current : Option Bytes := none
  unquotedGlob : Bool := false
  quotedGlob : Bool := false
  /-- The words done, last first. -/
  done : List Word := []

namespace WordScan

/-- Puts an unquoted byte into the word in progress. -/
def addUnquoted (s : WordScan) (c : UInt8) : WordScan :=
  { s with
    current := some (c :: s.current.getD [])
    unquotedGlob := s.unquotedGlob || isGlobByte c }

/-- Puts a quoted byte into the word in progress. -/
def addQuoted (s : WordScan) (c : UInt8) : WordScan :=
  { s with
    current := some (c :: s.current.getD [])
    quotedGlob := s.quotedGlob || isGlobByte c }

/-- Starts a word, if none is in progress. -/
def openWord (s : WordScan) : WordScan := { s with current := some (s.current.getD []) }

/-- Ends the word in progress, if any. -/
def flush (s : WordScan) : WordScan :=
  match s.current with
  | none => s
  | some letters =>
    { s with
      current := none
      unquotedGlob := false
      quotedGlob := false
      done := ⟨letters.reverse, s.unquotedGlob && !s.quotedGlob⟩ :: s.done }

/-- Reads one byte. -/
def step (s : WordScan) (c : UInt8) : WordScan :=
  match s.state with
  | .escaped =>
    let s :=
      if s.resume == .doubleQuoted && !isEscapableInQuotes c then
        { s with current := some (Ascii.backslash :: s.current.getD []) }
      else s
    { s.addQuoted c with state := s.resume }
  | .singleQuoted => if c = Ascii.quote then { s with state := .normal } else s.addQuoted c
  | .doubleQuoted =>
    if c = Ascii.backslash then { s with state := .escaped, resume := .doubleQuoted }
    else if c = Ascii.doubleQuote then { s with state := .normal }
    else s.addQuoted c
  | .normal =>
    if isSeparator c then s.flush
    else if c = Ascii.backslash then { s with state := .escaped, resume := .normal }
    else if c = Ascii.quote then { s.openWord with state := .singleQuoted }
    else if c = Ascii.doubleQuote then { s.openWord with state := .doubleQuoted }
    else s.addUnquoted c

/-- Reads a text. -/
def read (s : WordScan) (text : Bytes) : WordScan := text.foldl step s

/-- The words read. -/
def finish (s : WordScan) : List Word := s.flush.done.reverse

@[simp] theorem read_nil (s : WordScan) : s.read [] = s := rfl

@[simp] theorem read_append (s : WordScan) (a b : Bytes) : s.read (a ++ b) = (s.read a).read b :=
  List.foldl_append

end WordScan

/-- The words of a text. -/
def words (text : Bytes) : List Word := (WordScan.read {} text).finish

/-- The texts of the words. -/
def wordTexts (text : Bytes) : List Bytes := (words text).map Word.text

/-- The quote that a text leaves open. -/
def openQuote? (text : Bytes) : Option LexState :=
  match (WordScan.read {} text).state with
  | .singleQuoted => some .singleQuoted
  | .doubleQuoted => some .doubleQuoted
  | _ => none

@[simp] theorem words_nil : words [] = [] := rfl

end VirtualShell
