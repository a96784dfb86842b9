import VirtualShell.Lexing.Delimiters

/-!
# Command substitutions

`$(` … `)` and a text between backticks, anywhere but in single quotes, give way to the output of
the command inside, less one newline at its end. The output goes back into text that is still to be
cut into redirects and words, so the bytes that would mean something there are escaped.

* `closingParen?` and `closingBacktick?` find the end of a substitution.
* `substitutions` takes a text apart into what stays and what is to be run.
* `expandSubstitutions` runs the commands from left to right in any monad.
-/

namespace VirtualShell

/-! ## The end of a substitution -/

/-- How many bytes stand before the parenthesis that closes the `depth`-th open one. Inside double
quotes only a backslash and the closing quote count. -/
def closingParenFrom? (depth : Nat) (state resume : LexState) : Bytes → Option Nat
  | [] => none
  | c :: rest =>
    match state with
    | .escaped => (closingParenFrom? depth resume resume rest).map (· + 1)
    | .singleQuoted =>
      let state := if c = Ascii.quote then .normal else .singleQuoted
      (closingParenFrom? depth state resume rest).map (· + 1)
    | .doubleQuoted =>
      if c = Ascii.backslash then
        (closingParenFrom? depth .escaped .doubleQuoted rest).map (· + 1)
      else
        let state := if c = Ascii.doubleQuote then .normal else .doubleQuoted
        (closingParenFrom? depth state resume rest).map (· + 1)
    | .normal =>
      if c = Ascii.backslash then (closingParenFrom? depth .escaped .normal rest).map (· + 1)
      else if c = Ascii.doubleQuote then
        (closingParenFrom? depth .doubleQuoted resume rest).map (· + 1)
      else if c = Ascii.quote then
        (closingParenFrom? depth .singleQuoted resume rest).map (· + 1)
      else if c = Ascii.openParen then
        (closingParenFrom? (depth + 1) .normal resume rest).map (· + 1)
      else if c = Ascii.closeParen then
        if depth ≤ 1 then some 0
        else (closingParenFrom? (depth - 1) .normal resume rest).map (· + 1)
      else (closingParenFrom? depth .normal resume rest).map (· + 1)

/-- How many bytes of the text behind an opening parenthesis stand before the closing one. -/
def closingParen? (text : Bytes) : Option Nat := closingParenFrom? 1 .normal .normal text

/-- How many bytes of the text behind a backtick stand before the closing one. A backslash takes
the next byte with it. -/
def closingBacktickFrom? (escaped : Bool) : Bytes → Option Nat
  | [] => none
  | c :: rest =>
    if escaped then (closingBacktickFrom? false rest).map (· + 1)
    else if c = Ascii.backslash then (closingBacktickFrom? true rest).map (· + 1)
    else if c = Ascii.backtick then some 0
    else (closingBacktickFrom? false rest).map (· + 1)

def closingBacktick? (text : Bytes) : Option Nat := closingBacktickFrom? false text

/-! ## Taking a text apart -/

inductive SubstitutionForm
  | paren
  | backtick
  deriving DecidableEq

/-- A part of a text that may hold substitutions. -/
inductive TextPart
  | literal (text : Bytes)
  | substitution (form : SubstitutionForm) (command : Bytes) (inDoubleQuotes : Bool)
  /-- An opener without its end; it and all behind it stay as they are. -/
  | unclosed (form : SubstitutionForm) (text : Bytes)
  deriving DecidableEq

namespace TextPart

/-- The part as it stood in the text. -/
def source : TextPart → Bytes
  | literal text => text
  | substitution .paren command _ =>
    Ascii.dollar :: Ascii.openParen :: (command ++ [Ascii.closeParen])
  | substitution .backtick command _ => Ascii.backtick :: (command ++ [Ascii.backtick])
  | unclosed _ text => text

/-- Puts bytes before the parts. -/
def prepend (text : Bytes) : List TextPart → List TextPart
  | literal t :: parts => literal (text ++ t) :: parts
  | parts => literal text :: parts

end TextPart

/-- The quotes open at a place where substitutions are looked for. -/
structure QuoteState where
  single : Bool := false
  double : Bool := false
  deriving DecidableEq

/-- Takes the rest of a text apart, given the quotes open at its start. -/
def substitutionsFrom (q : QuoteState) (text : Bytes) : List TextPart :=
  match text with
  | [] => []
  | c :: rest =>
    if q.single then
      TextPart.prepend [c] (substitutionsFrom { q with single := c != Ascii.quote } rest)
    else if c = Ascii.backslash then
      TextPart.prepend (c :: rest.take 1) (substitutionsFrom q (rest.drop 1))
    else if c = Ascii.quote ∧ !q.double then
      TextPart.prepend [c] (substitutionsFrom { q with single := true } rest)
    else if c = Ascii.doubleQuote then
      TextPart.prepend [c] (substitutionsFrom { q with double := !q.double } rest)
    else if c = Ascii.dollar ∧ rest.head? = some Ascii.openParen then
      let behind := rest.drop 1
      match closingParen? behind with
      | none => [.unclosed .paren (c :: rest)]
      | some n =>
        .substitution .paren (behind.take n) q.double
          :: substitutionsFrom q (behind.drop (n + 1))
    else if c = Ascii.backtick then
      match closingBacktick? rest with
      | none => [.unclosed .backtick (c :: rest)]
      | some n =>
        .substitution .backtick (rest.take n) q.double :: substitutionsFrom q (rest.drop (n + 1))
    else TextPart.prepend [c] (substitutionsFrom q rest)
termination_by text.length
decreasing_by
  all_goals simp +zetaDelta only [List.length_cons, List.length_drop]
  all_goals omega

/-- The parts of a text. -/
def substitutions (text : Bytes) : List TextPart := substitutionsFrom {} text

/-! ## Putting output in place -/

/-- What a command wrote. -/
structure Captured where
  out : Bytes := []
  err : Bytes := []
  code : Int := 0
  deriving DecidableEq, Inhabited

/-- A byte of the output that would mean something where the output goes. -/
def isSpecialInOutput (inDoubleQuotes : Bool) (c : UInt8) : Bool :=
  c == Ascii.backslash || c == Ascii.doubleQuote
    || (!inDoubleQuotes && (c == Ascii.quote || c == Ascii.greater || c == Ascii.less))

/-- The output as text that reads back as the output. -/
def escapeOutput (inDoubleQuotes : Bool) (output : Bytes) : Bytes :=
  output.flatMap fun c =>
    if isSpecialInOutput inDoubleQuotes c then [Ascii.backslash, c] else [c]

/-- The text without the one newline at its end. -/
def dropFinalNewline (output : Bytes) : Bytes :=
  if output.getLast? = some Ascii.newline then output.dropLast else output

/-- A text with its substitutions put in place, and what their commands wrote as errors. -/
structure Substituted where
  text : Bytes
  err : Bytes
  deriving DecidableEq

/-- Runs the commands of the parts from left to right and puts their outputs in place. -/
def runSubstitutions {m : Type → Type} [Monad m] (run : Bytes → m Captured)
    (unclosed : SubstitutionForm → m Unit) : List TextPart → m Substituted
  | [] => pure ⟨[], []⟩
  | .literal text :: parts => do
    let others ← runSubstitutions run unclosed parts
    pure { others with text := text ++ others.text }
  | .unclosed form text :: parts => do
    unclosed form
    let others ← runSubstitutions run unclosed parts
    pure { others with text := text ++ others.text }
  | .substitution _ command inDoubleQuotes :: parts => do
    let captured ← run command
    let output := escapeOutput inDoubleQuotes (dropFinalNewline captured.out)
    let others ← runSubstitutions run unclosed parts
    pure ⟨output ++ others.text, captured.err ++ others.err⟩

/-- Replaces the substitutions of a text by the output of their commands. -/
def expandSubstitutions {m : Type → Type} [Monad m] (run : Bytes → m Captured)
    (unclosed : SubstitutionForm → m Unit) (text : Bytes) : m Substituted :=
  runSubstitutions run unclosed (substitutions text)

end VirtualShell
