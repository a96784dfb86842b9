import VirtualShell.Lexing.Word

/-!
# Redirects

A segment carries redirects (`<`, `>`, `>>`, `2>`, `2>>`) anywhere between its words. They are
lifted out of the text, each leaving one space behind. A target follows its operator after blanks
and tabs and runs to the next separator or operator outside quotes.

* `liftRedirects` takes the operators and the raw targets out.
* `Command.read` resolves the targets; it fails when some target names nothing.
* Only a word that starts with `2>` names the error stream.
-/

namespace VirtualShell

inductive RedirectKind
  | input
  | output
  | append
  | error
  | errorAppend
  deriving DecidableEq, Inhabited

namespace RedirectKind

/-- The operator as written. -/
def symbol : RedirectKind → Bytes
  | input => ascii "<"
  | output => ascii ">"
  | append => ascii ">>"
  | error => ascii "2>"
  | errorAppend => ascii "2>>"

/-- Names standard output. -/
def isOutput : RedirectKind → Bool
  | output | append => true
  | _ => false

/-- Writes behind what is there. -/
def appends : RedirectKind → Bool
  | append | errorAppend => true
  | _ => false

/-- The operator at the start of the text. A `2` counts only at the start of a word. -/
def read? (wordStart : Bool) (text : Bytes) : Option RedirectKind :=
  if (ascii "2>>").isPrefixOf text && wordStart then some .errorAppend
  else if (ascii "2>").isPrefixOf text && wordStart then some .error
  else if (ascii ">>").isPrefixOf text then some .append
  else if (ascii ">").isPrefixOf text then some .output
  else if (ascii "<").isPrefixOf text then some .input
  else none

theorem symbol_isPrefixOf_of_read? {wordStart : Bool} {text : Bytes} {kind : RedirectKind}
    (h : read? wordStart text = some kind) : kind.symbol.isPrefixOf text = true := by
  unfold read? at h
  repeat' split at h
  all_goals first
    | (injection h with h; subst h; simp_all [symbol])
    | simp at h

end RedirectKind

/-- An operator with the text of its target, quotes and escapes still in it. -/
structure RawRedirect where
  kind : RedirectKind
  source : Bytes
  deriving DecidableEq

structure Redirect where
  kind : RedirectKind
  target : Bytes
  deriving DecidableEq

/-- A target reaches up to a separator or an operator at top level of its own quotes. -/
def endsTarget (m : Mark) : Bool :=
  m.before.atTopLevel &&
    match m.taken with
    | c :: _ => isSeparator c || c == Ascii.greater || c == Ascii.less
    | [] => false

/-- The target text behind an operator, and how many bytes it takes with the blanks before it. -/
def targetAt (text : Bytes) : Bytes × Nat :=
  let blanks := text.takeWhile (fun c => c == Ascii.space || c == Ascii.tab)
  let source :=
    ((marks {} (text.drop blanks.length)).takeWhile (fun m => !endsTarget m)).flatMap Mark.taken
  (source, blanks.length + source.length)

/-- The redirect at a place of a segment, given the delimiters open there and the byte before it,
and how many bytes it takes: the operator, blanks and the target. -/
def redirectAt? (d : Delimiters) (previous : Option UInt8) (text : Bytes) :
    Option (RawRedirect × Nat) :=
  if d.atTopLevel then
    (RedirectKind.read? (previous.all isSeparator) text).map fun kind =>
      let (source, taken) := targetAt (text.drop kind.symbol.length)
      (⟨kind, source⟩, kind.symbol.length + taken)
  else none

/-- Lifts the redirects out of the rest of a segment, given the delimiters open at its start and
the byte before it. -/
def liftRedirectsFrom (d : Delimiters) (previous : Option UInt8) (text : Bytes) :
    Bytes × List RawRedirect :=
  match text with
  | [] => ([], [])
  | c :: rest =>
    match redirectAt? d previous (c :: rest) with
    | some (redirect, taken) =>
      -- an operator takes at least its first byte
      let (remaining, others) :=
        liftRedirectsFrom d ((c :: rest).take taken).getLast? (rest.drop (taken - 1))
      (Ascii.space :: remaining, redirect :: others)
    | none =>
      if c = Ascii.dollar ∧ rest.head? = some Ascii.openParen ∧ d.admitsSubstitution then
        let (remaining, others) := liftRedirectsFrom d.enter (some Ascii.openParen) (rest.drop 1)
        (c :: Ascii.openParen :: remaining, others)
      else
        let (remaining, others) := liftRedirectsFrom (d.feed c) (some c) rest
        (c :: remaining, others)
termination_by text.length
decreasing_by
  all_goals simp only [List.length_cons, List.length_drop]
  all_goals omega

/-- The text of a segment without its redirects, and the redirects in order. -/
def liftRedirects (segment : Bytes) : Bytes × List RawRedirect := liftRedirectsFrom {} none segment

/-- The first word of the target's text, if there is one and it is not empty. -/
def RawRedirect.resolve? (raw : RawRedirect) : Option Redirect :=
  match words raw.source with
  | [] => none
  | word :: _ => if word.text.isEmpty then none else some ⟨raw.kind, word.text⟩

/-- A segment with its redirects lifted out. -/
structure Command where
  text : Bytes
  redirects : List Redirect
  deriving DecidableEq

/-- An operator stands without a target. -/
inductive RedirectError
  | missingTarget
  deriving DecidableEq

def RedirectError.message : RedirectError → Bytes
  | missingTarget => ascii "syntax error near unexpected token 'newline'"

/-- Reads a segment. -/
def Command.read (segment : Bytes) : Except RedirectError Command :=
  let (text, raw) := liftRedirects segment
  match raw.mapM RawRedirect.resolve? with
  | some redirects => .ok ⟨Bytes.trim text, redirects⟩
  | none => .error .missingTarget

end VirtualShell
