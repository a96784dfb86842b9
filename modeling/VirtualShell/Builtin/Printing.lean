import VirtualShell.Filter.Format
import VirtualShell.Shell.Builtin

/-!
# Printing: `echo` and `printf`
-/

namespace VirtualShell

/-- How `echo` prints. -/
structure EchoOptions where
  newline : Bool := true
  escapes : Bool := false
  deriving DecidableEq

namespace EchoOptions

/-- A word of options holds nothing but their letters. -/
def isOptionWord (word : Bytes) : Bool :=
  match word with
  | Ascii.minus :: c :: letters => (c :: letters).all (fun l => l == 110 || l == 101 || l == 69)
  | _ => false

def applyLetter (o : EchoOptions) (letter : UInt8) : EchoOptions :=
  if letter = 110 then { o with newline := false } else { o with escapes := letter = 101 }

/-- Reads the options in front of the words that are printed. -/
def read (o : EchoOptions) : List Bytes → EchoOptions × List Bytes
  | [] => (o, [])
  | word :: rest =>
    if isOptionWord word then read ((word.drop 1).foldl applyLetter o) rest else (o, word :: rest)

/-- The words with spaces between them, escapes resolved up to a `\c`. -/
def joinUnescaped : List Bytes → Unescaped
  | [] => ⟨[], false⟩
  | word :: rest =>
    let u := unescape word
    if u.stopped || rest.isEmpty then u
    else
      let others := joinUnescaped rest
      { others with text := u.text ++ Ascii.space :: others.text }

/-- What is printed for words. -/
def render (o : EchoOptions) (words : List Bytes) : Bytes :=
  let body : Unescaped :=
    if o.escapes then joinUnescaped words else ⟨Bytes.join [Ascii.space] words, false⟩
  if o.newline && !body.stopped then body.text ++ [Ascii.newline] else body.text

end EchoOptions

namespace Builtin

open ShellAction

def echo : Builtin where
  name := ascii "echo"
  summary := ascii "print arguments"
  help := [
    ascii "Usage: echo [-n] [-e|-E] [STRING ...]",
    ascii "Print the arguments separated by single spaces.",
    ascii "  -n  do not print the trailing newline",
    ascii "  -e  interpret backslash escapes (\\n \\t \\0NNN \\xHH \\c ...)",
    ascii "  -E  print backslashes literally (default)"]
  answer c := do
    let (options, words) := EchoOptions.read {} c.arguments
    out (options.render words)
    return 0

def printf : Builtin where
  name := ascii "printf"
  summary := ascii "format and print data"
  help := [
    ascii "Usage: printf FORMAT [ARGUMENT ...]",
    ascii "Print ARGUMENTs according to FORMAT.",
    ascii "Directives: %s %b %c %d %i %o %u %x %X %e %f %g %%, with optional",
    ascii "flags (-+ #0), width and precision. Backslash escapes are expanded.",
    ascii "FORMAT is reused while ARGUMENTs remain."]
  answer c := do
    match c.arguments with
    | [] => c.refuse 1 (ascii "missing operand") [ascii "Usage: printf FORMAT [ARGUMENT ...]"]
    | format :: arguments =>
      let printed := Format.print (Format.read format) arguments
      printed.bad.forM fun argument =>
        c.complain .invalidArgument (ascii "'" ++ argument ++ ascii "': expected a numeric value")
      match printed.invalid with
      | none => do
        out printed.output
        return statusOf [printed.bad.isEmpty]
      | some source => do
        c.complain .invalidArgument (source ++ ascii ": invalid directive")
        out printed.output
        return 1

end Builtin

end VirtualShell
