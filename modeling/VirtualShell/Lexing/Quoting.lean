import VirtualShell.Text.Bytes

/-!
# Quoting words

A word between single quotes means just itself to every reader of a line; a single quote inside it
is written as a quote that ends the text, an escaped quote and a quote that goes on.
-/

namespace VirtualShell

/-- The word as text that reads back as the word. -/
def quoteWord (word : Bytes) : Bytes :=
  Ascii.quote
    :: word.flatMap (fun c => if c = Ascii.quote then ascii "'\\''" else [c]) ++ [Ascii.quote]

/-- The line that calls a command with just these words. -/
def commandLine (words : List Bytes) : Bytes := Bytes.join [Ascii.space] (words.map quoteWord)

end VirtualShell
