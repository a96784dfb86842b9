import VirtualShell.Filter.Lines
import VirtualShell.Filter.Sequence
import VirtualShell.Shell.Builtin

/-!
# Filters: `head`, `tail`, `wc`, `sort`, `uniq` and `seq`
-/

namespace VirtualShell.Builtin

open ShellAction

/-- Writes what a filter makes of the lines of the inputs. -/
def filterLines (c : Call) (files : List Bytes) (f : List Bytes → List Bytes) :
    ShellAction Int := do
  let (text, good) ← c.readInputs files
  out (Bytes.unlines (f (Bytes.lines text)))
  return statusOf [good]

/-- Goes on with the count and the files of a call. -/
def withLineCount (c : Call) (k : LineCount → List Bytes → ShellAction Int) : ShellAction Int :=
  match LineCount.readWords {} c.arguments with
  | .ok (count, files) => k count files
  | .error e => c.refuse 1 e.message

def head : Builtin where
  name := ascii "head"
  summary := ascii "print the first lines of input"
  help := [
    ascii "Usage: head [-n N] [FILE ...]",
    ascii "Print the first N lines (default 10)."]
  answer c := withLineCount c fun count files => filterLines c files (firstLines count.count)

def tail : Builtin where
  name := ascii "tail"
  summary := ascii "print the last lines of input"
  help := [
    ascii "Usage: tail [-n [+]N] [FILE ...]",
    ascii "Print the last N lines (default 10); +N starts at line N."]
  answer c := withLineCount c fun count files => filterLines c files count.tail

/-- The counts that the flags ask for, all of them when they ask for none, and a name. -/
def renderCounts (flags : Flags) (counts : TextCounts) (name : List Bytes) : Bytes :=
  let bytes := flags.has 'c' || flags.has 'm'
  let all := !flags.has 'l' && !flags.has 'w' && !bytes
  let shown (wanted : Bool) (n : Nat) : List Bytes := if wanted || all then [decimal n] else []
  Bytes.join [Ascii.space]
    (shown (flags.has 'l') counts.lines ++ shown (flags.has 'w') counts.words
      ++ shown bytes counts.bytes ++ name)

def wc : Builtin where
  name := ascii "wc"
  summary := ascii "count lines, words and bytes"
  help := [
    ascii "Usage: wc [-l] [-w] [-c] [FILE ...]",
    ascii "Print newline, word and byte counts."]
  answer c := c.withFlags "lwcm" fun flags => do
    if flags.operands.isEmpty then
      out (renderCounts flags (.ofText c.piped) [] ++ [Ascii.newline])
      return 0
    let counted ← flags.operands.mapM fun file =>
      return ((← c.readInput file).map TextCounts.ofText).map (file, ·)
    let counts := counted.filterMap id
    let total : TextCounts := counts.foldl (fun sum e => sum.add e.2) {}
    out (Bytes.unlines (counts.map fun e => renderCounts flags e.2 [e.1]))
    if 1 < flags.operands.length then
      out (renderCounts flags total [ascii "total"] ++ [Ascii.newline])
    return statusOf (counted.map Option.isSome)

def sort : Builtin where
  name := ascii "sort"
  summary := ascii "sort lines"
  help := [
    ascii "Usage: sort [-r] [-u] [-n] [FILE ...]",
    ascii "Sort lines. -r reverses, -u drops duplicates, -n compares numerically."]
  answer c := c.withFlags "run" fun flags =>
    filterLines c flags.operands
      (sortLines { numeric := flags.has 'n', reverse := flags.has 'r', unique := flags.has 'u' })

def uniq : Builtin where
  name := ascii "uniq"
  summary := ascii "collapse adjacent duplicate lines"
  help := [
    ascii "Usage: uniq [-c] [FILE]",
    ascii "Collapse adjacent duplicate lines; -c prefixes each with its count."]
  answer c := c.withFlags "c" fun flags =>
    filterLines c flags.operands fun lines =>
      if flags.has 'c' then (countRepeats lines).map renderCounted else collapse lines

def seq : Builtin where
  name := ascii "seq"
  summary := ascii "print a number sequence"
  help := [
    ascii "Usage: seq [FIRST [STEP]] LAST",
    ascii "Print numbers from FIRST (default 1) to LAST by STEP (default 1)."]
  answer c := do
    match Sequence.texts c.arguments with
    | .ok texts => do
      out (Bytes.unlines texts)
      return 0
    | .error e => c.refuse 1 e.message

end VirtualShell.Builtin
