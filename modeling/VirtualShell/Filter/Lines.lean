import VirtualShell.Filter.RunMerge
import VirtualShell.Number.Reading

/-!
# Filters of lines

What the commands that read lines and write lines make of them, apart from where the lines come
from: the first and the last lines, the counts, the sorted lines and the lines without repeats.

* `firstLines_append_fromLine`: what the first lines leave out is what the lines from there on hold.
* `lineLess` orders lines by the number at their start, if asked to, and then by their bytes.
* `countRepeats` and `collapse` join neighbours that are the same.
-/

namespace VirtualShell

/-! ## Line counts -/

/-- Which lines are asked for: the number of them, or the first of them. -/
structure LineCount where
  count : Nat := 10
  /-- Written with a plus sign: the count names the line to start from. -/
  fromStart : Bool := false
  deriving DecidableEq

inductive LineCountError
  | missing
  | invalid (text : Bytes)
  deriving DecidableEq

def LineCountError.message : LineCountError → Bytes
  | missing => ascii "option requires an argument -- 'n'"
  | invalid text => ascii "invalid number of lines: '" ++ text ++ ascii "'"

namespace LineCount

/-- Reads the text of a count: a sign, which a minus may be without meaning, and a number. -/
def read (text : Bytes) : Except LineCountError LineCount :=
  let fromStart := text.head? == some Ascii.plus
  let digits := if fromStart || text.head? == some Ascii.minus then text.drop 1 else text
  match parseInt digits with
  | some n => if n < 0 then .error (.invalid digits) else .ok ⟨n.toNat, fromStart⟩
  | none => .error (.invalid digits)

/-- The count that a word holds behind its dash: `-nN` or `-N`. -/
def inWord? (word : Bytes) : Option Bytes :=
  match word with
  | Ascii.minus :: c :: rest =>
    if c = 110 ∧ !rest.isEmpty then some rest
    else if isDigit c then some (c :: rest)
    else none
  | _ => none

/-- Reads words into a count, the last one given, and the files. -/
def readWords (count : LineCount) : List Bytes → Except LineCountError (LineCount × List Bytes)
  | [] => .ok (count, [])
  | word :: rest =>
    if word = ascii "-n" then
      match rest with
      | [] => .error .missing
      | value :: rest => do readWords (← read value) rest
    else match inWord? word with
      | some value => do readWords (← read value) rest
      | none => do
        let (count, files) ← readWords count rest
        return (count, word :: files)

end LineCount

/-! ## First and last lines -/

def firstLines (count : Nat) (lines : List Bytes) : List Bytes := lines.take count

/-- The lines from the one with a number on, lines counting from one. -/
def fromLine (number : Nat) (lines : List Bytes) : List Bytes := lines.drop (number - 1)

def lastLines (count : Nat) (lines : List Bytes) : List Bytes :=
  lines.drop (lines.length - count)

/-- The lines at the end that a count asks for. -/
def LineCount.tail (c : LineCount) (lines : List Bytes) : List Bytes :=
  if c.fromStart then fromLine c.count lines else lastLines c.count lines

theorem firstLines_append_fromLine (count : Nat) (lines : List Bytes) :
    firstLines count lines ++ fromLine (count + 1) lines = lines :=
  List.take_append_drop ..

theorem firstLines_append_lastLines (count : Nat) (lines : List Bytes) :
    firstLines (lines.length - count) lines ++ lastLines count lines = lines :=
  List.take_append_drop ..

/-! ## Counting -/

structure TextCounts where
  lines : Nat := 0
  words : Nat := 0
  bytes : Nat := 0
  deriving DecidableEq

namespace TextCounts

/-- The words of a text from a place on, given that a word is being read there. -/
def countWords (inWord : Bool) : Bytes → Nat
  | [] => 0
  | c :: rest =>
    if isSpace c then countWords false rest
    else (if inWord then 0 else 1) + countWords true rest

def ofText (text : Bytes) : TextCounts where
  lines := text.count Ascii.newline
  words := countWords false text
  bytes := text.length

def add (a b : TextCounts) : TextCounts :=
  ⟨a.lines + b.lines, a.words + b.words, a.bytes + b.bytes⟩

end TextCounts

/-! ## Sorting -/

/-- The number at the start of a line, zero when there is none. -/
def leadingNumber (line : Bytes) : Binary :=
  match Binary.read? .double line with
  | some (x, _) => x
  | none => .zero

/-- The order of lines: by their bytes, or by number first. -/
def lineLess (numeric : Bool) (a b : Bytes) : Bool :=
  if numeric then
    let x := leadingNumber a
    let y := leadingNumber b
    if x.eq y then a < b else x.lt y
  else a < b

/-- Drops each element that is like the last one kept. -/
def dropLike {α : Type} (alike : α → α → Bool) : List α → List α
  | [] => []
  | first :: rest => first :: go first rest
where
  go (kept : α) : List α → List α
    | [] => []
    | x :: rest => if alike kept x then go kept rest else x :: go x rest

structure SortOptions where
  numeric : Bool := false
  reverse : Bool := false
  unique : Bool := false

def sortLines (options : SortOptions) (lines : List Bytes) : List Bytes :=
  let less := lineLess options.numeric
  let sorted := RunMerge.sort less lines
  let sorted := if options.reverse then sorted.reverse else sorted
  if options.unique then dropLike (fun a b => !less a b && !less b a) sorted else sorted

/-! ## Repeats -/

/-- Neighbours that are the same as one line, with their number. -/
def countRepeats : List Bytes → List (Bytes × Nat)
  | [] => []
  | line :: rest =>
    match countRepeats rest with
    | [] => [(line, 1)]
    | (next, n) :: others =>
      if next = line then (line, n + 1) :: others else (line, 1) :: (next, n) :: others

/-- The lines without repeats of their neighbours. -/
def collapse (lines : List Bytes) : List Bytes := (countRepeats lines).map (·.1)

/-- A line behind its count, which takes at least seven places. -/
def renderCounted (entry : Bytes × Nat) : Bytes :=
  Bytes.padLeft 7 Ascii.space (decimal entry.2) ++ Ascii.space :: entry.1

end VirtualShell
