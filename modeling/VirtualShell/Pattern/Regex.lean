import VirtualShell.Pattern.ByteClass

/-!
# Regular expressions over bytes

The syntax tree of a regular expression and a backtracking matcher. An expression is matched
against what stands at a `Place` of a text; what follows it is a `Goal`, the matcher of the rest,
so that every way to match is tried in order: the left alternative first, a greedy repetition once
more before it is left, a lazy one left before it is repeated.

* `Regex.run` is the matcher. It answers with the texts of the groups even when it fails, because
  the groups of a look-ahead that succeeded keep their texts.
* A repetition is entered at most twice at one place, so a body that matches nothing ends it.
* `Regex.searchIn` finds a match anywhere in a text, `Regex.matchesAll` matches the whole text.
-/

namespace VirtualShell

/-- A regular expression. -/
inductive Regex
  | empty
  | byte (accepts : UInt8 → Bool)
  | lineStart
  | lineEnd
  /-- A boundary between a word byte and anything else, or the lack of one. -/
  | wordBoundary (negated : Bool)
  | seq (first second : Regex)
  | alt (first second : Regex)
  /-- Any number of times. -/
  | star (greedy : Bool) (body : Regex)
  | times (count : Nat) (body : Regex)
  | upTo (count : Nat) (greedy : Bool) (body : Regex)
  | group (index : Nat) (body : Regex)
  /-- The text of a group once more; letters of either case are one if asked for. -/
  | backReference (index : Nat) (ignoreCase : Bool)
  | lookAhead (negated : Bool) (body : Regex)

namespace Regex

/-! ## Places and goals -/

/-- A place in the text that is searched. -/
structure Place where
  previous : Option UInt8
  rest : Bytes
  /-- How many bytes stand before it. -/
  offset : Nat
  /-- The text starts here. -/
  atStart : Bool

/-- The texts that groups matched. -/
abbrev Groups := List (Nat × Bytes)

namespace Groups

def find? (groups : Groups) (index : Nat) : Option Bytes := groups.lookup index

/-- Gives a group a text, or takes its text away. -/
def set (groups : Groups) (index : Nat) (text : Option Bytes) : Groups :=
  let others := groups.filter (fun g => g.1 != index)
  match text with
  | some t => (index, t) :: others
  | none => others

end Groups

structure Verdict where
  matched : Bool
  groups : Groups

/-- What is to be matched from a place on. -/
abbrev Goal := Place → Groups → Verdict

/-- Tries the second when the first fails. -/
def orElse (first : Verdict) (second : Groups → Verdict) : Verdict :=
  if first.matched then first else second first.groups

/-! ## Repetitions -/

/-- So many times. -/
def runTimes (body : Place → Groups → Goal → Verdict) (goal : Goal) : Nat → Goal
  | 0 => goal
  | n + 1 => fun place groups => body place groups (runTimes body goal n)

/-- At most so many times. -/
def runUpTo (body : Place → Groups → Goal → Verdict) (greedy : Bool) (goal : Goal) : Nat → Goal
  | 0 => goal
  | n + 1 => fun place groups =>
    if greedy then
      orElse (body place groups (runUpTo body greedy goal n)) (fun groups => goal place groups)
    else
      orElse (goal place groups) (fun groups => body place groups (runUpTo body greedy goal n))

/-- Any number of times, the body being entered at most `fuel` times. `last` is the offset at which
it was entered last, and how often it was entered there. -/
def runStar (body : Place → Groups → Goal → Verdict) (greedy : Bool) (goal : Goal) :
    Nat → Nat × Nat → Goal
  | 0, _ => goal
  | fuel + 1, last => fun place groups =>
    let entered := if last.1 = place.offset then last.2 else 0
    let more (groups : Groups) : Verdict :=
      if entered < 2 then
        body place groups (runStar body greedy goal fuel (place.offset, entered + 1))
      else ⟨false, groups⟩
    if greedy then orElse (more groups) (fun groups => goal place groups)
    else orElse (goal place groups) more

/-! ## Matching -/

/-- Just one side of the place is a word byte. -/
def atWordBoundary (place : Place) : Bool :=
  place.previous.any ByteClass.isWord != place.rest.head?.any ByteClass.isWord

/-- The place after some bytes of the rest. -/
def Place.advance (place : Place) (count : Nat) : Place :=
  if count = 0 then place
  else
    { previous := (place.rest.take count).getLast?
      rest := place.rest.drop count
      offset := place.offset + count
      atStart := false }

/-- The text repeats at the start of the rest. -/
def repeats (ignoreCase : Bool) (text rest : Bytes) : Bool :=
  if ignoreCase then (text.map toLower).isPrefixOf (rest.map toLower) else text.isPrefixOf rest

/-- Where a look-ahead starts. In a search from the start of a text the look-ahead takes its place
for the start; a later one (`midText`) still sees the byte before it. -/
def lookFrom (midText : Bool) (place : Place) : Place :=
  if midText then place else { place with previous := none, atStart := true }

/-- Matches an expression and then the goal. -/
def run (midText : Bool) : Regex → Place → Groups → Goal → Verdict
  | empty, place, groups, goal => goal place groups
  | byte accepts, place, groups, goal =>
    match place.rest with
    | [] => ⟨false, groups⟩
    | c :: _ => if accepts c then goal (place.advance 1) groups else ⟨false, groups⟩
  | lineStart, place, groups, goal => if place.atStart then goal place groups else ⟨false, groups⟩
  | lineEnd, place, groups, goal =>
    if place.rest.isEmpty then goal place groups else ⟨false, groups⟩
  | wordBoundary negated, place, groups, goal =>
    if atWordBoundary place != negated then goal place groups else ⟨false, groups⟩
  | seq first second, place, groups, goal =>
    run midText first place groups (fun place groups => run midText second place groups goal)
  | alt first second, place, groups, goal =>
    orElse (run midText first place groups goal)
      (fun groups => run midText second place groups goal)
  | star greedy body, place, groups, goal =>
    runStar (run midText body) greedy goal (2 * place.rest.length + 3) (0, 0) place groups
  | times count body, place, groups, goal =>
    runTimes (run midText body) goal count place groups
  | upTo count greedy body, place, groups, goal =>
    runUpTo (run midText body) greedy goal count place groups
  | group index body, place, groups, goal =>
    run midText body place groups fun after inner =>
      let text := place.rest.take (after.offset - place.offset)
      let verdict := goal after (inner.set index (some text))
      if verdict.matched then verdict
      else ⟨false, verdict.groups.set index (inner.find? index)⟩
  | backReference index ignoreCase, place, groups, goal =>
    match groups.find? index with
    | none => ⟨false, groups⟩
    | some text =>
      if repeats ignoreCase text place.rest then goal (place.advance text.length) groups
      else ⟨false, groups⟩
  | lookAhead negated body, place, groups, goal =>
    let seen := run midText body (lookFrom midText place) groups (fun _ groups => ⟨true, groups⟩)
    let groups := if seen.matched then seen.groups else groups
    if seen.matched != negated then goal place groups else ⟨false, groups⟩

/-! ## Searching -/

/-- A match starts at some place of the text that has this byte before it. -/
def searchAfter (regex : Regex) (previous : UInt8) (text : Bytes) : Bool :=
  (run true regex ⟨some previous, text, 0, false⟩ [] (fun _ groups => ⟨true, groups⟩)).matched ||
    match text with
    | [] => false
    | c :: rest => searchAfter regex c rest

/-- A match starts at some place of the text. -/
def searchIn (regex : Regex) (text : Bytes) : Bool :=
  (run false regex ⟨none, text, 0, true⟩ [] (fun _ groups => ⟨true, groups⟩)).matched ||
    match text with
    | [] => false
    | c :: rest => searchAfter regex c rest

/-- The whole text matches. -/
def matchesAll (regex : Regex) (text : Bytes) : Bool :=
  (run false regex ⟨none, text, 0, true⟩ []
    (fun place groups => ⟨place.rest.isEmpty, groups⟩)).matched

end Regex

end VirtualShell
