import VirtualShell.Pattern.Regex

/-!
# The written form of regular expressions

`Regex.parse?` reads an expression: branches between bars, terms one after another, `*`, `+`, `?`
and `{n,m}` behind a term and a further `?` to make them lazy, groups, look-aheads, back references,
classes and bracket expressions. A text that is no expression is rejected; nothing says why.

* A back reference must name a group that is complete before it.
* `Regex.read?` holds an expression to `stateLimit`: the number of states of its automaton, in which
  a counted repetition is written out.
-/

namespace VirtualShell.Regex

/-! ## Escapes -/

/-- What a backslash and the bytes behind it stand for. -/
inductive EscapeItem
  | char (c : UInt8)
  | boundary (negated : Bool)
  | byteClass (accepts : UInt8 → Bool)
  | reference (digits : Bytes)

/-- The byte of a letter that stands for a control character; `\b` is one in brackets only. -/
def controlEscape? (inBracket : Bool) (c : UInt8) : Option UInt8 :=
  if c = Ascii.zero then some 0
  else if c = 98 ∧ inBracket then some 8
  else if c = 102 then some 12
  else if c = 110 then some Ascii.newline
  else if c = 114 then some Ascii.carriageReturn
  else if c = 116 then some Ascii.tab
  else if c = 118 then some 11
  else none

/-- The class of `\d`, `\s` and `\w`, or its complement for a letter in upper case. -/
def classEscape? (c : UInt8) : Option (UInt8 → Bool) :=
  let complement (p : UInt8 → Bool) : UInt8 → Bool := fun x => if isUpper c then !p x else p x
  if toLower c = 100 then some (complement isDigit)
  else if toLower c = 115 then some (complement isSpace)
  else if toLower c = 119 then some (complement ByteClass.isWord)
  else none

/-- The byte of so many hexadecimal digits, modulo 256, and the text behind them. -/
def readHex? (count : Nat) (text : Bytes) : Option (EscapeItem × Bytes) :=
  let digits := text.take count
  if digits.length = count ∧ digits.all isHexDigit then
    some (.char (digits.foldl (fun n c => n * 16 + digitValue c) 0).toUInt8, text.drop count)
  else none

/-- Reads what stands behind a backslash. -/
def readEscape? (inBracket : Bool) : Bytes → Option (EscapeItem × Bytes)
  | [] => none
  | c :: rest =>
    match controlEscape? inBracket c with
    | some b => some (.char b, rest)
    | none =>
      match classEscape? c with
      | some accepts => some (.byteClass accepts, rest)
      | none =>
        if c = 98 then some (.boundary false, rest)
        else if c = 66 then some (.boundary true, rest)
        else if c = 99 then
          match rest with
          | [] => none
          | d :: rest => some (.char d, rest)
        else if c = 120 then readHex? 2 rest
        else if c = 117 then readHex? 4 rest
        else if isDigit c then
          some (.reference (c :: rest.takeWhile isDigit), rest.dropWhile isDigit)
        else some (.char c, rest)

/-! ## Bracket expressions -/

/-- The byte, or both cases of a letter where case does not count. -/
def acceptsByte (ignoreCase : Bool) (c x : UInt8) : Bool :=
  if ignoreCase then toLower x == toLower c else x == c

/-- The order of ranges, in which the bytes from 128 on come before the others. -/
def rangeOrder (c : UInt8) : UInt8 := c + 128

/-- The byte lies in the range, or where case does not count one of its two cases does. -/
def acceptsRange (ignoreCase : Bool) (first last x : UInt8) : Bool :=
  let between (y : UInt8) : Bool :=
    rangeOrder first ≤ rangeOrder y && rangeOrder y ≤ rangeOrder last
  if ignoreCase then between (toLower x) || between (toUpper x) else between x

inductive BracketToken
  | close
  | dash
  | char (c : UInt8)
  /-- A single character by its name, which ends no range. -/
  | named (c : UInt8)
  | byteClass (accepts : UInt8 → Bool)

/-- The byte that the item is as the end of a range. -/
def BracketToken.rangeEnd? : BracketToken → Option UInt8
  | char c => some c
  | dash => some Ascii.minus
  | _ => none

/-- Reads a name up to the mark that opened it and a closing bracket. -/
def readName? (mark : UInt8) (text : Bytes) : Option (Bytes × Bytes) :=
  match text.dropWhile (· != mark) with
  | _ :: Ascii.closeBracket :: rest => some (text.takeWhile (· != mark), rest)
  | _ => none

/-- Reads the next item of a bracket expression. -/
def readBracketToken? (ignoreCase : Bool) : Bytes → Option (BracketToken × Bytes)
  | [] => none
  | c :: rest =>
    if c = Ascii.minus then some (.dash, rest)
    else if c = Ascii.closeBracket then some (.close, rest)
    else if c = Ascii.backslash then
      match readEscape? true rest with
      | some (.char c, rest) => some (.char c, rest)
      | some (.byteClass accepts, rest) => some (.byteClass accepts, rest)
      | _ => none
    else if c = Ascii.openBracket then
      match rest with
      | [] => none
      | mark :: behind =>
        if mark = Ascii.dot then do
          let (name, rest) ← readName? mark behind
          return (.named (← ByteClass.character? name), rest)
        else if mark = Ascii.colon then do
          let (name, rest) ← readName? mark behind
          return (.byteClass (← ByteClass.ofName? ignoreCase name), rest)
        else if mark = Ascii.equals then do
          let (name, rest) ← readName? mark behind
          return (.byteClass (acceptsByte true (← ByteClass.character? name)), rest)
        else some (.char c, rest)
    else some (.char c, rest)

/-- What stands before the next item of a bracket expression. -/
inductive BracketLast
  /-- Nothing, or a whole range. -/
  | done
  /-- A byte that may start a range. -/
  | char (c : UInt8)
  | byteClass

/-- The bytes accepted so far, and the last item. -/
structure Bracket where
  accepts : UInt8 → Bool := fun _ => false
  last : BracketLast := .done

namespace Bracket

def add (b : Bracket) (accepts : UInt8 → Bool) (last : BracketLast) : Bracket :=
  { accepts := fun x => b.accepts x || accepts x, last }

/-- Reads the items up to the closing bracket. A dash is literal at either end and behind a whole
range; it joins two bytes to a range, and may not stand behind a class. -/
def readWithin? (ignoreCase : Bool) : Nat → Bracket → Bytes → Option (Bracket × Bytes)
  | 0, _, _ => none
  | fuel + 1, b, text => do
    let char (c : UInt8) : Bracket := b.add (acceptsByte ignoreCase c) (.char c)
    let (token, rest) ← readBracketToken? ignoreCase text
    match token with
    | .close => return (b, rest)
    | .char c => readWithin? ignoreCase fuel (char c) rest
    | .named c => readWithin? ignoreCase fuel (char c) rest
    | .byteClass accepts => readWithin? ignoreCase fuel (b.add accepts .byteClass) rest
    | .dash =>
      match readBracketToken? ignoreCase rest with
      | some (.close, rest) => return (char Ascii.minus, rest)
      | next =>
        match b.last with
        | .byteClass => none
        | .done => readWithin? ignoreCase fuel (char Ascii.minus) rest
        | .char first =>
          let (token, rest) ← next
          let last ← token.rangeEnd?
          if rangeOrder last < rangeOrder first then none
          else readWithin? ignoreCase fuel (b.add (acceptsRange ignoreCase first last) .done) rest

end Bracket

/-- Reads a bracket expression behind its opening bracket. -/
def readBracket? (ignoreCase : Bool) (text : Bytes) : Option (Regex × Bytes) := do
  let (negated, items) : Bool × Bytes := match text with
    | Ascii.caret :: items => (true, items)
    | _ => (false, text)
  let (bracket, rest) ← Bracket.readWithin? ignoreCase (items.length + 1) {} items
  return (.byte (fun c => bracket.accepts c != negated), rest)

/-! ## Terms -/

/-- An expression with the number of states that a copy of it takes. -/
structure Piece where
  regex : Regex
  states : Nat

/-- The groups met so far and the states built, copies included. -/
structure Tally where
  /-- Groups opened, the whole expression being one. -/
  opened : Nat := 1
  /-- The groups that are still open. -/
  unfinished : List Nat := []
  states : Nat := 0

/-- Builds states. -/
def Tally.add (t : Tally) (states : Nat) : Tally := { t with states := t.states + states }

/-- No expression may take more states. -/
def stateLimit : Nat := 100000

/-- The value of digits in the signed 32-bit range. -/
def readCount? (digits : Bytes) : Option Nat :=
  let n := digits.foldl (fun n c => n * 10 + digitValue c) 0
  if n < 0x80000000 then some n else none

/-- How often a term is to match: a least number of times, and then some more, or any number. -/
structure Interval where
  least : Nat
  more : Option Nat

/-- Reads `n}`, `n,}` or `n,m}`. -/
def Interval.read? (text : Bytes) : Option (Interval × Bytes) := do
  let digits := text.takeWhile isDigit
  if digits.isEmpty then none
  let least ← readCount? digits
  match text.dropWhile isDigit with
  | Ascii.closeBrace :: rest => return (⟨least, some 0⟩, rest)
  | Ascii.comma :: Ascii.closeBrace :: rest => return (⟨least, none⟩, rest)
  | Ascii.comma :: rest =>
    let digits := rest.takeWhile isDigit
    if digits.isEmpty then none
    let most ← readCount? digits
    match rest.dropWhile isDigit with
    | Ascii.closeBrace :: rest =>
      if most < least then none else return (⟨least, some (most - least)⟩, rest)
    | _ => none
  | _ => none

/-- A quantifier. -/
inductive Quantifier
  | star
  | plus
  | optional
  | interval (interval : Interval)

/-- Reads a quantifier without the mark that makes it lazy; `none` inside for anything else. -/
def Quantifier.read? : Bytes → Option (Option (Quantifier × Bytes))
  | [] => some none
  | c :: rest =>
    if c = Ascii.star then some (some (.star, rest))
    else if c = Ascii.plus then some (some (.plus, rest))
    else if c = Ascii.question then some (some (.optional, rest))
    else if c = Ascii.openBrace then
      (Interval.read? rest).map fun (i, rest) => some (.interval i, rest)
    else some none

/-- The term under the quantifier, and the states that this builds. -/
def Quantifier.apply (greedy : Bool) (p : Piece) : Quantifier → Piece × Nat
  | star => (⟨.star greedy p.regex, p.states + 1⟩, 1)
  | plus => (⟨.seq p.regex (.star greedy p.regex), p.states + 1⟩, 1)
  | optional => (⟨.upTo 1 greedy p.regex, p.states + 2⟩, 2)
  | interval ⟨least, none⟩ =>
    let states := 1 + least * p.states + (p.states + 1)
    (⟨.seq (.times least p.regex) (.star greedy p.regex), states⟩, states)
  | interval ⟨least, some more⟩ =>
    let states := 1 + least * p.states + 1 + more * (p.states + 1)
    (⟨.seq (.times least p.regex) (.upTo more greedy p.regex), states⟩, states)

/-- Reads the quantifiers behind a term, each of which takes all before it for its term. -/
def readQuantifiers? : Nat → Tally → Piece → Bytes → Option (Piece × Tally × Bytes)
  | 0, tally, piece, text => some (piece, tally, text)
  | fuel + 1, tally, piece, text => do
    match ← Quantifier.read? text with
    | none => return (piece, tally, text)
    | some (quantifier, behind) =>
      let (greedy, rest) : Bool × Bytes := match behind with
        | Ascii.question :: rest => (false, rest)
        | _ => (true, behind)
      let (piece, states) := quantifier.apply greedy piece
      readQuantifiers? fuel (tally.add states) piece rest

/-- Reads a term that is one byte of the text, a class, a bracket expression or a back reference,
or an assertion that an escape names. -/
def readSimple? (ignoreCase : Bool) (tally : Tally) : Bytes → Option (Regex × Bytes)
  | [] => none
  | c :: rest =>
    if c = Ascii.dot then
      some (.byte (fun x => x != Ascii.newline && x != Ascii.carriageReturn), rest)
    else if c = Ascii.openBracket then readBracket? ignoreCase rest
    else if c = Ascii.backslash then do
      let (item, rest) ← readEscape? false rest
      match item with
      | .char c => return (.byte (acceptsByte ignoreCase c), rest)
      | .boundary negated => return (.wordBoundary negated, rest)
      | .byteClass accepts => return (.byte accepts, rest)
      | .reference digits =>
        let index ← readCount? digits
        if tally.opened ≤ index ∨ index ∈ tally.unfinished then none
        else return (.backReference index ignoreCase, rest)
    else if c = Ascii.star ∨ c = Ascii.plus ∨ c = Ascii.question ∨ c = Ascii.openBrace then none
    else some (.byte (acceptsByte ignoreCase c), rest)

/-- The expression takes no room in the text, and no quantifier may stand behind it. -/
def isAssertion : Regex → Bool
  | lineStart | lineEnd | wordBoundary _ | lookAhead .. => true
  | _ => false

/-- The text behind the parenthesis that closes a group. -/
def closeGroup? : Bytes → Option Bytes
  | Ascii.closeParen :: rest => some rest
  | _ => none

/-! ## Whole expressions -/

mutual

/-- Reads branches between bars. -/
def readBranches? (ignoreCase : Bool) : Nat → Tally → Bytes → Option (Piece × Tally × Bytes)
  | 0, _, _ => none
  | fuel + 1, tally, text => do
    let (first, tally, rest) ← readBranch? ignoreCase fuel tally text
    match rest with
    | Ascii.bar :: rest =>
      let (others, tally, rest) ← readBranches? ignoreCase fuel tally rest
      return (⟨.alt first.regex others.regex, first.states + others.states + 2⟩, tally.add 2, rest)
    | _ => return (first, tally, rest)

/-- Reads terms up to a bar, a closing parenthesis or the end. -/
def readBranch? (ignoreCase : Bool) : Nat → Tally → Bytes → Option (Piece × Tally × Bytes)
  | 0, _, _ => none
  | fuel + 1, tally, text =>
    match text with
    | [] | Ascii.bar :: _ | Ascii.closeParen :: _ => some (⟨.empty, 1⟩, tally.add 1, text)
    | _ => do
      let (term, tally, rest) ← readTerm? ignoreCase fuel tally text
      let (term, tally, rest) ←
        if isAssertion term.regex then some (term, tally, rest)
        else readQuantifiers? rest.length tally term rest
      let (others, tally, rest) ← readBranch? ignoreCase fuel tally rest
      return (⟨.seq term.regex others.regex, term.states + others.states⟩, tally, rest)

/-- Reads a term without its quantifiers. -/
def readTerm? (ignoreCase : Bool) : Nat → Tally → Bytes → Option (Piece × Tally × Bytes)
  | 0, _, _ => none
  | fuel + 1, tally, text =>
    match text with
    | Ascii.caret :: rest => some (⟨.lineStart, 1⟩, tally.add 1, rest)
    | Ascii.dollar :: rest => some (⟨.lineEnd, 1⟩, tally.add 1, rest)
    | Ascii.openParen :: Ascii.question :: Ascii.colon :: rest => do
      let (body, tally, rest) ← readBranches? ignoreCase fuel tally rest
      let rest ← closeGroup? rest
      return (⟨body.regex, body.states + 1⟩, tally.add 1, rest)
    | Ascii.openParen :: Ascii.question :: mark :: rest => do
      if mark ≠ Ascii.equals ∧ mark ≠ Ascii.exclamation then none
      let (body, tally, rest) ← readBranches? ignoreCase fuel tally rest
      let rest ← closeGroup? rest
      return (⟨.lookAhead (mark == Ascii.exclamation) body.regex, body.states + 2⟩, tally.add 2,
        rest)
    | [Ascii.openParen, Ascii.question] => none
    | Ascii.openParen :: rest => do
      let index := tally.opened
      let inside :=
        { tally with opened := index + 1, unfinished := index :: tally.unfinished }
      let (body, inside, rest) ← readBranches? ignoreCase fuel inside rest
      let rest ← closeGroup? rest
      return (⟨.group index body.regex, body.states + 2⟩,
        { inside.add 2 with unfinished := tally.unfinished }, rest)
    | _ => do
      let (regex, rest) ← readSimple? ignoreCase tally text
      return (⟨regex, 1⟩, tally.add 1, rest)

end

/-- Reads a regular expression over a whole text; gives it with the number of its states. -/
def parse? (ignoreCase : Bool) (text : Bytes) : Option (Regex × Nat) := do
  let (piece, tally, rest) ← readBranches? ignoreCase (4 * text.length + 4) {} text
  if rest.isEmpty then some (piece.regex, tally.states + 3) else none

/-- Reads a regular expression that is not too large. -/
def read? (ignoreCase : Bool) (text : Bytes) : Option Regex := do
  let (regex, states) ← parse? ignoreCase text
  if states ≤ stateLimit then some regex else none

end VirtualShell.Regex
