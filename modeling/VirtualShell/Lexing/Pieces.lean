import VirtualShell.Lexing.Delimiters

/-!
# Statements, parts and segments

A line is cut at `;` into statements, a statement at `&&` and `||` into the parts of a logic
chain, and a part at `|` into the segments of a pipeline. Every cut is at top level of the
delimiters; what is left is trimmed, and pieces with nothing in them vanish.

* `cutWhere` makes the raw pieces.
* `LogicPart.push`: a part with nothing in it hands its operator to the part before it.
* A bar that stands beside another bar cuts no pipeline.
-/

namespace VirtualShell

/-! ## Raw pieces -/

/-- The text between the cutting steps. A step is judged with the bytes just before and after
it. -/
def cutWhere (cuts : Option UInt8 → Mark → Option UInt8 → Bool) (previous : Option UInt8) :
    List Mark → List Bytes
  | [] => [[]]
  | m :: rest =>
    let next := (rest.head?.bind (·.taken.head?))
    let others := cutWhere cuts (m.taken.getLast?) rest
    if cuts previous m next then [] :: others
    else match others with
      | [] => [m.taken]
      | first :: others => (m.taken ++ first) :: others

theorem cutWhere_ne_nil (cuts : Option UInt8 → Mark → Option UInt8 → Bool)
    (previous : Option UInt8) (steps : List Mark) : cutWhere cuts previous steps ≠ [] := by
  cases steps with
  | nil => simp [cutWhere]
  | cons m rest =>
    simp only [cutWhere]
    split
    · simp
    · split <;> simp

/-- The trimmed pieces that have something in them. -/
def trimmedPieces (raw : List Bytes) : List Bytes :=
  (raw.map Bytes.trim).filter (fun piece => !piece.isEmpty)

/-! ## Statements -/

def rawStatements (line : Bytes) : List Bytes :=
  cutWhere (fun _ m _ => m.isTop Ascii.semicolon) none (marks {} line)

/-- The statements of a line, cut at semicolons. -/
def statements (line : Bytes) : List Bytes := trimmedPieces (rawStatements line)

/-! ## Logic chains -/

/-- What joins a part to the one behind it. -/
inductive Connective
  | both
  | either
  deriving DecidableEq

/-- The operator as written. -/
def Connective.symbol : Connective → Bytes
  | both => ascii "&&"
  | either => ascii "||"

/-- A part of a logic chain with the operator behind it; the last part has none. -/
structure LogicPart where
  command : Bytes
  operator : Option Connective
  deriving DecidableEq

namespace LogicPart

/-- Two like bytes, the first at top level, make an operator. -/
def connective? (m n : Mark) : Option Connective :=
  if m.isTop Ascii.ampersand && n.taken == [Ascii.ampersand] then some .both
  else if m.isTop Ascii.bar && n.taken == [Ascii.bar] then some .either
  else none

/-- The raw parts of a statement, each with the operator that ended it. -/
def raw : List Mark → List LogicPart
  | [] => [⟨[], none⟩]
  | [m] => [⟨m.taken, none⟩]
  | m :: n :: rest =>
    match connective? m n with
    | some op => ⟨[], some op⟩ :: raw rest
    | none =>
      match raw (n :: rest) with
      | [] => [⟨m.taken, none⟩]
      | first :: others => { first with command := m.taken ++ first.command } :: others

/-- Adds a raw part behind those done, last first. A part with nothing in it only hands its
operator to the part before it. -/
def push (done : List LogicPart) (part : LogicPart) : List LogicPart :=
  let command := Bytes.trim part.command
  if !command.isEmpty then ⟨command, part.operator⟩ :: done
  else match done with
    | [] => []
    | before :: earlier => { before with operator := part.operator } :: earlier

end LogicPart

/-- The parts of a statement, cut at `&&` and `||`. -/
def logicParts (statement : Bytes) : List LogicPart :=
  ((LogicPart.raw (marks {} statement)).foldl LogicPart.push []).reverse

/-! ## Pipelines -/

/-- A bar at top level with no bar on either side. -/
def isPipe (previous : Option UInt8) (m : Mark) (next : Option UInt8) : Bool :=
  m.isTop Ascii.bar && !(next == some Ascii.bar) && !(previous == some Ascii.bar)

def rawSegments (part : Bytes) : List Bytes := cutWhere isPipe none (marks {} part)

/-- The segments of a part, cut at single bars. -/
def segments (part : Bytes) : List Bytes := trimmedPieces (rawSegments part)

end VirtualShell
