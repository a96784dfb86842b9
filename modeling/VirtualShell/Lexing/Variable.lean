import VirtualShell.Lexing.Delimiters
import VirtualShell.Text.Identifier

/-!
# Variable references

`$NAME`, `${NAME}` and `$?` give way to values across a whole line, except in single quotes and
behind a backslash. A dollar sign that starts no valid reference stays as it is.

* `Reference.read?` reads a reference behind the dollar sign; it takes at least one byte
  (`Reference.length_lt_of_read?`).
* `expandVariables` replaces every reference by what a look-up gives.
-/

namespace VirtualShell

/-- What a dollar sign can refer to. -/
inductive Reference
  /-- The exit code of the last statement, `$?`. -/
  | status
  | variable (name : Bytes)
  deriving DecidableEq

namespace Reference

/-- Reads `{NAME}` behind an opening brace. The name reaches up to the first closing brace. -/
def readBraced? (text : Bytes) : Option (Reference × Bytes) :=
  match text.dropWhile (· != Ascii.closeBrace) with
  | [] => none
  | _ :: rest =>
    let name := text.takeWhile (· != Ascii.closeBrace)
    if isIdentifier name then some (.variable name, rest) else none

/-- Reads a reference behind a dollar sign, and what follows it. -/
def read? (text : Bytes) : Option (Reference × Bytes) :=
  match text with
  | [] => none
  | c :: rest =>
    if c = Ascii.question then some (.status, rest)
    else if c = Ascii.openBrace then readBraced? rest
    else if isIdentifierStart c then
      some (.variable ((c :: rest).takeWhile isIdentifierByte),
        rest.dropWhile isIdentifierByte)
    else none

theorem length_le_of_readBraced? {text rest : Bytes} {r : Reference}
    (h : readBraced? text = some (r, rest)) : rest.length ≤ text.length := by
  rw [readBraced?] at h
  split at h
  next => simp at h
  next c tail eq =>
    dsimp only at h
    split at h
    next =>
      have := (List.dropWhile_sublist (· != Ascii.closeBrace) (l := text)).length_le
      simp only [Option.some.injEq, Prod.mk.injEq] at h
      rw [eq, List.length_cons, h.2] at this
      omega
    next => simp at h

theorem length_lt_of_read? {text rest : Bytes} {r : Reference}
    (h : read? text = some (r, rest)) : rest.length < text.length := by
  cases text with
  | nil => simp [read?] at h
  | cons c tail =>
    simp only [read?] at h
    split at h
    · simp_all
    · split at h
      · have := length_le_of_readBraced? h
        simp only [List.length_cons]
        omega
      · split at h
        · simp only [Option.some.injEq, Prod.mk.injEq] at h
          have := (List.dropWhile_sublist isIdentifierByte (l := tail)).length_le
          rw [h.2] at this
          simp only [List.length_cons]
          omega
        · simp at h

end Reference

/-- Replaces the references in the rest of a line, given the delimiters open at its start. A
reference is read wherever a substitution could open, and what takes its place is not read for
delimiters. -/
def expandVariablesFrom (value : Reference → Bytes) (d : Delimiters) (text : Bytes) : Bytes :=
  match text with
  | [] => []
  | c :: rest =>
    match h : if c = Ascii.dollar ∧ d.admitsSubstitution then Reference.read? rest else none with
    | some (reference, rest') =>
      have : rest'.length < rest.length := by
        split at h
        · exact Reference.length_lt_of_read? h
        · simp at h
      value reference ++ expandVariablesFrom value d rest'
    | none =>
      match c, rest with
      | c, o :: rest' =>
        if c = Ascii.dollar ∧ o = Ascii.openParen ∧ d.admitsSubstitution then
          c :: o :: expandVariablesFrom value d.enter rest'
        else c :: expandVariablesFrom value (d.feed c) (o :: rest')
      | c, [] => [c]
termination_by text.length

/-- Replaces the references of a line by their values. -/
def expandVariables (value : Reference → Bytes) (line : Bytes) : Bytes :=
  expandVariablesFrom value {} line

end VirtualShell
