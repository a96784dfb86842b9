import VirtualShell.Text.Bytes

/-!
# Where a line may be cut

A line is read byte by byte while its quotes, escapes, backticks and `$(` … `)` substitutions are
tracked. A separator cuts the line only at *top level*: outside all of them.

* `Delimiters.feed` takes one byte; a dollar sign with an opening parenthesis behind it is taken
  in one go by `Delimiters.enter`, which starts a fresh context that the matching parenthesis
  leaves again.
* `marks` reads a whole text and records what each step took and the states around it;
  `flatMap_taken_marks`: the steps take the text apart without loss.
* Bytes that separate (`;`, `&`, `|`) leave the state as it is at top level
  (`feed_eq_self_of_atTopLevel`), so one pass of `marks` serves every way of cutting.
-/

namespace VirtualShell

/-- How the byte that comes next is to be read. -/
inductive LexState
  | normal
  | singleQuoted
  | doubleQuoted
  | escaped
  deriving DecidableEq, Inhabited

namespace LexState

/-- The name that diagnostics give the state. -/
def name : LexState → Bytes
  | normal => ascii "Normal"
  | singleQuoted => ascii "InSingleQuote"
  | doubleQuoted => ascii "InDoubleQuote"
  | escaped => ascii "Escaped"

end LexState

/-- The delimiters that are open at a place of a line. -/
structure Delimiters where
  state : LexState := .normal
  /-- The state that an escape goes back to. -/
  resume : LexState := .normal
  inBacktick : Bool := false
  /-- The states around the open substitutions and the parentheses in them, innermost first. -/
  enclosing : List LexState := []
  deriving DecidableEq, Inhabited

namespace Delimiters

/-- Outside every quote, escape, backtick and substitution. -/
def atTopLevel (d : Delimiters) : Bool :=
  d.state == .normal && d.enclosing.isEmpty && !d.inBacktick

/-- A text that ends here has left something open. -/
def unterminated (d : Delimiters) : Bool := !d.atTopLevel

/-- A `$(` at this place opens a substitution. -/
def admitsSubstitution (d : Delimiters) : Bool := d.state == .normal || d.state == .doubleQuoted

/-- After a `$(` that opens a substitution. -/
def enter (d : Delimiters) : Delimiters :=
  { d with state := .normal, enclosing := d.state :: d.enclosing }

/-- After a byte that opens no substitution. -/
def feed (d : Delimiters) (c : UInt8) : Delimiters :=
  match d.state with
  | .escaped => { d with state := d.resume }
  | .singleQuoted => if c = Ascii.quote then { d with state := .normal } else d
  | .doubleQuoted =>
    if c = Ascii.backslash then { d with state := .escaped, resume := .doubleQuoted }
    else if c = Ascii.doubleQuote then { d with state := .normal }
    else if c = Ascii.backtick then { d with inBacktick := !d.inBacktick }
    else d
  | .normal =>
    if c = Ascii.backslash then { d with state := .escaped, resume := .normal }
    else if c = Ascii.quote then { d with state := .singleQuoted }
    else if c = Ascii.doubleQuote then { d with state := .doubleQuoted }
    else if c = Ascii.openParen then
      -- plain parentheses nest inside a substitution only
      if d.enclosing.isEmpty then d else { d with enclosing := .normal :: d.enclosing }
    else if c = Ascii.closeParen then
      match d.enclosing with
      | [] => d
      | outer :: others => { d with state := outer, enclosing := others }
    else if c = Ascii.backtick then { d with inBacktick := !d.inBacktick }
    else d

section
variable {d : Delimiters}

theorem feed_backslash (h : d.state = .normal ∨ d.state = .doubleQuoted) :
    d.feed Ascii.backslash = { d with state := .escaped, resume := d.state } := by
  rcases h with h | h <;> rw [feed, h] <;> rfl

theorem feed_quote (h : d.state = .normal) :
    d.feed Ascii.quote = { d with state := .singleQuoted } := by
  rw [feed, h]
  rfl

theorem feed_doubleQuote (h : d.state = .normal) :
    d.feed Ascii.doubleQuote = { d with state := .doubleQuoted } := by
  rw [feed, h]
  rfl

theorem feed_doubleQuote_of_doubleQuoted (h : d.state = .doubleQuoted) :
    d.feed Ascii.doubleQuote = { d with state := .normal } := by
  rw [feed, h]
  rfl

end

/-- Fewer than the special bytes change nothing outside quotes. -/
def isPlain (c : UInt8) : Bool :=
  !(c == Ascii.backslash || c == Ascii.quote || c == Ascii.doubleQuote || c == Ascii.openParen
    || c == Ascii.closeParen || c == Ascii.backtick)

theorem feed_eq_self_of_isPlain {d : Delimiters} {c : UInt8} (h : d.state = .normal)
    (plain : isPlain c = true) : d.feed c = d := by
  simp only [isPlain, Bool.not_eq_true', Bool.or_eq_false_iff, beq_eq_false_iff_ne] at plain
  obtain ⟨⟨⟨⟨⟨h1, h2⟩, h3⟩, h4⟩, h5⟩, h6⟩ := plain
  simp [feed, h, h1, h2, h3, h4, h5, h6]

theorem state_of_atTopLevel {d : Delimiters} (h : d.atTopLevel = true) : d.state = .normal := by
  simp only [atTopLevel, Bool.and_eq_true, beq_iff_eq] at h
  exact h.1.1

/-- A plain byte at top level leaves every delimiter as it is. -/
theorem feed_eq_self_of_atTopLevel {d : Delimiters} {c : UInt8} (h : d.atTopLevel = true)
    (plain : isPlain c = true) : d.feed c = d :=
  feed_eq_self_of_isPlain (state_of_atTopLevel h) plain

end Delimiters

/-! ## Reading a whole text -/

/-- One step of reading: the one or two bytes taken, and the delimiters around them. -/
structure Mark where
  taken : Bytes
  before : Delimiters
  after : Delimiters
  deriving DecidableEq

/-- The steps that read a text from the given state. -/
def marks (d : Delimiters) : Bytes → List Mark
  | [] => []
  | [c] => [⟨[c], d, d.feed c⟩]
  | c :: o :: rest =>
    if c = Ascii.dollar ∧ o = Ascii.openParen ∧ d.admitsSubstitution then
      ⟨[c, o], d, d.enter⟩ :: marks d.enter rest
    else
      ⟨[c], d, d.feed c⟩ :: marks (d.feed c) (o :: rest)

/-- The delimiters left open after a text. -/
def Delimiters.read (d : Delimiters) (text : Bytes) : Delimiters :=
  ((marks d text).getLast?.map Mark.after).getD d

@[simp] theorem marks_nil (d : Delimiters) : marks d [] = [] := rfl

/-- The steps take the text apart without loss. -/
theorem flatMap_taken_marks (d : Delimiters) (text : Bytes) :
    (marks d text).flatMap Mark.taken = text := by
  fun_induction marks d text with
  | case1 => rfl
  | case2 => rfl
  | case3 d c o rest h ih => simp [ih]
  | case4 d c o rest h ih => simp [ih]

namespace Mark

/-- The step took just this byte, at top level. -/
def isTop (m : Mark) (c : UInt8) : Bool := m.taken == [c] && m.before.atTopLevel

end Mark

end VirtualShell
