import VirtualShell.Pattern.Regex

/-!
# File name patterns

A pattern is read from the left into items: `**/` stands for any leading directories, any other
`**` for anything, `*` for anything within a name, `?` for one byte of a name, and every other byte
for itself. `Glob.accepts` matches a whole path; `Glob.regexText` writes the regular expression that
the pattern means.
-/

namespace VirtualShell.Glob

inductive Item
  | directories
  | anything
  | anyName
  | anyNameByte
  | literal (c : UInt8)
  deriving DecidableEq

/-- The items of a pattern. -/
def items : Bytes → List Item
  | [] => []
  | Ascii.star :: Ascii.star :: Ascii.slash :: rest => .directories :: items rest
  | Ascii.star :: Ascii.star :: rest => .anything :: items rest
  | Ascii.star :: rest => .anyName :: items rest
  | Ascii.question :: rest => .anyNameByte :: items rest
  | c :: rest => .literal c :: items rest

/-! ## Reading -/

section
variable {rest : Bytes} {c : UInt8}

theorem items_anything (next : rest.head? ≠ some Ascii.slash) :
    items (Ascii.star :: Ascii.star :: rest) = .anything :: items rest :=
  items.eq_3 rest fun _ same => next (congrArg List.head? same)

theorem items_anyName (next : rest.head? ≠ some Ascii.star) :
    items (Ascii.star :: rest) = .anyName :: items rest :=
  items.eq_4 rest (fun _ same => next (congrArg List.head? same))
    fun _ same => next (congrArg List.head? same)

theorem items_literal (star : c ≠ Ascii.star) (question : c ≠ Ascii.question) :
    items (c :: rest) = .literal c :: items rest := by
  rw [items]
  · exact fun _ same => absurd same star
  · exact fun _ same => absurd same star
  · exact star
  · exact question

/-- **Patterns are read from the left**: an induction has a case for each item that may come
first. -/
@[elab_as_elim] theorem readingInduction {motive : Bytes → Prop} (nil : motive [])
    (directories : ∀ rest, motive rest → motive (Ascii.star :: Ascii.star :: Ascii.slash :: rest))
    (anything : ∀ rest, rest.head? ≠ some Ascii.slash → motive rest →
      motive (Ascii.star :: Ascii.star :: rest))
    (anyName : ∀ rest, rest.head? ≠ some Ascii.star → motive rest → motive (Ascii.star :: rest))
    (anyNameByte : ∀ rest, motive rest → motive (Ascii.question :: rest))
    (literal : ∀ c rest, c ≠ Ascii.star → c ≠ Ascii.question → motive rest → motive (c :: rest))
    (pattern : Bytes) : motive pattern := by
  have head : ∀ {c : UInt8} {rest : Bytes}, (∀ behind, rest = c :: behind → False) →
      rest.head? ≠ some c := by
    intro c rest none first
    cases rest with
    | nil => cases first
    | cons d behind => exact none behind (congrArg (· :: behind) (Option.some.inj first))
  fun_induction items pattern with
  | case1 => exact nil
  | case2 rest ih => exact directories rest ih
  | case3 rest next ih => exact anything rest (head next) ih
  | case4 rest _ next ih => exact anyName rest (head next) ih
  | case5 rest ih => exact anyNameByte rest ih
  | case6 c rest _ _ star question ih => exact literal c rest star question ih
end

namespace Item

/-- A byte that a regular expression would not take for itself. -/
def isSpecial (c : UInt8) : Bool := (ascii ".+^$()\x7b\x7d|[]\\").contains c

/-- The item as part of a regular expression. -/
def regexText : Item → Bytes
  | directories => ascii "(?:.*/)?"
  | anything => ascii ".*"
  | anyName => ascii "[^/]*"
  | anyNameByte => ascii "[^/]"
  | literal c => if isSpecial c then [Ascii.backslash, c] else [c]

/-- Any byte but a line break. -/
def lineByte : Regex := .byte (fun c => c != Ascii.newline && c != Ascii.carriageReturn)

/-- Any byte but a slash. -/
def nameByte : Regex := .byte (· != Ascii.slash)

def regex : Item → Regex
  | directories =>
    .upTo 1 true (.seq (.star true lineByte) (.seq (.byte (· == Ascii.slash)) .empty))
  | anything => .star true lineByte
  | anyName => .star true nameByte
  | anyNameByte => nameByte
  | literal c => .byte (· == c)

end Item

/-- The pattern as a regular expression in writing. -/
def regexText (pattern : Bytes) : Bytes := (items pattern).flatMap Item.regexText

/-- The pattern as a regular expression. -/
def regex (pattern : Bytes) : Regex :=
  (items pattern).foldr (fun item rest => .seq item.regex rest) .empty

/-- The whole path matches the pattern. -/
def accepts (pattern path : Bytes) : Bool := (regex pattern).matchesAll path

end VirtualShell.Glob
