import VirtualShell.Text.Bytes

/-!
# Paths

A path is a text; its components are the non-empty pieces between slashes. A path is *canonical*
when it starts with a slash and has no empty, `.` or `..` component. `Path.resolve` makes any text
canonical: it reads it from a base directory unless it is absolute, puts the home directory in the
place of a leading `~`, and lets `..` take back the component before it, never climbing above the
root.
-/

namespace VirtualShell.Path

def root : Bytes := [Ascii.slash]

/-- The pieces between slashes, empty ones left out. -/
def components (path : Bytes) : List Bytes :=
  (Bytes.fields Ascii.slash path).filter (fun part => !part.isEmpty)

/-- Walks one component on from a stack of components, the last of them first. -/
def step (stack : List Bytes) (part : Bytes) : List Bytes :=
  if part = ascii "." then stack
  else if part = ascii ".." then stack.tail
  else part :: stack

/-- The canonical path of a stack of components, the last of them first. -/
def ofStack (stack : List Bytes) : Bytes :=
  if stack.isEmpty then root else stack.reverse.flatMap (Ascii.slash :: ·)

/-- A leading `~` gives way to the home directory, if there is one. -/
def expandHome (home raw : Bytes) : Bytes :=
  if home.isEmpty then raw
  else match raw with
    | [Ascii.tilde] => home
    | Ascii.tilde :: Ascii.slash :: _ => home ++ raw.drop 1
    | _ => raw

def isAbsolute (path : Bytes) : Bool := path.head? == some Ascii.slash

/-- The canonical path that a text names, read from a base directory. -/
def resolve (raw : Bytes) (base : Bytes := root) (home : Bytes := []) : Bytes :=
  let input := expandHome home raw
  let start := if isAbsolute input then [] else (components base).foldl step []
  ofStack ((components input).foldl step start)

/-- The path without its last component. -/
def parent (path : Bytes) : Bytes :=
  match Bytes.splitAtLast? Ascii.slash path with
  | some (before, _) => if before.isEmpty then root else before
  | none => root

/-- The last component; the root is its own. -/
def base (path : Bytes) : Bytes :=
  if path = root then root
  else match Bytes.splitAtLast? Ascii.slash path with
    | some (_, after) => after
    | none => path

/-- The path of an entry of a directory. -/
def join (dir name : Bytes) : Bytes :=
  if dir = root then Ascii.slash :: name else dir ++ Ascii.slash :: name

/-- What every path below a canonical directory starts with. -/
def below (dir : Bytes) : Bytes := if dir = root then root else dir ++ [Ascii.slash]

/-- The path lies strictly below the directory. -/
def isWithin (path dir : Bytes) : Bool :=
  if dir = root then path != root
  else (below dir).isPrefixOf path

/-- The path at or below one directory moved to the same place below another. -/
def rekey (path source target : Bytes) : Bytes := target ++ path.drop source.length

end VirtualShell.Path
