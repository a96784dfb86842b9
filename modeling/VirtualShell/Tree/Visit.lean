import VirtualShell.Tree.Lookup

/-!
# Visiting a tree

All that stands below a directory, depth first: every entry in the order of its directory, a real
directory before what is in it. Links to directories are not gone into. Each place has a path and a
text that shows it as seen from where the visit started.
-/

namespace VirtualShell.Tree

/-- An entry that a visit comes to. -/
structure Visited where
  path : Bytes
  /-- The place as seen from where the visit started. -/
  shown : Bytes
  entry : DirEntry

/-- A name behind the text that shows its directory. -/
def showBelow (shown name : Bytes) : Bytes :=
  if shown.isEmpty || shown.getLast? == some Ascii.slash then shown ++ name
  else shown ++ Ascii.slash :: name

/-- Visits what is below a directory, so many levels deep. What cannot be listed is passed over. -/
def visitWithin (tree : Tree) : Nat → Bytes → Bytes → List Visited
  | 0, _, _ => []
  | levels + 1, path, shown =>
    match tree.list path with
    | .error _ => []
    | .ok entries => entries.flatMap fun entry =>
      let place : Visited := ⟨Path.join path entry.name, showBelow shown entry.name, entry⟩
      place ::
        if entry.kind = .directory then tree.visitWithin levels place.path place.shown else []

/-- Visits what is below a directory. There are no more levels than records. -/
def visit (tree : Tree) (path shown : Bytes) : List Visited :=
  tree.visitWithin (tree.size + 1) path shown

end VirtualShell.Tree
