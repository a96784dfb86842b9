import VirtualShell.ByteMap
import VirtualShell.Tree.Inode

/-!
# Batches of changes

A `Batch` removes some keys and then writes some records, each under its path; a key that is both
removed and written ends up written. Stores and the tree take a batch as a whole or not at all.
-/

namespace VirtualShell

/-- Records by their paths. -/
abbrev Records := ByteMap Inode

/-- Keys to remove and records to write. -/
structure Batch where
  erases : List Bytes := []
  puts : List Inode := []
  deriving DecidableEq, Inhabited

namespace Batch

def isEmpty (b : Batch) : Bool := b.puts.isEmpty && b.erases.isEmpty

/-- A batch that writes one record. -/
def put (node : Inode) : Batch := { puts := [node] }

/-- Makes the changes. -/
def apply (b : Batch) (records : Records) : Records :=
  let kept := b.erases.foldl ByteMap.erase records
  kept.insertMany (b.puts.map fun node => (node.path, node))

end Batch

end VirtualShell
