import VirtualShell.Lexing.Pieces

/-!
# Trace events

What the shell does, told step by step on the error stream and in a log when the user asks for it.
An event is one line; every text in it ends at its first NUL.
-/

namespace VirtualShell

/-- What is timed. -/
inductive TimedSpan
  | loadingTree
  | runningLine
  | promptLine
  deriving DecidableEq

def TimedSpan.label : TimedSpan → Bytes
  | loadingTree => ascii "vfs initialize"
  | runningLine => ascii "execute"
  | promptLine => ascii "repl line"

/-- Something that happened. -/
inductive TraceEvent
  | storeInMemory
  | storeAt (path : Bytes)
  | storeMissing (path : Bytes)
  | storeLoaded (count : Nat) (path : Bytes)
  | storeCommitted (puts erases : Nat) (path : Bytes)
  | orphanDropped (path : Bytes)
  | treeLoaded (count : Nat) (store : Bytes)
  | treeSeeded (count : Nat)
  | commitFailed (message : Bytes)
  | renamed (source target : Bytes) (count : Nat)
  | nestingLimit (limit : Int)
  | statement (depth : Nat) (text : Bytes)
  | partSkipped (command : Bytes) (behind : Connective) (status : Int)
  | lineUnterminated (line : Bytes)
  | quoteUnterminated (state : LexState)
  | substitutionUnterminated
  | startupFile (path : Bytes)
  | sourcing (path : Bytes)
  | finished (span : TimedSpan)
  deriving DecidableEq

namespace TraceEvent

/-- What the event says. -/
def message : TraceEvent → Bytes
  | storeInMemory => ascii "store: in-memory"
  | storeAt path => ascii "store: " ++ Bytes.beforeNul path
  | storeMissing path => ascii "inode store " ++ Bytes.beforeNul path ++ ascii " does not exist yet"
  | storeLoaded count path =>
    ascii "loaded " ++ decimal count ++ ascii " inodes from " ++ Bytes.beforeNul path
  | storeCommitted puts erases path =>
    ascii "committed " ++ decimal puts ++ ascii " puts / " ++ decimal erases
      ++ ascii " erases to " ++ Bytes.beforeNul path
  | orphanDropped path => ascii "vfs: dropping orphaned record " ++ Bytes.beforeNul path
  | treeLoaded count store =>
    ascii "vfs: loaded " ++ decimal count ++ ascii " records from " ++ Bytes.beforeNul store
  | treeSeeded count => ascii "vfs: seeded default tree (" ++ decimal count ++ ascii " records)"
  | commitFailed message => ascii "vfs: commit failed: " ++ Bytes.beforeNul message
  | renamed source target count =>
    ascii "vfs: rename " ++ Bytes.beforeNul source ++ ascii " -> " ++ Bytes.beforeNul target
      ++ ascii " (" ++ decimal count ++ ascii " records)"
  | nestingLimit limit => ascii "exec: nesting limit " ++ signedDecimal limit ++ ascii " reached"
  | statement depth text =>
    ascii "exec[" ++ decimal depth ++ ascii "]: " ++ Bytes.beforeNul text
  | partSkipped command behind status =>
    ascii "exec: skipping '" ++ Bytes.beforeNul command ++ ascii "' after " ++ behind.symbol
      ++ ascii " with status " ++ signedDecimal status
  | lineUnterminated line =>
    ascii "parser: unterminated quote or substitution in '" ++ Bytes.beforeNul line ++ ascii "'"
  | quoteUnterminated state =>
    ascii "tokenizer: unterminated quote (" ++ state.name ++ ascii "), consuming to end of input"
  | substitutionUnterminated => ascii "substitution: unterminated $( left literal"
  | startupFile path => ascii "sourcing " ++ Bytes.beforeNul path
  | sourcing path => ascii "source: running " ++ Bytes.beforeNul path
  | finished span => ascii "PerformanceTracker [" ++ span.label ++ ascii "]: 0 us"

/-- The event as a line. -/
def render (event : TraceEvent) : Bytes :=
  ascii "[DEBUG] " ++ event.message ++ [Ascii.newline]

end TraceEvent

end VirtualShell
