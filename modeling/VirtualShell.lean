import VirtualShell.Builtin.Aliases
import VirtualShell.Builtin.Commands
import VirtualShell.Builtin.Conditions
import VirtualShell.Builtin.Control
import VirtualShell.Builtin.Directories
import VirtualShell.Builtin.Files
import VirtualShell.Builtin.Filters
import VirtualShell.Builtin.Listing
import VirtualShell.Builtin.Names
import VirtualShell.Builtin.Nested
import VirtualShell.Builtin.Printing
import VirtualShell.Builtin.Registry
import VirtualShell.Builtin.Search
import VirtualShell.Builtin.Standard
import VirtualShell.Builtin.Variables
import VirtualShell.ByteMap
import VirtualShell.Calendar
import VirtualShell.Condition.Expression
import VirtualShell.Fault
import VirtualShell.FileSystem
import VirtualShell.Filter.Format
import VirtualShell.Filter.Lines
import VirtualShell.Filter.RunMerge
import VirtualShell.Filter.Sequence
import VirtualShell.Host.Disk
import VirtualShell.Host.Places
import VirtualShell.Json.Reader
import VirtualShell.Json.Value
import VirtualShell.Json.Writer
import VirtualShell.Lexing.Delimiters
import VirtualShell.Lexing.Pieces
import VirtualShell.Lexing.Quoting
import VirtualShell.Lexing.Redirect
import VirtualShell.Lexing.Substitution
import VirtualShell.Lexing.Variable
import VirtualShell.Lexing.Word
import VirtualShell.Main
import VirtualShell.Number.Binary
import VirtualShell.Number.Decimal
import VirtualShell.Number.Reading
import VirtualShell.Pattern.ByteClass
import VirtualShell.Pattern.Glob
import VirtualShell.Pattern.Regex
import VirtualShell.Pattern.Syntax
import VirtualShell.Proofs.Calendar
import VirtualShell.Proofs.Change
import VirtualShell.Proofs.ChangeMode
import VirtualShell.Proofs.Condition.Commands
import VirtualShell.Proofs.Condition.Grammar
import VirtualShell.Proofs.Condition.Steps
import VirtualShell.Proofs.FailedLoad
import VirtualShell.Proofs.Filter.Ends
import VirtualShell.Proofs.Filter.Printing
import VirtualShell.Proofs.Filter.RunMerge
import VirtualShell.Proofs.Filter.Sorting
import VirtualShell.Proofs.Filter.Writing
import VirtualShell.Proofs.Globbing
import VirtualShell.Proofs.Host.Replace
import VirtualShell.Proofs.Json.Document
import VirtualShell.Proofs.Json.Scalar
import VirtualShell.Proofs.Json.Value
import VirtualShell.Proofs.Lexing.Bars
import VirtualShell.Proofs.Lexing.Blanks
import VirtualShell.Proofs.Lexing.Closing
import VirtualShell.Proofs.Lexing.ErrorStream
import VirtualShell.Proofs.Lexing.Escaping
import VirtualShell.Proofs.Lexing.Expanding
import VirtualShell.Proofs.Lexing.Filling
import VirtualShell.Proofs.Lexing.Joining
import VirtualShell.Proofs.Lexing.Lifting
import VirtualShell.Proofs.Lexing.Output
import VirtualShell.Proofs.Lexing.Quoted
import VirtualShell.Proofs.Lexing.Redirect
import VirtualShell.Proofs.Lexing.Runs
import VirtualShell.Proofs.Lexing.Splitting
import VirtualShell.Proofs.Lexing.Template
import VirtualShell.Proofs.Lexing.Words
import VirtualShell.Proofs.Load
import VirtualShell.Proofs.MakeDirectory
import VirtualShell.Proofs.NullDevice
import VirtualShell.Proofs.Number.Numeral
import VirtualShell.Proofs.Number.Order
import VirtualShell.Proofs.Opening
import VirtualShell.Proofs.Operation
import VirtualShell.Proofs.Pattern.Language
import VirtualShell.Proofs.Pattern.Meaning
import VirtualShell.Proofs.Pattern.Written
import VirtualShell.Proofs.Reachable
import VirtualShell.Proofs.ReadBack
import VirtualShell.Proofs.RealPath
import VirtualShell.Proofs.Refinement
import VirtualShell.Proofs.Reload
import VirtualShell.Proofs.Relocation
import VirtualShell.Proofs.Shell.Chains
import VirtualShell.Proofs.Shell.Commands
import VirtualShell.Proofs.Shell.Confined
import VirtualShell.Proofs.Shell.Correspondence
import VirtualShell.Proofs.Shell.Flushing
import VirtualShell.Proofs.Shell.Nesting
import VirtualShell.Proofs.Shell.Oblivious
import VirtualShell.Proofs.Shell.PendingExit
import VirtualShell.Proofs.Shell.Pipelines
import VirtualShell.Proofs.Shell.Quoting
import VirtualShell.Proofs.Shell.Reach
import VirtualShell.Proofs.Shell.Redirecting
import VirtualShell.Proofs.Shell.Requests
import VirtualShell.Proofs.Shell.Scripts
import VirtualShell.Proofs.Startup.File
import VirtualShell.Proofs.Startup.Limit
import VirtualShell.Proofs.Startup.Operands
import VirtualShell.Proofs.Startup.Session
import VirtualShell.Proofs.Store.Batch
import VirtualShell.Proofs.Store.Document
import VirtualShell.Proofs.Store.Keeper
import VirtualShell.Proofs.Text.Base64
import VirtualShell.Proofs.Text.Digits
import VirtualShell.Proofs.Text.Lines
import VirtualShell.Proofs.Text.Scan
import VirtualShell.Proofs.Text.Utf8
import VirtualShell.Proofs.Timestamp
import VirtualShell.Proofs.Traversal
import VirtualShell.Proofs.Tree.Canonical
import VirtualShell.Proofs.Tree.Entry
import VirtualShell.Proofs.Tree.Landing
import VirtualShell.Proofs.Tree.Listing
import VirtualShell.Proofs.Tree.Mode
import VirtualShell.Proofs.Tree.NormalForm
import VirtualShell.Proofs.Tree.Parts
import VirtualShell.Proofs.Tree.Plan
import VirtualShell.Proofs.Tree.Preserve
import VirtualShell.Proofs.Tree.Puts
import VirtualShell.Proofs.Tree.Record
import VirtualShell.Proofs.Tree.Relocation
import VirtualShell.Proofs.Tree.Sound
import VirtualShell.Proofs.Tree.Subtree
import VirtualShell.Proofs.Tree.Visit
import VirtualShell.Proofs.Tree.Walk
import VirtualShell.Session
import VirtualShell.Shell.Action
import VirtualShell.Shell.Builtin
import VirtualShell.Shell.Interpreter
import VirtualShell.Startup.Arguments
import VirtualShell.Startup.Program
import VirtualShell.Startup.Settings
import VirtualShell.Store.Basic
import VirtualShell.Store.Batch
import VirtualShell.Text.Base64
import VirtualShell.Text.Bytes
import VirtualShell.Text.Escape
import VirtualShell.Text.Identifier
import VirtualShell.Text.Utf8
import VirtualShell.Trace
import VirtualShell.Tree.Change
import VirtualShell.Tree.Inode
import VirtualShell.Tree.Lookup
import VirtualShell.Tree.Mode
import VirtualShell.Tree.Path
import VirtualShell.Tree.Record
import VirtualShell.Tree.Visit
import VirtualShell.Version
