import VirtualShell.Host.Disk

/-!
# What goes wrong

A `Fault` is the cause for which an operation on the file tree or its store fails. It has a kind,
one of seven, and a message; most messages name the path and describe the kind.

A `Report` is a complaint on the error stream: the command that complains, a message (or the
standing text of the category) and lines of advice behind it.
-/

namespace VirtualShell

/-! ## Kinds of fault -/

inductive ErrorKind
  | notFound
  | isADirectory
  | notADirectory
  | alreadyExists
  | notEmpty
  | invalidArgument
  | ioError
  deriving DecidableEq, Inhabited

namespace ErrorKind

def name : ErrorKind → Bytes
  | notFound => ascii "NotFound"
  | isADirectory => ascii "IsADirectory"
  | notADirectory => ascii "NotADirectory"
  | alreadyExists => ascii "AlreadyExists"
  | notEmpty => ascii "NotEmpty"
  | invalidArgument => ascii "InvalidArgument"
  | ioError => ascii "IoError"

def description : ErrorKind → Bytes
  | notFound => ascii "No such file or directory"
  | isADirectory => ascii "Is a directory"
  | notADirectory => ascii "Not a directory"
  | alreadyExists => ascii "File exists"
  | notEmpty => ascii "Directory not empty"
  | invalidArgument => ascii "Invalid argument"
  | ioError => ascii "Input/output error"

end ErrorKind

/-! ## Faults -/

/-- Why a store could not be read or written. -/
inductive StoreFault
  | host (error : HostError)
  | unsupportedVersion (store : Bytes) (version : Int)
  | corrupt (store : Bytes) (reason : Bytes)
  /-- A path in the store is no UTF-8, so no document can hold it. -/
  | notEncodable (store : Bytes)
  | noStoreDirectory
  | refused (reason : Bytes)
  deriving DecidableEq

namespace StoreFault

/-- The text that stands for whatever the reader or the host says about the cause. -/
def unnamedCause : Bytes := ascii "<library>"

def message : StoreFault → Bytes
  | host error => error.message
  | unsupportedVersion store version =>
    store ++ ascii ": unsupported store version " ++ signedDecimal version
  | corrupt store reason => store ++ ascii ": corrupt store: " ++ reason
  | notEncodable store => store ++ ascii ": cannot encode store: <json>"
  | noStoreDirectory => ascii "Failed to create store directory: " ++ unnamedCause
  | refused reason => reason

end StoreFault

/-- Why an operation fails. -/
inductive Fault
  /-- The kind says all about the path. -/
  | plain (kind : ErrorKind) (path : Bytes)
  | tooManyLinks (path : Bytes)
  | nullDevice
  | removeRoot
  | moveRoot
  | moveIntoItself (path : Bytes)
  | copyIntoItself (path : Bytes)
  | copyNotRecursive (path : Bytes)
  | sameFile (source target : Bytes)
  | store (cause : StoreFault)
  deriving DecidableEq

namespace Fault

def kind : Fault → ErrorKind
  | plain kind _ => kind
  | copyNotRecursive _ => .isADirectory
  | store _ => .ioError
  | _ => .invalidArgument

def message : Fault → Bytes
  | plain kind path => path ++ ascii ": " ++ kind.description
  | tooManyLinks path => path ++ ascii ": Too many levels of symbolic links"
  | nullDevice => ascii "/dev/null: Operation not permitted"
  | removeRoot => ascii "/: Cannot remove root directory"
  | moveRoot => ascii "/: Cannot move root directory"
  | moveIntoItself path => path ++ ascii ": Cannot move a directory into itself"
  | copyIntoItself path => path ++ ascii ": Cannot copy a directory into itself"
  | copyNotRecursive path => path ++ ascii ": -r not specified; omitting directory"
  | sameFile source target =>
    ascii "'" ++ source ++ ascii "' and '" ++ target ++ ascii "' are the same file"
  | store cause => cause.message

end Fault

/-- What an operation gives or why it fails. -/
abbrev Outcome (α : Type) := Except Fault α

/-! ## Asking an outcome for what it does not hold -/

inductive Misuse
  | valueOfFault (message : Bytes)
  | faultOfValue
  deriving DecidableEq

def Misuse.message : Misuse → Bytes
  | valueOfFault message => ascii "Attempted to access value of error Result: " ++ message
  | faultOfValue => ascii "Attempted to access error of ok Result"

namespace Outcome

variable {α : Type}

def value : Outcome α → Except Misuse α
  | .ok a => .ok a
  | .error f => .error (.valueOfFault f.message)

def fault : Outcome α → Except Misuse Fault
  | .ok _ => .error .faultOfValue
  | .error f => .ok f

end Outcome

/-! ## Reports -/

/-- The category of a complaint. -/
inductive ReportKind
  | commandNotFound
  | syntaxError
  | fileNotFound
  | fileExists
  | isADirectory
  | notADirectory
  | directoryNotEmpty
  | invalidArgument
  | runtimeError
  | unknown
  deriving DecidableEq, Inhabited

namespace ReportKind

/-- The category of a fault of the kind. -/
def ofErrorKind : ErrorKind → ReportKind
  | .notFound => fileNotFound
  | .alreadyExists => fileExists
  | .isADirectory => isADirectory
  | .notADirectory => notADirectory
  | .notEmpty => directoryNotEmpty
  | .invalidArgument => invalidArgument
  | .ioError => runtimeError

/-- What a report of the category says when it has no message. -/
def standingText : ReportKind → Bytes
  | commandNotFound => ascii "command not found"
  | syntaxError => ascii "syntax error"
  | fileNotFound => ascii "No such file or directory"
  | invalidArgument => ascii "invalid argument"
  | runtimeError => ascii "runtime error"
  | _ => ascii "unknown error"

end ReportKind

/-- A complaint. -/
structure Report where
  kind : ReportKind := .unknown
  command : Bytes := []
  message : Bytes := []
  advice : List Bytes := []

namespace Report

/-- The report of a fault that a command met. -/
def ofFault (command : Bytes) (fault : Fault) : Report :=
  { kind := .ofErrorKind fault.kind, command, message := fault.message }

/-- `command: message`, and a line for each piece of advice. -/
def render (r : Report) : Bytes :=
  let command := if r.command.isEmpty then ascii "vsh" else r.command
  let message := if r.message.isEmpty then r.kind.standingText else r.message
  Bytes.unlines ((command ++ ascii ": " ++ message) :: r.advice)

end Report

end VirtualShell
