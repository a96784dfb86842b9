import VirtualShell.Host.Disk
import VirtualShell.Host.Places
import VirtualShell.Json.Reader
import VirtualShell.Session

/-!
# Settings and the configuration file

What the shell is started with. A configuration file on the host is read first, the command line
after it, so that an option wins. The file's variables and aliases go into the session.
-/

namespace VirtualShell

/-- How the shell is to run. -/
structure Settings where
  interactive : Bool := true
  /-- The command to run instead of anything else. -/
  command : Option Bytes := none
  /-- The startup file is run first. -/
  runsStartupFile : Bool := true
  persistent : Bool := true
  storePath : Bytes
  /-- How deep lines may run inside lines. -/
  nestingLimit : Int := 64
  debug : Bool := false
  showsVersion : Bool := false
  showsHelp : Bool := false

/-- The settings that nothing has been said about. -/
def Settings.standard (home : Bytes) : Settings := { storePath := HostPlaces.store home }

/-- What a configuration file says. -/
structure Configuration where
  storePath : Option Bytes := none
  persistent : Option Bool := none
  nestingLimit : Option Int := none
  environment : ByteMap Bytes := ∅
  aliases : ByteMap Bytes := ∅

/-- Why a text is no configuration. -/
inductive ConfigurationError
  | malformed
  | topLevel
  | notAnObject (key : Bytes)
  | notAString (key name : Bytes)
  | nestingLimit
  deriving DecidableEq

def ConfigurationError.message : ConfigurationError → Bytes
  | malformed => ascii "config: <json>"
  | topLevel => ascii "config: top level must be an object"
  | notAnObject key => ascii "config: '" ++ key ++ ascii "' must be an object"
  | notAString key name =>
    ascii "config: '" ++ key ++ ascii "." ++ name ++ ascii "' must be a string"
  | nestingLimit => ascii "config: 'max_nesting_depth' must be positive"

namespace Configuration

/-- Reads an optional field. -/
def readOptional {α : Type} (key : String) (read : Json → Except Json.Mismatch α) (j : Json) :
    Except ConfigurationError (Option α) :=
  match j.field? key with
  | none => .ok none
  | some value =>
    match read value with
    | .ok a => .ok (some a)
    | .error _ => .error .malformed

/-- Reads an optional object of strings. -/
def readStrings (key : String) (j : Json) : Except ConfigurationError (ByteMap Bytes) :=
  match j.field? key with
  | none => .ok ∅
  | some (.object fields) => do
    let entries ← fields.mapM fun
      | (name, .string value) => pure (name, value)
      | (name, _) => throw (.notAString (ascii key) name)
    return ByteMap.ofList entries
  | some _ => .error (.notAnObject (ascii key))

/-- Reads the text of a configuration file. -/
def read (text : Bytes) : Except ConfigurationError Configuration :=
  match Json.read? text with
  | none => .error .malformed
  | some (.object fields) => do
    let j : Json := .object fields
    let storePath ← readOptional "store_path" Json.asString j
    let persistent ← readOptional "persist" Json.asBool j
    let nestingLimit ← readOptional "max_nesting_depth" Json.asInt32 j
    if nestingLimit.any (· ≤ 0) then throw .nestingLimit
    let environment ← readStrings "env" j
    let aliases ← readStrings "aliases" j
    return { storePath, persistent, nestingLimit, environment, aliases }
  | some _ => .error .topLevel

/-- Why a configuration file is of no use. -/
inductive LoadError
  | host (error : HostError)
  | content (error : ConfigurationError)

def LoadError.message : LoadError → Bytes
  | host error => error.message
  | content error => error.message

/-- Reads a configuration file; without one nothing is said. -/
def load (disk : Disk) (path : Bytes) : Except LoadError Configuration :=
  if !disk.contains path then .ok {}
  else match disk.read path with
    | .error e => .error (.host e)
    | .ok text => (read text).mapError .content

/-- The settings with what the file says. -/
def applyTo (c : Configuration) (s : Settings) : Settings :=
  { s with
    storePath := c.storePath.getD s.storePath
    persistent := c.persistent.getD s.persistent
    nestingLimit := c.nestingLimit.getD s.nestingLimit }

/-- The session with the file's variables and aliases. -/
def applyToSession (c : Configuration) (s : Session) : Session :=
  { s with
    environment := s.environment.insertMany c.environment.entries
    aliases := s.aliases.insertMany c.aliases.entries }

end Configuration

end VirtualShell
