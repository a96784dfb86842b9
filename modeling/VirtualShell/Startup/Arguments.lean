import VirtualShell.Startup.Settings
import VirtualShell.Version

/-!
# The command line

The options come first: the first operand ends them, as `--` does. Short options may share a dash, a
long one may be cut short as long as it is unambiguous, and a value follows in the same word or in
the next. The first operand names a script, and all words behind it are its arguments, also those
that look like options.

The host's scanner of options keeps to the place for them that it was first used with in a process.
The shell is the first to use its own, and a caller that has used it before says so (`OptionPlace`).
-/

namespace VirtualShell

/-- The options. -/
inductive CommandOption
  | command
  | store
  | memory
  | noSource
  | debug
  | version
  | help
  deriving DecidableEq

namespace CommandOption

/-- In the order of the help text. -/
def all : List CommandOption := [command, store, memory, noSource, debug, version, help]

def letter : CommandOption → UInt8
  | command => 99
  | store => 115
  | memory => 109
  | noSource => 78
  | debug => 100
  | version => 118
  | help => 104

def name : CommandOption → Bytes
  | command => ascii "command"
  | store => ascii "store"
  | memory => ascii "memory"
  | noSource => ascii "no-source"
  | debug => ascii "debug"
  | version => ascii "version"
  | help => ascii "help"

def takesValue : CommandOption → Bool
  | command | store => true
  | _ => false

/-- The settings with an option and its value. -/
def apply (s : Settings) (value : Bytes) : CommandOption → Settings
  | command => { s with command := some value, interactive := false }
  | store => { s with storePath := value, persistent := true }
  | memory => { s with persistent := false }
  | noSource => { s with runsStartupFile := false }
  | debug => { s with debug := true }
  | version => { s with showsVersion := true, interactive := false }
  | help => { s with showsHelp := true, interactive := false }

end CommandOption

/-- Where options may stand, as the scanner of the host's process has been set. -/
inductive OptionPlace
  /-- Before the first operand: what the shell asks for. -/
  | first
  /-- Also behind operands, in a process that has used the scanner so before. -/
  | anywhere
  deriving DecidableEq

/-- Why a command line is refused. -/
inductive ArgumentError
  | invalidLetter (letter : UInt8)
  | missingValueOfLetter (letter : UInt8)
  | unknown (word : Bytes)
  | ambiguous (word : Bytes) (candidates : List CommandOption)
  | unexpectedValue (option : CommandOption)
  | missingValue (option : CommandOption)
  deriving DecidableEq

/-- The message, after the name that the program was called by. -/
def ArgumentError.message (program : Bytes) (e : ArgumentError) : Bytes :=
  let quoted (name : Bytes) : Bytes := ascii "'" ++ name ++ ascii "'"
  let long (option : CommandOption) : Bytes := quoted (ascii "--" ++ option.name)
  let text : Bytes := match e with
    | invalidLetter letter => ascii "invalid option -- " ++ quoted [letter]
    | missingValueOfLetter letter => ascii "option requires an argument -- " ++ quoted [letter]
    | unknown word => ascii "unrecognized option " ++ quoted word
    | ambiguous word candidates =>
      ascii "option " ++ quoted word ++ ascii " is ambiguous; possibilities:"
        ++ candidates.flatMap (fun o => ascii " " ++ long o)
    | unexpectedValue option => ascii "option " ++ long option ++ ascii " doesn't allow an argument"
    | missingValue option => ascii "option " ++ long option ++ ascii " requires an argument"
  program ++ ascii ": " ++ text ++ [Ascii.newline]

/-- What the command line asks for. -/
structure Invocation where
  settings : Settings
  script : Option Bytes := none
  scriptArguments : List Bytes := []

/-- A command line that is refused, with the settings made before the fault. -/
structure Refusal where
  error : ArgumentError
  settings : Settings

namespace Arguments

/-- The options that a long name can mean: the one of that name, or all that start with it. -/
def candidates (name : Bytes) : List CommandOption :=
  match CommandOption.all.find? (fun o => o.name == name) with
  | some option => [option]
  | none => CommandOption.all.filter (fun o => name.isPrefixOf o.name)

/-- Reads the letters behind one dash. The value of an option is the rest of the word or the next
word. Gives the words that are left. -/
def readLetters (s : Settings) (rest : List Bytes) :
    Bytes → Except Refusal (Settings × List Bytes)
  | [] => .ok (s, rest)
  | letter :: letters =>
    match CommandOption.all.find? (fun o => o.letter == letter) with
    | none => .error ⟨.invalidLetter letter, s⟩
    | some option =>
      if !option.takesValue then readLetters (option.apply s []) rest letters
      else if !letters.isEmpty then .ok (option.apply s letters, rest)
      else match rest with
        | [] => .error ⟨.missingValueOfLetter letter, s⟩
        | value :: rest => .ok (option.apply s value, rest)

/-- Reads a long option behind its two dashes. -/
def readLong (s : Settings) (rest : List Bytes) (text : Bytes) :
    Except Refusal (Settings × List Bytes) :=
  let name := text.takeWhile (· != Ascii.equals)
  let value : Option Bytes := match text.dropWhile (· != Ascii.equals) with
    | [] => none
    | _ :: value => some value
  let word := ascii "--" ++ text
  match candidates name with
  | [] => .error ⟨.unknown word, s⟩
  | [option] =>
    if option.takesValue then
      match value, rest with
      | some value, _ => .ok (option.apply s value, rest)
      | none, value :: rest => .ok (option.apply s value, rest)
      | none, [] => .error ⟨.missingValue option, s⟩
    else if value.isSome then .error ⟨.unexpectedValue option, s⟩
    else .ok (option.apply s [], rest)
  | several => .error ⟨.ambiguous word several, s⟩

/-- Reads the options among at most `fuel` words and gives the operands. The first operand ends the
options, and with them what is read. -/
def readWords (place : OptionPlace) :
    Nat → Settings → List Bytes → Except Refusal (Settings × List Bytes)
  | 0, s, words => .ok (s, words)
  | _, s, [] => .ok (s, [])
  | fuel + 1, s, word :: rest =>
    match word with
    | [Ascii.minus, Ascii.minus] => .ok (s, rest)
    | Ascii.minus :: Ascii.minus :: text => do
      let (s, rest) ← readLong s rest text
      readWords place fuel s rest
    | Ascii.minus :: c :: letters => do
      let (s, rest) ← readLetters s rest (c :: letters)
      readWords place fuel s rest
    | _ => match place with
      | .first => .ok (s, word :: rest)
      | .anywhere => do
        let (s, operands) ← readWords place fuel s rest
        return (s, word :: operands)

/-- Reads the words behind the name of the program. Without a terminal the shell is not
interactive. -/
def read (s : Settings) (terminal : Bool) (words : List Bytes) (place : OptionPlace := .first) :
    Except Refusal Invocation := do
  let (s, operands) ← readWords place words.length s words
  let s := if terminal then s else { s with interactive := false }
  match operands with
  | [] => return { settings := s }
  | script :: scriptArguments =>
    return { settings := { s with interactive := false }, script := some script, scriptArguments }

end Arguments

/-! ## The help text -/

def usage : Bytes :=
  Bytes.unlines [
    ascii "Usage: vsh [options] [SCRIPT [ARGS ...]]",
    ascii "vsh, a virtual shell, version " ++ version,
    [],
    ascii "Options:",
    ascii "  -c, --command=COMMAND      Execute the specified command and exit",
    ascii "  -s, --store=PATH           Persist the virtual filesystem to PATH",
    ascii "  -m, --memory               Keep the virtual filesystem in memory only",
    ascii "  -N, --no-source            Don't source ~/.vshrc",
    ascii "  -d, --debug                Enable debug output",
    ascii "  -v, --version              Print version information and exit",
    ascii "  -h, --help                 Display this help message and exit",
    [],
    ascii "Configuration is read from ~/.config/vsh/config.json",
    ascii "Run 'help' inside vsh for the list of commands."]

end VirtualShell
