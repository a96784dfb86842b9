import VirtualShell.Lexing.Redirect
import VirtualShell.Lexing.Variable
import VirtualShell.Shell.Builtin

/-!
# Running lines

A line has its variables expanded as a whole and is then cut into statements, logic chains,
pipelines and segments. A segment has its substitutions put in place and its redirects lifted out;
what is left are words, and the first word names the command.

* `Interpreter.guarding` runs no line inside as many lines as the limit says; it counts a line while
  it runs.
* `Interpreter.runLevels` unfolds the lines inside a line so many levels deep; as many as the limit
  says are enough (`Interpreter.execute`).
* A stage of a pipeline that is not the last writes into the next; the status is that of the last.
* A redirect that a later one of the same stream overrides still creates its file.
-/

namespace VirtualShell

/-! ## Words -/

/-- The `./` that a pattern starts with, as often as it does, and the rest. -/
def splitDotSlashes : Bytes → Bytes × Bytes
  | Ascii.dot :: Ascii.slash :: rest =>
    let (dots, pattern) := splitDotSlashes rest
    (Ascii.dot :: Ascii.slash :: dots, pattern)
  | text => ([], text)

/-- A hidden name counts only when the pattern asks for one. -/
def isHiddenMatch (pattern path : Bytes) : Bool :=
  (Path.base (Ascii.slash :: path)).head? == some Ascii.dot
    && (Path.base (Ascii.slash :: pattern)).head? != some Ascii.dot

/-- The arguments that a word stands for: the paths that it matches as a pattern, else itself. -/
def expandWord (tree : Tree) (directory : Bytes) (word : Word) : List Bytes :=
  if !word.globCandidate || (Assignment.read? word.text).isSome then [word.text]
  else
    let (dots, pattern) := splitDotSlashes word.text
    let shown := (tree.glob pattern directory).filter (fun path => !isHiddenMatch pattern path)
    if shown.isEmpty then [word.text] else shown.map (dots ++ ·)

/-- What a reference stands for in a session. -/
def Session.referred (s : Session) : Reference → Bytes
  | .status => signedDecimal s.lastStatus
  | .variable name => s.valueOf name

/-! ## Redirects -/

namespace RedirectKind

/-- Both write, and to the same stream. -/
def sharesStream (a b : RedirectKind) : Bool :=
  a != .input && b != .input && a.isOutput == b.isOutput

end RedirectKind

namespace Redirect

def lastOutput? (redirects : List Redirect) : Option Redirect :=
  redirects.reverse.find? (fun r => r.kind.isOutput)

def lastError? (redirects : List Redirect) : Option Redirect :=
  redirects.reverse.find? (fun r => r.kind != .input && !r.kind.isOutput)

/-- The redirects that a later one of the same stream overrides. -/
def overridden : List Redirect → List Redirect
  | [] => []
  | r :: rest =>
    if rest.any (fun s => r.kind.sharesStream s.kind) then r :: overridden rest
    else overridden rest

end Redirect

/-- The quotes that targets leave open, up to the first target that names nothing. -/
def openTargetQuotes : List RawRedirect → List LexState
  | [] => []
  | raw :: rest =>
    (openQuote? raw.source).toList ++ (if raw.resolve?.isSome then openTargetQuotes rest else [])

/-- The part behind a connective is passed over after the status. -/
def Connective.skips (behind : Connective) (status : Int) : Bool :=
  match behind with
  | .both => status != 0
  | .either => status == 0

/-- What lines are run with. -/
structure Interpreter where
  commands : Registry Builtin
  /-- How deep lines may run inside lines. -/
  limit : Int

namespace Interpreter

open ShellAction

/-! ## Commands -/

def traceOpenQuotes (quotes : List LexState) : ShellAction Unit :=
  trace (quotes.map .quoteUnterminated)

/-- Sets the variables of the leading assignments and gives the words behind them. -/
def assignLeading : List Bytes → ShellAction (List Bytes)
  | [] => return []
  | word :: rest =>
    match Assignment.read? word with
    | some a => do
      modifySession (·.setVariable a.name a.value)
      assignLeading rest
    | none => return word :: rest

/-- Puts the words of an alias in the place of the first word, once. -/
def expandAlias : List Bytes → ShellAction (List Bytes)
  | [] => return []
  | name :: rest => do
    match (← session).aliases.find? name with
    | none => return name :: rest
    | some value => do
      traceOpenQuotes (openQuote? value).toList
      return wordTexts value ++ rest

/-- Runs the command that the words name. -/
def runWords (commands : Registry Builtin) (runner : LineRunner) (words : List Bytes)
    (input : Option Bytes) : ShellAction Int := do
  match ← expandAlias (← assignLeading words) with
  | [] => return 0
  | name :: arguments =>
    match commands.find? name with
    | some command => command.invoke { name, arguments, input, runner }
    | none => do
      report { kind := .commandNotFound, command := name }
      return 127

/-- The arguments of a command text, patterns replaced by what they match. -/
def argumentsOf (text : Bytes) : ShellAction (List Bytes) := do
  traceOpenQuotes (openQuote? text).toList
  let w ← world
  return (words text).flatMap (expandWord w.system.tree w.session.directory)

/-! ## Segments -/

/-- The name that the shell itself complains under. -/
def shellName : Bytes := ascii "vsh"

/-- Reads the files of the input redirects in order; the last of them is the input. -/
def readRedirects (input : Option Bytes) : List Redirect → ShellAction (Outcome (Option Bytes))
  | [] => return .ok input
  | r :: rest =>
    if r.kind = .input then do
      match ← readPath r.target with
      | .ok content => readRedirects (some content) rest
      | .error fault => return .error fault
    else readRedirects input rest

/-- Creates the files of redirects that nothing is written to. -/
def createTargets : List Redirect → ShellAction (Outcome Unit)
  | [] => return .ok ()
  | r :: rest => do
    match ← writePath r.target [] r.kind.appends with
    | .ok () => createTargets rest
    | .error fault => return .error fault

/-- Writes what was collected to the target of a redirect. A failure makes a status of 0 a 1. -/
def flushTo (target : Option Redirect) (data : Bytes) (status : Int) : ShellAction Int := do
  match target with
  | none => return status
  | some r =>
    if ← check shellName (← writePath r.target data r.kind.appends) then return status
    else return if status = 0 then 1 else status

/-- Runs an action under redirects. -/
def redirecting (redirects : List Redirect) (input : Option Bytes)
    (body : Option Bytes → ShellAction Int) : ShellAction Int := do
  match ← readRedirects input redirects with
  | .error fault => do
    reportFault shellName fault
    return 1
  | .ok input => do
    match ← createTargets (Redirect.overridden redirects) with
    | .error fault => do
      reportFault shellName fault
      return 1
    | .ok () => do
      let output := Redirect.lastOutput? redirects
      let errors := Redirect.lastError? redirects
      let written ← (body input).divert output.isSome errors.isSome
      flushTo errors written.err (← flushTo output written.out written.code)

/-- Puts the substitutions of a segment in place. -/
def substitute (runner : LineRunner) (segment : Bytes) : ShellAction Bytes := do
  let unclosed : SubstitutionForm → ShellAction Unit
    | .paren => trace [.substitutionUnterminated]
    | .backtick => return
  let substituted ← expandSubstitutions runner.runApart unclosed segment
  if !substituted.err.isEmpty then err substituted.err
  return substituted.text

/-- Runs a segment of a pipeline, given what runs the words of a command on an input. -/
def runSegment (call : List Bytes → Option Bytes → ShellAction Int) (runner : LineRunner)
    (segment : Bytes) (input : Option Bytes) : ShellAction Int := do
  let text ← substitute runner segment
  traceOpenQuotes (openTargetQuotes (liftRedirects text).2)
  match Command.read text with
  | .error e => do
    report { kind := .syntaxError, command := shellName, message := e.message }
    return 2
  | .ok command =>
    redirecting command.redirects input fun input => do
      call (← argumentsOf command.text) input

/-! ## Pipelines and logic chains -/

/-- Runs the stages of a pipeline, each on the output of the one before it. -/
def runPipeline (runStage : Bytes → Option Bytes → ShellAction Int) :
    List Bytes → Option Bytes → ShellAction Int
  | [], _ => return 0
  | [stage], input => runStage stage input
  | stage :: rest, input => do
    let written ← (runStage stage input).divert true false
    runPipeline runStage rest (some written.out)

/-- Runs the parts of a logic chain, given the connective before the first and the last status. -/
def runParts (runPart : Bytes → ShellAction Int) (behind : Option Connective) (status : Int) :
    List LogicPart → ShellAction Int
  | [] => return status
  | part :: rest =>
    match behind.filter (·.skips status) with
    | some connective => do
      trace [.partSkipped part.command connective status]
      runParts runPart part.operator status rest
    | none => do
      let status ← runPart part.command
      if (← session).exit.isSome then return status
      runParts runPart part.operator status rest

/-! ## Lines -/

/-- Runs statements one behind the other until the shell is asked to exit. -/
def runStatements (run : Bytes → ShellAction Int) (status : Int) : List Bytes → ShellAction Int
  | [] => return status
  | statement :: rest =>
    if isComment statement then runStatements run status rest
    else do
      trace [.statement (← world).depth statement]
      let status ← run statement
      modifySession ({ · with lastStatus := status })
      if (← session).exit.isSome then return status
      runStatements run status rest

/-- Runs what is on a line, given what runs the words of a command and the lines inside it. -/
def runBody (call : List Bytes → Option Bytes → ShellAction Int) (runner : LineRunner)
    (line : Bytes) (input : Option Bytes) : ShellAction Int := do
  if (Bytes.trim line).isEmpty || isComment line then return 0
  let expanded := expandVariables (← session).referred line
  if (Delimiters.read {} expanded).unterminated then trace [.lineUnterminated expanded]
  let runPart (part : Bytes) := runPipeline (runSegment call runner) (segments part) input
  runStatements (fun statement => runParts runPart none 0 (logicParts statement)) 0
    (statements expanded)

/-- What runs lines through an action. -/
def runnerOf (commands : Registry Builtin) (execute : Bytes → ShellAction Int) : LineRunner where
  run line := (execute line).capture
  runApart line := keepingExit (execute line).capture
  commands := ⟨commands.entries.map fun e => (e.1, e.2.summary), by
    simpa [List.pairwise_map] using commands.sorted⟩

/-- Says that lines are nested too deep. -/
def refuseNesting (i : Interpreter) : ShellAction Int := do
  trace [.nestingLimit i.limit]
  err (shellName ++ ascii ": maximum nesting depth exceeded (" ++ signedDecimal i.limit
    ++ ascii ")\n")
  return 2

/-- Runs what is on a line as one more line, unless there are as many as the limit says. -/
def guarding (i : Interpreter) (body : ShellAction Int) : ShellAction Int := do
  if i.limit ≤ (← world).depth then i.refuseNesting
  else nested do
    let status ← body
    trace [.finished .runningLine]
    return status

/-- Runs a line and the lines inside it, so many levels deep; below them, `beyond` is what is on a
line. -/
def runLevels (i : Interpreter) (beyond : Bytes → Option Bytes → ShellAction Int) :
    Nat → Bytes → Option Bytes → ShellAction Int
  | 0, line, input => i.guarding (beyond line input)
  | levels + 1, line, input =>
    let runner := runnerOf i.commands fun line => runLevels i beyond levels line none
    i.guarding (runBody (runWords i.commands runner) runner line input)

/-- Runs a line. Nothing is run below the limit, so it does not matter what would be. -/
def execute (i : Interpreter) (line : Bytes) (input : Option Bytes := none) : ShellAction Int :=
  i.runLevels (fun _ _ => return 0) i.limit.toNat line input

/-- What runs lines. -/
def runner (i : Interpreter) : LineRunner := runnerOf i.commands fun line => i.execute line

end Interpreter

end VirtualShell
