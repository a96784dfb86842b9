import VirtualShell.Proofs.Shell.Quoting
import VirtualShell.Proofs.Shell.Scripts
import VirtualShell.Proofs.Startup.Limit
import VirtualShell.Proofs.Tree.NormalForm

/-!
# The startup file

The path of the startup file is looked up from the root and then put between quotes into a line,
which is read as any other and whose path `source` looks up from the working directory. Where the
home directory has no quote in it, that line is one call of `source` with the path for its operand
(`Program.spellsWords_startupLine`), and where the home directory is absolute both look-ups find the
same file (`Tree.stat_resolve_of_isAbsolute`); then the lines of the file are run and nothing else
(`Program.runStartupFile_sources`). A quote in the home directory ends the quoted path too early.
-/

namespace VirtualShell

open ShellAction

/-! ## The path -/

theorem Path.isAbsolute_join {directory : Bytes} (h : isAbsolute directory = true) (name : Bytes) :
    isAbsolute (join directory name) = true := by
  unfold join
  split
  · rfl
  · cases directory with
    | nil => cases h
    | cons c rest => exact h

theorem Path.mem_join {c : UInt8} {directory name : Bytes} (h : c ∈ join directory name) :
    c = Ascii.slash ∨ c ∈ directory ∨ c ∈ name := by
  unfold join at h
  split at h
  · rcases List.mem_cons.1 h with slash | name
    · exact .inl slash
    · exact .inr (.inr name)
  · rcases List.mem_append.1 h with directory | rest
    · exact .inr (.inl directory)
    · rcases List.mem_cons.1 rest with slash | name
      · exact .inl slash
      · exact .inr (.inr name)

theorem Path.slash_mem_join (directory name : Bytes) : Ascii.slash ∈ join directory name := by
  unfold join
  split
  · exact List.mem_cons_self
  · exact List.mem_append_right _ List.mem_cons_self

theorem Path.resolve_of_isAbsolute {path : Bytes} (h : isAbsolute path = true)
    (base home : Bytes) : resolve path base home = resolve path := by
  simp only [resolve, expandHome_of_isAbsolute h, h, if_true]

/-- An absolute path leads to the same from every session as from none. -/
theorem Tree.stat_resolve_of_isAbsolute (tree : Tree) (s : Session) {path : Bytes}
    (h : Path.isAbsolute path = true) : tree.stat (s.resolve path) = tree.stat path := by
  have same : Path.resolve (s.resolve path) = Path.resolve path := by
    rw [Session.resolve, Path.resolve_of_canonical (Path.canonical_resolve _ _ _),
      Path.resolve_of_isAbsolute h]
  rw [stat, stat, realPath, realPath, same]

namespace Program

variable {path : Bytes}

/-! ## The line -/

theorem startupLine_eq (noQuote : Ascii.quote ∉ path) :
    startupLine path = ascii "source " ++ commandLine [path] := by
  have plain : ∀ c ∈ path, quoteByte c = [c] := by
    intro c mem
    rw [quoteByte, if_neg]
    rintro rfl
    exact noQuote mem
  rw [commandLine_singleton, quoteWord_eq, List.flatMap_congr plain, List.flatMap_singleton']
  rfl

/-- Without a quote in the path, the line is read as a call of `source` with the path. -/
theorem spellsWords_startupLine (noQuote : Ascii.quote ∉ path) :
    SpellsWords (startupLine path) [ascii "source", path] := by
  have quoted : Quoted false (ascii "source " ++ commandLine [path]) :=
    .letter rfl <| .letter rfl <| .letter rfl <| .letter rfl <| .letter rfl <| .letter rfl <|
      .blank (quoted_commandLine [path])
  obtain ⟨state, finish⟩ := WordScan.read_commandLine path []
    (s := WordScan.read {} (ascii "source ")) rfl rfl rfl
  rw [← WordScan.read_append] at state finish
  rw [startupLine_eq noQuote]
  exact {
    quoted
    ne_nil := List.cons_ne_nil _ _
    trim_eq := Bytes.trim_eq_self (by rintro _ ⟨⟩; rfl) (by
      rw [List.getLast?_append, getLast?_commandLine]
      rintro _ ⟨⟩
      rfl)
    isComment_eq := rfl
    words_eq := finish
    openQuote?_eq := by rw [openQuote?, state] }

/-! ## Running the file -/

/-- The startup file is run by one call, which is no call for help. -/
def sourceCall (i : Interpreter) (path : Bytes) : Call where
  name := ascii "source"
  arguments := [path]
  input := none
  runner := some i.runner

/-- Where `source` is no alias the words of the line are a call of it. -/
theorem run_runWords_source (limit : Int) (path : Bytes) {w : World}
    (noAlias : w.session.aliases.find? (ascii "source") = none) :
    let i := Interpreter.standard limit
    (Interpreter.runWords i.commands i.runner [ascii "source", path] none).run w =
      (Builtin.source.invoke (sourceCall i path)).run w := by
  intro i
  have assigns : Interpreter.assignLeading [ascii "source", path] =
      return [ascii "source", path] := rfl
  have known : i.commands.find? (ascii "source") = some Builtin.source := rfl
  rw [Interpreter.runWords, assigns, pure_bind, Interpreter.expandAlias, run_bind, run_session_bind,
    noAlias]
  simp only [run_pure, known]
  rfl

/-- A regular file that stands where the startup file is to be has its line run. -/
theorem run_runStartupFile (i : Interpreter) {w : World} {node : Inode}
    (found : w.system.tree.stat (startupFile w.session) = .ok node) (regular : node.isFile = true) :
    let line := (i.execute (startupLine (startupFile w.session))).run w
    (runStartupFile i).run w =
      { value := ()
        emitted := .trace (.startupFile (startupFile w.session)) :: line.emitted
        world := line.world } := by
  intro line
  have runs : (runStartupFile i).run w =
      { value := ()
        emitted := .trace (.startupFile (startupFile w.session)) :: (line.emitted ++ [])
        world := line.world } := by
    rw [runStartupFile, run_session_bind, run_tree_bind, found]
    dsimp only
    rw [if_pos regular]
    rfl
  rw [runs, List.append_nil]

theorem quote_not_mem_startupFile {s : Session} (noQuote : Ascii.quote ∉ s.home) :
    Ascii.quote ∉ startupFile s := by
  intro mem
  rcases Path.mem_join mem with slash | home | name
  · cases slash
  · exact noQuote home
  · revert name
    decide

/-- The path of the startup file is no option. -/
theorem startupFile_ne {s : Session} {word : Bytes} (noSlash : Ascii.slash ∉ word) :
    startupFile s ≠ word := by
  rintro rfl
  exact noSlash (Path.slash_mem_join _ _)

/-- **The startup file is run.** Take any way to start the shell that goes on, and any world before
its first line. If a regular file stands where the startup file of the session is to be, `source` is
no alias and there is no quote in the home directory, then the line that is run is one call of
`source` with the path of that file for its operand. If this leads to the file from the working
directory too, as it does where the home directory is absolute, then the lines of the file are run
and nothing else. -/
theorem runStartupFile_sources {l : Launch} {before : World} {plan : Plan}
    (goesOn : ((prepare l).run before).value = .ok plan) (w : World) (node : Inode)
    (outermost : w.depth = 0) (noAlias : w.session.aliases.find? (ascii "source") = none)
    (noQuote : Ascii.quote ∉ w.session.home)
    (found : w.system.tree.stat (startupFile w.session) = .ok node) (regular : node.isFile = true) :
    let i := interpreter plan.settings
    let path := startupFile w.session
    let inside := { w with depth := 1 }
    let sourced := (Builtin.source.invoke (sourceCall i path)).run inside
    (runStartupFile i).run w =
        { value := ()
          emitted := .trace (.startupFile path) :: .trace (.statement 1 (startupLine path))
            :: (sourced.emitted ++ [.trace (.finished .runningLine)])
          world := { sourced.world with session.lastStatus := sourced.value, depth := 0 } }
      ∧ (Path.isAbsolute w.session.home = true →
          w.system.tree.stat (w.session.resolve path) = .ok node)
      ∧ (w.system.tree.stat (w.session.resolve path) = .ok node →
          let script := (Builtin.runScript (Builtin.passOn i.runner.run) 0
            (scriptLines node.content)).run (inside.reading node)
          sourced = { script with emitted := .trace (.sourcing path) :: script.emitted }) := by
  intro i path inside sourced
  refine ⟨?_, fun absolute => ?_, fun same => ?_⟩
  · have spells := spellsWords_startupLine (quote_not_mem_startupFile noQuote)
    have room : w.depth < plan.settings.nestingLimit :=
      outermost ▸ nestingLimit_pos_of_prepare goesOn
    have line := Interpreter.run_execute_of_spellsWords spells none room
    rw [outermost] at line
    have call := run_runWords_source plan.settings.nestingLimit path (w := inside) noAlias
    dsimp only at line call
    rw [run_runStartupFile i found regular]
    dsimp only
    rw [show i = Interpreter.standard plan.settings.nestingLimit from rfl, line, call]
    rfl
  · have isAbsolute : Path.isAbsolute path = true := Path.isAbsolute_join absolute _
    rw [Tree.stat_resolve_of_isAbsolute _ _ isAbsolute]
    exact found
  · have isFile : node.isDirectory = false := by
      rw [Inode.isFile, beq_iff_eq] at regular
      rw [Inode.isDirectory, regular]
      rfl
    exact Builtin.run_invoke_sourceNamed (ascii "source") (ascii "source") path [] none i.runner
      ⟨startupFile_ne (by decide), startupFile_ne (by decide)⟩ same isFile

/-- The world of a home directory that a configuration names and that has a startup file. -/
def homeWorld (home : Bytes) : World :=
  let opened := (FileSystem.load { volume := { store := .memory ∅ } } 0).system
  let made := (Request.run opened ⟨.edit (.makeDirectory home), 1, none⟩).system
  let written := (Request.run made
    ⟨.edit (.write (Path.join home (ascii ".vshrc")) (ascii "echo hi\n")), 2, none⟩).system
  let configuration : Configuration := { environment := ByteMap.ofList [(ascii "HOME", home)] }
  { system := written, now := 3, session := configuration.applyToSession (.default written.tree) }

/-- A home directory with a blank in it. -/
def blankWorld : World := homeWorld (ascii "/my home")

/-- The shell without options, and no file of the host to say how it is to run. -/
def bareLaunch : Launch := { program := name, arguments := [], terminal := false, home := [] }

def barePlan : Plan where
  settings := { Settings.standard [] with interactive := false }
  configuration := {}
  job := .standardInput

theorem runStartupFile_sources_of_blank :
    let path := startupFile blankWorld.session
    let i := interpreter barePlan.settings
    ((runStartupFile i).run blankWorld).emitted =
        .trace (.startupFile path) :: .trace (.statement 1 (startupLine path))
          :: (((Builtin.source.invoke (sourceCall i path)).run
            { blankWorld with depth := 1 }).emitted ++ [.trace (.finished .runningLine)])
      ∧ (transcript ((runStartupFile i).run blankWorld).emitted).out = ascii "hi\n" := by
  have goesOn : ((prepare bareLaunch).run (emptyWorld ⟨∅⟩ 0)).value = .ok barePlan := rfl
  have there : (blankWorld.system.tree.stat (startupFile blankWorld.session)).toOption.any
      Inode.isFile = true := by decide +kernel
  cases found : blankWorld.system.tree.stat (startupFile blankWorld.session) with
  | error fault =>
    rw [found] at there
    cases there
  | ok node =>
    rw [found] at there
    have run := (runStartupFile_sources goesOn blankWorld node rfl (by decide +kernel)
      (by decide +kernel) found there).1
    exact ⟨congrArg ActionResult.emitted run, by decide +kernel⟩

/-- **A quote in the home directory ends the path too early**: `source` is called with the path of
another file, and the startup file, which has been found, is not run. -/
theorem not_runStartupFile_sources :
    let w := homeWorld (ascii "/it's")
    let run := (runStartupFile (interpreter barePlan.settings)).run w
    (w.system.tree.stat (startupFile w.session)).toOption.any Inode.isFile = true
      ∧ w.session.aliases.find? (ascii "source") = none
      ∧ (∀ file, .trace (.sourcing file) ∉ run.emitted)
      ∧ (transcript run.emitted).out = []
      ∧ (transcript run.emitted).err
        = ascii "source: /its/.vshrc: No such file or directory\n" := by
  have outcome :
      let w := homeWorld (ascii "/it's")
      let path := startupFile w.session
      (w.system.tree.stat path).toOption.any Inode.isFile = true
        ∧ w.session.aliases.find? (ascii "source") = none
        ∧ ((runStartupFile (interpreter barePlan.settings)).run w).emitted =
          [.trace (.startupFile path), .trace (.lineUnterminated (startupLine path)),
            .trace (.statement 1 (startupLine path)), .trace (.quoteUnterminated .singleQuoted),
            .err (ascii "source: /its/.vshrc: No such file or directory\n"),
            .trace (.finished .runningLine)] := by
    decide +kernel
  obtain ⟨found, noAlias, emitted⟩ := outcome
  dsimp only at emitted ⊢
  rw [emitted]
  exact ⟨found, noAlias, fun file => by simp, rfl, rfl⟩

end Program

end VirtualShell
