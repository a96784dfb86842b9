import VirtualShell.Proofs.Lexing.Quoted
import VirtualShell.Proofs.Shell.Nesting

/-!
# Running lines of quoted words

A line of quoted words runs one command: the words themselves, in one call, whatever they hold
(`Interpreter.runBody_commandLine`). So `xargs`, which quotes every word of the lines that it
builds, calls its command with its own words and the items, in order and each once.
-/

namespace VirtualShell

open ShellAction

namespace Interpreter

/-- Where there are no redirects, a command is just run. -/
theorem redirecting_nil (input : Option Bytes) (body : Option Bytes → ShellAction Int) :
    redirecting [] input body = body input := by
  have plain : redirecting [] input body = do
      let written ← (body input).divert false false
      return written.code := rfl
  refine ShellAction.ext fun w => ?_
  rw [plain, run_bind, run_divert]
  have all : ((body input).run w).emitted.filter (fun _ => true) = ((body input).run w).emitted :=
    List.filter_eq_self.2 fun _ _ => rfl
  simp only [Bool.false_and, Bool.or_false, Bool.not_false, all, run_pure, List.append_nil]

theorem traceOpenQuotes_nil : traceOpenQuotes [] = return () := rfl

/-- A word that is no pattern stands for itself. -/
theorem expandWord_plain (tree : Tree) (directory text : Bytes) :
    expandWord tree directory ⟨text, false⟩ = [text] := rfl

section

variable {line : Bytes} {l : List Bytes} (h : SpellsWords line l)
include h

theorem substitute_eq (runner : LineRunner) : substitute runner line = return line := by
  rw [substitute, expandSubstitutions, h.substitutions_eq]
  simp [runSubstitutions]

theorem argumentsOf_eq : argumentsOf line = return l := by
  rw [argumentsOf, h.openQuote?_eq, h.words_eq]
  refine ShellAction.ext fun w => ?_
  have themselves : l.flatMap (fun text => [text]) = l := by simp
  simp only [Option.toList_none, traceOpenQuotes_nil, pure_bind, run_world_bind, List.flatMap_map,
    expandWord_plain, themselves]

theorem runSegment_eq (call : List Bytes → Option Bytes → ShellAction Int) (runner : LineRunner)
    (input : Option Bytes) : runSegment call runner line input = call l input := by
  have read : Command.read line = .ok ⟨line, []⟩ := by
    rw [Command.read, h.liftRedirects_eq]
    simp [h.trim_eq]
  rw [runSegment, substitute_eq h, pure_bind, h.liftRedirects_eq, openTargetQuotes,
    traceOpenQuotes_nil, pure_bind, read]
  dsimp only
  rw [redirecting_nil, argumentsOf_eq h, pure_bind]

end

/-- Where an action stands last, it makes no difference whether the shell has been asked to exit. -/
theorem bind_pending_self (a : ShellAction Int) :
    (do let v ← a; if (← session).exit.isSome then return v else return v) = a := by
  refine ShellAction.ext fun w => ?_
  simp only [ite_self]
  exact congrArg (ShellAction.run · w) (bind_pure a)

/-- What is on a line that spells words is one call of those words. -/
theorem runBody_of_spellsWords {line : Bytes} {l : List Bytes} (h : SpellsWords line l)
    (call : List Bytes → Option Bytes → ShellAction Int) (runner : LineRunner)
    (input : Option Bytes) :
    runBody call runner line input = do
      trace [.statement (← world).depth line]
      let status ← call l input
      modifySession ({ · with lastStatus := status })
      return status := by
  have notBlank : ((Bytes.trim line).isEmpty || isComment line) = false := by
    rw [h.trim_eq, h.isComment_eq, h.isEmpty_eq]
    rfl
  have part (runPart : Bytes → ShellAction Int) :
      runParts runPart none 0 (logicParts line) = runPart line := by
    rw [h.logicParts_eq]
    exact bind_pending_self _
  have stage : runPipeline (runSegment call runner) (segments line) input = call l input := by
    rw [h.segments_eq]
    exact runSegment_eq h call runner input
  refine ShellAction.ext fun w => ?_
  rw [runBody, if_neg (by rw [notBlank]; simp), run_session_bind]
  dsimp only
  rw [h.expandVariables_eq, h.unterminated_eq, if_neg (by simp), h.statements_eq, runStatements,
    if_neg (by rw [h.isComment_eq]; simp), part, stage]
  refine run_bind_congr rfl (run_bind_congr rfl (run_bind_congr rfl (run_bind_congr rfl ?_)))
  rw [run_session_bind]
  split
  · rfl
  · rfl

/-- One more line that spells words is one call of those words. -/
theorem execute_of_spellsWords {line : Bytes} {l : List Bytes} (h : SpellsWords line l)
    (limit : Int) (input : Option Bytes) :
    let i := standard limit
    i.execute line input = i.guarding do
      trace [.statement (← world).depth line]
      let status ← runWords i.commands i.runner l input
      modifySession ({ · with lastStatus := status })
      return status := by
  intro i
  rw [execute_eq_guarding i (respects_standard limit), runBody_of_spellsWords h]

/-- What comes of a line that spells words: its call is made one deeper. -/
theorem run_execute_of_spellsWords {line : Bytes} {l : List Bytes} (h : SpellsWords line l)
    {limit : Int} (input : Option Bytes) {w : World} (room : w.depth < limit) :
    let i := standard limit
    let called := (runWords i.commands i.runner l input).run { w with depth := w.depth + 1 }
    (i.execute line input).run w =
      { value := called.value
        emitted := .trace (.statement (w.depth + 1) line)
          :: (called.emitted ++ [.trace (.finished .runningLine)])
        world := { called.world with session.lastStatus := called.value, depth := w.depth } } := by
  intro i called
  have inside : ¬ i.limit ≤ (w.depth : Int) := Int.not_le.2 room
  have emitted : ((do
      trace [.statement (← world).depth line]
      let status ← runWords i.commands i.runner l input
      modifySession ({ · with lastStatus := status })
      return status : ShellAction Int).run { w with depth := w.depth + 1 }).emitted =
        .trace (.statement (w.depth + 1) line) :: (called.emitted ++ []) := rfl
  have run : (i.execute line input).run w =
      { value := called.value
        emitted := .trace (.statement (w.depth + 1) line)
          :: (called.emitted ++ [.trace (.finished .runningLine)])
        world := { called.world with
          session.lastStatus := called.value, depth := called.world.depth - 1 } } := by
    rw [execute_of_spellsWords h, guarding, run_world_bind, if_neg inside, run_nested, run_bind,
      emitted, List.append_nil]
    rfl
  have depth : called.world.depth - 1 = w.depth := by
    rw [← depth_run_execute i (respects_standard limit) line input w, run]
  rw [run, depth]

variable (word : Bytes) (rest : List Bytes)

/-- **Quoted words.** What is on a line of quoted words is one call of those words. -/
theorem runBody_commandLine (call : List Bytes → Option Bytes → ShellAction Int)
    (runner : LineRunner) (input : Option Bytes) :
    runBody call runner (commandLine (word :: rest)) input = do
      trace [.statement (← world).depth (commandLine (word :: rest))]
      let status ← call (word :: rest) input
      modifySession ({ · with lastStatus := status })
      return status :=
  runBody_of_spellsWords (spellsWords_commandLine word rest) call runner input

/-- One more line, which is one call of the words. -/
def callLine (i : Interpreter) (words : List Bytes) (input : Option Bytes := none) :
    ShellAction Int :=
  i.guarding do
    trace [.statement (← world).depth (commandLine words)]
    let status ← runWords i.commands i.runner words input
    modifySession ({ · with lastStatus := status })
    return status

theorem execute_commandLine (limit : Int) (input : Option Bytes) :
    (standard limit).execute (commandLine (word :: rest)) input =
      (standard limit).callLine (word :: rest) input :=
  execute_of_spellsWords (spellsWords_commandLine word rest) limit input

end Interpreter

/-! ## `xargs` -/

namespace XargsOptions

theorem flatten_chunks (size : Nat) (l : List Bytes) : (chunks size l).flatten = l := by
  fun_induction chunks size l with
  | case1 l _ empty => rw [List.isEmpty_iff.1 empty, List.flatten_nil]
  | case2 l _ _ => rw [List.flatten_singleton]
  | case3 l _ ih => rw [List.flatten_cons, ih, List.take_append_drop]

theorem ne_nil_of_mem_chunks {size : Nat} {l chunk : List Bytes} (h : chunk ∈ chunks size l) :
    chunk ≠ [] := by
  fun_induction chunks size l with
  | case1 l _ _ => cases h
  | case2 l _ nonempty =>
    rw [List.mem_singleton.1 h]
    exact fun nil => nonempty (List.isEmpty_iff.2 nil)
  | case3 l go ih =>
    rcases List.mem_cons.1 h with rfl | later
    · rw [Ne, List.take_eq_nil_iff]
      exact go
    · exact ih later

theorem length_le_of_mem_chunks {size : Nat} (pos : 0 < size) {l chunk : List Bytes}
    (h : chunk ∈ chunks size l) : chunk.length ≤ size := by
  fun_induction chunks size l with
  | case1 l _ _ => cases h
  | case2 l stop nonempty =>
    rcases stop with zero | nil
    · omega
    · exact absurd (List.isEmpty_iff.2 nil) nonempty
  | case3 l _ ih =>
    rcases List.mem_cons.1 h with rfl | later
    · exact List.length_take_le _ _
    · exact ih later

/-- What is read as options has a command, and no batches of nothing. -/
structure Ready (o : XargsOptions) : Prop where
  command : o.command ≠ []
  batch : ∀ n, o.batch = some n → 0 < n

theorem pos_of_apply {o o' : XargsOptions} {option value : Bytes}
    (batch : ∀ n, o.batch = some n → 0 < n) (h : o.apply option value = .ok o') :
    ∀ n, o'.batch = some n → 0 < n := by
  unfold apply at h
  split at h
  · split at h
    · split at h
      next pos =>
        obtain rfl := Except.ok.inj h
        rintro _ ⟨⟩
        omega
      next => cases h
    · cases h
  · split at h
    · obtain rfl := Except.ok.inj h
      exact batch
    · obtain rfl := Except.ok.inj h
      exact batch

theorem ready_of_read {o o' : XargsOptions} {arguments : List Bytes}
    (batch : ∀ n, o.batch = some n → 0 < n) (h : o.read arguments = .ok o') : o'.Ready := by
  fun_induction read o arguments with
  | case1 o =>
    obtain rfl := Except.ok.inj h
    exact ⟨List.cons_ne_nil _ _, batch⟩
  | case2 o rest asCommand =>
    obtain rfl := Except.ok.inj h
    exact ⟨by cases rest <;> simp [asCommand], batch⟩
  | case3 o rest _ ih => exact ih batch h
  | case4 => cases h
  | case5 o option _ _ _ value rest ih =>
    cases applied : o.apply option value with
    | error e =>
      rw [applied] at h
      cases h
    | ok taken =>
      rw [applied] at h
      exact ih taken (pos_of_apply batch applied) h
  | case6 o word rest asCommand =>
    obtain rfl := Except.ok.inj h
    exact ⟨by simp [asCommand], batch⟩

end XargsOptions

namespace Builtin

theorem runAll_map {α : Type} (execute : Bytes → ShellAction Int) (f : α → Bytes) (status : Int)
    (l : List α) :
    runAll execute status (l.map f) = l.foldlM (fun _ x => execute (f x)) status := by
  induction l generalizing status with
  | nil => rfl
  | cons x rest ih =>
    rw [List.map_cons, List.foldlM_cons, runAll]
    exact congrArg (execute (f x) >>= ·) (funext fun status => ih status)

end Builtin

namespace Interpreter

/-- **Quoted words reach their command.** A line of quoted words is one call of those words, byte
for byte, whatever runs them. So `xargs` without a marker calls its command with its own words and
pieces of the items that it reads: the pieces one behind another are the trimmed items that are not
empty, none of them is empty, and none is longer than the batches asked for. -/
theorem quoted_words_reach_command (limit : Int) :
    let i := standard limit
    (∀ (word : Bytes) (rest : List Bytes) (input : Option Bytes),
        (∀ (call : List Bytes → Option Bytes → ShellAction Int) (runner : LineRunner),
          runBody call runner (commandLine (word :: rest)) input = do
            trace [.statement (← world).depth (commandLine (word :: rest))]
            let status ← call (word :: rest) input
            modifySession ({ · with lastStatus := status })
            return status)
        ∧ i.execute (commandLine (word :: rest)) input = i.callLine (word :: rest) input)
      ∧ ∀ (c : Call) (o : XargsOptions) (text : Bytes), Builtin.asksForHelp c = false →
          XargsOptions.read {} c.arguments = .ok o → o.marker = [] → c.input = some text →
          c.runner = some i.runner →
        ∃ chunks : List (List Bytes),
          chunks.flatten =
              ((Bytes.fields o.delimiter text).map Bytes.trim).filter (fun item => !item.isEmpty)
            ∧ (∀ chunk ∈ chunks, chunk ≠ [])
            ∧ (∀ n, o.batch = some n → ∀ chunk ∈ chunks, chunk.length ≤ n)
            ∧ Builtin.xargs.invoke c =
                chunks.foldlM (fun _ chunk =>
                  keepingExit (i.callLine (o.command ++ chunk)).capture >>= release) 0 := by
  refine ⟨fun word rest input =>
    ⟨fun call runner => runBody_commandLine word rest call runner input,
      execute_commandLine word rest limit input⟩,
    fun c o text noHelp read noMarker input runner => ?_⟩
  have ready := XargsOptions.ready_of_read (by simp) read
  refine ⟨XargsOptions.chunks (o.batch.getD (o.items text).length) (o.items text),
    XargsOptions.flatten_chunks _ _, fun chunk mem => XargsOptions.ne_nil_of_mem_chunks mem,
    fun n batch chunk mem => ?_, ?_⟩
  · rw [batch] at mem
    exact XargsOptions.length_le_of_mem_chunks (ready.batch n batch) mem
  · have answered : Builtin.xargs.invoke c =
        Builtin.runAll (Builtin.passOn (standard limit).runner.runApart) 0
          ((o.lines (o.items text)).map commandLine) := by
      rw [Builtin.invoke, if_neg (by rw [noHelp]; simp), Builtin.xargs]
      dsimp only
      rw [read, input, runner]
    obtain ⟨word, rest, command⟩ := List.exists_cons_of_ne_nil ready.command
    have calls (chunk : List Bytes) :
        Builtin.passOn (standard limit).runner.runApart (commandLine (o.command ++ chunk)) =
          keepingExit ((standard limit).callLine (o.command ++ chunk)).capture >>= release := by
      rw [command, List.cons_append, ← execute_commandLine]
      rfl
    rw [answered, XargsOptions.lines, noMarker, List.isEmpty_nil, if_pos rfl, List.map_map,
      Builtin.runAll_map]
    exact congrArg (fun f => List.foldlM f 0 _) (funext fun _ => funext fun chunk => calls chunk)

theorem quoted_words_reach_rm :
    let i := standard 16
    let c : Call := {
      name := ascii "xargs"
      arguments := [ascii "-n", ascii "2", ascii "rm"]
      input := some (ascii "a\n b c \n\n$x\n")
      runner := some i.runner }
    ∃ chunks : List (List Bytes),
      chunks.flatten = [ascii "a", ascii "b c", ascii "$x"]
        ∧ (∀ chunk ∈ chunks, chunk ≠ []) ∧ (∀ chunk ∈ chunks, chunk.length ≤ 2)
        ∧ Builtin.xargs.invoke c =
            chunks.foldlM (fun _ chunk =>
              keepingExit (i.callLine (ascii "rm" :: chunk)).capture >>= release) 0 := by
  intro i c
  let o : XargsOptions := { batch := some 2, command := [ascii "rm"] }
  obtain ⟨chunks, flatten, nonempty, short, same⟩ :=
    (quoted_words_reach_command 16).2 c o (ascii "a\n b c \n\n$x\n") rfl rfl rfl rfl rfl
  exact ⟨chunks, flatten, nonempty, short 2 rfl, same⟩

end Interpreter

end VirtualShell
