import VirtualShell.Builtin.Standard
import VirtualShell.Proofs.Shell.Confined
import VirtualShell.Proofs.Store.Batch

/-!
# Commands that run no lines

All commands but `exit`, `source`, `.` and `xargs` are plain: they neither read nor change the
request to exit or the count of the lines being run, they change the file system by requests only,
and of what lets a command run lines they use no more than the table of the commands
(`Builtin.Plain`). What is proved about a line by going through what its commands do has to look at
four commands only.
-/

namespace VirtualShell

/-- Moving to a directory does not depend on a request to exit, and keeps it. -/
theorem Session.changeDirectory_exiting (s : Session) (e : Option Int) (tree : Tree)
    (path : Bytes) :
    (s.exiting e).changeDirectory tree path = (s.changeDirectory tree path).map (·.exiting e) := by
  simp only [Session.changeDirectory, Session.resolve_exiting, bind, Except.bind, Except.map]
  cases tree.stat (s.resolve path) with
  | error fault => rfl
  | ok node =>
    dsimp only
    cases node.isDirectory with
    | false => rfl
    | true => rfl

/-- The call as it is made with something else to run lines with. -/
def Call.carrying (c : Call) (runner : Option LineRunner) : Call := { c with runner }

namespace Builtin

open ShellAction

/-- The command neither looks at the lines around it nor runs lines, and makes requests of the file
system only. -/
structure Plain (b : Builtin) : Prop where
  confined : ∀ c, Confined (b.answer c)
  answer_carrying : ∀ (c : Call) (r r' : LineRunner), r.commands = r'.commands →
    b.answer (c.carrying (some r)) = b.answer (c.carrying (some r'))

variable (c : Call)

/-! ## Printing -/

theorem plain_echo : echo.Plain where
  confined _ := (Confined.out _).bind fun _ => .pure _
  answer_carrying _ _ _ _ := rfl

theorem plain_printf : printf.Plain where
  confined c := by
    unfold printf
    dsimp only
    split
    · exact c.confined_refuse _ _ _
    · refine (Confined.forM fun _ => c.confined_complain _ _ _).bind fun _ => ?_
      split
      · exact (Confined.out _).bind fun _ => .pure _
      · exact (c.confined_complain _ _ _).bind fun _ => (Confined.out _).bind fun _ => .pure _
  answer_carrying _ _ _ _ := rfl

/-! ## Control and names -/

theorem plain_trueCommand : trueCommand.Plain where
  confined _ := .pure _
  answer_carrying _ _ _ _ := rfl

theorem plain_falseCommand : falseCommand.Plain where
  confined _ := .pure _
  answer_carrying _ _ _ _ := rfl

theorem plain_versionCommand : versionCommand.Plain where
  confined _ := (Confined.out _).bind fun _ => .pure _
  answer_carrying _ _ _ _ := rfl

theorem plain_sleep : sleep.Plain where
  confined c := by
    unfold sleep
    dsimp only
    refine .ite ((c.confined_refuse _ _ _).bind fun _ => .pure _) ?_
    split
    · exact c.confined_refuse _ _ _
    · exact (Confined.emit _).bind fun _ => .pure _
  answer_carrying _ _ _ _ := rfl

theorem plain_basename : basename.Plain where
  confined c := by
    unfold basename
    dsimp only
    split
    · exact c.confined_refuse _ _ _
    · exact (Confined.out _).bind fun _ => .pure _
  answer_carrying _ _ _ _ := rfl

theorem plain_dirname : dirname.Plain where
  confined c := by
    unfold dirname
    dsimp only
    split
    · exact c.confined_refuse _ _ _
    · exact (Confined.out _).bind fun _ => .pure _
  answer_carrying _ _ _ _ := rfl

/-! ## The working directory -/

theorem run_moveTo (target : Bytes) (w : World) :
    (moveTo c target).run w =
      match w.session.changeDirectory w.system.tree target with
      | .ok s => ⟨true, [], { w with session := s }⟩
      | .error fault => (check c.name (.error fault : Outcome Session)).run w := by
  unfold moveTo
  rw [run_session_bind, run_tree_bind]
  cases w.session.changeDirectory w.system.tree target with
  | ok s => rfl
  | error fault => rfl

theorem oblivious_moveTo (target : Bytes) : Oblivious (moveTo c target) := by
  intro w k
  have moved := w.session.changeDirectory_exiting k.exit w.system.tree target
  rw [run_moveTo, run_moveTo, World.session_under, World.system_under, moved]
  cases w.session.changeDirectory w.system.tree target with
  | ok s => rfl
  | error fault => exact (Confined.check c.name _).oblivious w k

theorem confined_moveTo (target : Bytes) : Confined (moveTo c target) := by
  refine ⟨oblivious_moveTo c target, .of_keeps fun w => ?_⟩
  rw [run_moveTo]
  cases w.session.changeDirectory w.system.tree target with
  | ok s => rfl
  | error fault => rfl

theorem moveTo_carrying (r : Option LineRunner) : moveTo (c.carrying r) = moveTo c := by
  funext target
  unfold moveTo
  dsimp only [Call.carrying]

theorem plain_cd : cd.Plain where
  confined c := by
    unfold cd
    dsimp only
    refine .ite ((c.confined_refuse _ _ _).bind fun _ => .pure _) ?_
    refine .bind_session (by simp) fun s => .ite ?_ ?_
    · refine .ite ((c.confined_complain _ _ _).bind fun _ => .pure _) ?_
      refine (confined_moveTo c _).bind fun moved => .ite ?_ (.pure _)
      exact .bind_session (by simp) fun _ => (Confined.out _).bind fun _ => .pure _
    · exact (confined_moveTo c _).bind fun _ => .pure _
  answer_carrying c r r' _ := by
    unfold cd
    dsimp only
    simp only [moveTo_carrying]
    rfl

theorem plain_pwd : pwd.Plain where
  confined _ := .bind_session (by simp) fun _ => (Confined.out _).bind fun _ => .pure _
  answer_carrying _ _ _ _ := rfl

/-! ## Files -/

theorem plain_cat : cat.Plain where
  confined c := (c.confined_readInputs _).bind fun _ => (Confined.out _).bind fun _ => .pure _
  answer_carrying _ _ _ _ := rfl

theorem plain_tee : tee.Plain where
  confined c := c.confined_withFlags fun _ =>
    (c.confined_forOperands fun _ => .writePath _ _ _).bind fun _ =>
      (Confined.out _).bind fun _ => .pure _
  answer_carrying _ _ _ _ := rfl

theorem plain_touch : touch.Plain where
  confined c := c.confined_withFlags fun _ => c.confined_requiring <|
    .bind_session (by simp) fun _ => c.confined_forOperands fun _ => .edit (.touch _ _)
  answer_carrying _ _ _ _ := rfl

theorem plain_mkdir : mkdir.Plain where
  confined c := c.confined_withFlags fun _ => c.confined_requiring <|
    .bind_session (by simp) fun _ => c.confined_forOperands fun _ => .edit (.makeDirectory _ _ _)
  answer_carrying _ _ _ _ := rfl

theorem plain_rmdir : rmdir.Plain where
  confined c := c.confined_withFlags fun _ => c.confined_requiring <|
    .bind_session (by simp) fun _ => c.confined_forOperands fun _ => .edit (.removeDirectory _)
  answer_carrying _ _ _ _ := rfl

theorem confined_removePath (recursive force : Bool) (operand : Bytes) :
    Confined (removePath c recursive force operand) := by
  unfold removePath
  refine (Confined.resolve _).bind fun path => Confined.tree.bind fun t => ?_
  split
  · exact .ite (.pure _) ((Confined.reportFault _ _).bind fun _ => .pure _)
  · refine .ite ((Confined.edit (.unlink _)).bind fun _ => .check _ _) (.ite ?_ ?_)
    · exact (Confined.edit (.removeDirectory _ true)).bind fun _ => .check _ _
    · exact (c.confined_complain _ _ _).bind fun _ => .pure _

theorem plain_rm : rm.Plain where
  confined c := c.confined_withFlags fun _ => c.confined_requiring <|
    .forEach fun _ => confined_removePath c _ _ _
  answer_carrying _ _ _ _ := rfl

theorem confined_withDestination {operands : List Bytes}
    {k : List Bytes → Bytes → ShellAction Int}
    (h : ∀ sources destination, Confined (k sources destination)) :
    Confined (withDestination c operands k) :=
  c.confined_requiring <| (Confined.resolve _).bind fun _ => Confined.tree.bind fun _ =>
    .ite ((c.confined_complain _ _ _).bind fun _ => .pure _) (h _ _)

theorem plain_mv : mv.Plain where
  confined c := c.confined_withFlags fun _ => confined_withDestination c fun _ _ =>
    Confined.tree.bind fun _ => c.confined_forOperands fun _ =>
      (Confined.resolve _).bind fun _ => .edit (.rename _ _)
  answer_carrying _ _ _ _ := rfl

theorem plain_cp : cp.Plain where
  confined c := c.confined_withFlags fun _ => confined_withDestination c fun _ _ =>
    c.confined_forOperands fun _ => (Confined.resolve _).bind fun _ => .edit (.copy _ _ _)
  answer_carrying _ _ _ _ := rfl

theorem plain_ln : ln.Plain where
  confined c := c.confined_withFlags fun flags => by
    have linked (path target : Bytes) (owner : Owner) : Confined (do
        return statusOf [← check c.name (← perform fun fs now => fs.link now target path owner)]) :=
      (Confined.edit (.link _ _ _)).bind fun _ => (Confined.check _ _).bind fun _ => .pure _
    refine .ite ((c.confined_refuse _ _ _).bind fun _ => .pure _) ?_
    split
    · refine .bind_session (by simp) fun s => Confined.tree.bind fun t => ?_
      dsimp only
      refine .ite
        ((Confined.edit (.unlink _)).bind fun _ => (Confined.check _ _).bind fun _ => ?_) ?_
      · exact .ite (.pure _) (linked _ _ _)
      · exact linked _ _ _
    · exact c.confined_requiring (.pure _)
  answer_carrying _ _ _ _ := rfl

theorem plain_readlink : readlink.Plain where
  confined c := c.confined_withFlags fun flags => c.confined_requiring <|
    .forEach fun operand => Confined.tree.bind fun t => (Confined.resolve _).bind fun path => by
      split
      · exact (Confined.out _).bind fun _ => .pure _
      · exact .pure _
  answer_carrying _ _ _ _ := rfl

theorem plain_realpath : realpath.Plain where
  confined c := c.confined_withFlags fun flags => c.confined_requiring <|
    .forEach fun operand => Confined.tree.bind fun t => (Confined.resolve _).bind fun path => by
      dsimp only
      split
      · exact (Confined.out _).bind fun _ => Confined.check _ _
      · exact (Confined.pure ()).bind fun _ => Confined.check c.name _
  answer_carrying _ _ _ _ := rfl

theorem confined_changeModes (text : Bytes) (good : Bool) (operands : List Bytes) :
    Confined (changeModes c text good operands) := by
  induction operands generalizing good with
  | nil => exact .pure _
  | cons operand rest ih =>
    unfold changeModes
    refine (Confined.resolve _).bind fun path => Confined.tree.bind fun t => ?_
    split
    · exact (Confined.reportFault _ _).bind fun _ => ih _
    · split
      · exact c.confined_refuse _ _ _
      · exact (Confined.edit (.setMode _ _)).bind fun _ => (Confined.check _ _).bind fun _ => ih _

theorem changeModes_carrying (r : Option LineRunner) :
    changeModes (c.carrying r) = changeModes c := by
  funext text good operands
  induction operands generalizing good with
  | nil => rfl
  | cons operand rest ih =>
    unfold changeModes
    simp only [ih]
    rfl

theorem plain_chmod : chmod.Plain where
  confined c := by
    unfold chmod
    dsimp only
    split
    · exact confined_changeModes c _ _ _
    · exact c.confined_refuse _ _ _
  answer_carrying c r r' _ := by
    unfold chmod
    simp only [changeModes_carrying]
    rfl

/-! ## Showing records -/

theorem confined_listPath (o : ListingOptions) (several : Bool) (index : Nat) (path : Bytes) :
    Confined (listPath c o several index path) := by
  unfold listPath
  refine .bind_world (by simp) fun w => ?_
  dsimp only
  split
  · exact .check _ _
  · refine .ite ((Confined.out _).bind fun _ => .pure _)
      (.ite ((Confined.out _).bind fun _ => ?_) ?_)
    all_goals
      split
      · exact .check _ _
      · exact (Confined.out _).bind fun _ => .pure _

theorem listPath_carrying (r : Option LineRunner) : listPath (c.carrying r) = listPath c := by
  funext o several index path
  unfold listPath
  dsimp only [Call.carrying]

theorem plain_ls : ls.Plain where
  confined c := by
    unfold ls
    dsimp only
    split
    · exact c.confined_refuse _ _ _
    · exact .forEach fun _ => confined_listPath c _ _ _ _
  answer_carrying c r r' _ := by
    unfold ls
    simp only [listPath_carrying]
    rfl

theorem plain_stat : stat.Plain where
  confined c := c.confined_withFlags fun flags => c.confined_requiring <|
    .forEach fun operand => Confined.tree.bind fun t => (Confined.resolve _).bind fun path => by
      dsimp only
      split
      · exact (Confined.out _).bind fun _ => Confined.check _ _
      · exact (Confined.pure ()).bind fun _ => Confined.check c.name _
  answer_carrying _ _ _ _ := rfl

/-! ## Searching -/

theorem plain_find : find.Plain where
  confined c := by
    unfold find
    dsimp only
    split
    · exact c.confined_refuse _ _ _
    · refine (Confined.mapM fun root => ?_).bind fun _ => (Confined.out _).bind fun _ => .pure _
      exact Confined.tree.bind fun _ => (Confined.resolve _).bind fun _ =>
        (Confined.check _ _).bind fun _ => .pure _
  answer_carrying _ _ _ _ := rfl

theorem plain_glob : glob.Plain where
  confined c := by
    unfold glob
    dsimp only
    split
    · exact c.confined_refuse _ _ _
    · exact (Confined.resolve _).bind fun _ => Confined.tree.bind fun _ =>
        (Confined.out _).bind fun _ => .pure _
  answer_carrying _ _ _ _ := rfl

theorem confined_grepFiles (o : GrepOptions) (regex : Regex) (labelled : Bool)
    (files : List Bytes) : Confined (grepFiles c o regex labelled files) :=
  .mapM fun file => (c.confined_readInput file).bind fun text => by
    cases text with
    | none => exact .pure _
    | some text => exact .pure _

theorem plain_grep : grep.Plain where
  confined c := c.confined_withFlags fun flags => by
    split
    · exact c.confined_refuse _ _ _
    · split
      · exact c.confined_refuse _ _ _
      · exact (confined_grepFiles c _ _ _ _).bind fun _ => (Confined.out _).bind fun _ =>
          .ite (.pure _) (.pure _)
  answer_carrying _ _ _ _ := rfl

/-! ## Filters -/

theorem confined_filterLines (files : List Bytes) (f : List Bytes → List Bytes) :
    Confined (filterLines c files f) :=
  (c.confined_readInputs _).bind fun _ => (Confined.out _).bind fun _ => .pure _

theorem confined_withLineCount {k : LineCount → List Bytes → ShellAction Int}
    (h : ∀ count files, Confined (k count files)) : Confined (withLineCount c k) := by
  unfold withLineCount
  split
  · exact h _ _
  · exact c.confined_refuse _ _ _

theorem plain_head : head.Plain where
  confined c := confined_withLineCount c fun _ _ => confined_filterLines c _ _
  answer_carrying _ _ _ _ := rfl

theorem plain_tail : tail.Plain where
  confined c := confined_withLineCount c fun _ _ => confined_filterLines c _ _
  answer_carrying _ _ _ _ := rfl

theorem plain_sort : sort.Plain where
  confined c := c.confined_withFlags fun _ => confined_filterLines c _ _
  answer_carrying _ _ _ _ := rfl

theorem plain_uniq : uniq.Plain where
  confined c := c.confined_withFlags fun _ => confined_filterLines c _ _
  answer_carrying _ _ _ _ := rfl

theorem readInput_carrying (r : Option LineRunner) :
    (c.carrying r).readInput = c.readInput := rfl

theorem plain_wc : wc.Plain where
  confined c := c.confined_withFlags fun flags => by
    refine .ite ((Confined.out _).bind fun _ => .pure _) ?_
    refine (Confined.mapM fun file => (c.confined_readInput file).bind fun _ => .pure _).bind
      fun counted => (Confined.out _).bind fun _ => ?_
    exact .ite ((Confined.out _).bind fun _ => .pure _) (.pure _)
  answer_carrying c r r' _ := by
    unfold wc
    dsimp only
    simp only [readInput_carrying]
    rfl

theorem plain_seq : seq.Plain where
  confined c := by
    unfold seq
    dsimp only
    split
    · exact (Confined.out _).bind fun _ => .pure _
    · exact c.confined_refuse _ _ _
  answer_carrying _ _ _ _ := rfl

/-! ## Variables and aliases -/

theorem confined_exportVariable (word : Bytes) : Confined (exportVariable c word) := by
  unfold exportVariable
  split
  · exact (Confined.modifySession fun _ _ => rfl).bind fun _ => .pure _
  · refine .ite (.bind_session (by simp) fun s => .ite ?_ (.pure _))
      ((c.confined_complain _ _ _).bind fun _ => .pure _)
    exact (Confined.modifySession fun _ _ => rfl).bind fun _ => .pure _

theorem plain_exportCommand : exportCommand.Plain where
  confined c := .ite
    (.bind_session (by simp) fun _ => (Confined.out _).bind fun _ => .pure _)
    (.forEach fun _ => confined_exportVariable c _)
  answer_carrying _ _ _ _ := rfl

theorem confined_unsetVariable (name : Bytes) : Confined (unsetVariable c name) :=
  .ite ((Confined.modifySession fun _ _ => rfl).bind fun _ => .pure _)
    ((c.confined_complain _ _ _).bind fun _ => .pure _)

theorem plain_unset : unset.Plain where
  confined c := .ite (c.confined_refuse _ _ _) (.forEach fun _ => confined_unsetVariable c _)
  answer_carrying _ _ _ _ := rfl

theorem confined_printVariables : Confined printVariables :=
  .bind_session (by simp) fun _ => (Confined.out _).bind fun _ => .pure _

theorem plain_env : env.Plain where
  confined c := .ite confined_printVariables (c.confined_refuse _ _ _)
  answer_carrying _ _ _ _ := rfl

theorem plain_printenv : printenv.Plain where
  confined c := .ite (confined_printVariables.bind fun _ => .pure _)
    (.bind_session (by simp) fun _ => (Confined.out _).bind fun _ => .pure _)
  answer_carrying _ _ _ _ := rfl

theorem confined_setAll (values : List (Bytes × Bytes)) : Confined (setAll values) := by
  refine .modifySession fun s e => ?_
  induction values generalizing s with
  | nil => rfl
  | cons entry rest ih => exact ih (s.setVariable entry.1 entry.2)

theorem plain_read : read.Plain where
  confined c := by
    have setting (values : List (Bytes × Bytes)) (status : Int) :
        Confined (do setAll values; return status) :=
      (confined_setAll values).bind fun _ => .pure _
    unfold read
    dsimp only
    split
    · exact c.confined_refuse _ _ _
    · split
      · exact c.confined_refuse _ _ _
      · refine .ite ((Confined.err _).bind fun _ => ?_) ?_
        all_goals exact .ite (setting _ 1) (.ite (setting _ 0) (setting _ 0))
  answer_carrying _ _ _ _ := rfl

theorem confined_defineAlias (word : Bytes) : Confined (defineAlias c word) := by
  unfold defineAlias
  split
  · exact (Confined.modifySession fun _ _ => rfl).bind fun _ => .pure _
  · refine .bind_session (by simp) fun s => ?_
    split
    · exact .pure _
    · exact (c.confined_complain _ _ _).bind fun _ => .pure _

theorem plain_aliasCommand : aliasCommand.Plain where
  confined c := .ite
    (.bind_session (by simp) fun _ => (Confined.out _).bind fun _ => .pure _)
    ((Confined.mapM fun _ => confined_defineAlias c _).bind fun _ =>
      (Confined.out _).bind fun _ => .pure _)
  answer_carrying _ _ _ _ := rfl

theorem confined_removeAlias (name : Bytes) : Confined (removeAlias c name) :=
  .bind_session (by simp) fun _ =>
    .ite ((Confined.modifySession fun _ _ => rfl).bind fun _ => .pure _)
      ((c.confined_complain _ _ _).bind fun _ => .pure _)

theorem plain_unalias : unalias.Plain where
  confined c := by
    unfold unalias
    dsimp only
    split
    · exact c.confined_refuse _ _ _
    · exact .ite ((Confined.modifySession fun _ _ => rfl).bind fun _ => .pure _)
        (.forEach fun _ => confined_removeAlias c _)
  answer_carrying _ _ _ _ := rfl

/-! ## Conditions -/

theorem confined_runCondition (words : List Bytes) : Confined (runCondition c words) := by
  unfold runCondition
  refine .ite (.pure _) (.bind_world (by simp) fun w => ?_)
  dsimp only
  split
  · exact .pure _
  · exact (c.confined_complain _ _ _).bind fun _ => .pure _

theorem plain_test : test.Plain where
  confined c := confined_runCondition c _
  answer_carrying _ _ _ _ := rfl

theorem plain_bracket : bracket.Plain where
  confined c := .ite (confined_runCondition c _)
    ((c.confined_complain _ _ _).bind fun _ => .pure _)
  answer_carrying _ _ _ _ := rfl

/-! ## What commands there are -/

theorem confined_describeNames (describe : Bytes → Option Bytes) (unknown : Bytes → Bytes) :
    Confined (describeNames c describe unknown) := by
  unfold describeNames
  refine .ite ((c.confined_refuse _ _ _).bind fun _ => .pure _) ?_
  refine (Confined.forEach fun name => ?_).bind fun _ => (Confined.out _).bind fun _ => .pure _
  exact .ite ((c.confined_complain _ _ _).bind fun _ => .pure _) (.pure _)

theorem describeNames_carrying (r : Option LineRunner) :
    describeNames (c.carrying r) = describeNames c := rfl

theorem isKnown_carrying {r r' : LineRunner} (h : r.commands = r'.commands) :
    isKnown (c.carrying (some r)) = isKnown (c.carrying (some r')) := by
  funext name
  exact congrArg (fun commands : Registry Bytes => commands.contains name) h

theorem plain_which : which.Plain where
  confined c := confined_describeNames c _ _
  answer_carrying c r r' h := by
    unfold which
    dsimp only
    rw [describeNames_carrying, describeNames_carrying, isKnown_carrying c h]

theorem plain_typeCommand : typeCommand.Plain where
  confined c := .bind_session (by simp) fun _ => confined_describeNames c _ _
  answer_carrying c r r' h := by
    unfold typeCommand
    dsimp only
    simp only [describeNames_carrying, isKnown_carrying c h]

theorem plain_helpCommand : helpCommand.Plain where
  confined c := by
    unfold helpCommand
    dsimp only
    split
    · exact .pure _
    · exact (Confined.out _).bind fun _ => .pure _
  answer_carrying c r r' h := by
    unfold helpCommand
    dsimp only [Call.carrying]
    rw [h]

/-! ## All commands -/

/-- **Each command is found under its name**, and nothing else is found. -/
theorem find?_standard_eq_some_iff {name : Bytes} {b : Builtin} :
    standard.find? name = some b ↔ b ∈ all ∧ b.name = name := by
  rw [standard, Registry.ofCommands, ByteMap.find?_ofList_eq_some_iff nodup_names, named,
    List.mem_map]
  constructor
  · rintro ⟨b, mem, same⟩
    cases same
    exact ⟨mem, rfl⟩
  · rintro ⟨mem, rfl⟩
    exact ⟨b, mem, rfl⟩

/-- The commands that look at the lines around them or run lines are four. -/
theorem plain_or_of_mem_all : ∀ b ∈ all, b.Plain ∨ b = exit ∨ b = source ∨ b = dot ∨ b = xargs := by
  simp only [all, List.forall_mem_cons, plain_echo, plain_trueCommand, plain_falseCommand,
    plain_pwd, plain_cd, plain_ls, plain_cat, plain_mkdir, plain_rmdir, plain_rm, plain_touch,
    plain_mv, plain_cp, plain_ln, plain_readlink, plain_stat, plain_chmod, plain_realpath,
    plain_basename, plain_dirname, plain_glob, plain_find, plain_grep, plain_head, plain_tail,
    plain_wc, plain_sort, plain_uniq, plain_tee, plain_seq, plain_printf, plain_read, plain_sleep,
    plain_exportCommand, plain_unset, plain_env, plain_printenv, plain_aliasCommand,
    plain_unalias, plain_which, plain_typeCommand, plain_helpCommand, plain_test, plain_bracket,
    plain_versionCommand, true_or, or_true, List.not_mem_nil, false_imp_iff,
    implies_true, and_true]

end Builtin

end VirtualShell
