import VirtualShell.Builtin.Files
import VirtualShell.Proofs.Change
import VirtualShell.Proofs.Reachable
import VirtualShell.Proofs.Tree.Mode

/-!
# Changing modes twice

`chmod` works off its paths one by one; each change is made in the world that the one before it has
left (`ChangesModes`). What it puts guides every walk as before, so that the second time all paths
lead to the records that they led to the first time, and those have modes that the text leaves as
they are (`Steady`). So a second `chmod` changes nothing but times (`chmod_settles`).
-/

namespace VirtualShell

/-- The record apart from the time of its change. -/
def Inode.undated (node : Inode) : Inode := { node with changed := 0 }

namespace Tree

variable {tree tree' : Tree} {path place : Bytes} {node : Inode} {text : Bytes} {now : Int}

/-! ## Trees with other modes -/

/-- Trees that guide alike lead every path to the same place. -/
theorem realPath_eq_ok_congr
    (same : ∀ key, (tree.find? key).map guide = (tree'.find? key).map guide) :
    tree.realPath path = .ok place ↔ tree'.realPath path = .ok place := by
  rw [realPath_eq_ok_iff, realPath_eq_ok_iff]
  refine exists_congr fun links => and_congr_right fun _ => ⟨fun walks => ?_, fun walks => ?_⟩
  · exact walks.congr same
  · exact walks.congr fun key => (same key).symm

/-- What stands at the place, if anything, has a mode that the text leaves as it is. -/
def Steady (text : Bytes) (tree : Tree) (place : Bytes) : Prop :=
  ∀ node, tree.find? place = some node → Mode.read? text node.mode = some node.mode

/-- The tree with another mode for a record. -/
def withMode (tree : Tree) (now : Int) (node : Inode) (mode : UInt32) : Tree :=
  (Batch.put { node with mode := mode &&& 0o7777, changed := now }).apply tree

/-- A mode that is read has no more bits than are stored. -/
theorem and_mask_of_read? {m r : UInt32} (h : Mode.read? text m = some r) : r &&& 0o7777 = r := by
  refine Mode.eq_of_hasBit fun k => ?_
  rw [Mode.hasBit_and, show (0o7777 : UInt32) = Mode.mask from rfl, Mode.hasBit_mask]
  by_cases low : k < 12
  · rw [decide_eq_true low, Bool.and_true]
  · rw [Mode.hasBit_of_read? h (by omega), Bool.false_and]

section

variable (keyed : tree.Keyed) (found : tree.find? place = some node) {mode : UInt32}
include keyed found

theorem find?_withMode (key : Bytes) :
    (tree.withMode now node mode).find? key =
      if place = key then some { node with mode := mode &&& 0o7777, changed := now }
      else tree.find? key := by
  obtain ⟨-, rfl⟩ := keyed _ _ found
  exact Batch.find?_apply_put _ _ _

/-- What forgets modes and times of changes tells no difference. -/
theorem map_find?_withMode {α : Type} {f : Inode → α}
    (forgets : f { node with mode := mode &&& 0o7777, changed := now } = f node) (key : Bytes) :
    ((tree.withMode now node mode).find? key).map f = (tree.find? key).map f := by
  rw [find?_withMode keyed found]
  split
  next here => rw [← here, found, Option.map_some, Option.map_some, forgets]
  next => rfl

theorem keyed_withMode : (tree.withMode now node mode).Keyed := by
  intro key node' found'
  rw [find?_withMode keyed found] at found'
  split at found'
  next here =>
    obtain rfl := Option.some.inj found'
    obtain ⟨canonical, same⟩ := keyed _ _ found
    exact here ▸ ⟨canonical, same⟩
  next => exact keyed _ _ found'

/-- The mode that a text makes is steady, and other records stay so. -/
theorem steady_withMode (read : Mode.read? text node.mode = some mode) {key : Bytes}
    (before : key = place ∨ tree.Steady text key) :
    (tree.withMode now node mode).Steady text key := by
  intro node' found'
  rw [find?_withMode keyed found] at found'
  split at found'
  next =>
    obtain rfl := Option.some.inj found'
    dsimp only
    rw [and_mask_of_read? read]
    exact Mode.read?_read? read
  next other =>
    rcases before with rfl | steady
    · exact absurd rfl other
    · exact steady node' found'

end

end Tree

namespace FileSystem

variable {fs : FileSystem} {now : Int} {path : Bytes} {node : Inode} {mode : UInt32}

/-- Setting a mode, if it can be committed. -/
theorem tree_setMode (stat : fs.tree.stat path = .ok node)
    (taken : (fs.setMode now path mode).result = .ok ()) :
    (fs.setMode now path mode).system.tree = fs.tree.withMode now node mode := by
  obtain ⟨change, plan, tree⟩ := tree_change_of_ok taken
  obtain ⟨node', stat', rfl⟩ := Tree.planSetMode_eq_ok_iff.1 plan
  obtain rfl : node = node' := Except.ok.inj (stat.symm.trans stat')
  exact tree

/-- A plan fails only when its commit does, which is told. -/
theorem commitFailed_mem_change {plan : Outcome Change} {change : Change} {fault : Fault}
    (planned : plan = .ok change) (failed : (fs.change plan).result = .error fault) :
    TraceEvent.commitFailed fault.message ∈ (fs.change plan).events := by
  subst planned
  simp only [FileSystem.change, commit] at failed ⊢
  split
  next empty =>
    rw [if_pos empty] at failed
    cases failed
  next some =>
    rw [if_neg some] at failed
    cases result : (fs.volume.commit change.batch).result with
    | ok u =>
      rw [result] at failed
      cases failed
    | error cause =>
      rw [result] at failed
      obtain rfl := Except.error.inj failed
      simp

theorem commitFailed_mem_setMode {fault : Fault} (stat : fs.tree.stat path = .ok node)
    (failed : (fs.setMode now path mode).result = .error fault) :
    TraceEvent.commitFailed fault.message ∈ (fs.setMode now path mode).events :=
  commitFailed_mem_change (Tree.planSetMode_eq_ok_iff.2 ⟨node, stat, rfl⟩) failed

end FileSystem

/-! ## One path after the other -/

/-- The modes of what paths lead to are changed in order, as far as the text is a mode; at the end
it is said whether a commit failed. -/
inductive ChangesModes (text : Bytes) (now : Int) :
    List Bytes → FileSystem → FileSystem → Bool → Prop
  | done {fs : FileSystem} : ChangesModes text now [] fs fs false
  | missing {path : Bytes} {rest : List Bytes} {fs fs' : FileSystem} {lost : Bool} {fault : Fault} :
    fs.tree.stat path = .error fault → ChangesModes text now rest fs fs' lost →
      ChangesModes text now (path :: rest) fs fs' lost
  | refused {path : Bytes} {rest : List Bytes} {fs : FileSystem} {node : Inode} :
    fs.tree.stat path = .ok node → Mode.read? text node.mode = none →
      ChangesModes text now (path :: rest) fs fs false
  | changed {path : Bytes} {rest : List Bytes} {fs fs' : FileSystem} {lost : Bool} {node : Inode}
    {mode : UInt32} :
    fs.tree.stat path = .ok node → Mode.read? text node.mode = some mode →
      (fs.setMode now path mode).result = .ok () →
        ChangesModes text now rest (fs.setMode now path mode).system fs' lost →
          ChangesModes text now (path :: rest) fs fs' lost
  | failed {path : Bytes} {rest : List Bytes} {fs fs' : FileSystem} {lost : Bool} {node : Inode}
    {mode : UInt32} {fault : Fault} :
    fs.tree.stat path = .ok node → Mode.read? text node.mode = some mode →
      (fs.setMode now path mode).result = .error fault →
        ChangesModes text now rest (fs.setMode now path mode).system fs' lost →
          ChangesModes text now (path :: rest) fs fs' true

namespace ChangesModes

variable {text : Bytes} {now : Int} {paths : List Bytes} {fs fs' : FileSystem} {lost : Bool}

/-- A text that is no mode changes nothing. -/
theorem eq_of_refused (h : ChangesModes text now paths fs fs' lost)
    (none : ∀ m, Mode.read? text m = none) : fs' = fs := by
  induction h with
  | done => rfl
  | missing _ _ ih => exact ih
  | refused => rfl
  | changed _ read _ _ _ | failed _ read _ _ _ => exact absurd read (by rw [none]; simp)

/-- **The first time.** When all changes were committed every walk is guided as before, and what a
path led to is steady. -/
theorem settles (h : ChangesModes text now paths fs fs' false) (keyed : fs.tree.Keyed)
    (accepted : ∀ m, (Mode.read? text m).isSome = true) :
    fs'.tree.Keyed
      ∧ (∀ key, (fs.tree.find? key).map Tree.guide = (fs'.tree.find? key).map Tree.guide)
      ∧ (∀ key, fs.tree.Steady text key → fs'.tree.Steady text key)
      ∧ ∀ path ∈ paths, ∀ place,
          fs.tree.realPath path = .ok place → fs'.tree.Steady text place := by
  generalize none : false = lost at h
  induction h with
  | done => exact ⟨keyed, fun _ => rfl, fun _ => id, by simp⟩
  | @missing path rest fs fs' lost fault stat _ ih =>
    obtain ⟨keyed', same, keeps, steady⟩ := ih keyed none
    refine ⟨keyed', same, keeps, List.forall_mem_cons.2 ⟨fun place real => ?_, steady⟩⟩
    -- A path that leads to a place without a record has nothing to settle.
    refine keeps place fun node found => ?_
    have := Tree.stat_eq_ok_iff.2 ⟨place, real, found⟩
    rw [stat] at this
    cases this
  | @refused path rest fs node _ read =>
    have := accepted node.mode
    rw [read] at this
    cases this
  | @changed path rest fs fs' lost node mode stat read taken _ ih =>
    obtain ⟨place, real, found⟩ := Tree.stat_eq_ok_iff.1 stat
    rw [FileSystem.tree_setMode stat taken] at ih
    obtain ⟨keyed', same, keeps, steady⟩ := ih (Tree.keyed_withMode keyed found) none
    have guides := @Tree.map_find?_withMode fs.tree place node now keyed found mode _ Tree.guide rfl
    refine ⟨keyed', fun key => (guides key).symm.trans (same key), fun key before => ?_,
      List.forall_mem_cons.2 ⟨fun place' real' => ?_, fun path' mem place' real' => ?_⟩⟩
    · exact keeps key (Tree.steady_withMode keyed found read (.inr before))
    · obtain rfl : place = place' := Except.ok.inj (real.symm.trans real')
      exact keeps place (Tree.steady_withMode keyed found read (.inl rfl))
    · exact steady path' mem place' ((Tree.realPath_eq_ok_congr guides).2 real')
  | failed => cases none

/-- **The second time.** Where what the paths lead to is steady, only times change. -/
theorem undated (h : ChangesModes text now paths fs fs' lost) (keyed : fs.tree.Keyed)
    (steady : ∀ path ∈ paths, ∀ place, fs.tree.realPath path = .ok place →
      fs.tree.Steady text place) (key : Bytes) :
    (fs'.tree.find? key).map Inode.undated = (fs.tree.find? key).map Inode.undated := by
  induction h with
  | done => rfl
  | missing _ _ ih => exact ih keyed (List.forall_mem_cons.1 steady).2
  | refused => rfl
  | @changed path rest fs fs' lost node mode stat read taken _ ih =>
    obtain ⟨here, others⟩ := List.forall_mem_cons.1 steady
    obtain ⟨place, real, found⟩ := Tree.stat_eq_ok_iff.1 stat
    obtain rfl : node.mode = mode := Option.some.inj ((here place real node found).symm.trans read)
    have same {α : Type} {f : Inode → α} :=
      @Tree.map_find?_withMode fs.tree place node now keyed found node.mode α f
    rw [FileSystem.tree_setMode stat taken] at ih
    have undated : Inode.undated { node with mode := node.mode &&& 0o7777, changed := now } =
        node.undated := by
      rw [Tree.and_mask_of_read? read]
      rfl
    refine (ih (Tree.keyed_withMode keyed found) fun path' mem place' real' => ?_).trans
      (same undated key)
    have before := others path' mem place' ((Tree.realPath_eq_ok_congr (same rfl)).1 real')
    exact Tree.steady_withMode keyed found read (.inr before)
  | @failed path rest fs fs' lost node mode fault stat read lostHere _ ih =>
    have tree := FileSystem.tree_change_of_error lostHere
    change (fs.setMode now path mode).system.tree = fs.tree at tree
    rw [tree] at ih
    exact ih keyed (List.forall_mem_cons.1 steady).2

end ChangesModes

/-! ## The command -/

/-- The world at another time. -/
def World.atTime (w : World) (now : Int) : World := { w with now }

namespace Builtin

open ShellAction

/-- What comes behind an operation is told whether it succeeded, and goes on in its world. -/
theorem exists_run_perform_check (operation : FileSystem → Int → FileSystemStep Unit)
    (command : Bytes) (next : Bool → ShellAction Int) (w : World) :
    let step := operation w.system w.now
    let r := (next step.result.isOk).run { w with system := step.system }
    ∃ complaints, (do next (← check command (← perform operation))).run w =
      { r with emitted := step.events.map .trace ++ (complaints ++ r.emitted) } := by
  intro step r
  simp only [r, run_bind, run_perform]
  change ∃ complaints, ActionResult.mk _ (step.events.map .trace ++ _) _ = _
  cases step.result with
  | ok u => exact ⟨[], rfl⟩
  | error fault => exact ⟨[.err (Report.ofFault command fault).render], rfl⟩

/-- What `chmod` does with its operands. -/
theorem changesModes_changeModes (c : Call) (text : Bytes) (good : Bool) (operands : List Bytes)
    (w : World) :
    ∃ fs lost, ChangesModes text w.now (operands.map w.session.resolve) w.system fs lost
      ∧ ((changeModes c text good operands).run w).world = { w with system := fs }
      ∧ (lost = true → ∃ reason,
          .trace (.commitFailed reason) ∈ ((changeModes c text good operands).run w).emitted) := by
  induction operands generalizing good w with
  | nil => exact ⟨w.system, false, .done, rfl, nofun⟩
  | cons operand rest ih =>
    simp only [changeModes, resolve, bind_assoc, pure_bind, run_session_bind, run_tree_bind]
    cases stat : w.system.tree.stat (w.session.resolve operand) with
    | error fault =>
      obtain ⟨fs, lost, changes, world, told⟩ := ih false w
      refine ⟨fs, lost, .missing stat changes, world, fun lost => ?_⟩
      obtain ⟨reason, mem⟩ := told lost
      exact ⟨reason, List.mem_append_right _ mem⟩
    | ok node =>
      dsimp only
      cases read : Mode.read? text node.mode with
      | none => exact ⟨w.system, false, .refused stat read, rfl, nofun⟩
      | some mode =>
        obtain ⟨complaints, run⟩ := exists_run_perform_check
          (fun fs now => fs.setMode now (w.session.resolve operand) mode) c.name
          (fun changed => changeModes c text (good && changed) rest) w
        dsimp only at run ⊢
        rw [run]
        obtain ⟨fs, lost, changes, world, told⟩ := ih
          (good && (w.system.setMode w.now (w.session.resolve operand) mode).result.isOk)
          { w with system := (w.system.setMode w.now (w.session.resolve operand) mode).system }
        cases result : (w.system.setMode w.now (w.session.resolve operand) mode).result with
        | ok u =>
          refine ⟨fs, lost, .changed stat read result changes, result ▸ world, fun lost => ?_⟩
          obtain ⟨reason, mem⟩ := told lost
          exact ⟨reason, List.mem_append_right _ (List.mem_append_right _ (result ▸ mem))⟩
        | error fault =>
          refine ⟨fs, true, .failed stat read result changes, result ▸ world, fun _ => ?_⟩
          have mem := FileSystem.commitFailed_mem_setMode stat result
          exact ⟨fault.message, List.mem_append_left _ (List.mem_map_of_mem mem)⟩

/-- The paths that a call changes the modes of: none if it asks for help. -/
def chmodPaths (c : Call) (operands : List Bytes) (s : Session) : List Bytes :=
  if asksForHelp c then [] else operands.map s.resolve

theorem changesModes_chmod {c : Call} {text : Bytes} {operands : List Bytes}
    (given : c.arguments = text :: operands) (w : World) :
    ∃ fs lost, ChangesModes text w.now (chmodPaths c operands w.session) w.system fs lost
      ∧ ((chmod.invoke c).run w).world = { w with system := fs }
      ∧ (lost = true → ∃ reason,
          .trace (.commitFailed reason) ∈ ((chmod.invoke c).run w).emitted) := by
  unfold chmodPaths invoke
  split
  · exact ⟨w.system, false, .done, rfl, nofun⟩
  · unfold chmod
    dsimp only
    rw [given]
    cases operands with
    | nil => exact ⟨w.system, false, .done, rfl, nofun⟩
    | cons first rest => exact changesModes_changeModes c text true (first :: rest) w

/-- **A mode text settles what it changes.** Whether a text is a mode does not depend on the mode
that it changes. The mode that it makes has no bits but those that count, the text leaves it as it
is, and a symbolic text leaves every bit outside the classes that it names. So `chmod`, called again
later on, changes nothing but times, unless a change was refused by the store the first time. -/
theorem chmod_settles (text : Bytes) :
    (∀ m m', (Mode.read? text m).isSome = (Mode.read? text m').isSome)
      ∧ (∀ m r, Mode.read? text m = some r →
          (∀ k, 12 ≤ k → Mode.hasBit r k = false)
            ∧ Mode.read? text r = some r
            ∧ (Mode.IsSymbolic text → ∀ k < 12,
                (∀ piece ∈ Mode.clauseTexts text, ¬ Mode.Names piece k) →
                  Mode.hasBit r k = Mode.hasBit m k))
      ∧ ∀ (c : Call) (operands : List Bytes) (w : World) (later : Int),
          c.arguments = text :: operands → w.system.tree.Keyed →
            let once := (chmod.invoke c).run w
            let twice := (chmod.invoke c).run (once.world.atTime later)
            (∀ reason, .trace (.commitFailed reason) ∉ once.emitted) →
              ∀ key, (twice.world.system.tree.find? key).map Inode.undated =
                (once.world.system.tree.find? key).map Inode.undated := by
  refine ⟨Mode.isSome_read? text, fun m r read => ?_, ?_⟩
  · exact ⟨fun k high => Mode.hasBit_of_read? read high, Mode.read?_read? read,
      fun symbolic k low outside => Mode.hasBit_read? symbolic read low outside⟩
  · intro c operands w later given keyed once twice committed key
    obtain ⟨fs, lost, first, world, told⟩ := changesModes_chmod given w
    have all : lost = false := Bool.eq_false_iff.2 fun failed =>
      let ⟨reason, mem⟩ := told failed
      committed reason mem
    subst all
    obtain ⟨fs', lost', second, world', -⟩ :=
      changesModes_chmod given (World.atTime { w with system := fs } later)
    have before : once.world = { w with system := fs } := world
    have after : twice.world = World.atTime { w with system := fs' } later := by
      simp only [twice, before]
      exact world'
    rw [before, after]
    dsimp only
    cases accepted : (Mode.read? text 0).isSome with
    | true =>
      obtain ⟨keyed', same, -, steady⟩ := first.settles keyed fun m =>
        (Mode.isSome_read? text m 0).trans accepted
      refine second.undated keyed' (fun path mem place real => ?_) key
      exact steady path mem place ((Tree.realPath_eq_ok_congr same).2 real)
    | false =>
      rw [second.eq_of_refused fun m => Option.isNone_iff_eq_none.1
        (Option.isSome_eq_false_iff.1 ((Mode.isSome_read? text m 0).trans accepted))]
      rfl

/-- Bits of the user and the group are changed for `/tmp`. -/
def clausesCall : Call :=
  { name := ascii "chmod", arguments := [ascii "u+s,g-wx,u=rx", ascii "/tmp"] }

/-- The world of a new file system over memory. -/
def freshWorld : World :=
  { session := {}, now := 1,
    system := (FileSystem.load { volume := { store := .memory ∅ } } 0).system }

theorem emitted_clausesCall : ((chmod.invoke clausesCall).run freshWorld).emitted = [] := by
  decide +kernel

/-- The sticky bit goes with the others, whom no clause names. -/
theorem chmod_settles_of_clauses :
    let once := (chmod.invoke clausesCall).run freshWorld
    let twice := (chmod.invoke clausesCall).run (once.world.atTime 2)
    (∀ k, 12 ≤ k → Mode.hasBit 0o5547 k = false)
      ∧ Mode.read? (ascii "u+s,g-wx,u=rx") 0o5547 = some 0o5547
      ∧ Mode.hasBit 0o5547 9 = Mode.hasBit 0o1777 9
      ∧ (once.world.system.tree.find? (ascii "/tmp")).map Inode.mode = some 0o5547
      ∧ ∀ key, (twice.world.system.tree.find? key).map Inode.undated =
        (once.world.system.tree.find? key).map Inode.undated := by
  have ⟨high, same, outside⟩ :=
    (chmod_settles (ascii "u+s,g-wx,u=rx")).2.1 0o1777 0o5547 (by decide +kernel)
  have sticky : ∀ piece ∈ Mode.clauseTexts (ascii "u+s,g-wx,u=rx"), ¬ Mode.Names piece 9 := by
    decide +kernel
  have reached : Reachable freshWorld.system := .load 0 (.fresh { store := .memory ∅ })
  have again := (chmod_settles (ascii "u+s,g-wx,u=rx")).2.2 clausesCall [ascii "/tmp"] freshWorld 2
    rfl reached.keyed fun reason mem => by
      rw [emitted_clausesCall] at mem
      cases mem
  exact ⟨high, same, outside (by decide) 9 (by decide) sticky, by decide +kernel, again⟩

end Builtin

end VirtualShell
