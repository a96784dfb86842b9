import VirtualShell.Proofs.Change
import VirtualShell.Proofs.Store.Keeper
import VirtualShell.Proofs.Tree.Puts

/-!
# Operations and runs

What may be asked of a file system, as data: the `Edit`s, which change its tree by a plan that is
committed (`Edit.run_eq_change`), reading, and the `Query`s. A `Request` is an operation at a time,
over a store that may refuse to commit and a host that may fail, and a `Run` is one request after
the other.

* `Edit.plan_canonical`, `Edit.plan_sound`: what every plan keeps of the tree.
* `edit_allOrNothing`: an edit is made in the tree, the records and their file, or in none of them.
* `Run.invariant`: what every allowed request keeps, every run keeps.
-/

namespace VirtualShell

/-- A change of the file system. -/
inductive Edit
  | write (path content : Bytes) (append : Bool := false) (owner : Owner := {})
  | touch (path : Bytes) (owner : Owner := {})
  | setMode (path : Bytes) (mode : UInt32)
  | link (target path : Bytes) (owner : Owner := {})
  | makeDirectory (path : Bytes) (recursive : Bool := false) (owner : Owner := {})
  | unlink (path : Bytes)
  | removeDirectory (path : Bytes) (recursive : Bool := false)
  | rename (source target : Bytes)
  | copy (source target : Bytes) (recursive : Bool := false)

/-- A question that changes nothing. -/
inductive Query
  | stat (path : Bytes)
  | lstat (path : Bytes)
  | exists (path : Bytes)
  | list (path : Bytes)
  | readLink (path : Bytes)
  | glob (pattern base : Bytes)
  | realPath (path : Bytes)

inductive Operation
  | edit (edit : Edit)
  | read (path : Bytes)
  | query (query : Query)

/-- What an operation gives when it succeeds. -/
inductive Reply
  | done
  | content (bytes : Bytes)
  | record (node : Inode)
  | truth (value : Bool)
  | entries (found : List Tree.DirEntry)
  | paths (found : List Bytes)
  deriving DecidableEq

/-! ## Edits -/

namespace Edit

/-- What the edit plans to do to a tree. -/
def plan (tree : Tree) (now : Int) : Edit → Outcome Change
  | write path content append owner => tree.planWrite now path content append owner
  | touch path owner => tree.planTouch now path owner
  | setMode path mode => tree.planSetMode now path mode
  | link target path owner => tree.planLink now target path owner
  | makeDirectory path recursive owner =>
    if recursive then tree.planDirectories now path owner else tree.planDirectory now path owner
  | unlink path => tree.planUnlink path
  | removeDirectory path recursive => tree.planRemoveDirectory path recursive
  | rename source target => tree.planRename now source target
  | copy source target recursive => tree.planCopy now source target recursive

/-- The operation of the file system that the edit stands for. -/
def run (fs : FileSystem) (now : Int) : Edit → FileSystemStep Unit
  | write path content append owner => fs.write now path content append owner
  | touch path owner => fs.touch now path owner
  | setMode path mode => fs.setMode now path mode
  | link target path owner => fs.link now target path owner
  | makeDirectory path recursive owner => fs.makeDirectory now path recursive owner
  | unlink path => fs.unlink path
  | removeDirectory path recursive => fs.removeDirectory path recursive
  | rename source target => fs.rename now source target
  | copy source target recursive => fs.copy now source target recursive

/-- Every edit commits its plan. -/
theorem run_eq_change (edit : Edit) (fs : FileSystem) (now : Int) :
    edit.run fs now = fs.change (edit.plan fs.tree now) := by
  cases edit <;> rfl

/-- The edit copies a directory to where a directory stands already. -/
def Merges (tree : Tree) : Edit → Prop
  | copy source target true => tree.MergesCopy source target
  | _ => False

variable {tree : Tree} {now : Int} {edit : Edit} {change : Change}

/-- **Every plan puts records under canonical paths.** -/
theorem plan_canonical (h : tree.Keyed) (hp : edit.plan tree now = .ok change) :
    ∀ node ∈ change.batch.puts, Path.Canonical node.path := by
  cases edit with
  | write => exact Tree.planWrite_canonical h hp
  | touch => exact Tree.planTouch_canonical h hp
  | setMode => exact Tree.planSetMode_canonical h hp
  | link => exact Tree.planLink_canonical hp
  | makeDirectory path recursive owner =>
    cases recursive with
    | false => exact Tree.planDirectory_canonical hp
    | true => exact Tree.planDirectories_canonical hp
  | unlink =>
    rw [Tree.puts_planUnlink hp]
    exact nofun
  | removeDirectory =>
    rw [Tree.puts_planRemoveDirectory hp]
    exact nofun
  | rename => exact Tree.planRename_canonical h hp
  | copy => exact Tree.planCopy_canonical h hp

/-- **Every plan keeps the invariant of the tree**, but for the copy of one directory over
another. -/
theorem plan_sound (h : tree.Sound) (hp : edit.plan tree now = .ok change)
    (apart : ¬ edit.Merges tree) : Tree.Sound (change.batch.apply tree) := by
  cases edit with
  | write => exact Tree.planWrite_sound h hp
  | touch => exact Tree.planTouch_sound h hp
  | setMode => exact Tree.planSetMode_sound h hp
  | link => exact Tree.planLink_sound h hp
  | makeDirectory path recursive owner =>
    cases recursive with
    | false => exact Tree.planDirectory_sound h hp
    | true => exact Tree.planDirectories_sound h hp
  | unlink => exact Tree.planUnlink_sound h hp
  | removeDirectory => exact Tree.planRemoveDirectory_sound h hp
  | rename => exact Tree.planRename_sound h hp
  | copy source target recursive =>
    refine Tree.planCopy_sound h hp ?_
    rintro rfl
    exact apart

/-- **Every plan puts** what is new, or what comes from a record of the tree. -/
theorem plan_origin (hp : edit.plan tree now = .ok change) :
    ∀ put ∈ change.batch.puts, tree.Origin now put := by
  cases edit with
  | write => exact Tree.planWrite_origin hp
  | touch => exact Tree.planTouch_origin hp
  | setMode => exact Tree.planSetMode_origin hp
  | link => exact Tree.planLink_origin hp
  | makeDirectory path recursive owner =>
    cases recursive with
    | false => exact Tree.planDirectory_origin hp
    | true => exact Tree.planDirectories_origin hp
  | unlink =>
    rw [Tree.puts_planUnlink hp]
    exact nofun
  | removeDirectory =>
    rw [Tree.puts_planRemoveDirectory hp]
    exact nofun
  | rename => exact Tree.planRename_origin hp
  | copy => exact Tree.planCopy_origin hp

/-- **Every plan puts records that a document gives back**, if the tree has such and the clock has
sixty-four bits. -/
theorem plan_storable (h : tree.Storable) (hn : isTimestamp now)
    (hp : edit.plan tree now = .ok change) : ∀ node ∈ change.batch.puts, node.Storable :=
  fun put mem => (plan_origin hp put mem).storable hn h

end Edit

/-- The file system with something in the way of its commits, or nothing. -/
def FileSystem.facing (fs : FileSystem) (obstacle : Option Obstacle) : FileSystem :=
  { fs with volume := { fs.volume with obstacle } }

/-- What is found in a tree. -/
def Query.answer (tree : Tree) : Query → Outcome Reply
  | stat path => (tree.stat path).map .record
  | lstat path => (tree.lstat path).map .record
  | .exists path => .ok (.truth (tree.exists? path))
  | list path => (tree.list path).map .entries
  | readLink path => (tree.readLink path).map .content
  | glob pattern base => .ok (.paths (tree.glob pattern base))
  | realPath path => (tree.realPath path).map fun finish => .paths [finish]

/-- The step with another result. -/
def FileSystemStep.map {α β : Type} (f : α → β) (step : FileSystemStep α) : FileSystemStep β :=
  ⟨step.result.map f, step.system, step.events⟩

def Operation.run (fs : FileSystem) (now : Int) : Operation → FileSystemStep Reply
  | edit change => (change.run fs now).map fun _ => .done
  | read path => (fs.read now path).map .content
  | query question => ⟨question.answer fs.tree, fs, []⟩

/-- An operation at a time, and what stands in the way of what it would commit, if anything does. -/
structure Request where
  operation : Operation
  now : Int
  obstacle : Option Obstacle := none

namespace Request

def run (fs : FileSystem) (request : Request) : FileSystemStep Reply :=
  request.operation.run (fs.facing request.obstacle) request.now

/-- No commit that fails for what stands in its way reaches the document. -/
def Guarded (fs : FileSystem) (request : Request) : Prop :=
  (fs.facing request.obstacle).volume.Guarded

/-- The request copies a directory to where a directory stands already. -/
def Merges (fs : FileSystem) (request : Request) : Prop :=
  match request.operation with
  | .edit edit => edit.Merges fs.tree
  | _ => False

variable {fs : FileSystem} {request : Request}

section
variable {edit : Edit} {now : Int} {obstacle : Option Obstacle}

/-- To ask for an edit is to commit its plan. -/
theorem run_edit (fs : FileSystem) (edit : Edit) (now : Int) (obstacle : Option Obstacle) :
    Request.run fs ⟨.edit edit, now, obstacle⟩ =
      ((fs.facing obstacle).change (edit.plan fs.tree now)).map fun _ => .done :=
  congrArg (FileSystemStep.map fun _ => Reply.done) (edit.run_eq_change (fs.facing obstacle) now)

/-- An edit that succeeds has made the batch of its plan in the tree. -/
theorem tree_run_edit_of_ok {reply : Reply}
    (h : (Request.run fs ⟨.edit edit, now, obstacle⟩).result = .ok reply) :
    ∃ change, edit.plan fs.tree now = .ok change ∧
      (Request.run fs ⟨.edit edit, now, obstacle⟩).system.tree = change.batch.apply fs.tree := by
  rw [run_edit, FileSystemStep.map] at h
  rw [run_edit, FileSystemStep.map]
  cases done : ((fs.facing obstacle).change (edit.plan fs.tree now)).result with
  | ok u => exact FileSystem.tree_change_of_ok done
  | error fault =>
    rw [done] at h
    cases h

/-- An edit that fails leaves the tree. -/
theorem tree_run_edit_of_error {fault : Fault}
    (h : (Request.run fs ⟨.edit edit, now, obstacle⟩).result = .error fault) :
    (Request.run fs ⟨.edit edit, now, obstacle⟩).system.tree = fs.tree := by
  rw [run_edit, FileSystemStep.map] at h
  rw [run_edit, FileSystemStep.map]
  cases failed : ((fs.facing obstacle).change (edit.plan fs.tree now)).result with
  | ok u =>
    rw [failed] at h
    cases h
  | error fault => exact FileSystem.tree_change_of_error failed

end

/-- What a property needs to be kept by every request: that reading keeps it, and the plans. -/
theorem tree_run (I : Tree → Prop) (h : I fs.tree)
    (access : ∀ place node, fs.tree.find? place = some node →
      I ((Batch.put { node with accessed := request.now }).apply fs.tree))
    (plans : ∀ edit change, request.operation = .edit edit →
      edit.plan fs.tree request.now = .ok change → I (change.batch.apply fs.tree)) :
    I (request.run fs).system.tree := by
  obtain ⟨operation, now, obstacle⟩ := request
  cases operation with
  | edit edit =>
    rw [run_edit, FileSystemStep.map]
    rcases (fs.facing obstacle).tree_change (edit.plan fs.tree now) with e | ⟨change, ok, e⟩
    · rw [e]
      exact h
    · rw [e]
      exact plans edit change rfl ok
  | read path =>
    rcases (fs.facing obstacle).tree_read now path with e | ⟨place, node, found, e⟩
    · exact e.symm ▸ h
    · exact e.symm ▸ access place node found
  | query => exact h

/-- **A request keeps the records under their canonical paths.** -/
theorem keyed_run (h : fs.tree.Keyed) : (request.run fs).system.tree.Keyed := by
  refine tree_run Tree.Keyed h (fun place node found => ?_) fun edit change _ ok =>
    Tree.keyed_apply h (edit.plan_canonical h ok)
  obtain ⟨canonical, same⟩ := h place node found
  exact Tree.keyed_apply h (List.forall_mem_singleton.2 (same ▸ canonical))

/-- **A request keeps the invariant of the tree**, but for the copy of one directory over
another. -/
theorem sound_run (h : fs.tree.Sound) (apart : ¬ request.Merges fs) :
    (request.run fs).system.tree.Sound := by
  refine tree_run Tree.Sound h (fun place node found => h.renew found rfl rfl) ?_
  intro edit change op ok
  refine edit.plan_sound h ok ?_
  unfold Merges at apart
  rwa [op] at apart

end Request

/-! ## Runs -/

/-- One allowed request after the other leads from the one file system to the other. -/
inductive Run (allowed : FileSystem → Request → Prop) (start : FileSystem) : FileSystem → Prop
  | start : Run allowed start start
  | request {fs : FileSystem} {request : Request} : Run allowed start fs → allowed fs request →
      Run allowed start (request.run fs).system

/-- **What every allowed request keeps**, every run keeps. -/
theorem Run.invariant {allowed : FileSystem → Request → Prop} {start fs : FileSystem}
    (I : FileSystem → Prop) (run : Run allowed start fs) (h : I start)
    (step : ∀ fs request, I fs → allowed fs request → I (request.run fs).system) : I fs := by
  induction run with
  | start => exact h
  | request _ ok ih => exact step _ _ ih ok

end VirtualShell
