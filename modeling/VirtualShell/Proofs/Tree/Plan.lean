import VirtualShell.Proofs.Tree.Walk
import VirtualShell.Tree.Change

/-!
# When a plan succeeds, and what it plans

Each operation on the tree is planned by a chain of checks. For every plan one equivalence says
which checks it passes and which batch it then makes (`planWrite_eq_ok_iff`, …), so that no later
proof opens a plan.
-/

namespace VirtualShell

/-! ## Chains of checks -/

namespace Outcome

variable {α β : Type}

theorem bind_eq_ok {ε : Type} {x : Except ε α} {f : α → Except ε β} {b : β} :
    x >>= f = .ok b ↔ ∃ a, x = .ok a ∧ f a = .ok b := by
  cases x <;> simp [bind, Except.bind]

theorem mapError_eq_ok {ε ε' : Type} {x : Except ε α} {f : ε → ε'} {a : α} :
    x.mapError f = .ok a ↔ x = .ok a := by
  cases x with
  | error e => exact ⟨nofun, nofun⟩
  | ok found => constructor <;> rintro ⟨⟩ <;> rfl

theorem throw_eq_ok {fault : Fault} {b : β} : (throw fault : Outcome β) = .ok b ↔ False := by
  simp [throw, throwThe, MonadExceptOf.throw]

theorem pure_eq_ok {a b : β} : (pure a : Outcome β) = .ok b ↔ a = b := by simp [pure, Except.pure]

theorem ite_eq_ok {c : Prop} [Decidable c] {x y : Outcome β} {b : β} :
    (if c then x else y) = .ok b ↔ c ∧ x = .ok b ∨ ¬ c ∧ y = .ok b := by
  split <;> simp [*]

theorem eq_ok_of_toOption {result : Outcome α} {a : α} (h : result.toOption = some a) :
    result = .ok a := by
  cases result with
  | error fault => cases h
  | ok found =>
    cases h
    rfl

theorem exists_of_toOption_eq_none {result : Outcome α} (h : result.toOption = none) :
    ∃ fault, result = .error fault := by
  cases result with
  | error fault => exact ⟨fault, rfl⟩
  | ok found => cases h

end Outcome

open Outcome

namespace Tree

variable {tree : Tree} {now : Int} {owner : Owner} {path : Bytes} {change : Change}

/-! ## Looking up -/

theorem requireParent_eq_ok_iff {u : Unit} :
    tree.requireParent path = .ok u ↔ tree.IsDir (Path.parent path) := by
  cases found : tree.find? (Path.parent path) with
  | none => simp [requireParent, IsDir, found]
  | some parent => cases dir : parent.isDirectory <;> simp [requireParent, IsDir, found, dir]

theorem stat_eq_ok_iff {node : Inode} :
    tree.stat path = .ok node ↔
      ∃ place, tree.realPath path = .ok place ∧ tree.find? place = some node := by
  simp only [stat, bind_eq_ok]
  refine exists_congr fun place => and_congr_right fun _ => ?_
  cases tree.find? place <;> simp [pure_eq_ok, throw_eq_ok]

theorem lstat_eq_ok_iff {node : Inode} :
    tree.lstat path = .ok node ↔
      ∃ entry, tree.entryPath path = .ok entry ∧ tree.find? entry = some node := by
  simp only [lstat, bind_eq_ok]
  refine exists_congr fun entry => and_congr_right fun _ => ?_
  cases tree.find? entry <;> simp [pure_eq_ok, throw_eq_ok]

/-! ## Files -/

/-- Where a write goes: to the entry, to what a link there leads to, or past a link that leads to
nothing, as it reads. -/
inductive WritesTo (tree : Tree) (entry : Bytes) : Bytes → Prop
  | entry : (∀ node, tree.find? entry = some node → node.isSymlink = false) →
      WritesTo tree entry entry
  | followed {link : Inode} {target : Bytes} : tree.find? entry = some link →
      link.isSymlink = true → tree.realPath entry = .ok target → WritesTo tree entry target
  | dangling {link : Inode} {fault : Fault} : tree.find? entry = some link →
      link.isSymlink = true → tree.realPath entry = .error fault → fault.kind = .notFound →
      WritesTo tree entry (Path.resolve link.content (Path.parent entry))

theorem writesTo_iff_of_free {entry target : Bytes}
    (free : ∀ node, tree.find? entry = some node → node.isSymlink = false) :
    tree.WritesTo entry target ↔ entry = target := by
  constructor
  · intro h
    cases h with
    | entry => rfl
    | followed found isLink | dangling found isLink =>
      rw [free _ found] at isLink
      cases isLink
  · rintro rfl
    exact .entry free

theorem writesTo_iff_of_link {entry target : Bytes} {link : Inode}
    (found : tree.find? entry = some link) (isLink : link.isSymlink = true) :
    tree.WritesTo entry target ↔ tree.realPath entry = .ok target ∨
      ∃ fault, tree.realPath entry = .error fault ∧ fault.kind = .notFound ∧
        Path.resolve link.content (Path.parent entry) = target := by
  constructor
  · intro h
    cases h with
    | entry free =>
      rw [free _ found] at isLink
      cases isLink
    | followed _ _ real => exact .inl real
    | dangling found' _ real kind =>
      rw [found] at found'
      cases found'
      exact .inr ⟨_, real, kind, rfl⟩
  · rintro (real | ⟨fault, real, kind, rfl⟩)
    · exact .followed found isLink real
    · exact .dangling found isLink real kind

theorem writeTarget_eq_ok_iff {target : Bytes} :
    tree.writeTarget path = .ok target ↔
      ∃ entry, tree.entryPath path = .ok entry ∧ tree.WritesTo entry target := by
  simp only [writeTarget, bind_eq_ok]
  refine exists_congr fun entry => and_congr_right fun _ => ?_
  cases found : tree.find? entry with
  | none =>
    rw [writesTo_iff_of_free (by simp [found])]
    exact pure_eq_ok
  | some node =>
    cases isLink : node.isSymlink with
    | false =>
      rw [writesTo_iff_of_free (by simp [found, isLink])]
      simp [isLink, pure_eq_ok]
    | true =>
      rw [writesTo_iff_of_link found isLink]
      simp only [isLink, Bool.not_true, Bool.false_eq_true, if_false]
      cases tree.realPath entry with
      | ok place => simp [pure_eq_ok]
      | error fault => simp [ite_eq_ok, pure_eq_ok, throw_eq_ok]

/-- What a write makes of the record at its target. -/
def written (now : Int) (content : Bytes) (append : Bool) (node : Inode) : Inode :=
  { node.withContent (if append then node.content ++ content else content) with
    modified := now, accessed := now }

theorem planWrite_eq_ok_iff {content : Bytes} {append : Bool} :
    tree.planWrite now path content append owner = .ok change ↔
      ∃ target, tree.writeTarget path = .ok target ∧
        (target = nullDevice ∧ change = {} ∨
          target ≠ nullDevice ∧ tree.IsDir (Path.parent target) ∧
            (tree.find? target = none ∧ change = .put (.newFile target content owner now) ∨
              ∃ node, tree.find? target = some node ∧ node.isDirectory = false ∧
                change = .put (written now content append node))) := by
  simp only [planWrite, bind_eq_ok, ite_eq_ok, pure_eq_ok, requireParent_eq_ok_iff, exists_and_left]
  refine exists_congr fun target => and_congr_right fun _ => or_congr ?_ ?_
  · exact and_congr_right fun _ => eq_comm
  · refine and_congr_right fun _ => and_congr_right fun _ => ?_
    cases tree.find? target with
    | none => simpa [pure_eq_ok] using eq_comm
    | some node =>
      cases dir : node.isDirectory with
      | false => simpa [dir, pure_eq_ok, written] using eq_comm
      | true =>
        simp only [dir, if_true, bind_eq_ok, throw_eq_ok, false_and, exists_false]
        simp [dir]

theorem planTouch_eq_ok_iff :
    tree.planTouch now path owner = .ok change ↔
      (∃ node, tree.stat path = .ok node ∧
        change = .put { node with modified := now, accessed := now }) ∨
      ∃ fault, tree.stat path = .error fault ∧ fault.kind = .notFound ∧
        tree.planWrite now path [] true owner = .ok change := by
  unfold planTouch
  cases tree.stat path with
  | ok node => simpa using eq_comm
  | error fault => simp [ite_eq_ok]

theorem planSetMode_eq_ok_iff {mode : UInt32} :
    tree.planSetMode now path mode = .ok change ↔
      ∃ node, tree.stat path = .ok node ∧
        change = .put { node with mode := mode &&& 0o7777, changed := now } := by
  simp only [planSetMode, bind_eq_ok, pure_eq_ok]
  exact exists_congr fun node => and_congr_right fun _ => eq_comm

theorem planLink_eq_ok_iff {target : Bytes} :
    tree.planLink now target path owner = .ok change ↔
      ∃ link, tree.entryPath path = .ok link ∧ tree.find? link = none ∧
        tree.IsDir (Path.parent link) ∧ change = .put (.newSymlink link target owner now) := by
  simp only [planLink, bind_eq_ok, ite_eq_ok, throw_eq_ok, pure_eq_ok, requireParent_eq_ok_iff,
    false_and, and_false, exists_false, false_or]
  refine exists_congr fun link => and_congr_right fun _ => and_congr ?_ ?_
  · simp [ByteMap.contains]
  · simpa using fun _ => eq_comm

/-! ## Directories -/

theorem planDirectory_eq_ok_iff :
    tree.planDirectory now path owner = .ok change ↔
      ∃ target, tree.entryPath (Path.resolve path) = .ok target ∧ tree.find? target = none ∧
        tree.IsDir (Path.parent target) ∧ change = .put (.newDirectory target owner now) := by
  simp only [planDirectory, bind_eq_ok, ite_eq_ok, throw_eq_ok, pure_eq_ok,
    requireParent_eq_ok_iff, false_and, and_false, exists_false, false_or]
  refine exists_congr fun target => and_congr_right fun _ => and_congr ?_ ?_
  · simp [ByteMap.contains]
  · simpa using fun _ => eq_comm

theorem planDirectories_eq_ok_iff :
    tree.planDirectories now path owner = .ok change ↔
      ∃ puts, tree.missingDirectories now owner (Path.resolve path) Path.root
          (Path.components (Path.resolve path)) = .ok puts ∧ change = { batch := { puts } } := by
  simp only [planDirectories, bind_eq_ok, pure_eq_ok]
  exact exists_congr fun puts => and_congr_right fun _ => eq_comm

/-- The missing directories along components: none, those from the first missing one on, those
behind a link to a directory, or those behind a directory. -/
theorem missingDirectories_cons_eq_ok_iff {canonical current part : Bytes} {rest : List Bytes}
    {puts : List Inode} :
    tree.missingDirectories now owner canonical current (part :: rest) = .ok puts ↔
      tree.find? (Path.join current part) = none ∧
          puts = newDirectories now owner current (part :: rest) ∨
        ∃ node, tree.find? (Path.join current part) = some node ∧
          (node.isSymlink = true ∧ (∃ followed,
              tree.realPath (Path.join current part) = .ok followed ∧ tree.IsDir followed ∧
                tree.missingDirectories now owner canonical followed rest = .ok puts) ∨
            node.isSymlink = false ∧ node.isDirectory = true ∧
              tree.missingDirectories now owner canonical (Path.join current part) rest =
                .ok puts) := by
  rw [missingDirectories]
  cases tree.find? (Path.join current part) with
  | none => simpa using eq_comm
  | some node =>
    cases isLink : node.isSymlink <;> cases dir : node.isDirectory <;>
      simp [isLink, dir, bind_eq_ok, ite_eq_ok, throw_eq_ok, isDir_iff_any]

theorem planUnlink_eq_ok_iff :
    tree.planUnlink path = .ok change ↔
      ∃ node, tree.lstat path = .ok node ∧ node.isDirectory = false ∧ node.path ≠ nullDevice ∧
        change = { batch := { erases := [node.path] } } := by
  simp only [planUnlink, bind_eq_ok, ite_eq_ok, throw_eq_ok, pure_eq_ok, false_and, and_false,
    exists_false, false_or, Bool.not_eq_true]
  refine exists_congr fun node => and_congr_right fun _ => and_congr_right fun _ =>
    and_congr_right fun _ => eq_comm

theorem planRemoveDirectory_eq_ok_iff {recursive : Bool} :
    tree.planRemoveDirectory path recursive = .ok change ↔
      ∃ node, tree.lstat path = .ok node ∧ node.path ≠ Path.root ∧ node.isDirectory = true ∧
        (tree.hasChildren node.path = false ∧ change = { batch := { erases := [node.path] } } ∨
          tree.hasChildren node.path = true ∧ recursive = true ∧
            change = { batch := { erases :=
              ((tree.descendants node.path).map (·.1)).reverse ++ [node.path] } }) := by
  simp only [planRemoveDirectory, bind_eq_ok, ite_eq_ok, throw_eq_ok, pure_eq_ok, false_and,
    and_false, exists_false, false_or, Bool.not_eq_true', Bool.not_eq_false]
  refine exists_congr fun node => and_congr_right fun _ => and_congr_right fun _ =>
    and_congr_right fun _ => or_congr ?_ ?_
  · exact and_congr_right fun _ => eq_comm
  · exact and_congr_right fun _ => and_congr_right fun _ => eq_comm

/-- Removing puts nothing. -/
theorem puts_planUnlink (h : tree.planUnlink path = .ok change) : change.batch.puts = [] := by
  obtain ⟨node, -, -, -, rfl⟩ := planUnlink_eq_ok_iff.1 h
  rfl

theorem puts_planRemoveDirectory {recursive : Bool}
    (h : tree.planRemoveDirectory path recursive = .ok change) : change.batch.puts = [] := by
  obtain ⟨node, -, -, -, ⟨-, rfl⟩ | ⟨-, -, rfl⟩⟩ := planRemoveDirectory_eq_ok_iff.1 h
  · rfl
  · rfl

/-! ## Moving and copying -/

/-- What stands at the place, if anything, may be replaced by the record: both are directories or
neither is, and a directory is empty. -/
def GivesWay (tree : Tree) (node : Inode) (place : Bytes) : Prop :=
  ∀ existing, tree.find? place = some existing → existing.isDirectory = node.isDirectory ∧
    (existing.isDirectory = true → tree.hasChildren place = false)

theorem requireReplaceable_eq_ok_iff {node : Inode} {target : Bytes} {u : Unit} :
    tree.requireReplaceable node target = .ok u ↔ tree.GivesWay node target := by
  unfold requireReplaceable GivesWay
  cases tree.find? target with
  | none => simp
  | some existing =>
    cases dir : existing.isDirectory <;> cases node.isDirectory <;>
      cases tree.hasChildren target <;> simp [dir]

/-- The batch that moves a record and all below it. -/
def moveBatch (tree : Tree) (now : Int) (node : Inode) (target : Bytes) : Batch where
  erases := (if tree.contains target then [target] else []) ++
    node.path :: (tree.descendants node.path).map (·.1)
  puts := { node with path := target, modified := now } ::
    moved node.path target (tree.descendants node.path)

theorem planRename_eq_ok {source target : Bytes}
    (h : tree.planRename now source target = .ok change) :
    ∃ node, tree.lstat source = .ok node ∧ node.path ≠ Path.root ∧
      ∃ new, tree.entryPath target = .ok new ∧
        (new = node.path ∧ change = {} ∨
          new ≠ node.path ∧ Path.isWithin new node.path = false ∧ tree.IsDir (Path.parent new) ∧
            tree.GivesWay node new ∧ change.batch = tree.moveBatch now node new) := by
  simp only [planRename, bind_eq_ok, ite_eq_ok, throw_eq_ok, pure_eq_ok, false_and, and_false,
    exists_false, false_or, requireParent_eq_ok_iff, requireReplaceable_eq_ok_iff, exists_const,
    Bool.not_eq_true] at h
  obtain ⟨node, stat, notRoot, new, entry, ⟨same, rfl⟩ | ⟨other, out, dir, fits, rfl⟩⟩ := h
  · exact ⟨node, stat, notRoot, new, entry, .inl ⟨same, rfl⟩⟩
  · exact ⟨node, stat, notRoot, new, entry, .inr ⟨other, out, dir, fits, rfl⟩⟩

/-- Where a copy of a path to an entry goes. -/
inductive CopyPlace (tree : Tree) (source entry : Bytes) : Bytes → Prop
  /-- To the entry itself, if that leads to no directory. -/
  | entry (noDir : ∀ dir, tree.realPath entry = .ok dir → ¬ tree.IsDir dir) :
      CopyPlace tree source entry entry
  /-- Into the directory that the entry leads to, under the name of what is copied. -/
  | named {dir : Bytes} (leads : tree.realPath entry = .ok dir) (isDir : tree.IsDir dir) :
      CopyPlace tree source entry (Path.join dir (Path.base source))

theorem copyTarget_eq_ok_iff {source target new : Bytes} :
    tree.copyTarget source target = .ok new ↔
      ∃ entry, tree.entryPath target = .ok entry ∧ tree.CopyPlace source entry new := by
  simp only [copyTarget, bind_eq_ok]
  refine exists_congr fun entry => and_congr_right fun _ => ?_
  cases real : tree.realPath entry with
  | error fault =>
    simp only [pure_eq_ok]
    constructor
    · rintro rfl
      exact .entry fun dir leads => by simp [real] at leads
    · rintro (- | ⟨leads, -⟩)
      · rfl
      · simp [real] at leads
  | ok dir =>
    simp only [ite_eq_ok, pure_eq_ok, ← isDir_iff_any]
    constructor
    · rintro (⟨isDir, rfl⟩ | ⟨notDir, rfl⟩)
      · exact .named real isDir
      · refine .entry fun other leads => ?_
        rw [real] at leads
        cases leads
        exact notDir
    · rintro (noDir | ⟨leads, isDir⟩)
      · exact .inr ⟨noDir dir real, rfl⟩
      · rw [real] at leads
        cases leads
        exact .inl ⟨isDir, rfl⟩

theorem mergesInto_eq_ok_iff {node : Inode} {target : Bytes} {merges : Bool} :
    tree.mergesInto node target = .ok merges ↔
      (∀ existing, tree.find? target = some existing →
        existing.isDirectory = node.isDirectory) ∧
      merges = (tree.find? target).any Inode.isDirectory := by
  unfold mergesInto
  cases tree.find? target with
  | none => simp [eq_comm]
  | some existing =>
    cases dir : existing.isDirectory <;> cases node.isDirectory <;>
      simp [dir, @eq_comm _ _ merges]

/-- The batch that copies a record and, if it is a directory, all below it. -/
def copyBatch (tree : Tree) (now : Int) (node : Inode) (target : Bytes) (merges : Bool) :
    Batch where
  puts := (if merges then [] else [renewed now { node with path := target }]) ++
    (if node.isDirectory then moved node.path target (tree.descendants node.path) else []).map
      (renewed now)

theorem planCopy_eq_ok {source target : Bytes} {recursive : Bool}
    (h : tree.planCopy now source target recursive = .ok change) :
    ∃ node, tree.stat source = .ok node ∧ (node.isDirectory = true → recursive = true) ∧
      ∃ new, tree.copyTarget node.path target = .ok new ∧ new ≠ node.path ∧
        Path.isWithin new node.path = false ∧ tree.IsDir (Path.parent new) ∧
        (∀ existing, tree.find? new = some existing →
          existing.isDirectory = node.isDirectory) ∧
        change = ⟨tree.copyBatch now node new ((tree.find? new).any Inode.isDirectory), []⟩ := by
  simp only [planCopy, bind_eq_ok, ite_eq_ok, throw_eq_ok, pure_eq_ok, false_and, and_false,
    exists_false, false_or, requireParent_eq_ok_iff, mergesInto_eq_ok_iff, exists_const,
    Bool.not_eq_true] at h
  obtain ⟨node, stat, deep, new, goes, other, out, dir, _, ⟨fits, rfl⟩, rfl⟩ := h
  refine ⟨node, stat, fun isDir => ?_, new, goes, other, out, dir, fits, rfl⟩
  simpa [isDir] using deep

end Tree

end VirtualShell
