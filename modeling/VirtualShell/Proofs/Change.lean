import VirtualShell.FileSystem
import VirtualShell.Proofs.Store.Batch
import VirtualShell.Proofs.Tree.Plan

/-!
# What a change does to the tree

A commit either leaves the tree or makes its whole batch in it, and so do a planned change and the
time of access that reading moves.
-/

namespace VirtualShell.FileSystem

variable {fs : FileSystem}

/-- **A commit that succeeds** has made its batch in the tree. -/
theorem tree_commit_of_ok {batch : Batch} (h : (fs.commit batch).result = .ok ()) :
    (fs.commit batch).system.tree = batch.apply fs.tree := by
  unfold commit at h ⊢
  split
  next empty => exact (Batch.apply_of_isEmpty empty _).symm
  next some =>
    rw [if_neg some] at h
    dsimp only at h ⊢
    split
    · rfl
    next fault refused =>
      rw [refused] at h
      cases h

/-- A commit that fails leaves the tree. -/
theorem tree_commit_of_error {batch : Batch} {fault : Fault}
    (h : (fs.commit batch).result = .error fault) : (fs.commit batch).system.tree = fs.tree := by
  unfold commit at h ⊢
  split
  · rfl
  next some =>
    rw [if_neg some] at h
    dsimp only at h ⊢
    split
    next taken =>
      rw [taken] at h
      cases h
    · rfl

/-- **A change that succeeds** has made the batch of its plan in the tree. -/
theorem tree_change_of_ok {plan : Outcome Change} (h : (fs.change plan).result = .ok ()) :
    ∃ change, plan = .ok change ∧ (fs.change plan).system.tree = change.batch.apply fs.tree := by
  cases plan with
  | error fault => cases h
  | ok change => exact ⟨change, rfl, tree_commit_of_ok h⟩

/-- A change leaves the tree, or makes the batch of its plan in it. -/
theorem tree_change (fs : FileSystem) (plan : Outcome Change) :
    (fs.change plan).system.tree = fs.tree ∨
      ∃ change, plan = .ok change ∧ (fs.change plan).system.tree = change.batch.apply fs.tree := by
  cases h : (fs.change plan).result with
  | ok u => exact .inr (tree_change_of_ok h)
  | error fault => exact .inl (tree_change_of_error h)

/-- Reading gives the content of what is no directory. -/
theorem read_result_eq_ok_iff {now : Int} {path found : Bytes} :
    (fs.read now path).result = .ok found ↔
      ∃ node, fs.tree.stat path = .ok node ∧ node.isDirectory = false ∧ node.content = found := by
  unfold read
  cases fs.tree.stat path with
  | error fault => simp
  | ok node => cases isDir : node.isDirectory <;> simp [isDir]

/-- Reading leaves the file system, or moves the time of access of one record of its tree. -/
theorem system_read (fs : FileSystem) (now : Int) (path : Bytes) :
    (fs.read now path).system = fs ∨
      ∃ place node, fs.tree.find? place = some node ∧
        (fs.read now path).system =
          { fs with tree := (Batch.put { node with accessed := now }).apply fs.tree } := by
  unfold read
  cases stat : fs.tree.stat path with
  | error fault => exact .inl rfl
  | ok node =>
    dsimp only
    split
    · exact .inl rfl
    · obtain ⟨place, -, found⟩ := Tree.stat_eq_ok_iff.1 stat
      exact .inr ⟨place, node, found, rfl⟩

theorem tree_read (fs : FileSystem) (now : Int) (path : Bytes) :
    (fs.read now path).system.tree = fs.tree ∨
      ∃ place node, fs.tree.find? place = some node ∧
        (fs.read now path).system.tree =
          (Batch.put { node with accessed := now }).apply fs.tree := by
  rcases fs.system_read now path with same | ⟨place, node, found, moved⟩
  · exact .inl (congrArg tree same)
  · exact .inr ⟨place, node, found, congrArg tree moved⟩

end VirtualShell.FileSystem
