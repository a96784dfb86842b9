import VirtualShell.Proofs.Load
import VirtualShell.Proofs.Tree.Relocation

/-!
# Renames and copies that succeed

What a file system holds behind a rename (`rename_moves`), behind a copy to where no directory
stands (`copy_duplicates`) and behind a copy of one directory into another (`copy_merges_iff`). The
first two do what they say, at every path of every sound tree. The last does not: it compares the
source and the target themselves and nothing below them, so that a file below the source may take
the place of a directory with something in it (`not_merged_of_file_over_directory`).
-/

namespace VirtualShell

namespace FileSystem

variable {fs : FileSystem} {now : Int} {source target : Bytes} {recursive : Bool}

/-! ## File systems to move things in -/

/-- A new file system over memory, behind these edits. -/
def seededWith (edits : List Edit) : FileSystem :=
  edits.foldl (fun fs edit => (edit.run fs 1).system)
    (load { volume := { store := .memory ∅ } } 0).system

theorem sound_edit {edit : Edit} (h : fs.tree.Sound) (apart : ¬ edit.Merges fs.tree) :
    (edit.run fs now).system.tree.Sound := by
  rw [edit.run_eq_change]
  rcases fs.tree_change (edit.plan fs.tree now) with same | ⟨change, plan, made⟩
  · rw [same]
    exact h
  · rw [made]
    exact edit.plan_sound h plan apart

theorem sound_edits {edits : List Edit} (h : fs.tree.Sound)
    (apart : ∀ edit ∈ edits, ∀ tree, ¬ edit.Merges tree) :
    (edits.foldl (fun fs edit => (edit.run fs now).system) fs).tree.Sound := by
  induction edits generalizing fs with
  | nil => exact h
  | cons edit edits ih =>
    obtain ⟨first, rest⟩ := List.forall_mem_cons.1 apart
    exact ih (sound_edit h (first fs.tree)) rest

theorem sound_seededWith {edits : List Edit}
    (apart : ∀ edit ∈ edits, ∀ tree, ¬ edit.Merges tree) : (seededWith edits).tree.Sound := by
  refine sound_edits (load_sound rfl (Volume.sized_of_empty rfl) ?_) apart
  rintro inodes ⟨⟩ node mem
  cases mem

/-! ## Renames -/

/-- **A rename that succeeds** moves what stands at and below its source to where it goes, and does
nothing else. -/
theorem rename_moves (h : fs.tree.Sound) (done : (fs.rename now source target).result = .ok ()) :
    ∃ old new, fs.tree.entryPath source = .ok old ∧ fs.tree.entryPath target = .ok new ∧
      (new ≠ old → Tree.Renamed fs.tree (fs.rename now source target).system.tree now old new) := by
  obtain ⟨change, plan, made⟩ := tree_change_of_ok done
  obtain ⟨node, lstat, -, new, goes, -⟩ := Tree.planRename_eq_ok plan
  obtain ⟨old, starts, -⟩ := Tree.lstat_eq_ok_iff.1 lstat
  refine ⟨old, new, starts, goes, fun other => ?_⟩
  rw [rename, made]
  exact Tree.renamed_of_planRename h plan starts goes other

/-- A directory with a file in it takes the place of an empty one. -/
theorem rename_moves_directory :
    let fs := seededWith [.makeDirectory (ascii "/tmp/a"), .write (ascii "/tmp/a/x") (ascii "hi"),
      .makeDirectory (ascii "/tmp/b")]
    fs.tree.contains (ascii "/tmp/a/x") = true ∧
      Tree.Renamed fs.tree (fs.rename 2 (ascii "/tmp/a") (ascii "/tmp/b")).system.tree 2
        (ascii "/tmp/a") (ascii "/tmp/b") := by
  intro fs
  have sound : fs.tree.Sound := sound_seededWith (by simp [Edit.Merges])
  obtain ⟨old, new, starts, goes, renamed⟩ := @rename_moves fs 2 (ascii "/tmp/a") (ascii "/tmp/b")
    sound rfl
  obtain rfl : ascii "/tmp/a" = old := Except.ok.inj starts
  obtain rfl : ascii "/tmp/b" = new := Except.ok.inj goes
  exact ⟨by decide, renamed (by decide)⟩

/-! ## Copies -/

/-- What is copied by a copy that succeeds, where it goes and what is made of the tree. -/
theorem copy_eq_ok (h : fs.tree.Keyed)
    (done : (fs.copy now source target recursive).result = .ok ()) :
    ∃ change old new, fs.tree.planCopy now source target recursive = .ok change ∧
      fs.tree.realPath source = .ok old ∧ fs.tree.copyTarget old target = .ok new ∧
      (fs.copy now source target recursive).system.tree = change.batch.apply fs.tree := by
  obtain ⟨change, plan, made⟩ := tree_change_of_ok done
  obtain ⟨node, stat, -, new, goes, -⟩ := Tree.planCopy_eq_ok plan
  obtain ⟨old, starts, found⟩ := Tree.stat_eq_ok_iff.1 stat
  obtain ⟨-, rfl⟩ := h _ _ found
  exact ⟨change, node.path, new, plan, starts, goes, made⟩

/-- **A copy that succeeds**, and goes to where no directory stands, puts copies of what stands at
and below its source there, and does nothing else. It goes to the target, or to the name of its
source in the directory that the target leads to. -/
theorem copy_duplicates (h : fs.tree.Sound)
    (done : (fs.copy now source target recursive).result = .ok ()) :
    ∃ old entry new, fs.tree.realPath source = .ok old ∧ fs.tree.entryPath target = .ok entry ∧
      fs.tree.CopyPlace old entry new ∧
      (¬ fs.tree.IsDir new →
        Tree.Copied fs.tree (fs.copy now source target recursive).system.tree now old new) := by
  obtain ⟨change, old, new, plan, starts, goes, made⟩ := copy_eq_ok h.keyed done
  obtain ⟨entry, leads, place⟩ := Tree.copyTarget_eq_ok_iff.1 goes
  refine ⟨old, entry, new, starts, leads, place, fun fresh => ?_⟩
  rw [made]
  exact Tree.copied_of_planCopy h plan starts goes fresh

/-- A directory with a file in it is copied into another. The copy of the file is its owner's, with
its mode and what it holds. -/
theorem copy_duplicates_directory :
    let fs := seededWith [.makeDirectory (ascii "/tmp/a"),
      .write (ascii "/tmp/a/x") (ascii "hi") false ⟨7, 8⟩]
    let after := (fs.copy 2 (ascii "/tmp/a") (ascii "/etc") true).system.tree
    Tree.Copied fs.tree after 2 (ascii "/tmp/a") (ascii "/etc/a") ∧
      after.find? (ascii "/etc/a/x") = some {
        kind := .file, size := 2, content? := some (ascii "hi"), path := ascii "/etc/a/x"
        mode := 0o644, uid := 7, gid := 8, changed := 2, modified := 2, accessed := 2 } := by
  intro fs after
  have sound : fs.tree.Sound := sound_seededWith (by simp [Edit.Merges])
  obtain ⟨old, entry, new, starts, leads, place, copied⟩ :=
    @copy_duplicates fs 2 (ascii "/tmp/a") (ascii "/etc") true sound rfl
  obtain rfl : ascii "/tmp/a" = old := Except.ok.inj starts
  obtain rfl : ascii "/etc" = entry := Except.ok.inj leads
  have etc : fs.tree.IsDir (ascii "/etc") := by rw [Tree.isDir_iff_any]; decide
  obtain noDir | ⟨real, -⟩ := place
  · exact absurd etc (noDir _ rfl)
  · cases real
    have copied : Tree.Copied fs.tree after 2 (ascii "/tmp/a") (ascii "/etc/a") :=
      copied (by rw [Tree.isDir_iff_any]; decide)
    exact ⟨copied, copied.copied (ascii "/x") _ rfl (.inr (by decide))⟩

/-- **A copy into a directory** that succeeds leaves a sound tree, its source as it was and copies
of all below it exactly when no file and no link below the source goes to a directory with something
in it, and nothing of the source is written over with anything else. -/
theorem copy_merges_iff (h : fs.tree.Sound)
    (done : (fs.copy now source target recursive).result = .ok ()) :
    ∃ old new, fs.tree.realPath source = .ok old ∧ fs.tree.copyTarget old target = .ok new ∧
      (fs.tree.IsDir new →
        (Tree.Merged fs.tree (fs.copy now source target recursive).system.tree old new ↔
          Tree.MergesCleanly fs.tree now old new)) := by
  obtain ⟨change, old, new, plan, starts, goes, made⟩ := copy_eq_ok h.keyed done
  refine ⟨old, new, starts, goes, fun dir => ?_⟩
  rw [made]
  exact Tree.merged_iff_of_planCopy h plan starts goes dir

/-- Beside what stands in the target already come copies of what stands in the source, also in the
place of a file. -/
theorem copy_merges_directories :
    let fs := seededWith [.makeDirectory (ascii "/tmp/a"), .write (ascii "/tmp/a/x") (ascii "hi"),
      .makeDirectory (ascii "/tmp/d/a") true, .write (ascii "/tmp/d/a/x") (ascii "old"),
      .write (ascii "/tmp/d/a/y") (ascii "too")]
    fs.tree.IsDir (ascii "/tmp/d/a") ∧
      Tree.Merged fs.tree (fs.copy 2 (ascii "/tmp/a") (ascii "/tmp/d") true).system.tree
        (ascii "/tmp/a") (ascii "/tmp/d/a") := by
  intro fs
  have sound : fs.tree.Sound := sound_seededWith (by simp [Edit.Merges])
  obtain ⟨old, new, starts, goes, merges⟩ :=
    @copy_merges_iff fs 2 (ascii "/tmp/a") (ascii "/tmp/d") true sound rfl
  obtain rfl : ascii "/tmp/a" = old := Except.ok.inj starts
  obtain rfl : ascii "/tmp/d/a" = new := Except.ok.inj goes
  have route : Path.Route (ascii "/tmp/a") (ascii "/tmp/d/a") :=
    ⟨show Path.resolve _ = _ by decide, by decide, show Path.resolve _ = _ by decide, by decide,
      by decide⟩
  have dir : fs.tree.IsDir (ascii "/tmp/d/a") := by rw [Tree.isDir_iff_any]; decide
  exact ⟨dir, (merges dir).2 (sound.keyed.mergesCleanly_of_apart route (by decide) (by decide))⟩

/-- **A file copied over a directory with something in it**: the copy of `/tmp/a` to `/tmp/d`
succeeds and makes `/tmp/d/a/x` a file, with `/tmp/d/a/x/y` still below it. -/
theorem not_merged_of_file_over_directory :
    let fs := seededWith [.makeDirectory (ascii "/tmp/a"), .write (ascii "/tmp/a/x") (ascii "f"),
      .makeDirectory (ascii "/tmp/d/a/x") true, .write (ascii "/tmp/d/a/x/y") (ascii "g")]
    let step := fs.copy 2 (ascii "/tmp/a") (ascii "/tmp/d") true
    fs.tree.Sound ∧ step.result = .ok () ∧
      fs.tree.realPath (ascii "/tmp/a") = .ok (ascii "/tmp/a") ∧
      fs.tree.copyTarget (ascii "/tmp/a") (ascii "/tmp/d") = .ok (ascii "/tmp/d/a") ∧
        fs.tree.IsDir (ascii "/tmp/d/a") ∧
          ¬ Tree.Merged fs.tree step.system.tree (ascii "/tmp/a") (ascii "/tmp/d/a") := by
  intro fs step
  refine ⟨sound_seededWith (by simp [Edit.Merges]), rfl, rfl, rfl,
    by rw [Tree.isDir_iff_any]; decide, fun merged => ?_⟩
  have there : step.system.tree.contains (ascii "/tmp/d/a/x/y") = true := by decide
  obtain ⟨node, found⟩ := ByteMap.contains_eq_true_iff.1 there
  have dir := merged.sound.parents _ node found (by decide)
  rw [Tree.isDir_iff_any] at dir
  revert dir
  decide

end FileSystem

end VirtualShell
