import VirtualShell.Proofs.Tree.Preserve

/-!
# What plans put

A record that a plan puts is new, or it is one of the tree with other content, or it holds what one
of the tree does, at another path or with other times (`Origin`). What is kept in all these ways is
kept by every plan: the size of the content (`Origin.sized`), and that all times have sixty-four
bits, as those of a clock do (`Origin.timely`). Records with both are `Storable`: a document gives
them back.
-/

namespace VirtualShell

/-- A time of sixty-four bits. -/
def isTimestamp (t : Int) : Prop := -0x8000000000000000 ≤ t ∧ t < 0x8000000000000000

instance (t : Int) : Decidable (isTimestamp t) := inferInstanceAs (Decidable (_ ∧ _))

namespace Inode

/-- The times of the record have sixty-four bits. -/
structure Timely (node : Inode) : Prop where
  changed : isTimestamp node.changed
  modified : isTimestamp node.modified
  accessed : isTimestamp node.accessed

/-- A record that a document gives back as it is. -/
structure Storable (node : Inode) : Prop extends Timely node, Sized node

theorem make_timely (path : Bytes) (body : Body) (mode : UInt32) (owner : Owner) {now : Int}
    (h : isTimestamp now) : (make path body mode owner now).Timely := ⟨h, h, h⟩

theorem Storable.access {node : Inode} (h : node.Storable) {now : Int} (hn : isTimestamp now) :
    { node with accessed := now }.Storable :=
  ⟨⟨h.changed, h.modified, hn⟩, h.toSized.of_body rfl⟩

/-- The record holds what the other does, and each of its times is one of the other or now. -/
structure Renews (node : Inode) (now : Int) (node' : Inode) : Prop where
  body : node'.body = node.body
  changed : node'.changed = node.changed ∨ node'.changed = now
  modified : node'.modified = node.modified ∨ node'.modified = now
  accessed : node'.accessed = node.accessed ∨ node'.accessed = now

end Inode

namespace Tree

variable {tree : Tree} {now : Int} {owner : Owner} {path source target : Bytes} {change : Change}

/-- Where a record that is put comes from. -/
inductive Origin (tree : Tree) (now : Int) (put : Inode) : Prop
  | directory (path : Bytes) (owner : Owner) : put = .newDirectory path owner now →
      Origin tree now put
  | file (path content : Bytes) (owner : Owner) : put = .newFile path content owner now →
      Origin tree now put
  | symlink (path target : Bytes) (owner : Owner) : put = .newSymlink path target owner now →
      Origin tree now put
  | written {key content : Bytes} {append : Bool} {node : Inode} :
      tree.find? key = some node → node.isDirectory = false →
      put = Tree.written now content append node → Origin tree now put
  | renewed {key : Bytes} {node : Inode} : tree.find? key = some node → node.Renews now put →
      Origin tree now put

/-! ## Plans -/

theorem planWrite_origin {content : Bytes} {append : Bool}
    (hp : tree.planWrite now path content append owner = .ok change) :
    ∀ put ∈ change.batch.puts, tree.Origin now put := by
  obtain ⟨place, -, ⟨-, rfl⟩ | ⟨-, -, ⟨-, rfl⟩ | ⟨node, found, notDir, rfl⟩⟩⟩ :=
    planWrite_eq_ok_iff.1 hp
  · exact fun _ mem => absurd mem List.not_mem_nil
  · exact List.forall_mem_singleton.2 (.file _ _ _ rfl)
  · exact List.forall_mem_singleton.2 (.written found notDir rfl)

theorem planTouch_origin (hp : tree.planTouch now path owner = .ok change) :
    ∀ put ∈ change.batch.puts, tree.Origin now put := by
  rcases planTouch_eq_ok_iff.1 hp with ⟨node, stat, rfl⟩ | ⟨fault, -, -, writes⟩
  · obtain ⟨place, -, found⟩ := stat_eq_ok_iff.1 stat
    exact List.forall_mem_singleton.2 (.renewed found ⟨rfl, .inl rfl, .inr rfl, .inr rfl⟩)
  · exact planWrite_origin writes

theorem planSetMode_origin {mode : UInt32} (hp : tree.planSetMode now path mode = .ok change) :
    ∀ put ∈ change.batch.puts, tree.Origin now put := by
  obtain ⟨node, stat, rfl⟩ := planSetMode_eq_ok_iff.1 hp
  obtain ⟨place, -, found⟩ := stat_eq_ok_iff.1 stat
  exact List.forall_mem_singleton.2 (.renewed found ⟨rfl, .inr rfl, .inl rfl, .inl rfl⟩)

theorem planLink_origin (hp : tree.planLink now target path owner = .ok change) :
    ∀ put ∈ change.batch.puts, tree.Origin now put := by
  obtain ⟨link, -, -, -, rfl⟩ := planLink_eq_ok_iff.1 hp
  exact List.forall_mem_singleton.2 (.symlink _ _ _ rfl)

theorem planDirectory_origin (hp : tree.planDirectory now path owner = .ok change) :
    ∀ put ∈ change.batch.puts, tree.Origin now put := by
  obtain ⟨place, -, -, -, rfl⟩ := planDirectory_eq_ok_iff.1 hp
  exact List.forall_mem_singleton.2 (.directory _ _ rfl)

theorem newDirectories_origin {current : Bytes} {parts : List Bytes} :
    ∀ put ∈ newDirectories now owner current parts, tree.Origin now put := by
  induction parts generalizing current with
  | nil => exact fun _ mem => absurd mem List.not_mem_nil
  | cons part rest ih => exact List.forall_mem_cons.2 ⟨.directory _ _ rfl, ih⟩

theorem planDirectories_origin (hp : tree.planDirectories now path owner = .ok change) :
    ∀ put ∈ change.batch.puts, tree.Origin now put := by
  obtain ⟨puts, hm, rfl⟩ := planDirectories_eq_ok_iff.1 hp
  rcases newDirectories_of_missing Path.canonical_root
    (Path.proper_components_resolve _ _ _) hm with rfl | ⟨_, _, _, -, -, -, -, rfl⟩
  · exact List.forall_mem_nil _
  · exact newDirectories_origin

theorem planRename_origin (hp : tree.planRename now source target = .ok change) :
    ∀ put ∈ change.batch.puts, tree.Origin now put := by
  obtain ⟨node, lstat, -, new, -, ⟨-, rfl⟩ | ⟨-, -, -, -, e⟩⟩ := planRename_eq_ok hp
  · exact fun _ mem => absurd mem List.not_mem_nil
  · obtain ⟨_, -, found⟩ := lstat_eq_ok_iff.1 lstat
    rw [e]
    refine List.forall_mem_cons.2 ⟨.renewed found ⟨rfl, .inl rfl, .inr rfl, .inl rfl⟩, ?_⟩
    intro put mem
    obtain ⟨key, below, listed, rfl⟩ := mem_moved_iff.1 mem
    exact .renewed (mem_descendants_iff.1 listed).1 ⟨rfl, .inl rfl, .inl rfl, .inl rfl⟩

theorem planCopy_origin {recursive : Bool}
    (hp : tree.planCopy now source target recursive = .ok change) :
    ∀ put ∈ change.batch.puts, tree.Origin now put := by
  obtain ⟨node, stat, -, new, -, -, -, -, -, rfl⟩ := planCopy_eq_ok hp
  obtain ⟨_, -, found⟩ := stat_eq_ok_iff.1 stat
  intro put mem
  rcases List.mem_append.1 mem with mem | mem
  · split at mem
    · cases mem
    · rw [List.mem_singleton.1 mem]
      exact .renewed found ⟨rfl, .inr rfl, .inr rfl, .inr rfl⟩
  · obtain ⟨_, copied, rfl⟩ := List.mem_map.1 mem
    split at copied
    · obtain ⟨key, below, listed, rfl⟩ := mem_moved_iff.1 copied
      exact .renewed (mem_descendants_iff.1 listed).1 ⟨rfl, .inr rfl, .inr rfl, .inr rfl⟩
    · cases copied

/-! ## What is kept -/

/-- **What is put has the size of its content.** -/
theorem Origin.sized {put : Inode} (h : tree.Origin now put)
    (sized : ∀ path node, tree.find? path = some node → node.Sized) : put.Sized := by
  cases h with
  | directory path owner e => exact e ▸ Inode.sized_newDirectory path owner now
  | file path content owner e => exact e ▸ Inode.sized_newFile path content owner now
  | symlink path target owner e => exact e ▸ Inode.sized_newSymlink path target owner now
  | written _ notDir e => exact e ▸ sized_written notDir ..
  | renewed found renews => exact (sized _ _ found).of_body renews.body

/-- **What is put has times of sixty-four bits**, if the clock has. -/
theorem Origin.timely {put : Inode} (h : tree.Origin now put) (hn : isTimestamp now)
    (timely : ∀ path node, tree.find? path = some node → node.Timely) : put.Timely := by
  have either : ∀ {t old : Int}, isTimestamp old → t = old ∨ t = now → isTimestamp t := by
    rintro t old ho (rfl | rfl)
    · exact ho
    · exact hn
  cases h with
  | directory path owner e => exact e ▸ Inode.make_timely _ _ _ _ hn
  | file path content owner e => exact e ▸ Inode.make_timely _ _ _ _ hn
  | symlink path target owner e => exact e ▸ Inode.make_timely _ _ _ _ hn
  | written found _ e => exact e ▸ ⟨(timely _ _ found).changed, hn, hn⟩
  | renewed found renews =>
    obtain ⟨changed, modified, accessed⟩ := timely _ _ found
    exact ⟨either changed renews.changed, either modified renews.modified,
      either accessed renews.accessed⟩

/-- All records of the tree are given back by a document. -/
def Storable (tree : Tree) : Prop := ∀ path node, tree.find? path = some node → node.Storable

theorem Origin.storable {put : Inode} (h : tree.Origin now put) (hn : isTimestamp now)
    (storable : tree.Storable) : put.Storable :=
  ⟨h.timely hn fun path node found => (storable path node found).toTimely,
    h.sized fun path node found => (storable path node found).toSized⟩

theorem Storable.apply {b : Batch} (h : tree.Storable) (hb : ∀ node ∈ b.puts, node.Storable) :
    Storable (b.apply tree) := by
  intro path node found
  obtain ⟨mem, -⟩ | ⟨-, found⟩ := Batch.put_or_kept_of_apply found
  · exact hb node mem
  · exact h path node found

end Tree

end VirtualShell
