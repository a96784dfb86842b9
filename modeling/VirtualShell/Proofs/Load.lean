import VirtualShell.Proofs.Change
import VirtualShell.Proofs.Store.Document

/-!
# Opening a file system

Loading puts the records under canonical paths, of several for one path the last
(`find?_index_iff`), drops in one pass over the keys what does not stand in a directory
(`prune_parents`), and seeds what has no root. What it leaves is a sound tree unless a record that
is no directory claims the root, or memory holds one that is not of the size of its content
(`load_sound`).

The pass works because parents come before what is below them: once a key is kept its parent has
been kept for good (`Pruning`).
-/

namespace VirtualShell.FileSystem

open VirtualShell.Tree

/-! ## The index -/

/-- Of the records that come to stand at the path, this is the last. -/
def IsLast (inodes : List Inode) (path : Bytes) (node : Inode) : Prop :=
  ∃ before after, inodes = before ++ node :: after ∧ Path.resolve node.path = path ∧
    ∀ later ∈ after, Path.resolve later.path ≠ path

theorem isLast_iff_find?_reverse {inodes : List Inode} {path : Bytes} {node : Inode} :
    IsLast inodes path node ↔
      inodes.reverse.find? (fun node => Path.resolve node.path == path) = some node := by
  rw [List.find?_eq_some_iff_append]
  constructor
  · rintro ⟨before, after, rfl, at_path, free⟩
    refine ⟨by simpa using at_path, after.reverse, before.reverse, by simp, ?_⟩
    intro later mem
    simpa using free later (List.mem_reverse.1 mem)
  · rintro ⟨at_path, after, before, e, free⟩
    refine ⟨before.reverse, after.reverse, ?_, by simpa using at_path, ?_⟩
    · have := congrArg List.reverse e
      simpa using this
    · intro later mem
      simpa using free later (List.mem_reverse.1 mem)

section
variable {inodes : List Inode} {path : Bytes} {node : Inode}

theorem IsLast.mem (h : IsLast inodes path node) : node ∈ inodes := by
  obtain ⟨before, after, rfl, -, -⟩ := h
  simp

theorem IsLast.resolve_eq (h : IsLast inodes path node) : Path.resolve node.path = path := by
  obtain ⟨_, _, -, at_path, -⟩ := h
  exact at_path

theorem IsLast.unique {other : Inode} (h : IsLast inodes path node)
    (h' : IsLast inodes path other) : node = other := by
  rw [isLast_iff_find?_reverse] at h h'
  exact Option.some.inj (h.symm.trans h')

end

/-- A path that a record comes to stand at has a last one. -/
theorem exists_isLast_iff {inodes : List Inode} {path : Bytes} :
    (∃ node, IsLast inodes path node) ↔ ∃ node ∈ inodes, Path.resolve node.path = path := by
  simp only [isLast_iff_find?_reverse, ← Option.isSome_iff_exists, List.find?_isSome,
    List.mem_reverse, beq_iff_eq]

/-- **The index** holds the last record for each path, under that path. -/
theorem find?_index_iff {inodes : List Inode} {path : Bytes} {node : Inode} :
    (index inodes).find? path = some node ↔
      ∃ last, IsLast inodes path last ∧ node = { last with path } := by
  rw [index, ByteMap.ofList, ByteMap.find?_insertMany, ByteMap.find?_empty, Option.or_none,
    ← List.map_reverse, List.find?_map, Option.map_map, Option.map_eq_some_iff]
  refine exists_congr fun last => ?_
  rw [isLast_iff_find?_reverse]
  refine and_congr_right fun found => ?_
  have at_path : Path.resolve last.path = path := by simpa using List.find?_some found
  rw [Function.comp_apply, at_path, eq_comm]

theorem find?_index {inodes : List Inode} {path : Bytes} {node : Inode}
    (h : (index inodes).find? path = some node) :
    ∃ stored ∈ inodes, path = Path.resolve stored.path ∧ node = { stored with path } := by
  obtain ⟨last, isLast, rfl⟩ := find?_index_iff.1 h
  exact ⟨last, isLast.mem, isLast.resolve_eq.symm, rfl⟩

theorem index_keyed (inodes : List Inode) : Keyed (index inodes) := by
  intro path node found
  obtain ⟨stored, -, rfl, rfl⟩ := find?_index found
  exact ⟨Path.canonical_resolve .., rfl⟩

/-! ## Pruning -/

/-- In the middle of the pass, with some keys still to come: what has been looked at and kept
stands in a directory, and comes before all that is still to come. -/
structure Pruning (whole tree : Tree) (coming : List Bytes) : Prop where
  kept : ∀ path node, tree.find? path = some node → whole.find? path = some node
  root : tree.find? Path.root = whole.find? Path.root
  done : ∀ path node, tree.find? path = some node → path ∈ coming ∨
    (path = Path.root ∨ tree.IsDir (Path.parent path)) ∧ ∀ later ∈ coming, path < later

theorem Pruning.step {whole tree : Tree} {dropped : List Bytes} {key : Bytes}
    {coming : List Bytes} (h : Pruning whole tree (key :: coming)) (hk : whole.Keyed)
    (sorted : ∀ later ∈ coming, key < later) :
    Pruning whole (dropOrphan (tree, dropped) key).1 coming := by
  rw [dropOrphan]
  split
  next stands =>
    refine ⟨h.kept, h.root, fun path node found => ?_⟩
    rcases h.done path node found with mem | ⟨dir, before⟩
    · rcases List.mem_cons.1 mem with rfl | mem
      · exact .inr ⟨stands.imp id isDir_iff_any.2, sorted⟩
      · exact .inl mem
    · exact .inr ⟨dir, fun later mem => before later (List.mem_cons_of_mem _ mem)⟩
  next orphan =>
    have ne : key ≠ Path.root := fun e => orphan (.inl e)
    have erased : ∀ {path node}, (tree.erase key).find? path = some node →
        key ≠ path ∧ tree.find? path = some node := by
      intro path node found
      rw [ByteMap.find?_erase] at found
      split at found
      · cases found
      next other => exact ⟨other, found⟩
    refine ⟨fun path node found => h.kept path node (erased found).2, ?_, fun path node found => ?_⟩
    · rw [ByteMap.find?_erase, if_neg ne]
      exact h.root
    · obtain ⟨other, found⟩ := erased found
      rcases h.done path node found with mem | ⟨dir, before⟩
      · rcases List.mem_cons.1 mem with e | mem
        · exact absurd e.symm other
        · exact .inl mem
      · have lt := before key List.mem_cons_self
        refine .inr ⟨?_, fun later mem => before later (List.mem_cons_of_mem _ mem)⟩
        rcases dir with root | ⟨above, there, isDir⟩
        · exact .inl root
        · -- the parent comes before the path, and the path before the key that goes
          by_cases root : path = Path.root
          · exact .inl root
          · have := Path.parent_lt (hk _ _ (h.kept _ _ found)).1 root
            have apart : key ≠ Path.parent path := by
              rintro rfl
              exact List.lt_irrefl _ (List.lt_trans this lt)
            exact .inr ⟨above, by rw [ByteMap.find?_erase, if_neg apart, there], isDir⟩

theorem Pruning.foldl {whole : Tree} (hk : whole.Keyed) {coming : List Bytes}
    (sorted : coming.Pairwise (· < ·)) {kept : Tree × List Bytes}
    (h : Pruning whole kept.1 coming) : Pruning whole (coming.foldl dropOrphan kept).1 [] := by
  induction coming generalizing kept with
  | nil => exact h
  | cons key coming ih =>
    obtain ⟨first, others⟩ := List.pairwise_cons.1 sorted
    exact ih others (h.step hk first)

theorem pruning_prune {whole : Tree} (hk : whole.Keyed) : Pruning whole (prune whole).1 [] := by
  refine Pruning.foldl hk (List.pairwise_map.2 whole.sorted)
    ⟨fun _ _ found => found, rfl, fun path node found => .inl ?_⟩
  exact ByteMap.mem_keys_iff.2 (ByteMap.contains_eq_true_iff.2 ⟨node, found⟩)

/-- **What the pass keeps stands in directories.** -/
theorem prune_parents {whole : Tree} (hk : whole.Keyed) {path : Bytes} {node : Inode}
    (found : (prune whole).1.find? path = some node) (ne : path ≠ Path.root) :
    IsDir (prune whole).1 (Path.parent path) := by
  rcases (pruning_prune hk).done path node found with mem | ⟨root | dir, -⟩
  · cases mem
  · exact absurd root ne
  · exact dir

theorem prune_keyed {whole : Tree} (hk : whole.Keyed) : Keyed (prune whole).1 :=
  fun path node found => hk path node ((pruning_prune hk).kept path node found)

/-- Without a root there is nothing. -/
theorem prune_eq_none {whole : Tree} (hk : whole.Keyed)
    (rootless : (prune whole).1.find? Path.root = none) (path : Bytes) :
    (prune whole).1.find? path = none := by
  refine Option.eq_none_iff_forall_ne_some.2 fun node found => ?_
  obtain ⟨stack, hs, rfl⟩ := Path.canonical_iff.1 (prune_keyed hk path node found).1
  induction stack generalizing node with
  | nil =>
    rw [Path.ofStack_nil, rootless] at found
    cases found
  | cons part stack ih =>
    obtain ⟨above, there, -⟩ := prune_parents hk found (Path.ofStack_cons_ne_root hs)
    rw [Path.parent_ofStack_cons hs] at there
    exact ih above hs.tail there

/-! ## The standard tree -/

/-- The paths of the standard tree, and which of them are directories. -/
def standardPlaces : List (Bytes × Bool) :=
  (Path.root, true) :: systemDirectories.map (·, true) ++
    [(ascii "/home/user", true), (nullDevice, false), (ascii "/etc/hostname", false),
      (ascii "/home/user/.vshrc", false)]

theorem places_standardTree (now : Int) :
    (standardTree now).map (fun node => (node.path, node.isDirectory)) = standardPlaces := rfl

/-- Every standard path is canonical and stands in a standard directory. -/
theorem standardPlaces_wellFormed : ∀ place ∈ standardPlaces, Path.resolve place.1 = place.1 ∧
    (Path.parent place.1, true) ∈ standardPlaces ∧
      (Path.parent place.1, false) ∉ standardPlaces := by
  decide

theorem mem_standardPlaces {now : Int} {node : Inode} (h : node ∈ standardTree now) :
    (node.path, node.isDirectory) ∈ standardPlaces := by
  rw [← places_standardTree now]
  exact List.mem_map_of_mem h

/-- **Every standard record** is made as a directory or as a file. -/
theorem standardTree_made {now : Int} {node : Inode} (h : node ∈ standardTree now) :
    ∃ path body mode owner, (body = .directory ∨ ∃ content, body = .file content) ∧
      node = .make path body mode owner now := by
  rcases List.mem_append.1 h with mem | mem
  · rcases List.mem_cons.1 mem with rfl | mem
    · exact ⟨_, _, _, _, .inl rfl, rfl⟩
    · obtain ⟨path, -, rfl⟩ := List.mem_map.1 mem
      split <;> exact ⟨_, _, _, _, .inl rfl, rfl⟩
  · simp only [List.mem_cons, List.not_mem_nil, or_false] at mem
    rcases mem with rfl | rfl | rfl | rfl
    · exact ⟨_, _, _, _, .inl rfl, rfl⟩
    all_goals exact ⟨_, _, _, _, .inr ⟨_, rfl⟩, rfl⟩

theorem sized_standardTree {now : Int} {node : Inode} (h : node ∈ standardTree now) :
    node.Sized := by
  obtain ⟨path, body, mode, owner, rfl | ⟨content, rfl⟩, rfl⟩ := standardTree_made h
  · exact (Inode.sized_newDirectory path owner now).of_body rfl
  · exact (Inode.sized_newFile path content owner now).of_body rfl

/-- **The standard tree is sound.** -/
theorem standardTree_sound {tree : Tree} (empty : ∀ path, tree.find? path = none) (now : Int) :
    Sound (({ puts := standardTree now } : Batch).apply tree) := by
  have dir : ∀ path, (path, true) ∈ standardPlaces → (path, false) ∉ standardPlaces →
      IsDir (({ puts := standardTree now } : Batch).apply tree) path := by
    intro path mem only
    rw [← places_standardTree now] at mem
    obtain ⟨node, put, e⟩ := List.mem_map.1 mem
    obtain ⟨rfl, -⟩ := Prod.mk.inj e
    refine isDir_apply_of_put (b := { puts := standardTree now }) put fun other put' same => ?_
    have place := mem_standardPlaces put'
    rw [same] at place
    cases kind : other.isDirectory with
    | true => rfl
    | false => exact absurd (kind ▸ place) only
  have keyed : tree.Keyed := fun path node found => by
    rw [empty path] at found
    cases found
  refine keyed.sound_apply (fun path node found => ?_) ?_ (fun node put => ?_)
    fun path node found => ?_
  · rw [empty path] at found
    cases found
  · have := standardPlaces_wellFormed (Path.root, true) List.mem_cons_self
    exact dir _ this.2.1 this.2.2
  · obtain ⟨canonical, parent, only⟩ := standardPlaces_wellFormed _ (mem_standardPlaces put)
    exact ⟨canonical, sized_standardTree put, fun _ => dir _ parent only⟩
  · rw [empty path] at found
    cases found

/-! ## Loading -/

variable {fs : FileSystem} {now : Int}

theorem tree_seed (seeds : (fs.seed now).result = .ok ()) :
    (fs.seed now).system.tree = ({ puts := standardTree now } : Batch).apply fs.tree := by
  unfold seed at seeds ⊢
  dsimp only at seeds ⊢
  cases committed : (fs.commit { puts := standardTree now }).result with
  | ok u => exact tree_commit_of_ok committed
  | error fault =>
    rw [committed] at seeds
    dsimp only at seeds
    rw [committed] at seeds
    cases seeds

/-- What loading comes to: the pruned index, or the standard tree in its place. -/
theorem load_cases (opens : (fs.load now).result = .ok ()) :
    ∃ inodes, fs.volume.load.result = .ok inodes ∧
      ((∃ node, (prune (index inodes)).1.find? Path.root = some node) ∧
          (fs.load now).system.tree = (prune (index inodes)).1 ∨
        (prune (index inodes)).1.find? Path.root = none ∧
          (fs.load now).system.tree =
            ({ puts := standardTree now } : Batch).apply (prune (index inodes)).1) := by
  unfold load at opens ⊢
  dsimp only at opens ⊢
  cases loaded : fs.volume.load.result with
  | error fault =>
    rw [loaded] at opens
    cases opens
  | ok inodes =>
    refine ⟨inodes, rfl, ?_⟩
    rw [loaded] at opens
    dsimp only at opens ⊢
    split
    next root => exact .inl ⟨ByteMap.contains_eq_true_iff.1 root, rfl⟩
    next rootless =>
      rw [if_neg rootless] at opens
      exact .inr ⟨by simpa [ByteMap.contains] using rootless, tree_seed opens⟩

/-- Loading that fails leaves the tree, or what has been kept of the records. -/
theorem tree_load_of_error {fault : Fault} (fails : (fs.load now).result = .error fault) :
    (fs.load now).system.tree = fs.tree ∨
      ∃ inodes, (fs.load now).system.tree = (prune (index inodes)).1 := by
  unfold load at fails ⊢
  dsimp only at fails ⊢
  cases loaded : fs.volume.load.result with
  | error fault => exact .inl rfl
  | ok inodes =>
    rw [loaded] at fails
    dsimp only at fails ⊢
    refine .inr ⟨inodes, ?_⟩
    split
    · rfl
    next rootless =>
      rw [if_neg rootless] at fails
      unfold seed at fails ⊢
      dsimp only at fails ⊢
      split at fails
      next taken =>
        rw [taken] at fails
        cases fails
      next refused => exact tree_commit_of_error refused

/-- **Loading puts every record under its own canonical path**, or leaves them where they are. -/
theorem load_keyed (h : fs.tree.Keyed) : (fs.load now).system.tree.Keyed := by
  cases opens : (fs.load now).result with
  | ok u =>
    obtain ⟨inodes, -, ⟨-, e⟩ | ⟨rootless, e⟩⟩ := load_cases opens
    · exact e ▸ prune_keyed (index_keyed inodes)
    · exact e ▸ (standardTree_sound (prune_eq_none (index_keyed inodes) rootless) now).keyed
  | error fault =>
    rcases tree_load_of_error opens with e | ⟨inodes, e⟩
    · exact e ▸ h
    · exact e ▸ prune_keyed (index_keyed inodes)

/-- What is loaded has the size of its content, if what memory holds has it. -/
theorem sized_load (opens : (fs.load now).result = .ok ()) (sized : fs.volume.Sized) :
    ∀ path node, (fs.load now).system.tree.find? path = some node → node.Sized := by
  intro path node found
  obtain ⟨inodes, loaded, ⟨-, e⟩ | ⟨rootless, e⟩⟩ := load_cases opens
  all_goals
    have keyed := index_keyed inodes
    rw [e] at found
  · obtain ⟨stored, mem, -, rfl⟩ := find?_index ((pruning_prune keyed).kept path node found)
    exact (sized.load loaded stored mem).of_body rfl
  · exact (standardTree_sound (prune_eq_none keyed rootless) now).sized path node found

/-- **A tree that is loaded is sound**, if no record claims the root without being a directory. -/
theorem load_sound (opens : (fs.load now).result = .ok ()) (sized : fs.volume.Sized)
    (roots : ∀ inodes, fs.volume.load.result = .ok inodes → ∀ node ∈ inodes,
      Path.resolve node.path = Path.root → node.isDirectory = true) :
    (fs.load now).system.tree.Sound := by
  have sized := sized_load opens sized
  obtain ⟨inodes, loaded, ⟨⟨node, there⟩, e⟩ | ⟨rootless, e⟩⟩ := load_cases opens
  all_goals
    have keyed := index_keyed inodes
    rw [e] at sized ⊢
  · refine ⟨prune_keyed keyed, ⟨node, there, ?_⟩, fun _ _ => prune_parents keyed, sized⟩
    rw [(pruning_prune keyed).root] at there
    obtain ⟨stored, mem, root, rfl⟩ := find?_index there
    exact roots inodes loaded stored mem root.symm
  · exact standardTree_sound (prune_eq_none keyed rootless) now

end VirtualShell.FileSystem
