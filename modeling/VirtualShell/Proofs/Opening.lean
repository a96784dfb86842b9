import VirtualShell.Proofs.MakeDirectory
import VirtualShell.Proofs.Reload

/-!
# What an opened file system shows

Of the records that a store reads, the tree takes those that are *supported*: all that they lie
within is a directory (`find?_prune_iff`). Of several records for one path the last counts
(`IsLast`), for the path itself and for what lies below it. `contains_prune_index_iff` puts the two
together.

The root has nothing that it lies within, so it is taken whatever it is. `root_load` says what hangs
on its kind: a tree whose root is no directory shows nothing else, takes no entry and lets
directories be made below what is none.
-/

namespace VirtualShell

namespace Tree

variable {tree : Tree}

/-- All that the path lies within is a directory. -/
def Supported (tree : Tree) (path : Bytes) : Prop :=
  ∀ dir, Path.Canonical dir → Path.isWithin path dir = true → tree.IsDir dir

theorem supported_root : tree.Supported Path.root := by
  intro dir canonical within
  rw [Path.isWithin_root_eq_false canonical] at within
  cases within

/-- What a path lies within is its parent, and what that lies within. -/
theorem supported_iff_parent {path : Bytes} (canonical : Path.Canonical path)
    (ne : path ≠ Path.root) :
    tree.Supported path ↔
      tree.IsDir (Path.parent path) ∧ tree.Supported (Path.parent path) := by
  have above := Path.canonical_parent canonical
  constructor
  · intro h
    refine ⟨h _ above ((Path.isWithin_iff_parent canonical above ne).2 (.inl rfl)), ?_⟩
    intro dir hd within
    exact h dir hd ((Path.isWithin_iff_parent canonical hd ne).2 (.inr within))
  · rintro ⟨isDir, higher⟩ dir hd within
    rcases (Path.isWithin_iff_parent canonical hd ne).1 within with rfl | within
    · exact isDir
    · exact higher dir hd within

end Tree

namespace FileSystem

open VirtualShell.Tree

/-! ## What the pass keeps -/

theorem isDir_index_iff {inodes : List Inode} {path : Bytes} :
    IsDir (index inodes) path ↔
      ∃ last, IsLast inodes path last ∧ last.isDirectory = true := by
  constructor
  · rintro ⟨node, found, dir⟩
    obtain ⟨last, isLast, rfl⟩ := find?_index_iff.1 found
    exact ⟨last, isLast, dir⟩
  · rintro ⟨last, isLast, dir⟩
    exact ⟨_, find?_index_iff.2 ⟨last, isLast, rfl⟩, dir⟩

/-- What is supported by the whole tree is not dropped, if nothing of the kind has been so far. -/
theorem dropOrphan_keeps {whole : Tree} (hk : whole.Keyed) {kept : Tree × List Bytes}
    {key : Bytes}
    (keeps : ∀ path node, whole.find? path = some node → whole.Supported path →
      kept.1.find? path = some node) :
    ∀ path node, whole.find? path = some node → whole.Supported path →
      (dropOrphan kept key).1.find? path = some node := by
  intro path node found supported
  rw [dropOrphan]
  split
  · exact keeps path node found supported
  next orphan =>
    rw [ByteMap.find?_erase]
    split
    next same =>
      -- its parent is a directory of the whole tree and supported, hence still there
      subst same
      refine absurd ?_ orphan
      by_cases top : key = Path.root
      · exact .inl top
      · obtain ⟨⟨above, there, isDir⟩, higher⟩ :=
          (supported_iff_parent (hk key node found).1 top).1 supported
        exact .inr (isDir_iff_any.1 ⟨above, keeps _ _ there higher, isDir⟩)
    · exact keeps path node found supported

theorem foldl_dropOrphan_keeps {whole : Tree} (hk : whole.Keyed) (keys : List Bytes)
    {kept : Tree × List Bytes}
    (keeps : ∀ path node, whole.find? path = some node → whole.Supported path →
      kept.1.find? path = some node) :
    ∀ path node, whole.find? path = some node → whole.Supported path →
      (keys.foldl dropOrphan kept).1.find? path = some node := by
  induction keys generalizing kept with
  | nil => exact keeps
  | cons key keys ih => exact ih (dropOrphan_keeps hk keeps)

/-- What is kept is supported by what is kept. -/
theorem supported_of_prune {whole : Tree} (hk : whole.Keyed) {path : Bytes} {node : Inode}
    (found : (prune whole).1.find? path = some node) : Supported (prune whole).1 path :=
  fun _ canonical within =>
    (prune_keyed hk).ancestor (fun _ _ => prune_parents hk) found canonical within

/-- **The pass keeps** just the records that the whole tree supports. -/
theorem find?_prune_iff {whole : Tree} (hk : whole.Keyed) {path : Bytes} {node : Inode} :
    (prune whole).1.find? path = some node ↔
      whole.find? path = some node ∧ whole.Supported path := by
  constructor
  · intro found
    refine ⟨(pruning_prune hk).kept path node found, fun dir canonical within => ?_⟩
    obtain ⟨above, there, isDir⟩ := supported_of_prune hk found dir canonical within
    exact ⟨above, (pruning_prune hk).kept dir above there, isDir⟩
  · rintro ⟨found, supported⟩
    exact foldl_dropOrphan_keeps hk whole.keys (fun _ _ there _ => there) path node found supported

/-! ## From the records to the tree -/

/-- **A path is shown** if and only if it is the root and a record comes to stand there, or a record
comes to stand there and at all that the path lies within, and the last one for each of these is a
directory. What is shown at a path is the last record for it, and a tree with a root is what loading
makes of the records. -/
theorem contains_prune_index_iff (inodes : List Inode) (key : Bytes) :
    ((prune (index inodes)).1.contains key = true ↔
      (key = Path.root ∧ ∃ node ∈ inodes, Path.resolve node.path = Path.root) ∨
        (∃ node ∈ inodes, Path.resolve node.path = key) ∧
          ∀ dir, Path.Canonical dir → Path.isWithin key dir = true →
            ∃ last, IsLast inodes dir last ∧ last.isDirectory = true) ∧
    (∀ node, (prune (index inodes)).1.find? key = some node →
      ∃ last, IsLast inodes key last ∧ node = { last with path := key }) ∧
    ∀ (fs : FileSystem) (now : Int), fs.volume.load.result = .ok inodes →
      (∃ node ∈ inodes, Path.resolve node.path = Path.root) →
        (fs.load now).result = .ok () ∧
          (fs.load now).system.tree = (prune (index inodes)).1 := by
  have keyed := index_keyed inodes
  have shown : (prune (index inodes)).1.contains key = true ↔
      (∃ node ∈ inodes, Path.resolve node.path = key) ∧ Supported (index inodes) key := by
    simp only [ByteMap.contains_eq_true_iff, find?_prune_iff keyed, find?_index_iff,
      exists_and_right, ← exists_isLast_iff]
    refine and_congr_left fun _ => ?_
    rw [exists_comm]
    exact exists_congr fun last => ⟨fun ⟨_, isLast, _⟩ => isLast, fun isLast => ⟨_, isLast, rfl⟩⟩
  refine ⟨?_, fun node found => ?_, fun fs now loaded root => ?_⟩
  · simp only [shown, Supported, isDir_index_iff]
    constructor
    · exact .inr
    · rintro (⟨rfl, named⟩ | supported)
      · refine ⟨named, fun dir canonical within => ?_⟩
        rw [Path.isWithin_root_eq_false canonical] at within
        cases within
      · exact supported
  · exact find?_index_iff.1 ((find?_prune_iff keyed).1 found).1
  · obtain ⟨last, isLast⟩ := exists_isLast_iff.2 root
    have there := find?_index_iff.2 ⟨last, isLast, rfl⟩
    obtain ⟨result, tree, -⟩ :=
      load_of_root now loaded ((find?_prune_iff keyed).2 ⟨there, supported_root⟩)
    exact ⟨result, tree⟩

/-! ## The root -/

section
variable {tree : Tree} {name : Bytes}

/-- In the root a directory can be made under a new name just if the root is one. -/
theorem planDirectory_in_root_iff (proper : Path.Proper name)
    (new : tree.find? (Path.join Path.root name) = none) (now : Int) (owner : Owner) :
    (∃ change, tree.planDirectory now (Path.join Path.root name) owner = .ok change) ↔
      tree.IsDir Path.root := by
  have canonical := Path.canonical_join Path.canonical_root proper
  have ne := Path.join_ne_root Path.canonical_root proper
  have parent := Path.parent_join Path.canonical_root proper
  have entry : tree.entryPath (Path.join Path.root name) = .ok (Path.join Path.root name) := by
    refine entryPath_eq_ok_iff.2 (.inr ⟨by rwa [canonical], Path.root, ?_, ?_⟩)
    · rw [canonical, parent]
      exact realPath_of_straight straight_root
    · have whole := Path.join_parent_base canonical ne
      rw [parent] at whole
      rw [canonical, whole]
  constructor
  · rintro ⟨change, plan⟩
    obtain ⟨target, leads, -, isDir, -⟩ := planDirectory_eq_ok_iff.1 plan
    rw [canonical, entry] at leads
    cases leads
    rwa [parent] at isDir
  · intro isDir
    refine ⟨_, planDirectory_eq_ok_iff.2 ⟨_, ?_, new, by rwa [parent], rfl⟩⟩
    rw [canonical, entry]

/-- With all above it, it is made there whatever the root is; it stands in a directory just if the
root is one. -/
theorem planDirectories_in_root (proper : Path.Proper name)
    (new : tree.find? (Path.join Path.root name) = none) (now : Int) (owner : Owner) :
    ∃ change put, tree.planDirectories now (Path.join Path.root name) owner = .ok change ∧
      put ∈ change.batch.puts ∧
      (IsDir (change.batch.apply tree) (Path.parent put.path) ↔ tree.IsDir Path.root) := by
  have canonical := Path.canonical_join Path.canonical_root proper
  have ne := Path.join_ne_root Path.canonical_root proper
  have parts : Path.components (Path.join Path.root name) = [name] :=
    Path.components_join Path.canonical_root proper
  let made : Inode := .newDirectory (Path.join Path.root name) owner now
  have at_path : made.path = Path.join Path.root name := rfl
  have plan : tree.planDirectories now (Path.join Path.root name) owner = .ok (.put made) := by
    refine planDirectories_eq_ok_iff.2 ⟨[made], ?_, rfl⟩
    rw [canonical, parts]
    exact missingDirectories_cons_eq_ok_iff.2 (.inl ⟨new, rfl⟩)
  refine ⟨_, made, plan, List.mem_cons_self, ?_⟩
  change IsDir ((Batch.put made).apply tree) (Path.parent made.path) ↔ tree.IsDir Path.root
  rw [at_path, Path.parent_join Path.canonical_root proper, IsDir, Batch.find?_apply_put,
    if_neg (at_path ▸ ne), IsDir]

/-- Where the first new directory stands in a directory, they all do. -/
theorem isDir_parent_of_newDirectories {now : Int} {owner : Owner} {current : Bytes}
    {parts : List Bytes} (hc : Path.Canonical current) (dir : tree.IsDir current)
    (hp : Path.ProperStack parts) :
    ∀ put ∈ newDirectories now owner current parts,
      IsDir (({ puts := newDirectories now owner current parts } : Batch).apply tree)
        (Path.parent put.path) := by
  induction parts generalizing tree current with
  | nil => exact fun _ mem => absurd mem List.not_mem_nil
  | cons part rest ih =>
    have joined := Path.canonical_join hc hp.head
    let first : Inode := .newDirectory (Path.join current part) owner now
    have there : IsDir ((Batch.put first).apply tree) (Path.join current part) :=
      ⟨first, (ByteMap.find?_insert ..).trans (if_pos rfl), rfl⟩
    rw [newDirectories, Batch.apply_puts_cons]
    refine List.forall_mem_cons.2 ⟨?_, ih joined there hp.tail⟩
    have above : Path.parent first.path = current := Path.parent_join hc hp.head
    rw [above]
    refine (dir.apply (b := .put first) List.not_mem_nil fun other mem _ => ?_).apply
      List.not_mem_nil fun other mem _ => isDirectory_of_mem_newDirectories mem
    rw [List.mem_singleton.1 mem]
    rfl

/-- Where the root is a directory, all directories that are made stand in directories. -/
theorem isDir_parent_of_planDirectories (root : tree.IsDir Path.root) {now : Int} {path : Bytes}
    {owner : Owner} {change : Change} (plan : tree.planDirectories now path owner = .ok change) :
    ∀ put ∈ change.batch.puts, IsDir (change.batch.apply tree) (Path.parent put.path) := by
  obtain ⟨puts, hm, rfl⟩ := planDirectories_eq_ok_iff.1 plan
  rcases newDirectories_of_missing Path.canonical_root
    (Path.proper_components_resolve _ _ _) hm with rfl | ⟨_, _, _, hc, hp, dirs, -, rfl⟩
  · exact fun _ mem => absurd mem List.not_mem_nil
  · exact isDir_parent_of_newDirectories hc (dirs root) hp

end

section
variable {fs : FileSystem} {now : Int}

/-- What loading leaves has a root, and all but the root stands in directories. -/
theorem stands_load (opens : (fs.load now).result = .ok ()) :
    (fs.load now).system.tree.Keyed ∧
      (∃ root, (fs.load now).system.tree.find? Path.root = some root) ∧
      ∀ path node, (fs.load now).system.tree.find? path = some node → path ≠ Path.root →
        (fs.load now).system.tree.IsDir (Path.parent path) := by
  obtain ⟨inodes, -, ⟨there, e⟩ | ⟨rootless, e⟩⟩ := load_cases opens
  all_goals
    have keyed := index_keyed inodes
    rw [e]
  · exact ⟨prune_keyed keyed, there, fun _ _ => prune_parents keyed⟩
  · have sound := standardTree_sound (prune_eq_none keyed rootless) now
    obtain ⟨root, there, -⟩ := sound.root
    exact ⟨sound.keyed, ⟨root, there⟩, sound.parents⟩

/-- The root is a directory unless the last record for it is none. -/
theorem isDir_root_load_iff {inodes : List Inode} (opens : (fs.load now).result = .ok ())
    (loaded : fs.volume.load.result = .ok inodes) :
    (fs.load now).system.tree.IsDir Path.root ↔
      ∀ last, IsLast inodes Path.root last → last.isDirectory = true := by
  have keyed := index_keyed inodes
  have root := (pruning_prune keyed).root
  obtain ⟨inodes', loaded', h⟩ := load_cases opens
  rw [loaded] at loaded'
  cases loaded'
  rcases h with ⟨⟨node, there⟩, e⟩ | ⟨rootless, e⟩
  · rw [root] at there
    obtain ⟨last, isLast, rfl⟩ := find?_index_iff.1 there
    have kind : (fs.load now).system.tree.IsDir Path.root ↔ last.isDirectory = true := by
      rw [e, IsDir, root, there]
      simp [Inode.isDirectory]
    rw [kind]
    exact ⟨fun dir other h => h.unique isLast ▸ dir, fun all => all last isLast⟩
  · have none : ∀ last, ¬ IsLast inodes Path.root last := by
      intro last isLast
      rw [root, find?_index_iff.2 ⟨last, isLast, rfl⟩] at rootless
      cases rootless
    rw [e]
    exact ⟨fun _ last isLast => absurd isLast (none last),
      fun _ => (standardTree_sound (prune_eq_none keyed rootless) now).root⟩

/-- **An opened tree has a root**, which is a directory unless the last record for it is none. On
this hangs whether the tree is sound, as far as records in memory have the size of their content,
whether new names can be made in the root, and whether all directories that are made with those
above them stand in directories. -/
theorem root_load (opens : (fs.load now).result = .ok ()) :
    ∃ inodes, fs.volume.load.result = .ok inodes ∧
      let tree := (fs.load now).system.tree
      tree.contains Path.root = true ∧
      (tree.IsDir Path.root ↔
        ∀ last, IsLast inodes Path.root last → last.isDirectory = true) ∧
      (fs.volume.Sized → (tree.IsDir Path.root ↔ tree.Sound)) ∧
      (tree.IsDir Path.root ↔ ∀ name, Path.Proper name →
        tree.find? (Path.join Path.root name) = none → ∀ now owner, ∃ change,
          tree.planDirectory now (Path.join Path.root name) owner = .ok change) ∧
      (tree.IsDir Path.root ↔ ∀ now path owner change,
        tree.planDirectories now path owner = .ok change → ∀ put ∈ change.batch.puts,
          Tree.IsDir (change.batch.apply tree) (Path.parent put.path)) := by
  obtain ⟨inodes, loaded, -⟩ := load_cases opens
  obtain ⟨keyed, there, parents⟩ := stands_load opens
  refine ⟨inodes, loaded, ?_⟩
  intro tree
  have sound : fs.volume.Sized → (tree.IsDir Path.root ↔ tree.Sound) := fun sized =>
    ⟨fun isDir => ⟨keyed, isDir, parents, sized_load opens sized⟩, Sound.root⟩
  -- a root that is no directory stands alone, so that every name in it is new
  have new : ¬ tree.IsDir Path.root → ∀ name, Path.Proper name →
      tree.find? (Path.join Path.root name) = none := by
    intro noDir name proper
    refine Option.eq_none_iff_forall_ne_some.2 fun node found => noDir ?_
    have ne := Path.join_ne_root Path.canonical_root proper
    have dir := parents _ _ found ne
    rwa [Path.parent_join Path.canonical_root proper] at dir
  have proper : Path.Proper (ascii "a") := ⟨by decide, by decide, by decide, by decide⟩
  refine ⟨ByteMap.contains_eq_true_iff.2 there, isDir_root_load_iff opens loaded, sound,
    ⟨?_, ?_⟩, ⟨?_, ?_⟩⟩
  · intro isDir name proper free now owner
    exact (planDirectory_in_root_iff proper free now owner).2 isDir
  · intro all
    by_cases isDir : tree.IsDir Path.root
    · exact isDir
    · have free := new isDir _ proper
      exact (planDirectory_in_root_iff proper free 0 {}).1 (all _ proper free 0 {})
  · intro isDir now path owner change plan
    exact isDir_parent_of_planDirectories isDir plan
  · intro all
    by_cases isDir : tree.IsDir Path.root
    · exact isDir
    · obtain ⟨change, put, plan, mem, stands⟩ :=
        planDirectories_in_root proper (new isDir _ proper) 0 {}
      exact stands.1 (all _ _ _ _ plan put mem)

/-- The root twice, as a file and then, in another spelling, as a directory. -/
def respelledDocument : Bytes :=
  ascii "\x7b\"version\": 1, \"inodes\": [" ++
    ascii "\x7b\"path\": \"/\", \"type\": \"file\"\x7d, " ++
    ascii "\x7b\"path\": \"/etc/..//\", \"type\": \"dir\"\x7d]\x7d"

/-- The later spelling counts. -/
theorem root_load_respelled :
    let fs := onDocument (ascii "vfs.json")
      (Disk.empty.place (ascii "vfs.json") respelledDocument)
    let opened := fs.load 0
    opened.result = .ok () ∧ opened.system.tree.IsDir Path.root ∧ opened.system.tree.Sound ∧
      ∃ inodes, fs.volume.load.result = .ok inodes ∧ (∃ node ∈ inodes, node.isDirectory = false) ∧
        ∀ last, IsLast inodes Path.root last → last.isDirectory = true := by
  intro fs opened
  have run : opened.result.toOption = some () ∧
      (opened.system.tree.find? Path.root).any Inode.isDirectory = true ∧
      (fs.volume.load.result.toOption.any fun inodes =>
        inodes.any fun node => !node.isDirectory) = true := by decide +kernel
  obtain ⟨ok, isDir, some⟩ := run
  have opens : opened.result = .ok () := Outcome.eq_ok_of_toOption ok
  have isDir : opened.system.tree.IsDir Path.root := isDir_iff_any.2 isDir
  obtain ⟨inodes, loaded, -, kind, sound, -⟩ := root_load opens
  rw [loaded] at some
  have sized : fs.volume.Sized := Volume.sized_of_document rfl
  exact ⟨opens, isDir, (sound sized).1 isDir, inodes, loaded, by simpa [Except.toOption] using some,
    kind.1 isDir⟩

/-- A document whose root is a file. -/
def rootFileDocument : Bytes :=
  ascii "\x7b\"version\": 1, \"inodes\": [" ++
    ascii "\x7b\"path\": \"/\", \"type\": \"file\"\x7d]\x7d"

/-- **A root that is no directory**: the document is opened, no directory can be made in its root,
and one that is made with all above it stands below a file. -/
theorem not_isDir_root_load :
    let fs := onDocument (ascii "vfs.json")
      (Disk.empty.place (ascii "vfs.json") rootFileDocument)
    let opened := fs.load 0
    let refused := opened.system.makeDirectory 1 (ascii "/a")
    let made := opened.system.makeDirectory 1 (ascii "/a") true
    opened.result.toOption = some () ∧ ¬ opened.system.tree.IsDir Path.root ∧
      refused.result.toOption = none ∧ made.result.toOption = some () ∧
      made.system.tree.IsDir (ascii "/a") ∧ ¬ made.system.tree.IsDir Path.root := by
  simp only [isDir_iff_any]
  decide +kernel

end

end FileSystem

end VirtualShell
