import VirtualShell.Proofs.Reachable
import VirtualShell.Proofs.Relocation
import VirtualShell.Proofs.Tree.Entry

/-!
# Making directories

A directory that is made with all that are missing above it is walked to by a loop of its own: it
goes from component to component, and asks for the real path of each link that it comes to.

* `missingDirectories_cons_iff`: a step of the loop goes to the real path of the next component,
  which is where the walk goes (`realPath_join_iff`), but across as many links as if it were the
  first.
* `walks_of_missingDirectories`: so the walk behind the change comes to a directory, by induction on
  the components, across as many links as it takes before.
* `makeDirectory_hasDirectories_iff`: what is made is found exactly when these are not too many.
* `makeDirectory_recursive_eq`: where one directory can be made, to make it with all above it is the
  same.
-/

namespace VirtualShell

namespace Tree

variable {tree : Tree} {now : Int} {owner : Owner} {path canonical current part : Bytes}
  {parts rest : List Bytes} {puts : List Inode}

/-! ## Directories all the way -/

/-- The path exists and leads to a directory, and all that it lies within do. -/
structure HasDirectories (tree : Tree) (path : Bytes) : Prop where
  found : tree.exists? path = true
  itself : tree.leadsToDirectory path = true
  above : ∀ dir, Path.Canonical dir → Path.isWithin (Path.resolve path) dir = true →
    tree.leadsToDirectory dir = true

theorem exists?_iff :
    tree.exists? path = true ↔ ∃ entry node, tree.entryPath path = .ok entry ∧
      tree.find? entry = some node := by
  rw [exists?]
  constructor
  · intro ok
    cases lstat : tree.lstat path with
    | ok node =>
      obtain ⟨entry, goes, found⟩ := lstat_eq_ok_iff.1 lstat
      exact ⟨entry, node, goes, found⟩
    | error fault =>
      rw [lstat] at ok
      cases ok
  · rintro ⟨entry, node, goes, found⟩
    rw [lstat_eq_ok_iff.2 ⟨entry, goes, found⟩]
    rfl

theorem leadsToDirectory_iff :
    tree.leadsToDirectory path = true ↔ ∃ links ≤ linkLimit, ∃ finish,
      Walks tree Path.root (Path.components (Path.resolve path)) links (.ok finish) ∧
        tree.IsDir finish := by
  rw [leadsToDirectory]
  constructor
  · intro dir
    cases stat : tree.stat path with
    | ok node =>
      rw [stat] at dir
      obtain ⟨place, real, found⟩ := stat_eq_ok_iff.1 stat
      obtain ⟨links, le, walks⟩ := realPath_eq_ok_iff.1 real
      exact ⟨links, le, place, walks, node, found, dir⟩
    | error fault =>
      rw [stat] at dir
      cases dir
  · rintro ⟨links, le, finish, walks, node, found, dir⟩
    rw [stat_eq_ok_iff.2 ⟨finish, realPath_eq_ok_iff.2 ⟨links, le, walks⟩, found⟩]
    exact dir

/-- **A walk to a directory** leads over directories, given that the root is one. -/
theorem leadsToDirectory_above {dir : Bytes} (root : tree.IsDir Path.root)
    (leads : tree.leadsToDirectory path = true) (hd : Path.Canonical dir)
    (within : Path.isWithin (Path.resolve path) dir = true) :
    tree.leadsToDirectory dir = true := by
  obtain ⟨links, le, finish, walks, isDir⟩ := leadsToDirectory_iff.1 leads
  obtain ⟨part, more, parts⟩ := Path.components_of_isWithin (Path.canonical_resolve ..) hd within
  rw [parts] at walks
  obtain ⟨middle, first, last, rfl, before, -, there⟩ := walks.through root root isDir
  refine leadsToDirectory_iff.2 ⟨first, by omega, middle, ?_, there⟩
  rwa [hd]

theorem leadsToDirectory_root : tree.leadsToDirectory Path.root = true ↔ tree.IsDir Path.root := by
  rw [leadsToDirectory_iff]
  constructor
  · rintro ⟨_, -, _, ⟨⟩, dir⟩
    exact dir
  · exact fun dir => ⟨0, Nat.zero_le _, _, .here _, dir⟩

/-- A path that leads somewhere has an entry. -/
theorem exists?_of_leadsToDirectory (root : tree.IsDir Path.root)
    (leads : tree.leadsToDirectory path = true) : tree.exists? path = true := by
  have canonical := Path.canonical_resolve path Path.root []
  by_cases top : Path.resolve path = Path.root
  · obtain ⟨node, found, -⟩ := root
    exact exists?_iff.2 ⟨_, node, entryPath_eq_ok_iff.2 (.inl ⟨top, rfl⟩), found⟩
  · have above := Path.canonical_parent canonical
    obtain ⟨links, le, finish, walks, -⟩ := leadsToDirectory_iff.1 leads
    rw [Path.components_parent_base canonical top] at walks
    obtain ⟨dir, first, last, rfl, before, behind⟩ := walks.start
    have real : tree.realPath (Path.parent (Path.resolve path)) = .ok dir :=
      realPath_eq_ok_iff.2 ⟨first, by omega, by rwa [above]⟩
    have entry := entryPath_eq_ok_iff.2 (.inr ⟨top, dir, real, rfl⟩)
    cases behind with
    | link found | enter found => exact exists?_iff.2 ⟨_, _, entry, found⟩

theorem hasDirectories_iff :
    tree.HasDirectories path ↔ tree.IsDir Path.root ∧ tree.leadsToDirectory path = true := by
  constructor
  · rintro ⟨-, itself, above⟩
    refine ⟨leadsToDirectory_root.1 ?_, itself⟩
    by_cases top : Path.resolve path = Path.root
    · rw [leadsToDirectory_iff, top] at itself
      exact leadsToDirectory_iff.2 itself
    · exact above _ Path.canonical_root (by simpa [Path.isWithin] using top)
  · rintro ⟨root, itself⟩
    exact ⟨exists?_of_leadsToDirectory root itself, itself,
      fun dir => leadsToDirectory_above root itself⟩

/-! ## A step of the loop -/

/-- The real path of an entry is one step of the walk, across as many links as if it were the
first. -/
theorem realPath_join_iff {next : Bytes} (straight : tree.Straight current)
    (isDir : tree.IsDir current) (proper : Path.Proper part) :
    tree.realPath (Path.join current part) = .ok next ↔
      ∃ links ≤ linkLimit, Walks tree current [part] links (.ok next) := by
  have canonical := Path.canonical_join straight.1 proper
  rw [realPath_eq_ok_iff, canonical, Path.components_join straight.1 proper]
  refine exists_congr fun links => and_congr_right fun _ => ?_
  exact straight.walks_iff fun _ _ => isDir

/-- **A step of the loop**: what is missing is made from here on, or the loop goes to the directory
that the next component leads to. -/
theorem missingDirectories_cons_iff (straight : tree.Straight current) (isDir : tree.IsDir current)
    (proper : Path.Proper part) :
    tree.missingDirectories now owner canonical current (part :: rest) = .ok puts ↔
      tree.find? (Path.join current part) = none ∧
          puts = newDirectories now owner current (part :: rest) ∨
        ∃ next, tree.realPath (Path.join current part) = .ok next ∧ tree.IsDir next ∧
          tree.missingDirectories now owner canonical next rest = .ok puts := by
  rw [missingDirectories_cons_eq_ok_iff]
  refine or_congr_right ⟨?_, ?_⟩
  · rintro ⟨node, found, ⟨-, next, onward⟩ | ⟨notLink, dir, hm⟩⟩
    · exact ⟨next, onward⟩
    · have entered := straight.join proper (fun _ => isDir) found notLink
      exact ⟨_, realPath_of_straight entered, ⟨node, found, dir⟩, hm⟩
  · rintro ⟨next, real, dir, hm⟩
    obtain ⟨links, -, walks⟩ := (realPath_join_iff straight isDir proper).1 real
    cases walks with
    | link found isLink => exact ⟨_, found, .inl ⟨isLink, next, real, dir, hm⟩⟩
    | enter found notLink _ onward =>
      cases onward
      exact ⟨_, found, .inr ⟨notLink, dir.of_find? found, hm⟩⟩

/-! ## One directory -/

/-- The loop goes along a walk to a directory. -/
theorem missingDirectories_append {dir : Bytes} {links : Nat} (root : tree.IsDir Path.root)
    (straight : tree.Straight current) (isDir : tree.IsDir current)
    (proper : Path.ProperStack parts) (walks : Walks tree current parts links (.ok dir))
    (le : links ≤ linkLimit) (finish : tree.IsDir dir)
    (hm : tree.missingDirectories now owner canonical dir rest = .ok puts) :
    tree.missingDirectories now owner canonical current (parts ++ rest) = .ok puts := by
  induction parts generalizing current links with
  | nil =>
    cases walks
    exact hm
  | cons part parts ih =>
    obtain ⟨next, first, last, rfl, step, onward, dir'⟩ :=
      @Walks.through tree current dir [part] parts links walks root isDir finish
    have real := (realPath_join_iff straight isDir proper.head).2 ⟨first, by omega, step⟩
    exact (missingDirectories_cons_iff straight isDir proper.head).2 (.inr ⟨next, real, dir',
      ih (straight_of_realPath real) dir' proper.tail onward (by omega)⟩)

/-- **Where one directory can be made**, the same is made by making all that are missing. -/
theorem planDirectories_of_planDirectory {change : Change} (root : tree.IsDir Path.root)
    (hp : tree.planDirectory now path owner = .ok change) :
    tree.planDirectories now path owner = .ok change := by
  have canonical := Path.canonical_resolve path Path.root []
  obtain ⟨target, entry, none, isDir, rfl⟩ := planDirectory_eq_ok_iff.1 hp
  have ne : target ≠ Path.root := by
    rintro rfl
    exact not_isDir_of_none none root
  obtain ⟨notRoot, dir, rfl, straight, links, le, walks⟩ := dir_of_entryPath entry ne
  rw [canonical] at notRoot walks none isDir ⊢
  have proper := Path.proper_base canonical notRoot
  have above := Path.canonical_parent canonical
  rw [Path.parent_join straight.1 proper] at isDir
  refine planDirectories_eq_ok_iff.2 ⟨_, ?_, rfl⟩
  rw [Path.components_parent_base canonical notRoot]
  refine missingDirectories_append root straight_root root (Path.proper_components above) walks le
    isDir ?_
  exact (missingDirectories_cons_iff straight isDir proper).2 (.inl ⟨none, rfl⟩)

/-! ## What stays where it is -/

/-- What is led straight to has records at all that it lies within. -/
theorem Straight.found_above {dir : Bytes} (h : tree.Straight path) (hd : Path.Canonical dir)
    (ne : dir ≠ Path.root) (within : path = dir ∨ Path.isWithin path dir = true) :
    ∃ node, tree.find? dir = some node := by
  rcases within with rfl | within
  · obtain ⟨node, found, -⟩ := found_of_walks ne h.2
    exact ⟨node, found⟩
  · obtain ⟨stack, proper, rfl⟩ := Path.canonical_iff.1 h.1
    obtain ⟨above, upper, rfl⟩ := Path.canonical_iff.1 hd
    obtain ⟨below, some, rfl⟩ := (Path.isWithin_ofStack upper proper).1 within
    have named : above ≠ [] := fun none => ne (none ▸ Path.ofStack_nil)
    obtain ⟨node, found, -⟩ := (h.above proper).2 some named
    exact ⟨node, found⟩

/-- The root is not among what is missing. -/
theorem missingDirectories_ne_root (hc : Path.Canonical current) (proper : Path.ProperStack parts)
    (hm : tree.missingDirectories now owner canonical current parts = .ok puts) :
    ∀ put ∈ puts, put.path ≠ Path.root := by
  intro put mem top
  obtain ⟨-, place, hp, notRoot, -, same | within⟩ := missingDirectories_fresh hc proper hm put mem
  · exact notRoot (same.symm.trans top)
  · rw [top, Path.isWithin_root_eq_false hp] at within
    cases within

/-- The missing directories are put where no walk comes to. -/
theorem find?_missingDirectories (straight : tree.Straight current)
    (proper : Path.ProperStack parts)
    (hm : tree.missingDirectories now owner canonical current parts = .ok puts) {place : Bytes}
    {node : Inode} (hp : Path.Canonical place) (above : tree.Straight (Path.parent place))
    (found : tree.find? place = some node) :
    (({ puts } : Batch).apply tree).find? place = some node := by
  rw [Batch.find?_apply, if_neg List.not_mem_nil, found]
  cases last : Batch.last? puts place with
  | none => rfl
  | some put =>
    -- it would stand at or below what is missing, which is then below a directory
    obtain ⟨mem, rfl⟩ := Batch.last?_eq_some last
    obtain ⟨-, missing, hm', notRoot, none, same | within⟩ :=
      missingDirectories_fresh straight.1 proper hm put mem
    · rw [← same, found] at none
      cases none
    · have ne := missingDirectories_ne_root straight.1 proper hm put mem
      obtain ⟨_, there⟩ := above.found_above hm' notRoot
        ((Path.isWithin_iff_parent hp hm' ne).1 within)
      rw [none] at there
      cases there

theorem isDir_root_missingDirectories (hc : Path.Canonical current)
    (proper : Path.ProperStack parts)
    (hm : tree.missingDirectories now owner canonical current parts = .ok puts) :
    IsDir (({ puts } : Batch).apply tree) Path.root ↔ tree.IsDir Path.root := by
  have none : Batch.last? puts Path.root = none :=
    Batch.last?_eq_none.2 (missingDirectories_ne_root hc proper hm)
  rw [IsDir, IsDir, Batch.find?_apply, none, Option.none_or, if_neg List.not_mem_nil]

theorem isDir_missingDirectories (straight : tree.Straight current)
    (proper : Path.ProperStack parts)
    (hm : tree.missingDirectories now owner canonical current parts = .ok puts) {dir : Bytes}
    (there : tree.Straight dir) (isDir : tree.IsDir dir) :
    IsDir (({ puts } : Batch).apply tree) dir := by
  obtain ⟨node, found, yes⟩ := isDir
  have found' := find?_missingDirectories straight proper hm there.1 there.parent found
  exact ⟨node, found', yes⟩

/-! ## The walk behind the change -/

/-- A walk along new directories comes to the last one. -/
theorem walks_newDirectories (isDir : tree.IsDir current)
    (there : ∀ put ∈ newDirectories now owner current parts, tree.IsDir put.path) :
    ∃ finish, Walks tree current parts 0 (.ok finish) ∧ tree.IsDir finish := by
  induction parts generalizing current with
  | nil => exact ⟨current, .here _, isDir⟩
  | cons part parts ih =>
    obtain ⟨first, deeper⟩ := List.forall_mem_cons.1 there
    obtain ⟨finish, onward, last⟩ := ih first deeper
    obtain ⟨node, found, dir⟩ := first
    exact ⟨finish, .enter found (isSymlink_of_isDirectory dir) (fun _ => dir) onward, last⟩

/-- **The walk behind the change** comes to a directory, across as many links as the walk before,
however many these are. -/
theorem walks_of_missingDirectories (straight : tree.Straight current)
    (isDir : tree.IsDir current) (proper : Path.ProperStack parts)
    (hm : tree.missingDirectories now owner canonical current parts = .ok puts) :
    ∃ links finish result, Walks (({ puts } : Batch).apply tree) current parts links (.ok finish) ∧
      IsDir (({ puts } : Batch).apply tree) finish ∧ Walks tree current parts links result := by
  have stays : IsDir (({ puts } : Batch).apply tree) current :=
    isDir_missingDirectories straight proper hm straight isDir
  induction parts generalizing current with
  | nil => exact ⟨0, current, _, .here _, stays, .here _⟩
  | cons part parts ih =>
    rcases (missingDirectories_cons_iff straight isDir proper.head).1 hm with
      ⟨none, rfl⟩ | ⟨next, real, dir, hm'⟩
    · -- from here on all is made
      have fresh := missingDirectories_fresh straight.1 proper hm
      obtain ⟨finish, walks, last⟩ := walks_newDirectories stays fun put mem =>
        isDir_apply_of_put mem fun other mem' _ => (fresh other mem').1
      exact ⟨0, finish, _, walks, last, .missing none⟩
    · obtain ⟨first, -, step⟩ := (realPath_join_iff straight isDir proper.head).1 real
      have there := straight_of_realPath real
      have dir' := isDir_missingDirectories straight proper hm there dir
      obtain ⟨more, finish, result, behind, last, before⟩ := ih there dir proper.tail hm' dir'
      have single : Path.ProperStack [part] := .cons proper.head .nil
      have step' := step.mono_of_straight straight single (fun _ _ => isDir)
        fun path node hp above found _ =>
          ⟨node, find?_missingDirectories straight proper hm hp above found, rfl⟩
      refine ⟨first + more, finish, result, ?_, last, ?_⟩
      · exact step'.append behind straight.1 single fun _ _ _ => dir'.of_find?
      · exact step.append before straight.1 single fun _ _ _ => dir.of_find?

/-- **What is made is found** exactly when the path does not lead over too many links. -/
theorem hasDirectories_planDirectories_iff {change : Change}
    (hp : tree.planDirectories now path owner = .ok change) :
    HasDirectories (change.batch.apply tree) path ↔ tree.IsDir Path.root ∧
      tree.realPath path ≠ .error (.tooManyLinks (Path.resolve path)) := by
  obtain ⟨puts, hm, rfl⟩ := planDirectories_eq_ok_iff.1 hp
  have proper := Path.proper_components_resolve path Path.root []
  rw [hasDirectories_iff, isDir_root_missingDirectories Path.canonical_root proper hm]
  refine and_congr_right fun isDir => ?_
  obtain ⟨links, finish, result, behind, last, before⟩ :=
    walks_of_missingDirectories straight_root isDir proper hm
  constructor
  · intro leads long
    obtain ⟨links', le, finish', walks, -⟩ := leadsToDirectory_iff.1 leads
    obtain ⟨rfl, -⟩ := walks.unique behind
    have := realPath_eq_tooManyLinks_iff.1 long _ _ before
    omega
  · intro short
    exact leadsToDirectory_iff.2 ⟨links, links_le before short, finish, behind, last⟩

end Tree

namespace FileSystem

variable {fs : FileSystem} {now : Int} {path : Bytes} {owner : Owner}

/-! ## What making a directory does -/

/-- **To make a directory with all that are missing above it** is the same as to make it, where that
succeeds. -/
theorem makeDirectory_recursive_eq (h : fs.tree.Sound)
    (made : (fs.makeDirectory now path false owner).result = .ok ()) :
    fs.makeDirectory now path true owner = fs.makeDirectory now path false owner := by
  obtain ⟨change, plan, -⟩ := tree_change_of_ok made
  have plan : fs.tree.planDirectory now path owner = .ok change := plan
  have plan' := Tree.planDirectories_of_planDirectory h.root plan
  simp only [makeDirectory, Bool.false_eq_true, if_false, if_true, plan, plan']

/-- Behind a link to another directory, too. -/
theorem makeDirectory_recursive_eq_through_link :
    let fs := seededWith [.link (ascii "../tmp") (ascii "/etc/t")]
    let step := fs.makeDirectory 2 (ascii "/etc/t/x") true
    step = fs.makeDirectory 2 (ascii "/etc/t/x") false ∧ step.result = .ok () ∧
      step.system.tree.contains (ascii "/tmp/x") = true := by
  intro fs step
  have sound : fs.tree.Sound := sound_seededWith (by simp [Edit.Merges])
  exact ⟨makeDirectory_recursive_eq sound rfl, rfl, by decide⟩

/-- **A directory that is made with all that are missing above it** is found, and directories all
the way to it, exactly when the root is a directory and the path did not lead over too many
links. -/
theorem makeDirectory_hasDirectories_iff
    (made : (fs.makeDirectory now path true owner).result = .ok ()) :
    (fs.makeDirectory now path true owner).system.tree.HasDirectories path ↔
      fs.tree.IsDir Path.root ∧
        fs.tree.realPath path ≠ .error (.tooManyLinks (Path.resolve path)) := by
  obtain ⟨change, plan, behind⟩ := tree_change_of_ok made
  rw [makeDirectory, behind]
  exact Tree.hasDirectories_planDirectories_iff plan

/-- Two directories behind a link to the directory that it stands in. -/
theorem makeDirectory_hasDirectories_behind_link :
    let fs := seededWith [.link (ascii ".") (ascii "/tmp/a")]
    let step := fs.makeDirectory 2 (ascii "/tmp/a/x/y") true
    step.result = .ok () ∧ step.system.tree.HasDirectories (ascii "/tmp/a/x/y") := by
  intro fs step
  have missing : fs.tree.realPath (ascii "/tmp/a/x/y") =
      .error (.plain .notFound (ascii "/tmp/a/x/y")) := rfl
  have root : fs.tree.IsDir Path.root := by rw [Tree.isDir_iff_any]; decide
  exact ⟨rfl, (makeDirectory_hasDirectories_iff rfl).2 ⟨root, by simp [missing]⟩⟩

/-- **A directory that is made and is not found**: each link on the way is followed on its own when
the directory is made, and all seventeen on the way to it when it is looked for. -/
theorem not_hasDirectories_of_repeated_link :
    let fs := seededWith [.link (ascii ".") (ascii "/tmp/a")]
    let path := ascii "/tmp/a/a/a/a/a/a/a/a/a/a/a/a/a/a/a/a/a/x"
    let step := fs.makeDirectory 2 path true
    Reachable fs ∧ step.result = .ok () ∧ step.system.tree.contains (ascii "/tmp/x") = true ∧
      ¬ step.system.tree.HasDirectories path := by
  intro fs path step
  have reached : Reachable fs :=
    .request ⟨.edit (.link (ascii ".") (ascii "/tmp/a")), 1, none⟩
      (.load 0 (.fresh { store := .memory ∅ }))
  have lost : step.system.tree.exists? path = false := by decide
  refine ⟨reached, rfl, by decide, fun dirs => ?_⟩
  rw [dirs.found] at lost
  cases lost

end FileSystem

end VirtualShell
