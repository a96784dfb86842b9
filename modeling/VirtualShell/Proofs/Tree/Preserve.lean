import VirtualShell.Proofs.Tree.Plan
import VirtualShell.Proofs.Tree.Sound

/-!
# What plans keep

Every plan but one keeps the invariant of the tree (`planWrite_sound`, …): behind its batch a sound
tree is sound. The exception is the copy of a directory over another (`MergesCopy`), whose records
may come to stand below what is no directory. All that holds of every plan is that it puts records
under canonical paths (`planWrite_canonical`, …).
-/

namespace VirtualShell.Tree

variable {tree : Tree} {now : Int} {owner : Owner} {path source target : Bytes} {change : Change}

/-! ## Files -/

theorem WritesTo.canonical {entry place : Bytes} (h : tree.WritesTo entry place)
    (he : Path.Canonical entry) : Path.Canonical place := by
  cases h with
  | entry => exact he
  | followed _ _ real => exact (straight_of_realPath real).1
  | dangling => exact Path.canonical_resolve ..

theorem canonical_of_writeTarget {place : Bytes} (h : tree.writeTarget path = .ok place) :
    Path.Canonical place := by
  obtain ⟨entry, he, goes⟩ := writeTarget_eq_ok_iff.1 h
  exact goes.canonical (canonical_of_entryPath he)

theorem isDirectory_written (content : Bytes) (append : Bool) (node : Inode) :
    (written now content append node).isDirectory = node.isDirectory := rfl

theorem sized_written {node : Inode} (notDir : node.isDirectory = false) (content : Bytes)
    (append : Bool) : (written now content append node).Sized :=
  (Inode.sized_withContent notDir _).of_body rfl

theorem planWrite_canonical {content : Bytes} {append : Bool} (h : tree.Keyed)
    (hp : tree.planWrite now path content append owner = .ok change) :
    ∀ node ∈ change.batch.puts, Path.Canonical node.path := by
  obtain ⟨place, goes, ⟨-, rfl⟩ | ⟨-, -, ⟨-, rfl⟩ | ⟨node, found, -, rfl⟩⟩⟩ :=
    planWrite_eq_ok_iff.1 hp
  · exact fun _ mem => absurd mem List.not_mem_nil
  · exact List.forall_mem_singleton.2 (canonical_of_writeTarget goes)
  · refine List.forall_mem_singleton.2 ?_
    obtain ⟨canonical, same⟩ := h _ _ found
    exact same ▸ canonical

theorem planWrite_sound {content : Bytes} {append : Bool} (h : tree.Sound)
    (hp : tree.planWrite now path content append owner = .ok change) :
    Sound (change.batch.apply tree) := by
  obtain ⟨place, goes, ⟨-, rfl⟩ | ⟨-, dir, ⟨none, rfl⟩ | ⟨node, found, notDir, rfl⟩⟩⟩ :=
    planWrite_eq_ok_iff.1 hp
  · exact h
  · refine h.put (canonical_of_writeTarget goes) (Inode.sized_newFile ..) (fun _ => dir)
      fun ⟨node, found, _⟩ => ?_
    rw [show (Inode.newFile place content owner now).path = place from rfl, none] at found
    cases found
  · exact h.exchange found rfl (isDirectory_written ..) (sized_written notDir ..)

theorem planTouch_canonical (h : tree.Keyed)
    (hp : tree.planTouch now path owner = .ok change) :
    ∀ node ∈ change.batch.puts, Path.Canonical node.path := by
  rcases planTouch_eq_ok_iff.1 hp with ⟨node, stat, rfl⟩ | ⟨fault, -, -, writes⟩
  · obtain ⟨place, -, found⟩ := stat_eq_ok_iff.1 stat
    obtain ⟨canonical, same⟩ := h _ _ found
    exact List.forall_mem_singleton.2 (same ▸ canonical)
  · exact planWrite_canonical h writes

theorem planTouch_sound (h : tree.Sound) (hp : tree.planTouch now path owner = .ok change) :
    Sound (change.batch.apply tree) := by
  rcases planTouch_eq_ok_iff.1 hp with ⟨node, stat, rfl⟩ | ⟨fault, -, -, writes⟩
  · obtain ⟨place, -, found⟩ := stat_eq_ok_iff.1 stat
    exact h.renew found rfl rfl
  · exact planWrite_sound h writes

theorem planSetMode_canonical {mode : UInt32} (h : tree.Keyed)
    (hp : tree.planSetMode now path mode = .ok change) :
    ∀ node ∈ change.batch.puts, Path.Canonical node.path := by
  obtain ⟨node, stat, rfl⟩ := planSetMode_eq_ok_iff.1 hp
  obtain ⟨place, -, found⟩ := stat_eq_ok_iff.1 stat
  obtain ⟨canonical, same⟩ := h _ _ found
  exact List.forall_mem_singleton.2 (same ▸ canonical)

theorem planSetMode_sound {mode : UInt32} (h : tree.Sound)
    (hp : tree.planSetMode now path mode = .ok change) : Sound (change.batch.apply tree) := by
  obtain ⟨node, stat, rfl⟩ := planSetMode_eq_ok_iff.1 hp
  obtain ⟨place, -, found⟩ := stat_eq_ok_iff.1 stat
  exact h.renew found rfl rfl

/-- What is missing is no directory that a new record could replace. -/
theorem not_isDir_of_none {place : Bytes} (h : tree.find? place = none) : ¬ tree.IsDir place := by
  rintro ⟨node, found, -⟩
  rw [h] at found
  cases found

theorem planLink_canonical (hp : tree.planLink now target path owner = .ok change) :
    ∀ node ∈ change.batch.puts, Path.Canonical node.path := by
  obtain ⟨link, entry, -, -, rfl⟩ := planLink_eq_ok_iff.1 hp
  exact List.forall_mem_singleton.2 (canonical_of_entryPath entry)

theorem planLink_sound (h : tree.Sound) (hp : tree.planLink now target path owner = .ok change) :
    Sound (change.batch.apply tree) := by
  obtain ⟨link, entry, none, dir, rfl⟩ := planLink_eq_ok_iff.1 hp
  exact h.put (canonical_of_entryPath entry) (Inode.sized_newSymlink ..) (fun _ => dir)
    fun there => absurd there (not_isDir_of_none none)

/-! ## Making directories -/

theorem planDirectory_canonical (hp : tree.planDirectory now path owner = .ok change) :
    ∀ node ∈ change.batch.puts, Path.Canonical node.path := by
  obtain ⟨place, entry, -, -, rfl⟩ := planDirectory_eq_ok_iff.1 hp
  exact List.forall_mem_singleton.2 (canonical_of_entryPath entry)

theorem planDirectory_sound (h : tree.Sound)
    (hp : tree.planDirectory now path owner = .ok change) : Sound (change.batch.apply tree) := by
  obtain ⟨place, entry, none, dir, rfl⟩ := planDirectory_eq_ok_iff.1 hp
  exact h.put (canonical_of_entryPath entry) (Inode.sized_newDirectory ..) (fun _ => dir)
    fun there => absurd there (not_isDir_of_none none)

theorem newDirectories_canonical {current : Bytes} {parts : List Bytes}
    (hc : Path.Canonical current) (hp : Path.ProperStack parts) :
    ∀ node ∈ newDirectories now owner current parts, Path.Canonical node.path := by
  induction parts generalizing current with
  | nil => exact fun _ mem => absurd mem List.not_mem_nil
  | cons part rest ih =>
    have joined := Path.canonical_join hc hp.head
    exact List.forall_mem_cons.2 ⟨joined, ih joined hp.tail⟩

theorem isDirectory_of_mem_newDirectories {current : Bytes} {parts : List Bytes} {put : Inode}
    (mem : put ∈ newDirectories now owner current parts) : put.isDirectory = true := by
  induction parts generalizing current with
  | nil => cases mem
  | cons part rest ih =>
    obtain rfl | mem := List.mem_cons.1 mem
    · rfl
    · exact ih mem

/-- New directories may be put one below the other, the first of them in a directory. -/
theorem newDirectories_sound {current : Bytes} {parts : List Bytes} (h : tree.Sound)
    (hc : Path.Canonical current) (dir : tree.IsDir current) (hp : Path.ProperStack parts) :
    Sound (({ puts := newDirectories now owner current parts } : Batch).apply tree) := by
  induction parts generalizing tree current with
  | nil => exact h
  | cons part rest ih =>
    have joined := Path.canonical_join hc hp.head
    rw [newDirectories, Batch.apply_puts_cons]
    have first :
        Sound ((Batch.put (.newDirectory (Path.join current part) owner now)).apply tree) :=
      h.put joined (Inode.sized_newDirectory ..)
        (fun _ => (Path.parent_join hc hp.head).symm ▸ dir) fun _ => rfl
    refine ih first joined ⟨.newDirectory (Path.join current part) owner now, ?_, rfl⟩ hp.tail
    exact (ByteMap.find?_insert ..).trans (if_pos rfl)

/-- **What is missing** is all of the components from one on, behind a path that comes to stand for
those before it; the path is a directory if the first one is. -/
theorem newDirectories_of_missing {canonical current : Bytes} {parts : List Bytes}
    {puts : List Inode} (hc : Path.Canonical current) (hp : Path.ProperStack parts)
    (hm : tree.missingDirectories now owner canonical current parts = .ok puts) :
    puts = [] ∨ ∃ place part rest, Path.Canonical place ∧ Path.ProperStack (part :: rest) ∧
      (tree.IsDir current → tree.IsDir place) ∧ tree.find? (Path.join place part) = none ∧
      puts = newDirectories now owner place (part :: rest) := by
  induction parts generalizing current with
  | nil =>
    cases hm
    exact .inl rfl
  | cons part rest ih =>
    rcases missingDirectories_cons_eq_ok_iff.1 hm with
      ⟨none, rfl⟩ | ⟨node, found, ⟨-, followed, real, isDir, hm⟩ | ⟨-, isDir, hm⟩⟩
    · exact .inr ⟨current, part, rest, hc, hp, id, none, rfl⟩
    · refine (ih (straight_of_realPath real).1 hp.tail hm).imp id ?_
      rintro ⟨place, first, others, hc, hp, dir, missing⟩
      exact ⟨place, first, others, hc, hp, fun _ => dir isDir, missing⟩
    · refine (ih (Path.canonical_join hc hp.head) hp.tail hm).imp id ?_
      rintro ⟨place, first, others, hc, hp, dir, missing⟩
      exact ⟨place, first, others, hc, hp, fun _ => dir ⟨node, found, isDir⟩, missing⟩

theorem missingDirectories_canonical {canonical current : Bytes} {parts : List Bytes}
    {puts : List Inode} (hc : Path.Canonical current) (hp : Path.ProperStack parts)
    (hm : tree.missingDirectories now owner canonical current parts = .ok puts) :
    ∀ node ∈ puts, Path.Canonical node.path := by
  rcases newDirectories_of_missing hc hp hm with rfl | ⟨place, part, rest, hc, hp, -, -, rfl⟩
  · exact List.forall_mem_nil _
  · exact newDirectories_canonical hc hp

theorem missingDirectories_sound {canonical current : Bytes} {parts : List Bytes}
    {puts : List Inode} (h : tree.Sound) (hc : Path.Canonical current) (dir : tree.IsDir current)
    (hp : Path.ProperStack parts)
    (hm : tree.missingDirectories now owner canonical current parts = .ok puts) :
    Sound (({ puts } : Batch).apply tree) := by
  rcases newDirectories_of_missing hc hp hm with rfl | ⟨place, part, rest, hc, hp, dirs, -, rfl⟩
  · exact h
  · exact newDirectories_sound h hc (dirs dir) hp

theorem planDirectories_canonical (hp : tree.planDirectories now path owner = .ok change) :
    ∀ node ∈ change.batch.puts, Path.Canonical node.path := by
  obtain ⟨puts, hm, rfl⟩ := planDirectories_eq_ok_iff.1 hp
  exact missingDirectories_canonical Path.canonical_root
    (Path.proper_components_resolve _ _ _) hm

theorem planDirectories_sound (h : tree.Sound)
    (hp : tree.planDirectories now path owner = .ok change) : Sound (change.batch.apply tree) := by
  obtain ⟨puts, hm, rfl⟩ := planDirectories_eq_ok_iff.1 hp
  exact missingDirectories_sound h Path.canonical_root h.root
    (Path.proper_components_resolve _ _ _) hm

/-! ## Removing -/

theorem planUnlink_sound (h : tree.Sound) (hp : tree.planUnlink path = .ok change) :
    Sound (change.batch.apply tree) := by
  obtain ⟨node, lstat, notDir, -, rfl⟩ := planUnlink_eq_ok_iff.1 hp
  obtain ⟨entry, -, found⟩ := lstat_eq_ok_iff.1 lstat
  obtain ⟨-, rfl⟩ := h.keyed _ _ found
  refine h.erase (fun mem => ?_) fun key below found' ne mem => ?_
  · rw [← List.mem_singleton.1 mem] at found
    rw [h.root.of_find? found] at notDir
    cases notDir
  · have dir := h.parents _ _ found' ne
    rw [List.mem_singleton.1 mem] at dir
    rw [dir.of_find? found] at notDir
    cases notDir

/-- A directory and all below it make a part of the tree that may be cut off. -/
theorem Sound.erase_subtree (h : tree.Sound) {dir : Bytes} (hd : Path.Canonical dir)
    (ne : dir ≠ Path.root) {erases : List Bytes}
    (all : ∀ key, key ∈ erases ↔ key = dir ∨ ∃ node, tree.find? key = some node ∧
      Path.isWithin key dir = true) :
    Sound (({ erases } : Batch).apply tree) := by
  refine h.erase (fun mem => ?_) fun key node found inner mem => ?_
  · rcases (all _).1 mem with e | ⟨node, -, within⟩
    · exact ne e.symm
    · rw [Path.isWithin_root_eq_false hd] at within
      cases within
  · refine (all _).2 (.inr ⟨node, found, ?_⟩)
    refine (Path.isWithin_iff_parent (h.keyed _ _ found).1 hd inner).2 ?_
    exact ((all _).1 mem).imp id fun ⟨_, _, within⟩ => within

theorem Keyed.mem_descendants_keys_iff (h : tree.Keyed) {dir key : Bytes}
    (hd : Path.Canonical dir) :
    key ∈ (tree.descendants dir).map (·.1) ↔
      ∃ node, tree.find? key = some node ∧ Path.isWithin key dir = true := by
  rw [keys_descendants h.canonical hd, List.mem_filter, ByteMap.mem_keys_iff, ByteMap.contains,
    Option.isSome_iff_exists]
  exact exists_and_right.symm

theorem planRemoveDirectory_sound {recursive : Bool} (h : tree.Sound)
    (hp : tree.planRemoveDirectory path recursive = .ok change) :
    Sound (change.batch.apply tree) := by
  obtain ⟨node, lstat, notRoot, -, ⟨alone, rfl⟩ | ⟨-, -, rfl⟩⟩ :=
    planRemoveDirectory_eq_ok_iff.1 hp
  all_goals
    obtain ⟨entry, -, found⟩ := lstat_eq_ok_iff.1 lstat
    obtain ⟨canonical, rfl⟩ := h.keyed _ _ found
    refine h.erase_subtree canonical notRoot fun key => ?_
    have below : key ∈ (tree.descendants node.path).map (·.1) ↔ _ :=
      h.keyed.mem_descendants_keys_iff canonical
  · rw [hasChildren_eq_false_iff.1 alone] at below
    rw [List.mem_singleton, ← below]
    simp
  · rw [List.mem_append, List.mem_reverse, below, List.mem_singleton]
    exact or_comm

/-! ## Moving -/

theorem mem_moved_iff {old new : Bytes} {entries : List (Bytes × Inode)} {put : Inode} :
    put ∈ moved old new entries ↔
      ∃ key node, (key, node) ∈ entries ∧ put = { node with path := Path.rekey key old new } := by
  simp only [moved, List.mem_map, Prod.exists, eq_comm]

/-- What is below a directory is moved to canonical paths. -/
theorem moved_canonical (h : tree.Keyed) {old new : Bytes} (ho : Path.Canonical old)
    (hn : Path.Canonical new) (ne : old ≠ Path.root) (ne' : new ≠ Path.root) :
    ∀ node ∈ moved old new (tree.descendants old), Path.Canonical node.path := by
  intro put mem
  obtain ⟨key, node, below, rfl⟩ := mem_moved_iff.1 mem
  obtain ⟨found, within⟩ := (h.mem_descendants_iff ho).1 below
  exact (Path.rekey_spec (h _ _ found).1 ho hn ne ne' within).1

/-- A record and all below it, at another path and changed in nothing that they hold, are what
the other path is to carry. -/
theorem Keyed.carries (h : tree.Keyed) {node : Inode} (new : Bytes) (top : Inode)
    (f : Inode → Inode) (found : tree.find? node.path = some node) (top_path : top.path = new)
    (top_body : top.body = node.body)
    (hf : ∀ node, (f node).path = node.path ∧ (f node).body = node.body) :
    tree.Carries node.path new
      (top :: (moved node.path new (tree.descendants node.path)).map f) := by
  have canonical := (h _ _ found).1
  constructor
  · intro put mem
    rcases List.mem_cons.1 mem with rfl | mem
    · exact ⟨node.path, node, found, .inl rfl, by rw [Path.rekey_self, top_path], top_body⟩
    · obtain ⟨_, moves, rfl⟩ := List.mem_map.1 mem
      obtain ⟨key, below, entry, rfl⟩ := mem_moved_iff.1 moves
      obtain ⟨found', within⟩ := (h.mem_descendants_iff canonical).1 entry
      exact ⟨key, below, found', .inr within, (hf _).1, (hf _).2⟩
  · rintro key below found' (rfl | within)
    · exact ⟨top, List.mem_cons_self, by rw [Path.rekey_self, top_path]⟩
    · have entry := (h.mem_descendants_iff canonical).2 ⟨found', within⟩
      refine ⟨f { below with path := Path.rekey key node.path new }, ?_, (hf _).1⟩
      exact List.mem_cons_of_mem _ (List.mem_map_of_mem (mem_moved_iff.2 ⟨key, below, entry, rfl⟩))

/-- Nothing is moved to the root, below which it would stand itself. -/
theorem Keyed.ne_root_of_rename (h : tree.Keyed) {node : Inode} {new : Bytes}
    (found : tree.find? node.path = some node) (ne : node.path ≠ Path.root)
    (dir : tree.IsDir (Path.parent new)) (fits : tree.GivesWay node new) : new ≠ Path.root := by
  rintro rfl
  obtain ⟨root, there, isDir⟩ := dir
  have out := h.nothing_within Path.canonical_root ((fits root there).2 isDir) found
  simp [Path.isWithin, ne] at out

theorem planRename_canonical (h : tree.Keyed)
    (hp : tree.planRename now source target = .ok change) :
    ∀ node ∈ change.batch.puts, Path.Canonical node.path := by
  obtain ⟨node, lstat, ne, new, entry, ⟨-, rfl⟩ | ⟨-, -, dir, fits, batch⟩⟩ := planRename_eq_ok hp
  · exact fun _ mem => absurd mem List.not_mem_nil
  · obtain ⟨_, -, found⟩ := lstat_eq_ok_iff.1 lstat
    obtain ⟨canonical, rfl⟩ := h _ _ found
    have hn := canonical_of_entryPath entry
    rw [batch]
    exact List.forall_mem_cons.2
      ⟨hn, moved_canonical h canonical hn ne (h.ne_root_of_rename found ne dir fits)⟩

/-- What a rename erases: the place it goes to, if it is taken, and all that it moves. -/
theorem Keyed.mem_moveBatch_erases_iff (h : tree.Keyed) {node : Inode} {new key : Bytes}
    (found : tree.find? node.path = some node) :
    key ∈ (tree.moveBatch now node new).erases ↔
      (key = new ∧ tree.contains new = true) ∨ key = node.path ∨
        ∃ below, tree.find? key = some below ∧ Path.isWithin key node.path = true := by
  have taken : key ∈ (if tree.contains new then [new] else []) ↔
      key = new ∧ tree.contains new = true := by
    split <;> simp [*]
  rw [moveBatch, List.mem_append, List.mem_cons, taken,
    h.mem_descendants_keys_iff (h _ _ found).1]

/-- With what a rename erases goes all that stands in it, if nothing stands below the place. -/
theorem Keyed.moveBatch_closed (h : tree.Keyed) {node : Inode} {new : Bytes}
    (found : tree.find? node.path = some node) (hn : Path.Canonical new)
    (free : ∀ key below, tree.find? key = some below → Path.isWithin key new = false) {key : Bytes}
    {below : Inode} (there : tree.find? key = some below) (inner : key ≠ Path.root)
    (gone : Path.parent key ∈ (tree.moveBatch now node new).erases) :
    key ∈ (tree.moveBatch now node new).erases := by
  rw [h.mem_moveBatch_erases_iff found] at gone ⊢
  have up := Path.isWithin_iff_parent (h _ _ there).1 (h _ _ found).1 inner
  rcases gone with ⟨e, -⟩ | e | ⟨_, -, within⟩
  · have := (Path.isWithin_iff_parent (h _ _ there).1 hn inner).2 (.inl e)
    rw [free key below there] at this
    cases this
  · exact .inr (.inr ⟨below, there, up.2 (.inl e)⟩)
  · exact .inr (.inr ⟨below, there, up.2 (.inr within)⟩)

theorem planRename_sound (h : tree.Sound) (hp : tree.planRename now source target = .ok change) :
    Sound (change.batch.apply tree) := by
  obtain ⟨node, lstat, ne, new, entry, ⟨-, rfl⟩ | ⟨other, out, dir, fits, batch⟩⟩ :=
    planRename_eq_ok hp
  · exact h
  obtain ⟨_, -, found⟩ := lstat_eq_ok_iff.1 lstat
  obtain ⟨canonical, rfl⟩ := h.keyed _ _ found
  have hn := canonical_of_entryPath entry
  have ne' := h.keyed.ne_root_of_rename found ne dir fits
  have inside := Path.isWithin_iff_parent hn canonical ne'
  rw [out] at inside
  -- a directory that gives way is empty, and nothing stands below anything else
  have free : ∀ key below, tree.find? key = some below → Path.isWithin key new = false :=
    fun _ _ there => h.nothing_within hn (fun existing taken => (fits existing taken).2) there
  have carries : tree.Carries node.path new change.batch.puts := by
    have whole := h.keyed.carries new { node with path := new, modified := now } id found rfl rfl
      fun _ => ⟨rfl, rfl⟩
    rw [batch]
    rwa [List.map_id] at whole
  have erased : ∀ key, key ∈ change.batch.erases ↔ _ := fun key =>
    batch ▸ h.keyed.mem_moveBatch_erases_iff found
  refine h.transplant canonical ne hn ne' dir ?_ free carries ?_ ?_
  · rw [erased]
    rintro (⟨e, -⟩ | e | ⟨below, -, within⟩)
    · exact Path.parent_ne hn ne' e
    · simpa using inside.2 (.inl e)
    · simpa using inside.2 (.inr within)
  · rw [erased]
    rintro (⟨e, -⟩ | e | ⟨below, -, within⟩)
    · exact ne' e.symm
    · exact ne e.symm
    · rw [Path.isWithin_root_eq_false canonical] at within
      cases within
  · intro key below there inner gone
    rw [batch] at gone ⊢
    exact h.keyed.moveBatch_closed found hn free there inner gone

/-! ## Copying -/

/-- The copy goes to where a directory stands already. -/
def MergesCopy (tree : Tree) (source target : Bytes) : Prop :=
  ∃ node new, tree.stat source = .ok node ∧ tree.copyTarget node.path target = .ok new ∧
    tree.IsDir new

/-- A copy goes from a path and to a path that is not the root. -/
theorem ne_root_of_copy {old new : Bytes} (ho : Path.Canonical old)
    (goes : tree.copyTarget old target = .ok new) (other : new ≠ old)
    (out : Path.isWithin new old = false) (dir : tree.IsDir (Path.parent new)) :
    old ≠ Path.root ∧ new ≠ Path.root ∧ Path.Canonical new := by
  have ne : old ≠ Path.root := by
    rintro rfl
    simp [Path.isWithin, other] at out
  obtain ⟨entry, he, noDir | ⟨real, -⟩⟩ := copyTarget_eq_ok_iff.1 goes
  · refine ⟨ne, ?_, canonical_of_entryPath he⟩
    rintro rfl
    -- the root is a directory here, so the copy would go into it
    rw [Path.parent_root] at dir
    exact noDir Path.root (realPath_of_straight straight_root) dir
  · have hd := (straight_of_realPath real).1
    have proper := Path.proper_base ho ne
    exact ⟨ne, Path.join_ne_root hd proper, Path.canonical_join hd proper⟩

theorem planCopy_canonical {recursive : Bool} (h : tree.Keyed)
    (hp : tree.planCopy now source target recursive = .ok change) :
    ∀ node ∈ change.batch.puts, Path.Canonical node.path := by
  obtain ⟨node, stat, -, new, goes, other, out, dir, -, rfl⟩ := planCopy_eq_ok hp
  obtain ⟨_, -, found⟩ := stat_eq_ok_iff.1 stat
  obtain ⟨canonical, rfl⟩ := h _ _ found
  obtain ⟨ne, ne', hn⟩ := ne_root_of_copy canonical goes other out dir
  intro put mem
  rcases List.mem_append.1 mem with mem | mem
  · split at mem
    · cases mem
    · rw [List.mem_singleton.1 mem]
      exact hn
  · obtain ⟨below, copied, rfl⟩ := List.mem_map.1 mem
    split at copied
    · exact moved_canonical h canonical hn ne ne' below copied
    · cases copied

theorem planCopy_sound {recursive : Bool} (h : tree.Sound)
    (hp : tree.planCopy now source target recursive = .ok change)
    (apart : recursive = true → ¬ tree.MergesCopy source target) :
    Sound (change.batch.apply tree) := by
  obtain ⟨node, stat, deep, new, goes, other, out, dir, fits, rfl⟩ := planCopy_eq_ok hp
  obtain ⟨_, -, found⟩ := stat_eq_ok_iff.1 stat
  obtain ⟨canonical, rfl⟩ := h.keyed _ _ found
  obtain ⟨ne, ne', hn⟩ := ne_root_of_copy canonical goes other out dir
  -- only a directory could stand in the place of a directory
  have notDir : ¬ tree.IsDir new := by
    intro isDir
    obtain ⟨existing, there, yes⟩ := isDir
    have kind := fits existing there
    rw [yes] at kind
    exact apart (deep kind.symm) ⟨node, new, stat, goes, existing, there, yes⟩
  have alone : ∀ existing, tree.find? new = some existing → existing.isDirectory = true →
      tree.hasChildren new = false :=
    fun existing there yes => absurd ⟨existing, there, yes⟩ notDir
  have apart : (tree.find? new).any Inode.isDirectory = false :=
    Bool.eq_false_iff.2 fun yes => notDir (isDir_iff_any.2 yes)
  cases isDir : node.isDirectory with
  | false =>
    have batch : tree.copyBatch now node new ((tree.find? new).any Inode.isDirectory) =
        .put (renewed now { node with path := new }) := by
      simp [copyBatch, apart, isDir, Batch.put]
    rw [batch]
    exact h.put hn ((h.sized _ _ found).of_body rfl) (fun _ => dir)
      fun there => absurd there notDir
  | true =>
    have carries := h.keyed.carries new (renewed now { node with path := new }) (renewed now)
      found rfl rfl fun _ => ⟨rfl, rfl⟩
    refine h.transplant canonical ne hn ne' dir List.not_mem_nil
      (fun key below there => h.nothing_within hn alone there) ?_ List.not_mem_nil
      fun _ _ _ _ mem => absurd mem List.not_mem_nil
    simpa [copyBatch, apart, isDir] using carries

end VirtualShell.Tree
