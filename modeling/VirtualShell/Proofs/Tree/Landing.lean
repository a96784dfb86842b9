import VirtualShell.Proofs.Operation

/-!
# Where plans put records

What the records that a plan writes come to stand on. Most plans write one record: where nothing
was, below a path where nothing was, or in the place of a record of its kind (`Places`). Renames and
copies put down what stood at or below their source (`Carried`). So nothing but a removal or a
rename takes a directory away that stands in the root, or the root (`Edit.isDir_plan`), and the root
is never taken away (`Edit.root_not_mem_erases`).
-/

namespace VirtualShell

/-! ## What lies above a path -/

namespace Path

/-- Only the root lies above what stands in the root. -/
theorem eq_root_of_isWithin {path dir : Bytes} (hp : Canonical path) (hd : Canonical dir)
    (top : parent path = root) (within : isWithin path dir = true) : dir = root := by
  by_cases ne : path = root
  · rw [ne, isWithin_root_eq_false hd] at within
    cases within
  · rcases (isWithin_iff_parent hp hd ne).1 within with e | above
    · exact e.symm.trans top
    · rw [top, isWithin_root_eq_false hd] at above
      cases above

end Path

namespace Tree

variable {tree : Tree} {now : Int} {owner : Owner} {path source target : Bytes} {change : Change}

/-! ## Records in place -/

/-- What a record that is written comes to stand on. -/
inductive Places (tree : Tree) (put : Inode) : Prop
  /-- Nothing is at its path. -/
  | fresh : tree.find? put.path = none → Places tree put
  /-- It is a directory, and nothing is at a path above its own. -/
  | below {place : Bytes} : put.isDirectory = true → Path.Canonical place →
      tree.find? place = none → Path.isWithin put.path place = true → Places tree put
  /-- It takes the place of a record with the same body. -/
  | renewed {node : Inode} : tree.find? put.path = some node → put.body = node.body →
      Places tree put
  /-- It takes the place of another file, or link, that is not the null device. -/
  | written {node : Inode} : tree.find? put.path = some node → node.isDirectory = false →
      put.path ≠ nullDevice → Places tree put

/-- A batch that removes nothing and puts records in place. -/
structure Adds (tree : Tree) (b : Batch) : Prop where
  erases : b.erases = []
  places : ∀ put ∈ b.puts, tree.Places put

theorem adds_put {put : Inode} (h : tree.Places put) : tree.Adds (.put put) :=
  ⟨rfl, List.forall_mem_singleton.2 h⟩

/-- A record that is exchanged for one with its path and body. -/
theorem Keyed.adds_renewed (h : tree.Keyed) {node node' : Inode} {place : Bytes}
    (found : tree.find? place = some node) (same : node'.path = node.path)
    (body : node'.body = node.body) : tree.Adds (.put node') := by
  obtain ⟨-, rfl⟩ := h _ _ found
  exact adds_put (.renewed (same ▸ found) body)

theorem planWrite_adds {content : Bytes} {append : Bool} (h : tree.Keyed)
    (hp : tree.planWrite now path content append owner = .ok change) :
    tree.Adds change.batch := by
  obtain ⟨place, -, ⟨-, rfl⟩ | ⟨other, -, ⟨none, rfl⟩ | ⟨node, found, notDir, rfl⟩⟩⟩ :=
    planWrite_eq_ok_iff.1 hp
  · exact ⟨rfl, fun _ mem => absurd mem List.not_mem_nil⟩
  · exact adds_put (.fresh none)
  · obtain ⟨-, rfl⟩ := h _ _ found
    exact adds_put (.written found notDir other)

theorem planTouch_adds (h : tree.Keyed) (hp : tree.planTouch now path owner = .ok change) :
    tree.Adds change.batch := by
  rcases planTouch_eq_ok_iff.1 hp with ⟨node, stat, rfl⟩ | ⟨fault, -, -, writes⟩
  · obtain ⟨place, -, found⟩ := stat_eq_ok_iff.1 stat
    exact h.adds_renewed found rfl rfl
  · exact planWrite_adds h writes

theorem planSetMode_adds {mode : UInt32} (h : tree.Keyed)
    (hp : tree.planSetMode now path mode = .ok change) : tree.Adds change.batch := by
  obtain ⟨node, stat, rfl⟩ := planSetMode_eq_ok_iff.1 hp
  obtain ⟨place, -, found⟩ := stat_eq_ok_iff.1 stat
  exact h.adds_renewed found rfl rfl

theorem planLink_adds (hp : tree.planLink now target path owner = .ok change) :
    tree.Adds change.batch := by
  obtain ⟨link, -, none, -, rfl⟩ := planLink_eq_ok_iff.1 hp
  exact adds_put (.fresh none)

theorem planDirectory_adds (hp : tree.planDirectory now path owner = .ok change) :
    tree.Adds change.batch := by
  obtain ⟨place, -, none, -, rfl⟩ := planDirectory_eq_ok_iff.1 hp
  exact adds_put (.fresh none)

/-- New directories stand at or below the first of them. -/
theorem newDirectories_within {current part : Bytes} {rest : List Bytes}
    (hc : Path.Canonical current) (hp : Path.ProperStack (part :: rest)) :
    ∀ put ∈ newDirectories now owner current (part :: rest), put.path = Path.join current part ∨
      Path.isWithin put.path (Path.join current part) = true := by
  have joined := Path.canonical_join hc hp.head
  refine List.forall_mem_cons.2 ⟨.inl rfl, ?_⟩
  induction rest generalizing current part with
  | nil => exact fun _ mem => absurd mem List.not_mem_nil
  | cons next rest ih =>
    have first := Path.isWithin_join joined hp.tail.head
    have deeper := Path.canonical_join joined hp.tail.head
    refine List.forall_mem_cons.2 ⟨.inr first, fun put mem => ?_⟩
    obtain at_next | within := ih joined hp.tail deeper put mem
    · exact .inr (at_next ▸ first)
    · have canonical := newDirectories_canonical deeper hp.tail.tail put mem
      exact .inr (Path.isWithin_trans canonical deeper joined within first)

/-- The missing directories stand at or below a path where nothing is. -/
theorem missingDirectories_fresh {canonical current : Bytes} {parts : List Bytes}
    {puts : List Inode} (hc : Path.Canonical current) (hp : Path.ProperStack parts)
    (hm : tree.missingDirectories now owner canonical current parts = .ok puts) :
    ∀ put ∈ puts, put.isDirectory = true ∧ ∃ place, Path.Canonical place ∧ place ≠ Path.root ∧
      tree.find? place = none ∧ (put.path = place ∨ Path.isWithin put.path place = true) := by
  rcases newDirectories_of_missing hc hp hm with rfl | ⟨place, part, rest, hc, hp, -, none, rfl⟩
  · exact List.forall_mem_nil _
  · intro put mem
    exact ⟨isDirectory_of_mem_newDirectories mem, _, Path.canonical_join hc hp.head,
      Path.join_ne_root hc hp.head, none, newDirectories_within hc hp put mem⟩

theorem missingDirectories_places {canonical current : Bytes} {parts : List Bytes}
    {puts : List Inode} (hc : Path.Canonical current) (hp : Path.ProperStack parts)
    (hm : tree.missingDirectories now owner canonical current parts = .ok puts) :
    ∀ put ∈ puts, tree.Places put := by
  intro put mem
  obtain ⟨dir, place, canonical, -, none, same | within⟩ :=
    missingDirectories_fresh hc hp hm put mem
  · exact .fresh (same ▸ none)
  · exact .below dir canonical none within

theorem planDirectories_adds (hp : tree.planDirectories now path owner = .ok change) :
    tree.Adds change.batch := by
  obtain ⟨puts, hm, rfl⟩ := planDirectories_eq_ok_iff.1 hp
  exact ⟨rfl, missingDirectories_places Path.canonical_root
    (Path.proper_components_resolve _ _ _) hm⟩

/-- In the place of a directory comes a directory. -/
theorem Places.isDirectory {put : Inode} (h : tree.Places put) (dir : tree.IsDir put.path) :
    put.isDirectory = true := by
  cases h with
  | fresh none => exact absurd dir (not_isDir_of_none none)
  | below isDir => exact isDir
  | renewed found body =>
    rw [Inode.isDirectory_of_body body]
    exact dir.of_find? found
  | written found notDir =>
    rw [dir.of_find? found] at notDir
    cases notDir

/-! ## A part of the tree put down -/

/-- The record stood at or below the one path, and is to stand at the same place at or below the
other. -/
def Carried (tree : Tree) (old new : Bytes) (put : Inode) : Prop :=
  ∃ key node, tree.find? key = some node ∧ (key = old ∨ Path.isWithin key old = true) ∧
    put.path = Path.rekey key old new ∧ put.body = node.body

section
variable {old new : Bytes} (h : tree.Keyed) (ho : Path.Canonical old)
include h ho

/-- What is moved was below, and comes to be. -/
theorem Keyed.carried_of_moved (notRoot : old ≠ Path.root) (hn : Path.Canonical new)
    (notRoot' : new ≠ Path.root) {put : Inode} (mem : put ∈ moved old new (tree.descendants old)) :
    tree.Carried old new put ∧ Path.isWithin put.path new = true := by
  obtain ⟨key, node, below, rfl⟩ := mem_moved_iff.1 mem
  obtain ⟨found, within⟩ := (h.mem_descendants_iff ho).1 below
  exact ⟨⟨key, node, found, .inr within, rfl, rfl⟩,
    (Path.rekey_spec (h _ _ found).1 ho hn notRoot notRoot' within).2.1⟩

/-- **What is put down somewhere** is found there. -/
theorem Keyed.find?_apply_of_carried {b : Batch}
    (carried : ∀ put ∈ b.puts, tree.Carried old new put) {key : Bytes} {node put : Inode}
    (found : tree.find? key = some node) (within : key = old ∨ Path.isWithin key old = true)
    (mem : put ∈ b.puts) (place : put.path = Path.rekey key old new) :
    ∃ last, (b.apply tree).find? put.path = some last ∧ last.body = node.body := by
  obtain ⟨last, put_last⟩ := Batch.last?_isSome mem
  obtain ⟨mem', same⟩ := Batch.last?_eq_some put_last
  obtain ⟨key', node', found', within', place', body⟩ := carried last mem'
  obtain rfl : key' = key :=
    Path.rekey_injective (h.isPrefixOf_of_carried ho found' within')
      (h.isPrefixOf_of_carried ho found within) (by rw [← place', same, place])
  rw [found] at found'
  cases found'
  exact ⟨last, by rw [Batch.find?_apply, put_last, Option.some_or], body⟩

end

theorem Keyed.carried_of_moveBatch (h : tree.Keyed) {node : Inode} {new : Bytes}
    (found : tree.find? node.path = some node) (notRoot : node.path ≠ Path.root)
    (hn : Path.Canonical new) (notRoot' : new ≠ Path.root) {put : Inode}
    (mem : put ∈ (tree.moveBatch now node new).puts) :
    tree.Carried node.path new put ∧ (put.path = new ∨ Path.isWithin put.path new = true) := by
  rcases List.mem_cons.1 mem with rfl | mem
  · exact ⟨⟨_, node, found, .inl rfl, (Path.rekey_self _ _).symm, rfl⟩, .inl rfl⟩
  · obtain ⟨carried, within⟩ :=
      h.carried_of_moved (h _ _ found).1 notRoot hn notRoot' mem
    exact ⟨carried, .inr within⟩

theorem Keyed.carried_of_copyBatch (h : tree.Keyed) {node : Inode} {new : Bytes} {merges : Bool}
    (found : tree.find? node.path = some node) (notRoot : node.path ≠ Path.root)
    (hn : Path.Canonical new) (notRoot' : new ≠ Path.root) {put : Inode}
    (mem : put ∈ (tree.copyBatch now node new merges).puts) :
    tree.Carried node.path new put ∧
      (put.path = new ∧ merges = false ∨ Path.isWithin put.path new = true) := by
  rcases List.mem_append.1 mem with mem | mem
  · split at mem
    · cases mem
    next apart =>
      obtain rfl := List.mem_singleton.1 mem
      exact ⟨⟨_, node, found, .inl rfl, (Path.rekey_self _ _).symm, rfl⟩,
        .inl ⟨rfl, by simpa using apart⟩⟩
  · obtain ⟨below, copied, rfl⟩ := List.mem_map.1 mem
    split at copied
    · obtain ⟨carried, within⟩ := h.carried_of_moved (h _ _ found).1 notRoot hn notRoot' copied
      exact ⟨carried, .inr within⟩
    · cases copied

/-- Something is put down for all that is moved. -/
theorem Keyed.exists_mem_moveBatch (h : tree.Keyed) {node : Inode} {new key : Bytes}
    {below : Inode} (found : tree.find? node.path = some node) (there : tree.find? key = some below)
    (within : key = node.path ∨ Path.isWithin key node.path = true) :
    ∃ put ∈ (tree.moveBatch now node new).puts, put.path = Path.rekey key node.path new := by
  have carries := h.carries new { node with path := new, modified := now } id found rfl rfl
    fun _ => ⟨rfl, rfl⟩
  obtain ⟨put, mem, place⟩ := carries.all key below there within
  rw [List.map_id] at mem
  exact ⟨put, mem, place⟩

/-- Something is put down for all that is copied. -/
theorem Keyed.exists_mem_copyBatch (h : tree.Keyed) {node : Inode} {new key : Bytes}
    {below : Inode} {merges : Bool} (found : tree.find? node.path = some node)
    (there : tree.find? key = some below)
    (within : key = node.path ∧ merges = false ∨
      Path.isWithin key node.path = true ∧ node.isDirectory = true) :
    ∃ put ∈ (tree.copyBatch now node new merges).puts,
      put.path = Path.rekey key node.path new := by
  rcases within with ⟨rfl, rfl⟩ | ⟨within, dir⟩
  · exact ⟨_, List.mem_append_left _ List.mem_cons_self, (Path.rekey_self _ _).symm⟩
  · have entry := (h.mem_descendants_iff (h _ _ found).1).2 ⟨there, within⟩
    refine ⟨renewed now { below with path := Path.rekey key node.path new },
      List.mem_append_right _ (List.mem_map_of_mem ?_), rfl⟩
    rw [if_pos dir]
    exact mem_moved_iff.2 ⟨key, below, entry, rfl⟩

/-! ## Removals -/

/-- What goes with a directory stood at or below it. -/
theorem Keyed.removed_within (h : tree.Keyed) {recursive : Bool}
    (hp : tree.planRemoveDirectory path recursive = .ok change) :
    ∃ node, tree.lstat path = .ok node ∧ tree.find? node.path = some node ∧
      node.path ≠ Path.root ∧ node.isDirectory = true ∧
      ∀ key ∈ change.batch.erases, key = node.path ∨ Path.isWithin key node.path = true := by
  obtain ⟨node, lstat, ne, dir, how⟩ := planRemoveDirectory_eq_ok_iff.1 hp
  obtain ⟨_, -, found⟩ := lstat_eq_ok_iff.1 lstat
  obtain ⟨canonical, rfl⟩ := h _ _ found
  refine ⟨node, lstat, found, ne, dir, fun key mem => ?_⟩
  obtain ⟨-, rfl⟩ | ⟨-, -, rfl⟩ := how
  · exact .inl (List.mem_singleton.1 mem)
  · rcases List.mem_append.1 mem with mem | mem
    · obtain ⟨_, -, within⟩ := (h.mem_descendants_keys_iff canonical).1 (List.mem_reverse.1 mem)
      exact .inr within
    · exact .inl (List.mem_singleton.1 mem)

end Tree

/-! ## The top of the tree -/

namespace Edit

open VirtualShell.Tree

variable {tree : Tree} {now : Int} {edit : Edit} {change : Change}

/-- **The root is never removed**, being a directory. -/
theorem root_not_mem_erases (h : tree.Keyed) (root : tree.IsDir Path.root)
    (hp : edit.plan tree now = .ok change) : Path.root ∉ change.batch.erases := by
  have none : tree.Adds change.batch → Path.root ∉ change.batch.erases := fun adds => by
    rw [adds.erases]
    exact List.not_mem_nil
  cases edit with
  | write => exact none (planWrite_adds h hp)
  | touch => exact none (planTouch_adds h hp)
  | setMode => exact none (planSetMode_adds h hp)
  | link => exact none (planLink_adds hp)
  | makeDirectory path recursive owner =>
    cases recursive with
    | false => exact none (planDirectory_adds hp)
    | true => exact none (planDirectories_adds hp)
  | unlink path =>
    obtain ⟨node, lstat, notDir, -, rfl⟩ := planUnlink_eq_ok_iff.1 hp
    obtain ⟨_, -, found⟩ := lstat_eq_ok_iff.1 lstat
    obtain ⟨-, rfl⟩ := h _ _ found
    rintro mem
    rw [← List.mem_singleton.1 mem] at found
    rw [root.of_find? found] at notDir
    cases notDir
  | removeDirectory path recursive =>
    obtain ⟨node, -, found, ne, -, erased⟩ := h.removed_within hp
    intro mem
    rcases erased _ mem with e | within
    · exact ne e.symm
    · rw [Path.isWithin_root_eq_false (h _ _ found).1] at within
      cases within
  | rename source target =>
    obtain ⟨node, lstat, ne, new, -, ⟨-, rfl⟩ | ⟨-, -, dir, fits, batch⟩⟩ := planRename_eq_ok hp
    · exact List.not_mem_nil
    · obtain ⟨_, -, found⟩ := lstat_eq_ok_iff.1 lstat
      obtain ⟨canonical, rfl⟩ := h _ _ found
      rw [batch, h.mem_moveBatch_erases_iff found]
      rintro (⟨e, -⟩ | e | ⟨_, -, within⟩)
      · exact h.ne_root_of_rename found ne dir fits e.symm
      · exact ne e.symm
      · rw [Path.isWithin_root_eq_false canonical] at within
        cases within
  | copy source target recursive =>
    obtain ⟨_, -, -, _, -, -, -, -, -, rfl⟩ := planCopy_eq_ok hp
    exact List.not_mem_nil

/-- **A directory in the root, or the root**, stays a directory if it is not removed. Deeper ones
need not: a copy may merge a file into them. -/
theorem isDir_plan (h : tree.Keyed) (hp : edit.plan tree now = .ok change) {dir : Bytes}
    (hd : Path.Canonical dir) (top : Path.parent dir = Path.root) (there : tree.IsDir dir)
    (kept : dir ∉ change.batch.erases) : IsDir (change.batch.apply tree) dir := by
  have adds : tree.Adds change.batch → IsDir (change.batch.apply tree) dir := fun adds =>
    there.apply kept fun put mem same => (adds.places put mem).isDirectory (same ▸ there)
  cases edit with
  | write => exact adds (planWrite_adds h hp)
  | touch => exact adds (planTouch_adds h hp)
  | setMode => exact adds (planSetMode_adds h hp)
  | link => exact adds (planLink_adds hp)
  | makeDirectory path recursive owner =>
    cases recursive with
    | false => exact adds (planDirectory_adds hp)
    | true => exact adds (planDirectories_adds hp)
  | unlink =>
    refine there.apply kept fun put mem => ?_
    rw [puts_planUnlink hp] at mem
    cases mem
  | removeDirectory =>
    refine there.apply kept fun put mem => ?_
    rw [puts_planRemoveDirectory hp] at mem
    cases mem
  | rename source target =>
    obtain ⟨node, lstat, ne, new, entry, ⟨-, rfl⟩ | ⟨-, -, parent, fits, batch⟩⟩ :=
      planRename_eq_ok hp
    · exact there
    obtain ⟨_, -, found⟩ := lstat_eq_ok_iff.1 lstat
    obtain ⟨-, rfl⟩ := h _ _ found
    have hn := canonical_of_entryPath entry
    have ne' := h.ne_root_of_rename found ne parent fits
    refine there.apply kept fun put mem same => ?_
    rw [batch] at mem kept
    rcases (h.carried_of_moveBatch found ne hn ne' mem).2 with at_new | within
    · -- what stands where it goes to is removed
      refine absurd ((h.mem_moveBatch_erases_iff found).2 (.inl ⟨same.symm.trans at_new, ?_⟩)) kept
      obtain ⟨existing, taken, -⟩ := there
      exact ByteMap.contains_eq_true_iff.2 ⟨existing, by rw [← at_new, same, taken]⟩
    · exact absurd (Path.eq_root_of_isWithin hd hn top (same ▸ within)) ne'
  | copy source target recursive =>
    obtain ⟨node, stat, -, new, goes, other, out, parent, -, rfl⟩ := planCopy_eq_ok hp
    obtain ⟨_, -, found⟩ := stat_eq_ok_iff.1 stat
    obtain ⟨canonical, rfl⟩ := h _ _ found
    obtain ⟨ne, ne', hn⟩ := ne_root_of_copy canonical goes other out parent
    refine there.apply kept fun put mem same => ?_
    rcases (h.carried_of_copyBatch found ne hn ne' mem).2 with ⟨at_new, apart⟩ | within
    · have merges := isDir_iff_any.1 there
      rw [← same, at_new, apart] at merges
      cases merges
    · exact absurd (Path.eq_root_of_isWithin hd hn top (same ▸ within)) ne'

end Edit

end VirtualShell
