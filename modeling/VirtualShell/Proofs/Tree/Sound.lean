import VirtualShell.Proofs.Store.Batch
import VirtualShell.Proofs.Tree.Subtree
import VirtualShell.Proofs.Tree.Walk

/-!
# The invariant of the tree

A tree is `Sound` when every record stands under its own canonical path (`Keyed`), the root is a
directory, every other record stands in a directory, and sizes and contents agree (`Inode.Sized`).
This is a property of what is found at each path, so a batch establishes it key by key
(`Keyed.sound_apply`). The batches that occur are one record put in place (`Sound.put`), a part of
the tree cut off (`Sound.erase`) and a part of it put down elsewhere (`Sound.transplant`).
-/

namespace VirtualShell

namespace Tree

/-- Every record stands under its own path, which is canonical. -/
def Keyed (tree : Tree) : Prop :=
  ∀ path node, tree.find? path = some node → Path.Canonical path ∧ node.path = path

/-- The invariant of the tree (module doc). -/
structure Sound (tree : Tree) : Prop where
  keyed : tree.Keyed
  root : tree.IsDir Path.root
  parents : ∀ path node, tree.find? path = some node → path ≠ Path.root →
    tree.IsDir (Path.parent path)
  sized : ∀ path node, tree.find? path = some node → node.Sized

variable {tree : Tree}

/-! ## Looking at a sound tree -/

theorem IsDir.of_find? {path : Bytes} {node : Inode} (h : tree.IsDir path)
    (found : tree.find? path = some node) : node.isDirectory = true := by
  obtain ⟨node', found', dir⟩ := h
  rw [found] at found'
  cases found'
  exact dir

theorem Keyed.canonical (h : tree.Keyed) : ∀ key ∈ tree.keys, Path.Canonical key := by
  intro key mem
  obtain ⟨node, found⟩ := Option.isSome_iff_exists.1 (ByteMap.mem_keys_iff.1 mem)
  exact (h key node found).1

theorem Keyed.mem_descendants_iff (h : tree.Keyed) {dir key : Bytes} {node : Inode}
    (hd : Path.Canonical dir) :
    (key, node) ∈ tree.descendants dir ↔
      tree.find? key = some node ∧ Path.isWithin key dir = true := by
  rw [Tree.mem_descendants_iff]
  exact and_congr_right fun found => (Path.isWithin_iff_below (h _ _ found).1 hd).symm

/-- Where every record stands in a directory, whatever one lies within is a directory. -/
theorem Keyed.ancestor (h : tree.Keyed)
    (parents : ∀ path node, tree.find? path = some node → path ≠ Path.root →
      tree.IsDir (Path.parent path))
    {key dir : Bytes} {node : Inode} (found : tree.find? key = some node)
    (hd : Path.Canonical dir) (within : Path.isWithin key dir = true) : tree.IsDir dir := by
  obtain ⟨top, ht, rfl⟩ := Path.canonical_iff.1 hd
  obtain ⟨stack, hs, rfl⟩ := Path.canonical_iff.1 (h _ _ found).1
  obtain ⟨below, more, rfl⟩ := (Path.isWithin_ofStack ht hs).1 within
  -- up from the record, one component at a time
  induction below generalizing node with
  | nil => exact absurd rfl more
  | cons part others ih =>
    rw [List.cons_append] at hs found within
    have dir := parents _ _ found (Path.ofStack_cons_ne_root hs)
    rw [Path.parent_ofStack_cons hs] at dir
    by_cases last : others = []
    · rwa [last, List.nil_append] at dir
    · obtain ⟨node', found', -⟩ := dir
      exact ih last hs.tail found' ((Path.isWithin_ofStack ht hs.tail).2 ⟨others, last, rfl⟩)

theorem Sound.ancestor (h : tree.Sound) {key dir : Bytes} {node : Inode}
    (found : tree.find? key = some node) (hd : Path.Canonical dir)
    (within : Path.isWithin key dir = true) : tree.IsDir dir :=
  h.keyed.ancestor h.parents found hd within

/-- **In a sound tree directories lead to themselves**: all that is above one is a directory. -/
theorem Sound.straight_of_isDir (h : tree.Sound) {dir : Bytes} (isDir : tree.IsDir dir) :
    tree.Straight dir := by
  obtain ⟨node, found, yes⟩ := isDir
  obtain ⟨stack, hs, rfl⟩ := Path.canonical_iff.1 (h.keyed _ _ found).1
  induction stack generalizing node with
  | nil => exact straight_root
  | cons part stack ih =>
    have above := h.parents _ _ found (Path.ofStack_cons_ne_root hs)
    rw [Path.parent_ofStack_cons hs] at above
    obtain ⟨dir, there, dirs⟩ := id above
    have straight := ih dir dirs hs.tail there
    rw [← Path.join_ofStack hs.tail] at found ⊢
    exact straight.join hs.head (fun _ => above) found (isSymlink_of_isDirectory yes)

/-- Nothing lies within a directory without children. -/
theorem Keyed.nothing_within (h : tree.Keyed) {dir key : Bytes} {node : Inode}
    (hd : Path.Canonical dir) (alone : tree.hasChildren dir = false)
    (found : tree.find? key = some node) : Path.isWithin key dir = false := by
  refine Bool.eq_false_iff.2 fun within => ?_
  have below := (h.mem_descendants_iff hd).2 ⟨found, within⟩
  rw [hasChildren_eq_false_iff.1 alone] at below
  cases below

/-- Nor does it within what is missing or no directory. -/
theorem Sound.nothing_within (h : tree.Sound) {place : Bytes} (hp : Path.Canonical place)
    (empty : ∀ node, tree.find? place = some node → node.isDirectory = true →
      tree.hasChildren place = false) {key : Bytes} {node : Inode}
    (found : tree.find? key = some node) : Path.isWithin key place = false := by
  by_cases within : Path.isWithin key place = true
  · obtain ⟨node', found', dir⟩ := h.ancestor found hp within
    exact h.keyed.nothing_within hp (empty node' found' dir) found
  · exact Bool.eq_false_iff.2 within

/-! ## Batches -/

theorem keyed_apply {b : Batch} (h : tree.Keyed)
    (canonical : ∀ node ∈ b.puts, Path.Canonical node.path) : Keyed (b.apply tree) := by
  intro path node found
  obtain ⟨mem, rfl⟩ | ⟨-, found⟩ := Batch.put_or_kept_of_apply found
  · exact ⟨canonical node mem, rfl⟩
  · exact h path node found

/-- A directory that is neither erased nor written over stays one. -/
theorem IsDir.apply {b : Batch} {path : Bytes} (h : tree.IsDir path) (kept : path ∉ b.erases)
    (free : ∀ node ∈ b.puts, node.path = path → node.isDirectory = true) :
    IsDir (b.apply tree) path := by
  obtain ⟨node, found, dir⟩ := h
  cases last : Batch.last? b.puts path with
  | some node' =>
    obtain ⟨mem, at_path⟩ := Batch.last?_eq_some last
    exact ⟨node', by rw [Batch.find?_apply, last, Option.some_or], free node' mem at_path⟩
  | none => exact ⟨node, by rw [Batch.find?_apply, last, Option.none_or, if_neg kept, found], dir⟩

/-- A path under which directories are put, and nothing else, is one. -/
theorem isDir_apply_of_put {b : Batch} {node : Inode} (mem : node ∈ b.puts)
    (dirs : ∀ other ∈ b.puts, other.path = node.path → other.isDirectory = true) :
    IsDir (b.apply tree) node.path := by
  obtain ⟨last, h⟩ := Batch.last?_isSome mem
  obtain ⟨mem', same⟩ := Batch.last?_eq_some h
  exact ⟨last, by rw [Batch.find?_apply, h, Option.some_or], dirs last mem' same⟩

/-- **A batch makes a tree sound** if behind it the root is a directory, what it puts is of the
size of its content and put under canonical paths in directories, and what it leaves is so, and left
in directories. -/
theorem Keyed.sound_apply {b : Batch} (h : tree.Keyed)
    (sized : ∀ path node, tree.find? path = some node → node.Sized)
    (root : IsDir (b.apply tree) Path.root)
    (puts : ∀ node ∈ b.puts, Path.Canonical node.path ∧ node.Sized ∧
      (node.path ≠ Path.root → IsDir (b.apply tree) (Path.parent node.path)))
    (kept : ∀ path node, tree.find? path = some node → path ∉ b.erases → path ≠ Path.root →
      IsDir (b.apply tree) (Path.parent path)) : Sound (b.apply tree) := by
  refine ⟨keyed_apply h fun node mem => (puts node mem).1, root, ?_, ?_⟩
  · intro path node found ne
    obtain ⟨mem, rfl⟩ | ⟨notErased, found⟩ := Batch.put_or_kept_of_apply found
    · exact (puts node mem).2.2 ne
    · exact kept path node found notErased ne
  · intro path node found
    obtain ⟨mem, -⟩ | ⟨-, found⟩ := Batch.put_or_kept_of_apply found
    · exact (puts node mem).2.1
    · exact sized path node found

/-- **One record** may be put where a directory is to hold it, if it is a directory itself or does
not take the place of one. -/
theorem Sound.put (h : tree.Sound) {node : Inode} (canonical : Path.Canonical node.path)
    (sized : node.Sized) (parent : node.path ≠ Path.root → tree.IsDir (Path.parent node.path))
    (fits : tree.IsDir node.path → node.isDirectory = true) :
    Sound ((Batch.put node).apply tree) := by
  have stays : ∀ path, tree.IsDir path → IsDir ((Batch.put node).apply tree) path := by
    intro path dir
    refine dir.apply List.not_mem_nil fun other mem same => ?_
    obtain rfl := List.mem_singleton.1 mem
    exact fits (same ▸ dir)
  refine h.keyed.sound_apply h.sized (stays _ h.root) (fun other mem => ?_)
    fun path node found _ ne => stays _ (h.parents path node found ne)
  obtain rfl := List.mem_singleton.1 mem
  exact ⟨canonical, sized, fun ne => stays _ (parent ne)⟩

/-- A record may be exchanged for one of its kind. -/
theorem Sound.exchange (h : tree.Sound) {path : Bytes} {node node' : Inode}
    (found : tree.find? path = some node) (place : node'.path = node.path)
    (kind : node'.isDirectory = node.isDirectory) (sized : node'.Sized) :
    Sound ((Batch.put node').apply tree) := by
  obtain ⟨canonical, rfl⟩ := h.keyed _ _ found
  refine h.put (place ▸ canonical) sized (fun ne => ?_) fun dir => ?_
  · rw [place] at ne ⊢
    exact h.parents _ _ found ne
  · rw [place] at dir
    rw [kind, dir.of_find? found]

/-- So may it be for one that holds the same. -/
theorem Sound.renew (h : tree.Sound) {path : Bytes} {node node' : Inode}
    (found : tree.find? path = some node) (place : node'.path = node.path)
    (same : node'.body = node.body) : Sound ((Batch.put node').apply tree) :=
  h.exchange found place (Inode.isDirectory_of_body same) ((h.sized _ _ found).of_body same)

/-- **A part of the tree** may be cut off if all that stands in it goes with it. -/
theorem Sound.erase (h : tree.Sound) {erases : List Bytes} (root : Path.root ∉ erases)
    (closed : ∀ key node, tree.find? key = some node → key ≠ Path.root →
      Path.parent key ∈ erases → key ∈ erases) :
    Sound (({ erases } : Batch).apply tree) := by
  have stays : ∀ path, tree.IsDir path → path ∉ erases →
      IsDir (({ erases } : Batch).apply tree) path :=
    fun path dir kept => dir.apply kept fun _ mem => absurd mem List.not_mem_nil
  refine h.keyed.sound_apply h.sized (stays _ h.root root)
    (fun _ mem => absurd mem List.not_mem_nil) ?_
  intro path node found kept ne
  exact stays _ (h.parents path node found ne) fun gone => kept (closed path node found ne gone)

/-! ## Transplants -/

/-- The records are those at and below a path, holding the same, as they stand at and below
another. -/
structure Carries (tree : Tree) (old new : Bytes) (puts : List Inode) : Prop where
  source : ∀ put ∈ puts, ∃ key node, tree.find? key = some node ∧
    (key = old ∨ Path.isWithin key old = true) ∧ put.path = Path.rekey key old new ∧
    put.body = node.body
  all : ∀ key node, tree.find? key = some node → key = old ∨ Path.isWithin key old = true →
    ∃ put ∈ puts, put.path = Path.rekey key old new

section
variable {old new : Bytes} {b : Batch} (h : tree.Keyed) (ho : Path.Canonical old)
include h ho

/-- What is carried starts with the path that it is carried from. -/
theorem Keyed.isPrefixOf_of_carried {key : Bytes} {node : Inode}
    (found : tree.find? key = some node) (within : key = old ∨ Path.isWithin key old = true) :
    old.isPrefixOf key = true := by
  rcases within with rfl | within
  · exact List.isPrefixOf_iff_prefix.2 (List.prefix_refl _)
  · exact Path.isPrefixOf_of_isWithin (h _ _ found).1 ho within

/-- A directory is put down as one. -/
theorem Carries.lands (carries : tree.Carries old new b.puts) {key : Bytes} {node : Inode}
    (found : tree.find? key = some node) (dir : node.isDirectory = true)
    (within : key = old ∨ Path.isWithin key old = true) :
    IsDir (b.apply tree) (Path.rekey key old new) := by
  obtain ⟨put, mem, e⟩ := carries.all key node found within
  rw [← e]
  refine isDir_apply_of_put mem fun other mem' same => ?_
  obtain ⟨key', node', found', within', e', body⟩ := carries.source other mem'
  rw [e, e'] at same
  obtain rfl : key' = key :=
    Path.rekey_injective (h.isPrefixOf_of_carried ho found' within')
      (h.isPrefixOf_of_carried ho found within) same
  rw [found] at found'
  cases found'
  rw [Inode.isDirectory_of_body body, dir]

variable (notRoot : old ≠ Path.root) (hn : Path.Canonical new) (notRoot' : new ≠ Path.root)
include notRoot hn notRoot'

/-- What is carried comes to stand at or below the path that it is carried to. -/
theorem Keyed.rekey_of_carried {key : Bytes} {node : Inode} (found : tree.find? key = some node)
    (within : key = old ∨ Path.isWithin key old = true) :
    Path.Canonical (Path.rekey key old new) ∧
      (Path.rekey key old new = new ∨ Path.isWithin (Path.rekey key old new) new = true) := by
  rcases within with rfl | within
  · rw [Path.rekey_self]
    exact ⟨hn, .inl rfl⟩
  · obtain ⟨canonical, within', -⟩ := Path.rekey_spec (h _ _ found).1 ho hn notRoot notRoot' within
    exact ⟨canonical, .inr within'⟩

/-- A directory stays one where nothing stands below the path that is carried to. -/
theorem Carries.stays (carries : tree.Carries old new b.puts)
    (free : ∀ key node, tree.find? key = some node → Path.isWithin key new = false) {path : Bytes}
    (dir : tree.IsDir path) (kept : path ∉ b.erases) (ne : path ≠ new) :
    IsDir (b.apply tree) path := by
  refine dir.apply kept fun put mem same => ?_
  obtain ⟨key, node, found, within, e, -⟩ := carries.source put mem
  obtain ⟨node', found', -⟩ := dir
  have at_new := (h.rekey_of_carried ho notRoot hn notRoot' found within).2
  rw [← e, same] at at_new
  rcases at_new with rfl | within'
  · exact absurd rfl ne
  · rw [free path node' found'] at within'
    cases within'

end

/-- **A part of the tree may be put down** in a directory outside of it, where nothing stands
below, whether it is left where it was or goes from there. -/
theorem Sound.transplant (h : tree.Sound) {old new : Bytes} {b : Batch} (ho : Path.Canonical old)
    (notRoot : old ≠ Path.root) (hn : Path.Canonical new) (notRoot' : new ≠ Path.root)
    (parent : tree.IsDir (Path.parent new)) (parentKept : Path.parent new ∉ b.erases)
    (free : ∀ key node, tree.find? key = some node → Path.isWithin key new = false)
    (carries : tree.Carries old new b.puts) (rootKept : Path.root ∉ b.erases)
    (closed : ∀ key node, tree.find? key = some node → key ≠ Path.root →
      Path.parent key ∈ b.erases → key ∈ b.erases) :
    Sound (b.apply tree) := by
  have stays : ∀ path, tree.IsDir path → path ∉ b.erases → path ≠ new →
      IsDir (b.apply tree) path :=
    fun _ => carries.stays h.keyed ho notRoot hn notRoot' free
  refine h.keyed.sound_apply h.sized (stays _ h.root rootKept fun e => notRoot' e.symm) ?_ ?_
  · -- what is carried: its top stands in the directory, the rest below what is carried with it
    intro put mem
    obtain ⟨key, node, found, within, e, body⟩ := carries.source put mem
    rw [e]
    refine ⟨(h.keyed.rekey_of_carried ho notRoot hn notRoot' found within).1,
      (h.sized _ _ found).of_body body, fun _ => ?_⟩
    rcases within with rfl | within
    · rw [Path.rekey_self]
      exact stays _ parent parentKept (Path.parent_ne hn notRoot')
    · obtain ⟨canonical, rfl⟩ := h.keyed _ _ found
      have inner : node.path ≠ Path.root := by
        intro e
        rw [e, Path.isWithin_root_eq_false ho] at within
        cases within
      obtain ⟨above, found', dir⟩ := h.parents _ _ found inner
      rw [(Path.rekey_spec canonical ho hn notRoot notRoot' within).2.2]
      exact carries.lands h.keyed ho found' dir
        ((Path.isWithin_iff_parent canonical ho inner).1 within)
  · intro path node found kept ne
    refine stays _ (h.parents path node found ne) (fun gone => kept (closed _ _ found ne gone)) ?_
    intro e
    have := (Path.isWithin_iff_parent (h.keyed _ _ found).1 hn ne).2 (.inl e)
    rw [free path node found] at this
    cases this

end Tree

end VirtualShell
