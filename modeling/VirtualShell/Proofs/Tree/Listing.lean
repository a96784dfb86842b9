import Mathlib.Data.List.Basic
import VirtualShell.Proofs.Tree.Plan
import VirtualShell.Proofs.Tree.Sound

/-!
# Listing a directory

A listing scans the keys below a directory and takes those whose path behind that of the directory
is one component. In a tree under canonical paths these are the keys whose parent is the directory
(`entryName?_eq`), so that what is listed is the children of the directory (`list_eq_ok_iff`), in
byte order of their names (`pairwise_base_children`).

The root is its own parent, and is listed nowhere.
-/

namespace VirtualShell

theorem lt_of_append_lt_append {α : Type} [LT α] (irrefl : ∀ c : α, ¬ c < c) {a x y : List α}
    (h : a ++ x < a ++ y) : x < y := by
  induction a with
  | nil => exact h
  | cons c a ih =>
    rcases List.cons_lt_cons_iff.1 h with lt | ⟨-, h⟩
    · exact absurd lt (irrefl c)
    · exact ih h

namespace Path

variable {dir path name : Bytes}

/-! ## Paths as seen from a directory -/

/-- The path as it is seen from a directory that it lies within. -/
def behind (dir path : Bytes) : Bytes := path.drop (below dir).length

theorem join_eq_below_append (dir name : Bytes) : join dir name = below dir ++ name := by
  by_cases top : dir = root
  · simp [join, below, top, root]
  · simp [join, below, top]

theorem behind_join (dir name : Bytes) : behind dir (join dir name) = name := by
  rw [behind, join_eq_below_append, List.drop_left]

theorem below_append_behind (pre : (below dir).isPrefixOf path = true) :
    below dir ++ behind dir path = path := by
  obtain ⟨rest, rfl⟩ := List.isPrefixOf_iff_prefix.1 pre
  rw [behind, List.drop_left]

theorem join_behind (pre : (below dir).isPrefixOf path = true) :
    join dir (behind dir path) = path := by
  rw [join_eq_below_append, below_append_behind pre]

theorem ne_root_of_isWithin (hd : Canonical dir) (within : isWithin path dir = true) :
    path ≠ root := by
  rintro rfl
  rw [isWithin_root_eq_false hd] at within
  cases within

/-- An entry is seen behind what it stands in. -/
theorem behind_join_of_isWithin (hp : Canonical path) (hd : Canonical dir)
    (within : isWithin path dir = true) (name : Bytes) :
    behind dir (join path name) = behind dir path ++ Ascii.slash :: name := by
  have pre := ((isWithin_iff_below hp hd).1 within).1
  have deeper : join path name = below dir ++ (behind dir path ++ Ascii.slash :: name) := by
    rw [join, if_neg (ne_root_of_isWithin hd within), ← List.append_assoc, below_append_behind pre]
  rw [deeper, behind, List.drop_left]

theorem behind_of_parent (canonical : Canonical path) (ne : path ≠ root)
    (parent : parent path = dir) : behind dir path = base path := by
  have whole := join_parent_base canonical ne
  rw [parent] at whole
  rw [← whole, behind_join, whole]

theorem isPrefixOf_of_parent (canonical : Canonical path) (ne : path ≠ root)
    (parent : parent path = dir) : (below dir).isPrefixOf path = true := by
  have whole := join_parent_base canonical ne
  rw [parent, join_eq_below_append] at whole
  rw [List.isPrefixOf_iff_prefix, ← whole]
  exact List.prefix_append _ _

theorem behind_self (dir : Bytes) : behind dir dir = [] := by
  rw [behind, below]
  split
  next root => rw [root]; rfl
  next => exact List.drop_eq_nil_of_le (by simp)

/-- What lies within a directory is seen from it. -/
theorem behind_ne_nil (hp : Canonical path) (hd : Canonical dir)
    (within : isWithin path dir = true) : behind dir path ≠ [] := by
  have ne := ne_root_of_isWithin hd within
  rcases (isWithin_iff_parent hp hd ne).1 within with parent | deeper
  · rw [behind_of_parent hp ne parent]
    exact (proper_base hp ne).ne_nil
  · rw [← join_parent_base hp ne, behind_join_of_isWithin (canonical_parent hp) hd deeper]
    simp

theorem behind_isEmpty_eq (hp : Canonical path) (hd : Canonical dir)
    (pre : (below dir).isPrefixOf path = true) :
    (behind dir path).isEmpty = !isWithin path dir := by
  by_cases self : path = dir
  · subst self
    have outside : isWithin path path = false :=
      Bool.eq_false_iff.2 fun within => ((isWithin_iff_below hp hp).1 within).2 rfl
    rw [behind_self, outside]
    rfl
  · have within := (isWithin_iff_below hp hd).2 ⟨pre, self⟩
    rw [within]
    simpa using behind_ne_nil hp hd within

/-- Every path is below the root, and begins as such paths do. -/
theorem isPrefixOf_root (hp : Canonical path) : (below root).isPrefixOf path = true := by
  obtain ⟨stack, hs, rfl⟩ := canonical_iff.1 hp
  have first : (ofStack stack).head? = some Ascii.slash := beq_iff_eq.1 (isAbsolute_ofStack stack)
  obtain ⟨rest, whole⟩ := List.head?_eq_some_iff.1 first
  rw [whole]
  rfl

end Path

namespace Tree

variable {tree : Tree} {path dir key : Bytes} {node : Inode}

/-! ## Children -/

/-- **The name of a key in a listing**: it has one just if its parent is the directory. -/
theorem entryName?_eq (hk : Path.Canonical key) (hd : Path.Canonical dir)
    (pre : (Path.below dir).isPrefixOf key = true) :
    entryName? dir key =
      if key ≠ Path.root ∧ Path.parent key = dir then some (Path.base key) else none := by
  change (if key = dir ∨ (Path.behind dir key).isEmpty ∨
    (Path.behind dir key).contains Ascii.slash then none else some (Path.behind dir key)) = _
  by_cases self : key = dir
  · -- only the root is its own parent
    subst self
    have top : ¬ (key ≠ Path.root ∧ Path.parent key = key) := fun h => Path.parent_ne hk h.1 h.2
    rw [if_pos (.inl rfl), if_neg top]
  · have within := (Path.isWithin_iff_below hk hd).2 ⟨pre, self⟩
    have ne := Path.ne_root_of_isWithin hd within
    have proper := Path.proper_base hk ne
    by_cases parent : Path.parent key = dir
    · have plain : ¬ (key = dir ∨ (Path.base key).isEmpty ∨
          (Path.base key).contains Ascii.slash) := by
        simp [self, proper.ne_nil, proper.no_slash]
      rw [Path.behind_of_parent hk ne parent, if_neg plain, if_pos ⟨ne, parent⟩]
    · -- what lies deeper has a slash in front of its own name
      have deeper := ((Path.isWithin_iff_parent hk hd ne).1 within).resolve_left parent
      have above := Path.canonical_parent hk
      have split := Path.behind_join_of_isWithin above hd deeper (Path.base key)
      rw [Path.join_parent_base hk ne] at split
      rw [split, if_pos (by simp), if_neg fun h => parent h.2]

/-- The records that stand in a directory. -/
def children (tree : Tree) (dir : Bytes) : List (Bytes × Inode) :=
  tree.entries.filter fun e => decide (e.1 ≠ Path.root ∧ Path.parent e.1 = dir)

theorem mem_children_iff :
    (key, node) ∈ tree.children dir ↔
      tree.find? key = some node ∧ key ≠ Path.root ∧ Path.parent key = dir := by
  rw [children, List.mem_filter, ByteMap.mem_entries_iff, decide_eq_true_iff]

/-- Nothing has a path below what is no directory of its own. -/
theorem Sound.children_eq_nil (h : tree.Sound) {dir : Bytes}
    (elsewhere : tree.realPath dir ≠ .ok dir) : tree.children dir = [] := by
  refine List.eq_nil_iff_forall_not_mem.2 fun e mem => elsewhere ?_
  obtain ⟨found, ne, rfl⟩ := mem_children_iff.1 mem
  exact realPath_of_straight (h.straight_of_isDir (h.parents _ _ found ne))

/-- The entry of a listing for a record. -/
def entryOf (e : Bytes × Inode) : DirEntry where
  name := Path.base e.1
  kind := e.2.kind
  mode := e.2.mode
  size := e.2.size
  modified := e.2.modified

/-- The scan of a listing comes to the children of the directory. -/
theorem filterMap_scan (h : tree.Keyed) (hd : Path.Canonical dir) :
    ((tree.scan (Path.below dir)).filterMap fun e => (entryName? dir e.1).map fun name =>
        { name, kind := e.2.kind, mode := e.2.mode, size := e.2.size, modified := e.2.modified }) =
      (tree.children dir).map entryOf := by
  rw [ByteMap.scan_eq_filter, List.filterMap_filter, children, ← List.filterMap_eq_map,
    List.filterMap_filter]
  refine List.filterMap_congr fun e mem => ?_
  have canonical := (h e.1 e.2 (ByteMap.find?_of_mem mem)).1
  by_cases child : e.1 ≠ Path.root ∧ Path.parent e.1 = dir
  · have pre := Path.isPrefixOf_of_parent canonical child.1 child.2
    simp [pre, child, entryName?_eq canonical hd pre, entryOf]
  · cases pre : (Path.below dir).isPrefixOf e.1 with
    | false => simp [child]
    | true => simp [child, entryName?_eq canonical hd pre]

/-- **A listing** of what leads to a directory is the entries of its children. -/
theorem list_eq_ok_iff (h : tree.Keyed) {entries : List DirEntry} :
    tree.list path = .ok entries ↔
      ∃ dir, tree.realPath path = .ok dir ∧ tree.IsDir dir ∧
        entries = (tree.children dir).map entryOf := by
  simp only [list, Outcome.bind_eq_ok, Outcome.ite_eq_ok, Outcome.pure_eq_ok,
    Outcome.throw_eq_ok, and_false, or_false]
  refine exists_congr fun dir => and_congr_right fun real => ?_
  rw [filterMap_scan h (straight_of_realPath real).1, ← isDir_iff_any, eq_comm]

/-- **Children stand in byte order of their names.** -/
theorem pairwise_base_children (h : tree.Keyed) (dir : Bytes) :
    (tree.children dir).Pairwise fun a b => Path.base a.1 < Path.base b.1 := by
  refine (tree.sorted.filter _).imp_of_mem fun {a b} ha hb lt => ?_
  have name : ∀ e ∈ tree.children dir, Path.below dir ++ Path.base e.1 = e.1 := by
    intro e mem
    obtain ⟨found, ne, parent⟩ := mem_children_iff.1 mem
    have canonical := (h _ _ found).1
    rw [← Path.behind_of_parent canonical ne parent]
    exact Path.below_append_behind (Path.isPrefixOf_of_parent canonical ne parent)
  rw [← name a ha, ← name b hb] at lt
  exact lt_of_append_lt_append UInt8.lt_irrefl lt

end Tree

end VirtualShell
