import VirtualShell.Proofs.Tree.Listing
import VirtualShell.Tree.Visit

/-!
# Visiting a tree

A visit goes down by the path that it has come by, which may lead over links. Where that path leads
to a directory, the visit comes to what `preorder` lists below it (`visitWithin_eq`): the children
of the directory, each before what is in it.

* `mem_preorder_iff`: in a sound tree with levels enough, these are the records that lie within the
  directory. The levels needed are no more than the records within it (`extent`), which become
  fewer with every step down (`extent_lt`).
* `pairwise_preorder`: they come in order of their components, so that a directory stands before its
  contents, and siblings in byte order (`Path.before_of_components_lt`).
* `visitWithin_congr`: more levels than enough change nothing.
-/

namespace VirtualShell

namespace Path

variable {a b dir path : Bytes}

/-! ## The order of components -/

theorem components_lt_of_isWithin (hp : Canonical path) (hd : Canonical dir)
    (within : isWithin path dir = true) : components dir < components path := by
  obtain ⟨part, more, parts⟩ := components_of_isWithin hp hd within
  have below : components dir ++ [] < components dir ++ part :: more :=
    List.append_left_lt (List.nil_lt_cons _ _)
  rwa [List.append_nil, ← parts] at below

/-- In the order of components nothing comes before what it lies within, and siblings stand in byte
order. -/
theorem before_of_components_lt (ha : Canonical a) (hb : Canonical b) (notRoot : a ≠ root)
    (notRoot' : b ≠ root) (lt : components a < components b) :
    isWithin a b = false ∧ (parent a = parent b → base a < base b) := by
  constructor
  · refine Bool.eq_false_iff.2 fun within => ?_
    exact List.lt_irrefl _ (List.lt_trans lt (components_lt_of_isWithin ha hb within))
  · intro same
    rw [components_parent_base ha notRoot, components_parent_base hb notRoot', same] at lt
    rcases List.cons_lt_cons_iff.1 (lt_of_append_lt_append List.lt_irrefl lt) with lt | ⟨-, lt⟩
    · exact lt
    · exact absurd lt (List.not_lt_nil _)

/-- What stands at or below a child has the name of the child behind the components of the
directory. -/
theorem components_below_child (hp : Canonical path) (ha : Canonical a) (ne : a ≠ root)
    (parent : parent a = dir) (under : path = a ∨ isWithin path a = true) :
    ∃ more, components path = components dir ++ base a :: more := by
  have child := components_parent_base ha ne
  rw [parent] at child
  rcases under with rfl | within
  · exact ⟨[], child⟩
  · obtain ⟨part, more, parts⟩ := components_of_isWithin hp ha within
    refine ⟨part :: more, ?_⟩
    rw [parts, child, List.append_assoc, List.singleton_append]

end Path

namespace Tree

variable {tree : Tree} {path shown dir key : Bytes} {node : Inode} {levels : Nat}
  {e c : Bytes × Inode}

/-! ## What stands below a directory -/

/-- The records below a directory, so many levels deep, each child before what is in it. -/
def preorder (tree : Tree) : Nat → Bytes → List (Bytes × Inode)
  | 0, _ => []
  | levels + 1, dir =>
    (tree.children dir).flatMap fun c =>
      c :: if c.2.isDirectory then tree.preorder levels c.1 else []

theorem kind_entryOf_iff : (entryOf c).kind = .directory ↔ c.2.isDirectory = true := by
  simp [entryOf, Inode.isDirectory]

theorem mem_preorder_succ :
    e ∈ tree.preorder (levels + 1) dir ↔ ∃ c ∈ tree.children dir,
      e = c ∨ c.2.isDirectory = true ∧ e ∈ tree.preorder levels c.1 := by
  rw [preorder, List.mem_flatMap]
  refine exists_congr fun c => and_congr_right fun _ => ?_
  rw [List.mem_cons]
  cases c.2.isDirectory <;> simp

theorem Keyed.child (h : tree.Keyed) (hd : Path.Canonical dir) (mem : c ∈ tree.children dir) :
    tree.find? c.1 = some c.2 ∧ Path.Canonical c.1 ∧ c.1 ≠ Path.root ∧ Path.parent c.1 = dir ∧
      Path.isWithin c.1 dir = true := by
  obtain ⟨found, ne, parent⟩ := mem_children_iff.1 mem
  have canonical := (h _ _ found).1
  exact ⟨found, canonical, ne, parent, (Path.isWithin_iff_parent canonical hd ne).2 (.inl parent)⟩

/-- What a visit comes to lies within the directory. -/
theorem isWithin_of_mem_preorder (h : tree.Keyed) (hd : Path.Canonical dir)
    (mem : e ∈ tree.preorder levels dir) :
    tree.find? e.1 = some e.2 ∧ Path.isWithin e.1 dir = true := by
  induction levels generalizing dir with
  | zero => cases mem
  | succ levels ih =>
    obtain ⟨c, child, same | ⟨-, deeper⟩⟩ := mem_preorder_succ.1 mem
    · obtain ⟨found, -, -, -, within⟩ := h.child hd child
      rw [same]
      exact ⟨found, within⟩
    · obtain ⟨-, canonical, -, -, within⟩ := h.child hd child
      obtain ⟨found, below⟩ := ih canonical deeper
      exact ⟨found, Path.isWithin_trans (h _ _ found).1 canonical hd below within⟩

/-- **A visit goes in the order of components.** -/
theorem pairwise_preorder (h : tree.Keyed) (hd : Path.Canonical dir) (levels : Nat) :
    (tree.preorder levels dir).Pairwise fun a b =>
      Path.components a.1 < Path.components b.1 := by
  induction levels generalizing dir with
  | zero => exact .nil
  | succ levels ih =>
    have under : ∀ c ∈ tree.children dir, ∀ e,
        e ∈ c :: (if c.2.isDirectory then tree.preorder levels c.1 else []) →
          Path.Canonical e.1 ∧ (e.1 = c.1 ∨ Path.isWithin e.1 c.1 = true) := by
      intro c child e mem
      obtain ⟨-, canonical, -⟩ := h.child hd child
      rcases List.mem_cons.1 mem with rfl | mem
      · exact ⟨canonical, .inl rfl⟩
      · split at mem
        · obtain ⟨found, within⟩ := isWithin_of_mem_preorder h canonical mem
          exact ⟨(h _ _ found).1, .inr within⟩
        · cases mem
    rw [preorder, List.pairwise_flatMap]
    constructor
    · -- below one child: the child itself comes first
      intro c child
      obtain ⟨-, canonical, -⟩ := h.child hd child
      split
      · refine List.pairwise_cons.2 ⟨fun e mem => ?_, ih canonical⟩
        obtain ⟨found, within⟩ := isWithin_of_mem_preorder h canonical mem
        exact Path.components_lt_of_isWithin (h _ _ found).1 canonical within
      · exact List.pairwise_singleton _ _
    · -- below two children: their names decide
      refine (pairwise_base_children h dir).imp_of_mem fun {a b} ha hb lt x hx y hy => ?_
      obtain ⟨-, canonical, ne, parent, -⟩ := h.child hd ha
      obtain ⟨-, canonical', ne', parent', -⟩ := h.child hd hb
      obtain ⟨hx, below⟩ := under a ha x hx
      obtain ⟨hy, below'⟩ := under b hb y hy
      obtain ⟨more, parts⟩ := Path.components_below_child hx canonical ne parent below
      obtain ⟨more', parts'⟩ := Path.components_below_child hy canonical' ne' parent' below'
      rw [parts, parts']
      exact List.append_left_lt (List.cons_lt_cons_iff.2 (.inl lt))

/-! ## Levels enough -/

/-- The number of records within a directory. -/
def extent (tree : Tree) (dir : Bytes) : Nat :=
  tree.entries.countP fun e => Path.isWithin e.1 dir

theorem extent_le_size (tree : Tree) (dir : Bytes) : tree.extent dir ≤ tree.size :=
  List.countP_le_length

theorem extent_pos (found : tree.find? key = some node) (within : Path.isWithin key dir = true) :
    0 < tree.extent dir :=
  List.countP_pos_iff.2 ⟨_, ByteMap.mem_of_find? found, within⟩

/-- Within a child there are fewer records: the child itself is none of them. -/
theorem extent_lt (h : tree.Keyed) (hd : Path.Canonical dir) (child : c ∈ tree.children dir) :
    tree.extent c.1 < tree.extent dir := by
  obtain ⟨found, canonical, -, -, within⟩ := h.child hd child
  have fewer : (tree.entries.filter fun e => Path.isWithin e.1 c.1) =
      (tree.entries.filter fun e => Path.isWithin e.1 dir).filter
        fun e => Path.isWithin e.1 c.1 := by
    rw [List.filter_filter]
    refine List.filter_congr fun e mem => ?_
    have he := (h _ _ (ByteMap.find?_of_mem mem)).1
    cases below : Path.isWithin e.1 c.1 with
    | false => rfl
    | true => rw [Path.isWithin_trans he canonical hd below within]; rfl
  rw [extent, extent, List.countP_eq_length_filter, List.countP_eq_length_filter, fewer]
  refine List.length_filter_lt_length_iff_exists.2 ⟨c, ?_, ?_⟩
  · exact List.mem_filter.2 ⟨ByteMap.mem_of_find? found, within⟩
  · intro self
    exact ((Path.isWithin_iff_below canonical canonical).1 self).2 rfl

/-- What lies within a directory stands at or below one of its children. -/
theorem Sound.exists_child (h : tree.Sound) (hd : Path.Canonical dir)
    (found : tree.find? key = some node) (within : Path.isWithin key dir = true) :
    ∃ c ∈ tree.children dir,
      (key, node) = c ∨ c.2.isDirectory = true ∧ Path.isWithin key c.1 = true := by
  obtain ⟨top, ht, rfl⟩ := Path.canonical_iff.1 hd
  obtain ⟨stack, hs, rfl⟩ := Path.canonical_iff.1 (h.keyed _ _ found).1
  obtain ⟨below, more, rfl⟩ := (Path.isWithin_ofStack ht hs).1 within
  have proper : Path.ProperStack (below ++ top) := hs
  -- the child has the first component below the directory
  obtain ⟨rest, part, rfl⟩ : ∃ rest part, below = rest ++ [part] :=
    ⟨_, _, (List.dropLast_concat_getLast more).symm⟩
  have hc : Path.ProperStack (part :: top) := fun p mem =>
    proper p (by simpa using .inr (List.mem_cons.1 mem))
  have place : rest ++ [part] ++ top = rest ++ part :: top := by simp
  rw [place] at found hs ⊢
  have parent := Path.parent_ofStack_cons hc
  have ne := Path.ofStack_cons_ne_root hc
  by_cases last : rest = []
  · subst last
    rw [List.nil_append] at found ⊢
    exact ⟨_, mem_children_iff.2 ⟨found, ne, parent⟩, .inl rfl⟩
  · have deeper := (Path.isWithin_ofStack hc hs).2 ⟨rest, last, rfl⟩
    obtain ⟨above, there, isDir⟩ := h.ancestor found (Path.canonical_ofStack hc) deeper
    exact ⟨(_, above), mem_children_iff.2 ⟨there, ne, parent⟩, .inr ⟨isDir, deeper⟩⟩

/-- **A visit with levels enough** comes to all that lies within the directory. -/
theorem mem_preorder_iff (h : tree.Sound) (hd : Path.Canonical dir)
    (enough : tree.extent dir ≤ levels) :
    e ∈ tree.preorder levels dir ↔
      tree.find? e.1 = some e.2 ∧ Path.isWithin e.1 dir = true := by
  refine ⟨isWithin_of_mem_preorder h.keyed hd, ?_⟩
  rintro ⟨found, within⟩
  induction levels generalizing dir with
  | zero =>
    have := extent_pos found within
    omega
  | succ levels ih =>
    obtain ⟨c, child, same | ⟨isDir, deeper⟩⟩ := h.exists_child hd found within
    · exact mem_preorder_succ.2 ⟨c, child, .inl same⟩
    · have fewer := extent_lt h.keyed hd child
      obtain ⟨-, canonical, -⟩ := h.keyed.child hd child
      exact mem_preorder_succ.2 ⟨c, child, .inr ⟨isDir, ih canonical (by omega) deeper⟩⟩

/-- More levels than enough change nothing. -/
theorem preorder_congr (h : tree.Sound) (hd : Path.Canonical dir) {more : Nat}
    (enough : tree.extent dir ≤ levels) (enough' : tree.extent dir ≤ more) :
    tree.preorder levels dir = tree.preorder more dir := by
  have asymm : ∀ a b : Bytes × Inode, Path.components a.1 < Path.components b.1 →
      Path.components b.1 < Path.components a.1 → a = b :=
    fun a b lt gt => absurd (List.lt_trans lt gt) (List.lt_irrefl _)
  have nodup : ∀ n, (tree.preorder n dir).Nodup := by
    refine fun n => (pairwise_preorder h.keyed hd n).imp ?_
    rintro a b lt rfl
    exact List.lt_irrefl _ lt
  refine List.Perm.eq_of_pairwise (fun a b _ _ => asymm a b) (pairwise_preorder h.keyed hd levels)
    (pairwise_preorder h.keyed hd more) ?_
  refine (List.perm_ext_iff_of_nodup (nodup levels) (nodup more)).2 fun e => ?_
  rw [mem_preorder_iff h hd enough, mem_preorder_iff h hd enough']

/-! ## By the path that a visit has come by -/

/-- A child that is no link is led to by its name behind a path that leads to the directory. -/
theorem realPath_child {name : Bytes} (real : tree.realPath path = .ok dir)
    (hp : Path.Canonical path) (isDir : tree.IsDir dir) (proper : Path.Proper name)
    (found : tree.find? (Path.join dir name) = some node) (notLink : node.isSymlink = false) :
    tree.realPath (Path.join path name) = .ok (Path.join dir name) := by
  obtain ⟨links, le, walks⟩ := realPath_eq_ok_iff.1 real
  rw [hp] at walks
  refine realPath_eq_ok_iff.2 ⟨links + 0, le, ?_⟩
  rw [Path.canonical_join hp proper, Path.components_join hp proper]
  exact walks.append (.enter found notLink (by simp) (.here _)) Path.canonical_root
    (Path.proper_components hp) fun _ _ _ => isDir.of_find?

/-- A text behind one that ends in a name follows behind a slash. -/
theorem showBelow_showBelow {name : Bytes} (proper : Path.Proper name) (shown rest : Bytes) :
    showBelow (showBelow shown name) rest = showBelow shown (name ++ Ascii.slash :: rest) := by
  have last : ∀ text : Bytes, (text ++ name).getLast? ≠ some Ascii.slash := by
    intro text slash
    rw [List.getLast?_append, Option.or_eq_some_iff] at slash
    rcases slash with mem | ⟨none, -⟩
    · exact proper.no_slash (List.mem_of_getLast? mem)
    · exact proper.ne_nil (List.getLast?_eq_none_iff.1 none)
  have nonempty : ∀ text : Bytes, (text ++ name).isEmpty = false := by
    intro text
    simp [proper.ne_nil]
  have behind : ∀ text : Bytes,
      showBelow (text ++ name) rest = text ++ (name ++ Ascii.slash :: rest) := by
    intro text
    simp only [showBelow, nonempty text, Bool.false_or, beq_iff_eq, if_neg (last text),
      List.append_assoc]
  rw [showBelow.eq_def shown, showBelow.eq_def shown]
  split
  · exact behind shown
  · have := behind (shown ++ [Ascii.slash])
    simpa using this

/-- How a visit shows a record below the directory that its path leads to. -/
def place (path shown dir : Bytes) (e : Bytes × Inode) : Visited where
  path := Path.join path (Path.behind dir e.1)
  shown := showBelow shown (Path.behind dir e.1)
  entry := entryOf e

/-- From a child on, the visit shows the same. -/
theorem place_child (h : tree.Keyed) (hp : Path.Canonical path) (hd : Path.Canonical dir)
    (child : c ∈ tree.children dir) (found : tree.find? e.1 = some e.2)
    (within : Path.isWithin e.1 c.1 = true) :
    place (Path.join path (Path.base c.1)) (showBelow shown (Path.base c.1)) c.1 e =
      place path shown dir e := by
  obtain ⟨-, canonical, ne, parent, inside⟩ := h.child hd child
  have proper := Path.proper_base canonical ne
  have seen : Path.behind dir e.1 =
      Path.base c.1 ++ Ascii.slash :: Path.behind c.1 e.1 := by
    have pre := ((Path.isWithin_iff_below (h _ _ found).1 canonical).1 within).1
    have deeper := Path.behind_join_of_isWithin canonical hd inside (Path.behind c.1 e.1)
    rwa [Path.join_behind pre, Path.behind_of_parent canonical ne parent] at deeper
  have way : Path.join (Path.join path (Path.base c.1)) (Path.behind c.1 e.1) =
      Path.join path (Path.base c.1 ++ Ascii.slash :: Path.behind c.1 e.1) := by
    rw [Path.join, if_neg (Path.join_ne_root hp proper), Path.join_eq_below_append,
      Path.join_eq_below_append, List.append_assoc]
  rw [place, place, seen, way, showBelow_showBelow proper]

/-- **A visit** by a path that leads to a directory comes to what stands below the directory. -/
theorem visitWithin_eq (h : tree.Keyed) (real : tree.realPath path = .ok dir)
    (hp : Path.Canonical path) (isDir : tree.IsDir dir) (levels : Nat) (shown : Bytes) :
    tree.visitWithin levels path shown =
      (tree.preorder levels dir).map (place path shown dir) := by
  induction levels generalizing path shown dir with
  | zero => rfl
  | succ levels ih =>
    have hd := (straight_of_realPath real).1
    rw [visitWithin, (list_eq_ok_iff h).2 ⟨dir, real, isDir, rfl⟩]
    dsimp only
    rw [List.flatMap_map, preorder, List.map_flatMap]
    refine List.flatMap_congr fun c child => ?_
    obtain ⟨found, canonical, ne, parent, -⟩ := h.child hd child
    have proper := Path.proper_base canonical ne
    have whole : Path.join dir (Path.base c.1) = c.1 := parent ▸ Path.join_parent_base canonical ne
    have name : Path.behind dir c.1 = Path.base c.1 := Path.behind_of_parent canonical ne parent
    have first : place path shown dir c =
        ⟨Path.join path (Path.base c.1), showBelow shown (Path.base c.1), entryOf c⟩ := by
      rw [place, name]
    rw [List.map_cons, first]
    congr 1
    cases dir' : c.2.isDirectory with
    | false =>
      rw [if_neg (by simp [kind_entryOf_iff, dir'])]
      rfl
    | true =>
      have real' := realPath_child real hp isDir proper (by rw [whole]; exact found)
        (isSymlink_of_isDirectory dir')
      rw [whole] at real'
      rw [if_pos (kind_entryOf_iff.2 dir'), if_pos rfl]
      change tree.visitWithin levels (Path.join path (Path.base c.1))
        (showBelow shown (Path.base c.1)) = _
      rw [ih real' (Path.canonical_join hp proper) ⟨c.2, found, dir'⟩]
      refine List.map_congr_left fun e mem => ?_
      obtain ⟨there, within⟩ := isWithin_of_mem_preorder h canonical mem
      exact place_child h hp hd child there within

/-- **More levels** than there are records change nothing. -/
theorem visitWithin_congr (h : tree.Sound) (real : tree.realPath path = .ok dir)
    (hp : Path.Canonical path) (isDir : tree.IsDir dir) (enough : tree.size < levels)
    (shown : Bytes) : tree.visitWithin levels path shown = tree.visit path shown := by
  have hd := (straight_of_realPath real).1
  have le := tree.extent_le_size dir
  rw [visit, visitWithin_eq h.keyed real hp isDir, visitWithin_eq h.keyed real hp isDir,
    preorder_congr h hd (by omega) (by omega : tree.extent dir ≤ tree.size + 1)]

end Tree

end VirtualShell
