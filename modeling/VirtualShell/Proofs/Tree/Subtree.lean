import VirtualShell.Proofs.Tree.Canonical
import VirtualShell.Tree.Lookup

/-!
# What stands below a directory

A scan from a directory's path and a slash on reads exactly the records whose paths start so
(`mem_descendants_iff`), and says whether there is one (`hasChildren_eq`). Under canonical paths
these are the records that lie within the directory (`keys_descendants`), whatever bytes its
siblings' names go on with: in byte order no key comes between two that start alike.

* `isWithin_iff_below`, `isWithin_iff_components`: to lie within a directory is to start with its
  path and a slash, and to go on from its components.
* `isWithin_iff_parent`: a path lies within a directory when its parent is the directory or lies
  within it.
* `rekey_ofStack`: moving a path from below one directory to below another exchanges the tails of
  the stacks, so that parents are moved to parents (`rekey_spec`).
-/

namespace VirtualShell

namespace Path

theorem isWithin_iff_below {path dir : Bytes} (hp : Canonical path) (hd : Canonical dir) :
    isWithin path dir = true ↔ (below dir).isPrefixOf path = true ∧ path ≠ dir := by
  obtain ⟨stack, hs, rfl⟩ := canonical_iff.1 hp
  by_cases root : dir = Path.root
  · subst root
    have absolute : Path.root.isPrefixOf (ofStack stack) = true := by
      have := isAbsolute_ofStack stack
      cases h : ofStack stack with
      | nil => simp [isAbsolute, h] at this
      | cons c rest =>
        have slash : c = Ascii.slash := by simpa [isAbsolute, h] using this
        simp [Path.root, slash]
    simp [isWithin, below, absolute]
  · have within : isWithin (ofStack stack) dir = (below dir).isPrefixOf (ofStack stack) := by
      simp [isWithin, root]
    rw [within, below, if_neg root]
    refine ⟨fun h => ⟨h, ?_⟩, And.left⟩
    rintro rfl
    have := (List.isPrefixOf_iff_prefix.1 h).length_le
    rw [List.length_append, List.length_singleton] at this
    omega

/-- **Within by parents**: one step up, a path within a directory is at it or still within. -/
theorem isWithin_iff_parent {path dir : Bytes} (hp : Canonical path) (hd : Canonical dir)
    (ne : path ≠ root) :
    isWithin path dir = true ↔ parent path = dir ∨ isWithin (parent path) dir = true := by
  obtain ⟨stack, hs, rfl⟩ := canonical_iff.1 hp
  obtain ⟨top, ht, rfl⟩ := canonical_iff.1 hd
  cases stack with
  | nil => exact absurd rfl ne
  | cons part stack =>
    rw [parent_ofStack_cons hs, isWithin_ofStack ht hs, isWithin_ofStack ht hs.tail]
    constructor
    · rintro ⟨below, more, e⟩
      obtain ⟨first, others, rfl⟩ := List.exists_cons_of_ne_nil more
      obtain ⟨-, rfl⟩ := List.cons.inj e
      by_cases h : others = []
      · exact .inl (by simp [h])
      · exact .inr ⟨others, h, rfl⟩
    · rintro (e | ⟨below, more, rfl⟩)
      · exact ⟨[part], by simp, by rw [ofStack_injective hs.tail ht e]; rfl⟩
      · exact ⟨part :: below, by simp, rfl⟩

theorem isWithin_root_eq_false {dir : Bytes} (h : Canonical dir) : isWithin root dir = false := by
  refine Bool.eq_false_iff.2 fun within => ?_
  obtain ⟨top, ht, rfl⟩ := canonical_iff.1 h
  obtain ⟨below, more, e⟩ := (isWithin_ofStack ht .nil).1 within
  exact more (List.append_eq_nil_iff.1 e.symm).1

/-- An entry of a directory lies within it. -/
theorem isWithin_join {dir name : Bytes} (hd : Canonical dir) (hn : Proper name) :
    isWithin (join dir name) dir = true :=
  (isWithin_iff_parent (canonical_join hd hn) hd (join_ne_root hd hn)).2
    (.inl (parent_join hd hn))

theorem isWithin_trans {path middle dir : Bytes} (hp : Canonical path) (hm : Canonical middle)
    (hd : Canonical dir) (inner : isWithin path middle = true)
    (outer : isWithin middle dir = true) : isWithin path dir = true := by
  obtain ⟨p, proper, rfl⟩ := canonical_iff.1 hp
  obtain ⟨m, proper', rfl⟩ := canonical_iff.1 hm
  obtain ⟨d, proper'', rfl⟩ := canonical_iff.1 hd
  obtain ⟨below, more, rfl⟩ := (isWithin_ofStack proper' proper).1 inner
  obtain ⟨above, -, rfl⟩ := (isWithin_ofStack proper'' proper').1 outer
  exact (isWithin_ofStack proper'' proper).2 ⟨below ++ above, by simp [more], by simp⟩

/-- The components of a path go on from those of what it lies within. -/
theorem components_of_isWithin {path dir : Bytes} (hp : Canonical path) (hd : Canonical dir)
    (within : isWithin path dir = true) :
    ∃ part more, components path = components dir ++ part :: more := by
  obtain ⟨stack, proper, rfl⟩ := canonical_iff.1 hp
  obtain ⟨above, upper, rfl⟩ := canonical_iff.1 hd
  obtain ⟨below, some, rfl⟩ := (isWithin_ofStack upper proper).1 within
  obtain ⟨part, more, e⟩ := List.exists_cons_of_ne_nil (List.reverse_ne_nil_iff.2 some)
  refine ⟨part, more, ?_⟩
  rw [components_ofStack proper, components_ofStack upper, List.reverse_append, e]

/-- **Within by components**: a path within a directory goes on from the components of it. -/
theorem isWithin_iff_components {path dir : Bytes} (hp : Canonical path) (hd : Canonical dir) :
    isWithin path dir = true ↔
      ∃ part more, components path = components dir ++ part :: more := by
  refine ⟨components_of_isWithin hp hd, ?_⟩
  rintro ⟨part, more, parts⟩
  obtain ⟨stack, proper, rfl⟩ := canonical_iff.1 hp
  obtain ⟨above, upper, rfl⟩ := canonical_iff.1 hd
  rw [components_ofStack proper, components_ofStack upper] at parts
  have split : stack = (part :: more).reverse ++ above := by
    simpa using congrArg List.reverse parts
  exact (isWithin_ofStack upper proper).2 ⟨(part :: more).reverse, by simp, split⟩

/-- The parent of a path comes before it in byte order. -/
theorem parent_lt {path : Bytes} (h : Canonical path) (ne : path ≠ root) : parent path < path := by
  have prefix_lt : ∀ (a b : Bytes), b ≠ [] → a < a ++ b := by
    intro a b hb
    obtain ⟨c, rest, rfl⟩ := List.exists_cons_of_ne_nil hb
    induction a with
    | nil => exact List.nil_lt_cons _ _
    | cons d a ih => exact List.cons_lt_cons_iff.2 (.inr ⟨rfl, ih⟩)
  obtain ⟨stack, hs, rfl⟩ := canonical_iff.1 h
  cases stack with
  | nil => exact absurd rfl ne
  | cons part stack =>
    rw [parent_ofStack_cons hs]
    cases stack with
    | nil =>
      have := prefix_lt root part hs.head.ne_nil
      simpa [ofStack, root] using this
    | cons next others =>
      have := prefix_lt (ofStack (next :: others)) (Ascii.slash :: part) (by simp)
      rwa [ofStack_of_ne_nil (by simp), ← ofStack_cons] at this

theorem parent_ne {path : Bytes} (h : Canonical path) (ne : path ≠ root) : parent path ≠ path := by
  intro e
  have before := parent_lt h ne
  rw [e] at before
  exact List.lt_irrefl _ before

/-! ## Moving paths -/

theorem rekey_self (source target : Bytes) : rekey source source target = target := by
  simp [rekey]

theorem rekey_append (source rest target : Bytes) :
    rekey (source ++ rest) source target = target ++ rest := by
  simp [rekey]

theorem rekey_ofStack {below source target : List Bytes} (hs : source ≠ []) (ht : target ≠ []) :
    rekey (ofStack (below ++ source)) (ofStack source) (ofStack target) =
      ofStack (below ++ target) := by
  rw [rekey, ofStack_append hs, ofStack_append ht, List.drop_left]

/-- **A path that is moved** from within one directory comes to lie within the other, and its
parent goes with it. -/
theorem rekey_spec {path source target : Bytes} (hp : Canonical path) (hs : Canonical source)
    (ht : Canonical target) (notRoot : source ≠ root) (notRoot' : target ≠ root)
    (within : isWithin path source = true) :
    Canonical (rekey path source target) ∧ isWithin (rekey path source target) target = true ∧
      parent (rekey path source target) = rekey (parent path) source target := by
  obtain ⟨stack, hstack, rfl⟩ := canonical_iff.1 hp
  obtain ⟨s, hs', rfl⟩ := canonical_iff.1 hs
  obtain ⟨t, ht', rfl⟩ := canonical_iff.1 ht
  have sne : s ≠ [] := fun e => notRoot (by rw [e, ofStack_nil])
  have tne : t ≠ [] := fun e => notRoot' (by rw [e, ofStack_nil])
  obtain ⟨below, more, rfl⟩ := (isWithin_ofStack hs' hstack).1 within
  have hb : ProperStack (below ++ t) :=
    .append (fun p hp => hstack p (List.mem_append_left _ hp)) ht'
  rw [rekey_ofStack sne tne]
  refine ⟨canonical_ofStack hb, (isWithin_ofStack ht' hb).2 ⟨below, more, rfl⟩, ?_⟩
  obtain ⟨part, others, rfl⟩ := List.exists_cons_of_ne_nil more
  rw [List.cons_append] at hb hstack ⊢
  rw [List.cons_append, parent_ofStack_cons hb, parent_ofStack_cons hstack, rekey_ofStack sne tne]

/-- Below one directory no two paths are moved to the same place. -/
theorem rekey_injective {path path' source target : Bytes} (h : source.isPrefixOf path = true)
    (h' : source.isPrefixOf path' = true)
    (e : rekey path source target = rekey path' source target) : path = path' := by
  obtain ⟨rest, rfl⟩ := List.isPrefixOf_iff_prefix.1 h
  obtain ⟨rest', rfl⟩ := List.isPrefixOf_iff_prefix.1 h'
  simpa [rekey] using e

theorem isPrefixOf_of_isWithin {path dir : Bytes} (hp : Canonical path) (hd : Canonical dir)
    (h : isWithin path dir = true) : dir.isPrefixOf path = true := by
  obtain ⟨rest, rfl⟩ := List.isPrefixOf_iff_prefix.1 ((isWithin_iff_below hp hd).1 h).1
  rw [List.isPrefixOf_iff_prefix, below]
  split
  next root => exact root ▸ List.prefix_append _ _
  · rw [List.append_assoc]
    exact List.prefix_append _ _

end Path

namespace Tree

variable {tree : Tree}

theorem mem_descendants_iff {dir key : Bytes} {node : Inode} :
    (key, node) ∈ tree.descendants dir ↔
      tree.find? key = some node ∧ (Path.below dir).isPrefixOf key = true ∧ key ≠ dir := by
  rw [descendants, List.mem_filter, ByteMap.mem_scan_iff, ByteMap.mem_entries_iff, and_assoc]
  simp

/-- The first entry behind the directory itself tells whether anything stands below it. -/
theorem hasChildren_eq (tree : Tree) (dir : Bytes) :
    tree.hasChildren dir = !(tree.descendants dir).isEmpty := by
  have sorted : (tree.entriesFrom (Path.below dir)).Pairwise (fun a b => a.1 < b.1) :=
    tree.sorted.sublist (List.dropWhile_sublist _)
  have low : ∀ e rest, tree.entriesFrom (Path.below dir) = e :: rest → ¬ e.1 < Path.below dir := by
    intro e rest he
    have := List.head?_dropWhile_not (fun e => decide (e.1 < Path.below dir)) tree.entries
    rw [← ByteMap.entriesFrom, he] at this
    simpa using this
  simp only [hasChildren, descendants, ByteMap.scan]
  generalize tree.entriesFrom (Path.below dir) = l at sorted low
  cases l with
  | nil => rfl
  | cons e rest =>
    obtain ⟨key, node⟩ := e
    by_cases self : key = dir
    · -- the directory comes first only if its own path is what the paths below it start with
      subst key
      cases rest with
      | nil => cases h : (Path.below dir).isPrefixOf dir <;> simp [h]
      | cons next others =>
        have lt := (List.pairwise_cons.1 sorted).1 next List.mem_cons_self
        have other : next.1 ≠ dir := fun h => List.lt_irrefl _ (h ▸ lt)
        cases h : (Path.below dir).isPrefixOf next.1 with
        | true =>
          have here := ByteMap.isPrefixOf_of_between (low _ _ rfl) lt h
          simp [here, h, other]
        | false =>
          cases here : (Path.below dir).isPrefixOf dir <;> simp [here, h]
    · cases here : (Path.below dir).isPrefixOf key <;>
        simp [self, here]

theorem hasChildren_eq_false_iff {dir : Bytes} :
    tree.hasChildren dir = false ↔ tree.descendants dir = [] := by
  simp [hasChildren_eq]

theorem hasChildren_iff {dir : Bytes} :
    tree.hasChildren dir = true ↔ ∃ key, key ∈ (tree.descendants dir).map (·.1) := by
  rw [hasChildren_eq, Bool.not_eq_true', ← List.isEmpty_map (f := (·.1)),
    List.isEmpty_eq_false_iff_exists_mem]

/-- Under canonical keys the scan reads those that lie within the directory. -/
theorem keys_descendants {dir : Bytes} (canonical : ∀ key ∈ tree.keys, Path.Canonical key)
    (hd : Path.Canonical dir) :
    (tree.descendants dir).map (·.1) = tree.keys.filter (Path.isWithin · dir) := by
  rw [descendants, ByteMap.scan_eq_filter, List.filter_filter, ByteMap.keys, List.filter_map]
  refine congrArg _ (List.filter_congr fun e mem => ?_)
  have hk := canonical e.1 (List.mem_map_of_mem mem)
  rw [Function.comp_apply, Bool.eq_iff_iff, Path.isWithin_iff_below hk hd, Bool.and_eq_true,
    bne_iff_ne, and_comm]

/-- **The scans below a directory are complete.** Whatever names stand beside the directory, a scan
from its path and a slash on to the first key that does not start so reads the keys that lie within
it and no others, each once and in byte order, and the first entry tells whether there is one. To
lie within it is to go on from its components, as no sibling does. -/
theorem descendants_complete {dir : Bytes}
    (canonical : ∀ key ∈ tree.keys, Path.Canonical key) (hd : Path.Canonical dir) :
    ((tree.descendants dir).map (·.1)).Pairwise (· < ·) ∧
      (∀ key, key ∈ (tree.descendants dir).map (·.1) ↔
        key ∈ tree.keys ∧ Path.isWithin key dir = true) ∧
      (tree.hasChildren dir = true ↔ ∃ key ∈ tree.keys, Path.isWithin key dir = true) ∧
      ∀ key ∈ tree.keys, Path.isWithin key dir = true ↔
        ∃ part more, Path.components key = Path.components dir ++ part :: more := by
  have keys := keys_descendants canonical hd
  refine ⟨?_, fun key => ?_, ?_, fun key mem => ?_⟩
  · rw [keys]
    exact tree.pairwise_keys.filter _
  · rw [keys, List.mem_filter]
  · rw [hasChildren_iff, keys]
    exact exists_congr fun key => List.mem_filter
  · exact Path.isWithin_iff_components (canonical key mem) hd

/-- Beside `/a` stand names that go on from its own with bytes before and behind the slash, and not
all keys have a parent. -/
theorem descendants_complete_among_siblings :
    let tree : Tree := ByteMap.ofList <|
      ["/", "/a", "/a!", "/a!/x", "/a-/y", "/a/b", "/a/b/c", "/a0", "/ab/c"].map fun path =>
        (ascii path, Inode.newDirectory (ascii path) .root 0)
    (∀ key ∈ tree.keys, Path.Canonical key) ∧
      (Path.Canonical (ascii "/a") ∧ tree.hasChildren (ascii "/a") = true ∧
        (tree.descendants (ascii "/a")).map (·.1) = [ascii "/a/b", ascii "/a/b/c"] ∧
        ∀ key, key ∈ [ascii "/a/b", ascii "/a/b/c"] ↔
          key ∈ tree.keys ∧ Path.isWithin key (ascii "/a") = true) ∧
      Path.Canonical (ascii "/a0") ∧ tree.hasChildren (ascii "/a0") = false ∧
        ∀ key ∈ tree.keys, Path.isWithin key (ascii "/a0") = false := by
  intro tree
  have canonical : ∀ key ∈ tree.keys, Path.resolve key = key := by decide +kernel
  have here : Path.resolve (ascii "/a") = ascii "/a" := by decide
  have there : Path.resolve (ascii "/a0") = ascii "/a0" := by decide
  have read : (tree.descendants (ascii "/a")).map (·.1) = [ascii "/a/b", ascii "/a/b/c"] ∧
      tree.hasChildren (ascii "/a") = true ∧ tree.hasChildren (ascii "/a0") = false := by
    decide +kernel
  clear_value tree
  obtain ⟨keys, some, none⟩ := read
  obtain ⟨-, exact, -, -⟩ := descendants_complete canonical here
  obtain ⟨-, -, children, -⟩ := descendants_complete canonical there
  rw [keys] at exact
  refine ⟨canonical, ⟨here, some, keys, exact⟩, there, none, fun key mem => ?_⟩
  refine Bool.eq_false_iff.2 fun within => ?_
  rw [children.2 ⟨key, mem, within⟩] at none
  cases none

end Tree

end VirtualShell
