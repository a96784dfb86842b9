import VirtualShell.Builtin.Search
import VirtualShell.Proofs.Relocation
import VirtualShell.Proofs.Tree.Entry
import VirtualShell.Proofs.Tree.Visit

/-!
# Listing and finding all there is

What a listing and `find` show of a sound tree, told by the keys of the tree (`traversal`): a
listing shows the keys whose parent is the directory, and `find`, asked about a directory and
nothing else, shows the keys that lie within it. Neither shows a key twice.

* `realPath_of_lstat`: what is looked up and is no link is where the path leads.
* `Builtin.run_find`, `Tree.find_of_directory`: asked about one directory, `find` shows what a visit
  comes to.
* `Tree.list_lists`, `Tree.visit_visits`: a listing and a visit, told by keys.
-/

namespace VirtualShell

namespace Tree

variable {tree : Tree} {path shown : Bytes} {node : Inode}

/-- What is looked up and is no link is where the path leads. -/
theorem realPath_of_lstat (h : tree.Sound) (lstat : tree.lstat path = .ok node)
    (notLink : node.isSymlink = false) :
    ∃ place, tree.realPath path = .ok place ∧ tree.find? place = some node := by
  obtain ⟨entry, leads, found⟩ := lstat_eq_ok_iff.1 lstat
  refine ⟨entry, ?_, found⟩
  by_cases top : entry = Path.root
  · rcases entryPath_eq_ok_iff.1 leads with ⟨root, -⟩ | ⟨ne, dir, real, rfl⟩
    · rw [realPath_eq_ok_iff, root, top]
      exact ⟨0, Nat.zero_le _, .here _⟩
    · have proper := Path.proper_base (Path.canonical_resolve path Path.root []) ne
      exact absurd top (Path.join_ne_root (straight_of_realPath real).1 proper)
  · obtain ⟨ne, dir, rfl, straight, links, le, walks⟩ := dir_of_entryPath leads top
    have proper := Path.proper_base (Path.canonical_resolve path Path.root []) ne
    have isDir := h.parents _ _ found top
    rw [Path.parent_join straight.1 proper] at isDir
    exact realPath_eq_ok_iff.2 ⟨links, le, walks_to_entry ne straight walks isDir found notLink⟩

/-- Without predicates all that a visit comes to is shown, behind the directory itself. -/
theorem find_of_directory (lstat : tree.lstat path = .ok node) (isDir : node.isDirectory = true) :
    tree.find {} path shown = .ok (shown :: (tree.visit path shown).map (·.shown)) := by
  have all : ∀ name kind, FindFilter.accepts {} name kind = true := fun _ _ => rfl
  rw [find, lstat]
  simp [bind, Except.bind, pure, Except.pure, all, isDir]

end Tree

namespace Builtin

open ShellAction

/-- What `find` does about one place: the texts to show, and whether all went well. -/
def findPlace (c : Call) (R : Bytes) : ShellAction (List Bytes × Bool) := do
  let shown := (← tree).find {} (← resolve R) R
  let good ← check c.name shown
  return (shown.toOption.getD [], good)

theorem run_findPlace {w : World} {c : Call} {R : Bytes} {lines : List Bytes}
    (found : w.system.tree.find {} (w.session.resolve R) R = .ok lines) :
    (findPlace c R).run w = ⟨(lines, true), [], w⟩ := by
  rw [findPlace, run_tree_bind]
  simp only [resolve, bind_assoc, pure_bind]
  rw [run_session_bind, found]
  rfl

/-- Asked about one place and nothing else, `find` writes what it finds there. -/
theorem invoke_find {c : Call} {R : Bytes} (words : c.arguments = [R])
    (operand : R.head? ≠ some Ascii.minus) :
    find.invoke c = do
      let (lines, good) ← findPlace c R
      out (Bytes.unlines lines)
      return statusOf [good] := by
  have noDash : ∀ text : Bytes, text.head? = some Ascii.minus → R ≠ text := by
    rintro text dash rfl
    exact operand dash
  have noHelp : asksForHelp c = false := by
    simp [asksForHelp, words, noDash (ascii "--help") rfl, noDash (ascii "-h") rfl]
  have read : FindFilter.read {} c.arguments = .ok ({}, [R]) := by
    rw [words, FindFilter.read, if_neg (noDash _ rfl), if_neg (noDash _ rfl), if_neg operand]
    rfl
  rw [invoke, if_neg (by rw [noHelp]; decide)]
  simp only [find, read, List.isEmpty_cons, Bool.false_eq_true, if_false, List.mapM_cons,
    List.mapM_nil, bind_assoc, pure_bind, List.flatMap_cons, List.flatMap_nil, List.append_nil,
    List.map_cons, List.map_nil, findPlace]

/-- **Asked about one place** and nothing else, `find` writes a line for each text that it finds. -/
theorem run_find {w : World} {c : Call} {R : Bytes} {lines : List Bytes} (words : c.arguments = [R])
    (operand : R.head? ≠ some Ascii.minus)
    (found : w.system.tree.find {} (w.session.resolve R) R = .ok lines) :
    (find.invoke c).run w = ⟨0, [.out (Bytes.unlines lines)], w⟩ := by
  rw [invoke_find words operand, run_bind, run_findPlace found]
  rfl

end Builtin

/-! ## All there is -/

namespace Tree

variable {tree : Tree} {path shown dir : Bytes}

/-- **A listing** has an entry for each key whose parent is the directory, and no other, in strict
byte order of the names. -/
theorem list_lists (h : tree.Sound) {entries : List DirEntry}
    (listed : tree.list path = .ok entries) :
    ∃ dir, tree.realPath path = .ok dir ∧
      (∀ entry, entry ∈ entries ↔ ∃ key node, tree.find? key = some node ∧ key ≠ Path.root ∧
        Path.parent key = dir ∧
        entry = ⟨Path.base key, node.kind, node.mode, node.size, node.modified⟩) ∧
      entries.Pairwise fun a b => a.name < b.name := by
  obtain ⟨dir, real, -, rfl⟩ := (list_eq_ok_iff h.keyed).1 listed
  refine ⟨dir, real, fun entry => ?_, List.pairwise_map.2 (pairwise_base_children h.keyed dir)⟩
  rw [List.mem_map]
  constructor
  · rintro ⟨⟨key, node⟩, mem, rfl⟩
    obtain ⟨found, ne, parent⟩ := mem_children_iff.1 mem
    exact ⟨key, node, found, ne, parent, rfl⟩
  · rintro ⟨key, node, found, ne, parent, rfl⟩
    exact ⟨(key, node), mem_children_iff.2 ⟨found, ne, parent⟩, rfl⟩

/-- **A visit** by a path to a directory shows each key that lies within the directory, and no
other, once, in the order of components; it does so however many levels there may be. -/
theorem visit_visits (h : tree.Sound) (real : tree.realPath path = .ok dir)
    (hp : Path.Canonical path) (isDir : tree.IsDir dir) (shown : Bytes) :
    ∃ keys : List Bytes,
      (tree.visit path shown).map (·.shown) =
        keys.map (fun key => showBelow shown (Path.behind dir key)) ∧
      (∀ key, key ∈ keys ↔ tree.contains key = true ∧ Path.isWithin key dir = true) ∧
      keys.Pairwise fun a b => Path.components a < Path.components b := by
  have hd := (straight_of_realPath real).1
  have enough : tree.extent dir ≤ tree.size + 1 := by
    have := tree.extent_le_size dir
    omega
  refine ⟨(tree.preorder (tree.size + 1) dir).map (·.1), ?_, fun key => ?_,
    List.pairwise_map.2 (pairwise_preorder h.keyed hd _)⟩
  · rw [visit, visitWithin_eq h.keyed real hp isDir, List.map_map, List.map_map]
    rfl
  · simp only [List.mem_map, mem_preorder_iff h hd enough, ByteMap.contains_eq_true_iff]
    constructor
    · rintro ⟨e, ⟨found, within⟩, rfl⟩
      exact ⟨⟨e.2, found⟩, within⟩
    · rintro ⟨⟨node, found⟩, within⟩
      exact ⟨(key, node), ⟨found, within⟩, rfl⟩

end Tree

/-- **What is listed and found of a sound tree.** A listing that succeeds has one entry for each
key, but the root, whose parent the path leads to: the name, kind, mode, size and time of the
record, in strict byte order of the names, and nothing else. Asked about one directory, which may be
reached over links, `find` writes the text it was asked about and then one line for each key that
lies within the directory, a directory before its contents and siblings in byte order; going down
further than there are records would show no more. -/
theorem traversal {w : World} (sound : w.system.tree.Sound) :
    (∀ path entries, w.system.tree.list path = .ok entries →
      ∃ dir, w.system.tree.realPath path = .ok dir ∧
        (∀ entry, entry ∈ entries ↔ ∃ key node, w.system.tree.find? key = some node ∧
          key ≠ Path.root ∧ Path.parent key = dir ∧
          entry = ⟨Path.base key, node.kind, node.mode, node.size, node.modified⟩) ∧
        entries.Pairwise fun a b => a.name < b.name) ∧
    ∀ (c : Call) (R : Bytes) (node : Inode), c.arguments = [R] → R.head? ≠ some Ascii.minus →
      w.system.tree.lstat (w.session.resolve R) = .ok node → node.isDirectory = true →
      ∃ (top : Bytes) (keys : List Bytes),
        w.system.tree.realPath (w.session.resolve R) = .ok top ∧
        (Builtin.find.invoke c).run w =
          ⟨0, [.out (Bytes.unlines
            (R :: keys.map fun key => Tree.showBelow R (Path.behind top key)))], w⟩ ∧
        (∀ key, key ∈ keys ↔
          w.system.tree.contains key = true ∧ Path.isWithin key top = true) ∧
        keys.Nodup ∧
        (keys.Pairwise fun a b => Path.components a < Path.components b ∧
          Path.isWithin a b = false ∧
          (Path.parent a = Path.parent b → Path.base a < Path.base b)) ∧
        ∀ levels, w.system.tree.size < levels →
          w.system.tree.visitWithin levels (w.session.resolve R) R =
            w.system.tree.visit (w.session.resolve R) R := by
  refine ⟨fun path entries listed => Tree.list_lists sound listed, ?_⟩
  intro c R node words operand lstat isDir
  obtain ⟨top, real, found⟩ :=
    Tree.realPath_of_lstat sound lstat (Tree.isSymlink_of_isDirectory isDir)
  have canonical : Path.Canonical (w.session.resolve R) := Path.canonical_resolve ..
  have hd := (Tree.straight_of_realPath real).1
  have isDir' : w.system.tree.IsDir top := ⟨node, found, isDir⟩
  obtain ⟨keys, shown, all, ordered⟩ := Tree.visit_visits sound real canonical isDir' R
  have run := Builtin.run_find words operand (Tree.find_of_directory lstat isDir)
  rw [shown] at run
  refine ⟨top, keys, real, run, all, ordered.imp ?_, ordered.imp_of_mem ?_, fun levels enough =>
    Tree.visitWithin_congr sound real canonical isDir' enough R⟩
  · rintro a b lt rfl
    exact List.lt_irrefl _ lt
  · intro a b ha hb lt
    have below : ∀ key ∈ keys, Path.Canonical key ∧ key ≠ Path.root := by
      intro key mem
      obtain ⟨there, within⟩ := (all key).1 mem
      obtain ⟨record, found⟩ := ByteMap.contains_eq_true_iff.1 there
      exact ⟨(sound.keyed _ _ found).1, Path.ne_root_of_isWithin hd within⟩
    exact ⟨lt, Path.before_of_components_lt (below a ha).1 (below b hb).1 (below a ha).2
      (below b hb).2 lt⟩

/-- Over a link to a directory in which one name goes on from that of a directory: the keys stand
between that of the directory and those of its contents, the lines do not. -/
theorem traversal_over_link :
    let fs := FileSystem.seededWith [.makeDirectory (ascii "/etc/d/x/y") true,
      .write (ascii "/etc/d/x-") (ascii "b"), .link (ascii "/etc") (ascii "/tmp/e")]
    let w : World := { session := {}, system := fs, now := 2 }
    let c : Call := { name := ascii "find", arguments := [ascii "/tmp/e/d"] }
    fs.tree.Sound ∧
      (∃ entries, fs.tree.list (ascii "/tmp/e/d") = .ok entries ∧
        entries.map (·.name) = [ascii "x", ascii "x-"] ∧
        entries.Pairwise fun a b => a.name < b.name) ∧
      ∃ keys : List Bytes,
        (Builtin.find.invoke c).run w =
          ⟨0, [.out (Bytes.unlines (ascii "/tmp/e/d" :: keys.map fun key =>
            Tree.showBelow (ascii "/tmp/e/d") (Path.behind (ascii "/etc/d") key)))], w⟩ ∧
        (∀ key, key ∈ keys ↔
          fs.tree.contains key = true ∧ Path.isWithin key (ascii "/etc/d") = true) ∧
        ascii "/etc/d/x/y" ∈ keys ∧ keys.Nodup := by
  intro fs w c
  have sound : fs.tree.Sound := FileSystem.sound_seededWith (by simp [Edit.Merges])
  obtain ⟨lists, finds⟩ := @traversal w sound
  have run : (fs.tree.list (ascii "/tmp/e/d")).toOption.map (·.map (·.name)) =
        some [ascii "x", ascii "x-"] ∧
      (fs.tree.lstat (ascii "/tmp/e/d")).toOption.any Inode.isDirectory = true ∧
      (fs.tree.realPath (ascii "/tmp/e/d")).toOption = some (ascii "/etc/d") ∧
      fs.tree.contains (ascii "/etc/d/x/y") = true := by decide +kernel
  obtain ⟨names, dir, leads, there⟩ := run
  clear_value fs
  refine ⟨sound, ?_, ?_⟩
  · cases listed : fs.tree.list (ascii "/tmp/e/d") with
    | error fault =>
      rw [listed] at names
      cases names
    | ok entries =>
      rw [listed] at names
      obtain ⟨-, -, -, ordered⟩ := lists _ _ listed
      exact ⟨entries, rfl, Option.some.inj names, ordered⟩
  · cases lstat : fs.tree.lstat (ascii "/tmp/e/d") with
    | error fault =>
      rw [lstat] at dir
      cases dir
    | ok node =>
      rw [lstat] at dir
      obtain ⟨top, keys, real, found, all, nodup, -⟩ :=
        finds c (ascii "/tmp/e/d") node rfl (by decide) lstat dir
      obtain rfl : top = ascii "/etc/d" := by
        have real : fs.tree.realPath (ascii "/tmp/e/d") = .ok top := real
        rw [real] at leads
        exact Option.some.inj leads
      exact ⟨keys, found, all, (all _).2 ⟨there, by decide⟩, nodup⟩

/-- **The root is not listed in itself**, although it is its own parent. -/
theorem not_list_root :
    let fs := FileSystem.seededWith []
    fs.tree.Sound ∧ Path.parent Path.root = Path.root ∧
      (fs.tree.realPath Path.root).toOption = some Path.root ∧
      fs.tree.contains Path.root = true ∧
      ¬ ∀ (path : Bytes) (entries : List Tree.DirEntry) (dir : Bytes),
        fs.tree.list path = .ok entries → fs.tree.realPath path = .ok dir →
          ∀ key, fs.tree.contains key = true → Path.parent key = dir →
            ∃ entry ∈ entries, entry.name = Path.base key := by
  intro fs
  have sound : fs.tree.Sound := FileSystem.sound_seededWith (by simp)
  have run : (fs.tree.list Path.root).toOption.map (·.map (·.name)) =
        some [ascii "bin", ascii "dev", ascii "etc", ascii "home", ascii "tmp", ascii "usr",
          ascii "var"] ∧
      (fs.tree.realPath Path.root).toOption = some Path.root ∧
      fs.tree.contains Path.root = true := by decide +kernel
  obtain ⟨names, leads, there⟩ := run
  refine ⟨sound, rfl, leads, there, fun lists => ?_⟩
  clear_value fs
  cases listed : fs.tree.list Path.root with
  | error fault =>
    rw [listed] at names
    cases names
  | ok entries =>
    rw [listed] at names
    have names : entries.map (·.name) = [ascii "bin", ascii "dev", ascii "etc", ascii "home",
      ascii "tmp", ascii "usr", ascii "var"] := Option.some.inj names
    obtain ⟨entry, mem, name⟩ := lists Path.root entries Path.root listed
      (Outcome.eq_ok_of_toOption leads) Path.root there rfl
    have named : entry.name ∈ entries.map (·.name) := List.mem_map_of_mem mem
    rw [names, name] at named
    exact absurd named (by decide)

end VirtualShell
