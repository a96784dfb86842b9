import VirtualShell.Proofs.Tree.Sound

/-!
# Entries of directories

The path that an operation puts something at, or takes something from, is the name of an entry: the
directory is walked to, the name behind it is not. Here is what the walk of the whole path comes to,
from the walk to the directory and what stands there under the name (`walks_of_entry`,
`walks_to_entry`, `walks_through_link`), and when the limit of links cuts it off
(`realPath_eq_tooManyLinks_iff`).
-/

namespace VirtualShell.Tree

variable {tree : Tree} {path target : Bytes} {node : Inode}

/-! ## A name in a directory -/

theorem components_eq_nil {dir : Bytes} (h : Path.Canonical dir) (none : Path.components dir = []) :
    dir = Path.root := by
  obtain ⟨stack, hs, rfl⟩ := Path.canonical_iff.1 h
  rw [Path.components_ofStack hs, List.reverse_eq_nil_iff] at none
  rw [none, Path.ofStack_nil]

/-- The directory that an entry stands in, and the walk that comes to it. -/
theorem dir_of_entryPath {entry : Bytes} (h : tree.entryPath path = .ok entry)
    (ne : entry ≠ Path.root) :
    Path.resolve path ≠ Path.root ∧ ∃ dir, entry = Path.join dir (Path.base (Path.resolve path)) ∧
      tree.Straight dir ∧ ∃ links ≤ linkLimit,
        Walks tree Path.root (Path.components (Path.parent (Path.resolve path))) links
          (.ok dir) := by
  rcases entryPath_eq_ok_iff.1 h with ⟨-, rfl⟩ | ⟨notRoot, dir, real, rfl⟩
  · exact absurd rfl ne
  · refine ⟨notRoot, dir, rfl, straight_of_realPath real, ?_⟩
    have canonical := Path.canonical_parent (Path.canonical_resolve path Path.root [])
    have walks := realPath_eq_ok_iff.1 real
    rwa [canonical] at walks

section
variable {dir : Bytes} {links links' : Nat} {result : Except WalkFault Bytes}
  (ne : Path.resolve path ≠ Path.root) (straight : tree.Straight dir)
  (walks : Walks tree Path.root (Path.components (Path.parent (Path.resolve path))) links (.ok dir))
include ne straight walks

/-- A path is walked by walking to the directory of its entry, and from there as the entry is. -/
theorem walks_of_entry
    (h : Walks tree Path.root (Path.components (Path.join dir (Path.base (Path.resolve path))))
      links' result) (passes : result ≠ .error .notADirectory) :
    Walks tree Path.root (Path.components (Path.resolve path)) (links + links') result := by
  have canonical := Path.canonical_resolve path Path.root []
  have above := Path.canonical_parent canonical
  rw [Path.components_join straight.1 (Path.proper_base canonical ne)] at h
  obtain ⟨onward, rfl, last, isDir⟩ := h.split straight.2 passes
  rw [Nat.zero_add, Path.components_parent_base canonical ne]
  refine walks.append last Path.canonical_root (Path.proper_components above) fun some notRoot => ?_
  exact isDir (fun none => notRoot (components_eq_nil straight.1 none)) some notRoot

/-- What stands in the directory under the name, if it is no link, is where the path leads. -/
theorem walks_to_entry (isDir : tree.IsDir dir)
    (found : tree.find? (Path.join dir (Path.base (Path.resolve path))) = some node)
    (notLink : node.isSymlink = false) :
    Walks tree Path.root (Path.components (Path.resolve path)) links
      (.ok (Path.join dir (Path.base (Path.resolve path)))) := by
  have proper := Path.proper_base (Path.canonical_resolve path Path.root []) ne
  have entry := straight.join proper (fun _ => isDir) found notLink
  exact walks_of_entry ne straight walks entry.2 (by simp)

/-- Where nothing stands under the name, the path leads to nothing. -/
theorem walks_to_no_entry (isDir : tree.IsDir dir)
    (none : tree.find? (Path.join dir (Path.base (Path.resolve path))) = none) :
    Walks tree Path.root (Path.components (Path.resolve path)) links (.error .missing) := by
  have proper := Path.proper_base (Path.canonical_resolve path Path.root []) ne
  have last : Walks tree Path.root
      (Path.components (Path.join dir (Path.base (Path.resolve path)))) 0 (.error .missing) := by
    rw [Path.components_join straight.1 proper]
    exact (straight.walks_iff fun _ _ => isDir).2 (.missing none)
  exact walks_of_entry ne straight walks last (by simp)

/-- A link in the directory under the name leads the path where its text leads. -/
theorem walks_through_link (isDir : dir ≠ Path.root → tree.IsDir dir)
    (found : tree.find? (Path.join dir (Path.base (Path.resolve path))) = some node)
    (isLink : node.isSymlink = true)
    (h : Walks tree Path.root (Path.components (Path.resolve node.content dir)) links' result)
    (passes : result ≠ .error .notADirectory) :
    Walks tree Path.root (Path.components (Path.resolve path)) (links + (links' + 1)) result := by
  refine walks_of_entry ne straight walks ?_ passes
  have proper := Path.proper_base (Path.canonical_resolve path Path.root []) ne
  rw [Path.components_join straight.1 proper]
  refine (straight.walks_iff fun _ => isDir).2 (.link found isLink ?_)
  rwa [List.append_nil]

end

/-- A walk to an entry goes into the directory that it comes to first. -/
theorem walks_into {dir part : Bytes} {links : Nat} {result : Except WalkFault Bytes}
    (straight : tree.Straight dir) (proper : Path.Proper part)
    (h : Walks tree Path.root (Path.components (Path.join dir part)) links result)
    (passes : result ≠ .error .notADirectory) :
    Walks tree dir [part] links result ∧
      (dir ≠ Path.root → ∀ there, tree.find? dir = some there → there.isDirectory = true) := by
  rw [Path.components_join straight.1 proper] at h
  obtain ⟨onward, rfl, last, isDir⟩ := h.split straight.2 passes
  rw [Nat.zero_add]
  exact ⟨last, fun notRoot => isDir (fun none => notRoot (components_eq_nil straight.1 none))
    (by simp) notRoot⟩

/-- What is found where a walk from the root comes to, if that is not the root. -/
theorem found_of_walks {parts : List Bytes} {links : Nat} (ne : target ≠ Path.root)
    (h : Walks tree Path.root parts links (.ok target)) :
    ∃ old, tree.find? target = some old ∧ old.isSymlink = false := by
  rcases h.found with (e | e) | there
  · exact absurd e ne
  · exact absurd e ne
  · exact there

/-- A walk to a link in a directory goes on where the link's text leads. -/
theorem walks_from_link {dir part : Bytes} {link : Inode} {more : Nat}
    {result : Except WalkFault Bytes} (straight : tree.Straight dir) (proper : Path.Proper part)
    (found : tree.find? (Path.join dir part) = some link) (isLink : link.isSymlink = true)
    (h : Walks tree Path.root (Path.components (Path.join dir part)) more result)
    (passes : result ≠ .error .notADirectory) :
    (dir ≠ Path.root → tree.IsDir dir) ∧
      ∃ rest, Walks tree Path.root (Path.components (Path.resolve link.content dir)) rest
        result := by
  obtain ⟨last, isDir⟩ := walks_into straight proper h passes
  constructor
  · intro ne
    obtain ⟨there, h, -⟩ := found_of_walks ne straight.2
    exact ⟨there, h, isDir ne there h⟩
  · cases last with
    | missing none =>
      rw [found] at none
      cases none
    | enter found' notLink | blocked found' notLink =>
      rw [found] at found'
      cases found'
      rw [isLink] at notLink
      cases notLink
    | link found' _ onward =>
      rw [found] at found'
      cases found'
      rw [List.append_nil] at onward
      exact ⟨_, onward⟩

/-! ## The limit of links -/

theorem realPath_eq_tooManyLinks_iff :
    tree.realPath path = .error (.tooManyLinks (Path.resolve path)) ↔
      ∀ links result, Walks tree Path.root (Path.components (Path.resolve path)) links result →
        linkLimit < links := by
  rw [← walk_eq_tooManyLinks_iff]
  cases walked : tree.walk linkLimit (Path.components (Path.resolve path)) with
  | ok finish => simp [realPath_of_walk_ok walked]
  | error stop =>
    rw [realPath_of_walk_error walked]
    cases stop <;> simp [WalkFault.along]

/-- A path that does not lead over too many links has its walk within the limit. -/
theorem links_le {links : Nat} {result : Except WalkFault Bytes}
    (h : Walks tree Path.root (Path.components (Path.resolve path)) links result)
    (short : tree.realPath path ≠ .error (.tooManyLinks (Path.resolve path))) :
    links ≤ linkLimit := by
  refine Nat.le_of_not_lt fun long => short (realPath_eq_tooManyLinks_iff.2 ?_)
  intro links' result' h'
  rwa [(h'.unique h).1]

end VirtualShell.Tree
