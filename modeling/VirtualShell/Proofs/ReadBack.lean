import VirtualShell.Proofs.Reachable
import VirtualShell.Proofs.Tree.Entry

/-!
# Reading what was written

A write finds its target in two walks and, past a link that leads nowhere, one look at the link's
text; a read finds its record in one walk. `readsBack_write_iff` says when the two agree: just when
no link stands at the target already, the path can be followed within the limit of links, and the
target's directory can be reached by its own path. Where one of these fails the write has gone
astray: links that lead to a missing record over another link have the other link's target written
over (`not_readsBack_of_chained_links`).

The walks of a path before and behind a write are compared in `Tree.Writing.cases`, one case for
each way to find the target.
-/

namespace VirtualShell

namespace Tree

/-- A write through a path puts a record that is no directory at its target. -/
structure Writing (tree tree' : Tree) (path target : Bytes) (node : Inode) : Prop where
  goes : tree.writeTarget path = .ok target
  parent : tree.IsDir (Path.parent target)
  after : ∀ key, tree'.find? key = if target = key then some node else tree.find? key
  notDir : node.isDirectory = false
  replaces : ∀ old, tree.find? target = some old →
    old.isDirectory = false ∧ node.isSymlink = old.isSymlink
  fresh : tree.find? target = none → node.isSymlink = false

variable {tree tree' : Tree} {path target : Bytes} {node : Inode}

/-! ## The tree behind a write -/

namespace Writing

theorem target_ne_root (w : Writing tree tree' path target node) : target ≠ Path.root := by
  rintro rfl
  obtain ⟨old, there, isDir⟩ := w.parent
  rw [Path.parent_root] at there
  rw [(w.replaces old there).1] at isDir
  cases isDir

theorem find?_target (w : Writing tree tree' path target node) :
    tree'.find? target = some node := by
  rw [w.after, if_pos rfl]

theorem isDir (w : Writing tree tree' path target node) {dir : Bytes} (h : tree.IsDir dir) :
    tree'.IsDir dir := by
  obtain ⟨old, there, yes⟩ := h
  refine ⟨old, ?_, yes⟩
  rw [w.after, if_neg, there]
  rintro rfl
  rw [(w.replaces old there).1] at yes
  cases yes

/-- A record that is no link is written over by one that guides a walk alike. -/
theorem guide_eq (w : Writing tree tree' path target node) {old : Inode}
    (found : tree.find? target = some old) (notLink : old.isSymlink = false) :
    guide old = guide node := by
  have plain : ∀ node : Inode, node.isDirectory = false → node.isSymlink = false →
      guide node = (.file, []) := by
    intro node notDir notLink
    cases kind : node.kind <;> simp_all [guide, Inode.isDirectory, Inode.isSymlink]
  obtain ⟨notDir, same⟩ := w.replaces old found
  exact (plain old notDir notLink).trans (plain node w.notDir (same.trans notLink)).symm

/-- Where no link is written over, the walks through the records go on as before. -/
theorem keeps (w : Writing tree tree' path target node)
    (notLink : ∀ old, tree.find? target = some old → old.isSymlink = false) (key : Bytes)
    (old : Inode) (found : tree.find? key = some old) :
    ∃ new, tree'.find? key = some new ∧ guide old = guide new := by
  by_cases here : target = key
  · subst here
    exact ⟨node, w.find?_target, w.guide_eq found (notLink old found)⟩
  · exact ⟨old, by rw [w.after, if_neg here, found], rfl⟩

end Writing

/-! ## The ways to a target -/

/-- The entry of the path is a link that leads to nothing, and reads as the target. -/
structure Dangling (tree : Tree) (path target dir : Bytes) (link : Inode) (links more : Nat) :
    Prop where
  named : Path.resolve path ≠ Path.root
  straight : tree.Straight dir
  walks : Walks tree Path.root (Path.components (Path.parent (Path.resolve path))) links (.ok dir)
  isDir : dir ≠ Path.root → tree.IsDir dir
  found : tree.find? (Path.join dir (Path.base (Path.resolve path))) = some link
  isLink : link.isSymlink = true
  reads : Path.resolve link.content dir = target
  lost : Walks tree Path.root (Path.components target) more (.error .missing)

/-- Over the link the path leads to nothing as well. -/
theorem Dangling.missing {dir : Bytes} {link : Inode} {links more : Nat}
    (d : Dangling tree path target dir link links more) :
    Walks tree Path.root (Path.components (Path.resolve path)) (links + (more + 1))
      (.error .missing) := by
  refine walks_through_link d.named d.straight d.walks d.isDir d.found d.isLink ?_ (by simp)
  rw [d.reads]
  exact d.lost

/-- The root is no entry that a write goes through. -/
theorem Writing.entry_ne_root (w : Writing tree tree' path target node) {entry : Bytes}
    (goes : tree.WritesTo entry target) : entry ≠ Path.root := by
  rintro rfl
  have real : tree.realPath Path.root = .ok Path.root := realPath_of_straight straight_root
  cases goes with
  | entry => exact w.target_ne_root rfl
  | followed _ _ real' =>
    rw [real] at real'
    exact w.target_ne_root (Except.ok.inj real').symm
  | dangling _ _ real' =>
    rw [real] at real'
    cases real'

/-- **The three ways to a target**: the path leads to it, or to its place in a directory where it
is made, or over a link that leads to nothing. -/
theorem Writing.cases (w : Writing tree tree' path target node) :
    (∃ links, Walks tree Path.root (Path.components (Path.resolve path)) links (.ok target)) ∨
    (tree.find? target = none ∧ tree.Straight (Path.parent target) ∧ ∃ links ≤ linkLimit,
      Walks tree Path.root (Path.components (Path.resolve path)) links (.error .missing) ∧
        Walks tree' Path.root (Path.components (Path.resolve path)) links (.ok target)) ∨
    ∃ dir link links more, Dangling tree path target dir link links more := by
  obtain ⟨entry, he, goes⟩ := writeTarget_eq_ok_iff.1 w.goes
  have notRoot := w.entry_ne_root goes
  have canonical := canonical_of_entryPath he
  obtain ⟨named, dir, rfl, straight, links, le, walks⟩ := dir_of_entryPath he notRoot
  have proper := Path.proper_base (Path.canonical_resolve path Path.root []) named
  cases goes with
  | entry free =>
    have above := Path.parent_join straight.1 proper
    have isDir := above ▸ w.parent
    cases found : tree.find? (Path.join dir (Path.base (Path.resolve path))) with
    | some old =>
      exact .inl ⟨links, walks_to_entry named straight walks isDir found (free old found)⟩
    | none =>
      have keeps := w.keeps fun old there => by rw [found] at there; cases there
      refine .inr (.inl ⟨rfl, above.symm ▸ straight, links, le, ?_, ?_⟩)
      · exact walks_to_no_entry named straight walks isDir found
      · exact walks_to_entry named ⟨straight.1, straight.2.mono keeps⟩ (walks.mono keeps)
          (w.isDir isDir) w.find?_target (w.fresh found)
  | followed _ _ real =>
    obtain ⟨more, -, onward⟩ := realPath_eq_ok_iff.1 real
    rw [canonical] at onward
    exact .inl ⟨links + more, walks_of_entry named straight walks onward (by simp)⟩
  | @dangling link _ found isLink real kind =>
    obtain ⟨more, -, onward⟩ := walks_missing_of_realPath real kind
    rw [canonical] at onward
    obtain ⟨isDir, _, lost⟩ := walks_from_link straight proper found isLink onward (by simp)
    rw [Path.parent_join straight.1 proper] at w ⊢
    exact .inr (.inr
      ⟨dir, link, links, _, named, straight, walks, isDir, found, isLink, rfl, lost⟩)

/-! ## Where the path leads behind a write -/

/-- The write hits no link, the path is within the limit of links, and the directory of the target
is where its own path leads. -/
structure WellPlaced (tree : Tree) (path target : Bytes) : Prop where
  notLink : ∀ old, tree.find? target = some old → old.isSymlink = false
  short : tree.realPath path ≠ .error (.tooManyLinks (Path.resolve path))
  reached : tree.realPath (Path.parent target) = .ok (Path.parent target)

/-- A link that leads to nothing, if it reads as a place in a directory, leads there once there is
a record. -/
theorem Dangling.lands {dir : Bytes} {link : Inode} {links more : Nat}
    (d : Dangling tree path target dir link links more)
    (w : Writing tree tree' path target node)
    (notLink : ∀ old, tree.find? target = some old → old.isSymlink = false)
    (straight : tree.Straight (Path.parent target)) :
    tree.find? target = none ∧ more = 0 ∧
      Walks tree' Path.root (Path.components (Path.resolve path)) (links + 1) (.ok target) := by
  have canonical : Path.Canonical target := d.reads ▸ Path.canonical_resolve ..
  have proper := Path.proper_base canonical w.target_ne_root
  have whole := Path.join_parent_base canonical w.target_ne_root
  have lost := d.lost
  rw [← whole] at lost
  have last := (walks_into straight proper lost (by simp)).1
  cases last with
  | link found isLink =>
    rw [whole] at found
    rw [notLink _ found] at isLink
    cases isLink
  | enter _ _ _ onward => cases onward
  | missing none =>
    rw [whole] at none
    have keeps := w.keeps notLink
    refine ⟨none, rfl, ?_⟩
    have parent : tree'.Straight (Path.parent target) := ⟨straight.1, straight.2.mono keeps⟩
    have there : tree'.find? (Path.join (Path.parent target) (Path.base target)) = some node := by
      rw [whole, w.find?_target]
    have made := parent.join proper (fun _ => w.isDir w.parent) there (w.fresh none)
    rw [whole] at made
    have kept : tree'.find? (Path.join dir (Path.base (Path.resolve path))) = some link := by
      rw [w.after, if_neg, d.found]
      rintro rfl
      rw [d.found] at none
      cases none
    have onward := made.2
    rw [← d.reads] at onward
    have := walks_through_link d.named ⟨d.straight.1, d.straight.2.mono keeps⟩
      (d.walks.mono keeps) (fun ne => w.isDir (d.isDir ne)) kept d.isLink onward (by simp)
    rw [d.reads] at this
    exact this

section
variable {dir finish : Bytes} {link : Inode} {links more limit : Nat}
  (d : Dangling tree path target dir link links more) (w : Writing tree tree' path target node)
  (onward : Walks tree' Path.root (Path.components (Path.resolve path)) limit (.ok finish))
include d w onward

/-- If the path leads somewhere behind a write that changes no link's text, none was hit: a link
that is written over as it reads leaves the tree guiding as it did. -/
theorem Dangling.notLink
    (kept : ∀ old, tree.find? target = some old → old.isSymlink = true →
      node.content = old.content) :
    ∀ old, tree.find? target = some old → old.isSymlink = false := by
  intro old there
  refine Bool.eq_false_iff.2 fun isLink => ?_
  have same : guide old = guide node := by
    have isLink' := (w.replaces old there).2.trans isLink
    have content := kept old there isLink
    cases kind : old.kind <;> cases kind' : node.kind <;>
      simp_all [guide, Inode.isSymlink]
  have alike : ∀ key, (tree.find? key).map guide = (tree'.find? key).map guide := by
    intro key
    by_cases here : target = key
    · rw [← here, there, w.find?_target, Option.map_some, Option.map_some, same]
    · rw [w.after, if_neg here]
  cases ((d.missing.congr alike).unique onward).2

/-- If the path leads somewhere behind a write that hits no link, then what it missed is what was
written, and it leads there. -/
theorem Dangling.found_again
    (notLink : ∀ old, tree.find? target = some old → old.isSymlink = false) :
    tree.Straight (Path.parent target) ∧
      Walks tree' Path.root (Path.components (Path.resolve path)) (links + (more + 1))
        (.ok target) := by
  obtain ⟨above, part, rest, none, straight, proper, further⟩ :=
    d.missing.of_missing straight_root (Path.proper_components_resolve _ _ _)
      (fun _ ne => absurd rfl ne) (w.keeps notLink)
  cases there : tree'.find? (Path.join above part) with
  | none => cases ((further 0 _ (.missing there)).unique onward).2
  | some found =>
    have here : target = Path.join above part := by
      refine Classical.byContradiction fun ne => ?_
      rw [w.after, if_neg ne, none] at there
      cases there
    rw [← here, w.find?_target] at there
    cases there
    have fresh := w.fresh (here ▸ none)
    cases rest with
    | cons next others =>
      have blocked := further 0 _ (.blocked (here ▸ w.find?_target) fresh w.notDir (by simp))
      cases (blocked.unique onward).2
    | nil =>
      rw [here, Path.parent_join straight.1 proper]
      exact ⟨straight, further 0 _ (.enter (here ▸ w.find?_target) fresh (by simp) (.here _))⟩

end

namespace Writing

variable (w : Writing tree tree' path target node)
include w

/-- **A well placed write** is found again where it went. -/
theorem leads (h : WellPlaced tree path target) : tree'.realPath path = .ok target := by
  rw [realPath_eq_ok_iff]
  rcases w.cases with ⟨links, walks⟩ | ⟨-, -, links, le, -, walks⟩ | ⟨dir, link, links, more, d⟩
  · exact ⟨links, links_le walks h.short, walks.mono (w.keeps h.notLink)⟩
  · exact ⟨links, le, walks⟩
  · obtain ⟨-, rfl, walks⟩ := d.lands w h.notLink (straight_of_realPath h.reached)
    exact ⟨links + 1, links_le d.missing h.short, walks⟩

/-- Before a well placed write the path leads to the record written over, or to nothing. -/
theorem stat_before (h : WellPlaced tree path target) :
    (∃ old, tree.find? target = some old ∧ tree.stat path = .ok old) ∨
      tree.find? target = none ∧ ∃ fault, tree.stat path = .error fault := by
  have lost : ∀ {links}, Walks tree Path.root (Path.components (Path.resolve path)) links
      (.error .missing) → ∃ fault, tree.stat path = .error fault := by
    intro links walks
    cases stat : tree.stat path with
    | error fault => exact ⟨fault, rfl⟩
    | ok found =>
      obtain ⟨place, real, -⟩ := stat_eq_ok_iff.1 stat
      obtain ⟨_, -, walks'⟩ := realPath_eq_ok_iff.1 real
      cases (walks.unique walks').2
  rcases w.cases with ⟨links, walks⟩ | ⟨none, -, links, -, walks, -⟩ | ⟨dir, link, links, more, d⟩
  · obtain ⟨old, there, -⟩ := found_of_walks w.target_ne_root walks
    refine .inl ⟨old, there, stat_eq_ok_iff.2 ⟨target, ?_, there⟩⟩
    exact realPath_eq_ok_iff.2 ⟨links, links_le walks h.short, walks⟩
  · exact .inr ⟨none, lost walks⟩
  · exact .inr ⟨(d.lands w h.notLink (straight_of_realPath h.reached)).1, lost d.missing⟩

/-- A link that is written over leads to nothing. -/
theorem lost_of_isSymlink (straight : tree.Straight (Path.parent target)) {old : Inode}
    (found : tree.find? target = some old) (isLink : old.isSymlink = true) :
    ∃ links, Walks tree Path.root
      (Path.components (Path.resolve old.content (Path.parent target))) links
        (.error .missing) := by
  rcases w.cases with ⟨links, walks⟩ | ⟨none, -⟩ | ⟨dir, link, links, more, d⟩
  · obtain ⟨there, found', notLink⟩ := found_of_walks w.target_ne_root walks
    rw [found] at found'
    cases found'
    rw [isLink] at notLink
    cases notLink
  · rw [found] at none
    cases none
  · have canonical : Path.Canonical target := d.reads ▸ Path.canonical_resolve ..
    have proper := Path.proper_base canonical w.target_ne_root
    have whole := Path.join_parent_base canonical w.target_ne_root
    have lost := d.lost
    rw [← whole] at lost found
    exact (walks_from_link straight proper found isLink lost (by simp)).2

/-- **Where a path leads, it leads behind a write** through any other: if the write is over a link,
that link led to nothing, so the path does not lead over it. -/
theorem keeps_realPath {other finish : Bytes} (leads : tree.realPath other = .ok finish) :
    tree'.realPath other = .ok finish := by
  obtain ⟨links, le, walks⟩ := realPath_eq_ok_iff.1 leads
  refine realPath_eq_ok_iff.2 ⟨links, le, ?_⟩
  refine walks.mono_of_straight straight_root (Path.proper_components_resolve _ _ _)
    (fun _ ne => absurd rfl ne) fun key old _ straight found onward => ?_
  by_cases here : target = key
  · subst here
    refine ⟨node, w.find?_target, w.guide_eq found (Bool.eq_false_iff.2 fun isLink => ?_)⟩
    obtain ⟨_, lost⟩ := w.lost_of_isSymlink straight found isLink
    obtain ⟨rest, _, further⟩ := onward isLink
    obtain ⟨_, _, _, -, first, -⟩ := further.start
    cases (lost.unique first).2
  · exact ⟨old, by rw [w.after, if_neg here, found], rfl⟩

/-- **A write that is found again**, and changes no link, was well placed. -/
theorem wellPlaced {finish : Bytes} (leads : tree'.realPath path = .ok finish)
    (kept : ∀ old, tree.find? target = some old → old.isSymlink = true →
      node.content = old.content) : WellPlaced tree path target := by
  obtain ⟨limit, le, onward⟩ := realPath_eq_ok_iff.1 leads
  rcases w.cases with ⟨links, walks⟩ | ⟨none, straight, links, short, walks, -⟩ |
    ⟨dir, link, links, more, d⟩
  · obtain ⟨old, there, notLink⟩ := found_of_walks w.target_ne_root walks
    have notLink : ∀ old, tree.find? target = some old → old.isSymlink = false := by
      intro old' there'
      rw [there] at there'
      cases there'
      exact notLink
    refine ⟨notLink, fun long => ?_, ?_⟩
    · have := realPath_eq_tooManyLinks_iff.1 long _ _ walks
      have := (onward.unique (walks.mono (w.keeps notLink))).1
      omega
    · have straight := walks.straight straight_root
        (Path.proper_components_resolve _ _ _) fun _ ne => absurd rfl ne
      exact realPath_of_straight straight.parent
  · refine ⟨fun old there => ?_, fun long => ?_, realPath_of_straight straight⟩
    · rw [none] at there
      cases there
    · have := realPath_eq_tooManyLinks_iff.1 long _ _ walks
      omega
  · have notLink := d.notLink w onward kept
    obtain ⟨straight, walks⟩ := d.found_again w onward notLink
    refine ⟨notLink, fun long => ?_, realPath_of_straight straight⟩
    have := realPath_eq_tooManyLinks_iff.1 long _ _ d.missing
    have := (walks.unique onward).1
    omega

end Writing

end Tree

/-! ## Writing and reading -/

namespace FileSystem

variable {fs : FileSystem} {now later : Int} {path target content : Bytes} {append : Bool}
  {owner : Owner}

/-- A write to the null device leaves the tree. -/
theorem tree_write_of_null (writes : (fs.write now path content append owner).result = .ok ())
    (goes : fs.tree.writeTarget path = .ok Tree.nullDevice) :
    (fs.write now path content append owner).system.tree = fs.tree := by
  obtain ⟨change, plan, tree⟩ := tree_change_of_ok writes
  obtain ⟨target, goes', made⟩ := Tree.planWrite_eq_ok_iff.1 plan
  rw [goes] at goes'
  cases goes'
  rcases made with ⟨-, rfl⟩ | ⟨other, -⟩
  · exact tree.trans (Batch.apply_of_isEmpty rfl _)
  · exact absurd rfl other

/-- The record that a write puts at its target, and its content. -/
theorem writing_of_write (h : fs.tree.Keyed)
    (writes : (fs.write now path content append owner).result = .ok ())
    (goes : fs.tree.writeTarget path = .ok target) (other : target ≠ Tree.nullDevice) :
    ∃ node, Tree.Writing fs.tree (fs.write now path content append owner).system.tree path target
        node ∧ (fs.tree.find? target = none → node.content = content) ∧
      ∀ old, fs.tree.find? target = some old →
        node.content = if append then old.content ++ content else content := by
  obtain ⟨change, plan, tree⟩ := tree_change_of_ok writes
  rw [← write] at tree
  obtain ⟨place, goes', ⟨null, -⟩ | ⟨-, parent, made⟩⟩ := Tree.planWrite_eq_ok_iff.1 plan
  all_goals
    rw [goes] at goes'
    cases goes'
  · exact absurd null other
  rcases made with ⟨none, rfl⟩ | ⟨old, found, notDir, rfl⟩
  · refine ⟨.newFile target content owner now, ⟨goes, parent, fun key => ?_, rfl, ?_, fun _ => rfl⟩,
      fun _ => rfl, ?_⟩
    · rw [tree]
      exact Batch.find?_apply_put ..
    all_goals
      intro old found
      rw [none] at found
      cases found
  · obtain ⟨-, same⟩ := h _ _ found
    refine ⟨Tree.written now content append old, ⟨goes, parent, fun key => ?_, ?_, ?_, ?_⟩, ?_, ?_⟩
    · rw [tree]
      exact same ▸ Batch.find?_apply_put ..
    · exact (Tree.isDirectory_written ..).trans notDir
    · intro old' found'
      rw [found] at found'
      cases found'
      exact ⟨notDir, rfl⟩
    · intro none
      rw [found] at none
      cases none
    · intro none
      rw [found] at none
      cases none
    · intro old' found'
      rw [found] at found'
      cases found'
      exact Inode.content_withContent old _

end FileSystem

/-- What a read gives behind a write: the content, after what was read before if it was to be
added. And no link has another target. -/
structure ReadsBack (before after : FileSystem) (now : Int) (path content : Bytes)
    (append : Bool) : Prop where
  reads : (after.read now path).result =
    .ok (if append then (before.read now path).result.toOption.getD [] ++ content else content)
  links : ∀ key link, before.tree.find? key = some link → link.isSymlink = true →
    ∃ link', after.tree.find? key = some link' ∧ link'.isSymlink = true ∧
      link'.content = link.content

section
variable {fs : FileSystem} {now later : Int} {path target content : Bytes} {append : Bool}
  {owner : Owner}

theorem readsBack_iff_of_keyed (h : fs.tree.Keyed)
    (writes : (fs.write now path content append owner).result = .ok ())
    (goes : fs.tree.writeTarget path = .ok target) (other : target ≠ Tree.nullDevice) :
    ReadsBack fs (fs.write now path content append owner).system later path content append ↔
      fs.tree.WellPlaced path target := by
  obtain ⟨node, w, fresh, replaced⟩ := FileSystem.writing_of_write h writes goes other
  constructor
  · rintro ⟨reads, links⟩
    obtain ⟨found, stat, -, -⟩ := FileSystem.read_result_eq_ok_iff.1 reads
    obtain ⟨place, real, -⟩ := Tree.stat_eq_ok_iff.1 stat
    refine w.wellPlaced real fun old there isLink => ?_
    obtain ⟨link, there', -, same⟩ := links target old there isLink
    rw [w.find?_target] at there'
    cases there'
    exact same
  · intro placed
    have stat := Tree.stat_eq_ok_iff.2 ⟨target, w.leads placed, w.find?_target⟩
    refine ⟨FileSystem.read_result_eq_ok_iff.2 ⟨node, stat, w.notDir, ?_⟩, ?_⟩
    · rcases w.stat_before placed with ⟨old, there, before⟩ | ⟨none, fault, before⟩
      · have reads : (fs.read later path).result = .ok old.content :=
          FileSystem.read_result_eq_ok_iff.2 ⟨old, before, (w.replaces old there).1, rfl⟩
        rw [replaced old there, reads]
        rfl
      · have reads : (fs.read later path).result = .error fault := by
          simp [FileSystem.read, before]
        rw [fresh none, reads]
        cases append <;> rfl
    · intro key link there isLink
      refine ⟨link, ?_, isLink, rfl⟩
      rw [w.after, if_neg, there]
      rintro rfl
      rw [placed.notLink link there] at isLink
      cases isLink

/-- **When what was written is read back.** In every file system that is reached, after a write
through a path to anything but the null device, the path reads as the write left it and every link
has its target, if and only if the write was well placed: no link stood at its target, the path did
not lead over too many links, and the directory of the target is reached by its path. -/
theorem readsBack_write_iff (h : Reachable fs)
    (writes : (fs.write now path content append owner).result = .ok ())
    (goes : fs.tree.writeTarget path = .ok target) (other : target ≠ Tree.nullDevice) :
    ReadsBack fs (fs.write now path content append owner).system later path content append ↔
      fs.tree.WellPlaced path target :=
  readsBack_iff_of_keyed h.keyed writes goes other

end

/-! ## A later write -/

namespace FileSystem

/-- The path leads to a place where a file with this content stands. -/
structure Holds (fs : FileSystem) (path place content : Bytes) : Prop where
  leads : fs.tree.realPath path = .ok place
  stands : ∃ node, fs.tree.find? place = some node ∧ node.isDirectory = false ∧
    node.content = content

variable {fs : FileSystem} {now : Int} {path target content other place kept : Bytes}
  {append : Bool} {owner : Owner}

theorem Holds.read_result (h : fs.Holds path place content) (now : Int) :
    (fs.read now path).result = .ok content := by
  obtain ⟨node, found, notDir, same⟩ := h.stands
  exact read_result_eq_ok_iff.2 ⟨node, Tree.stat_eq_ok_iff.2 ⟨place, h.leads, found⟩, notDir, same⟩

/-- A well placed write that does not add stores its content. -/
theorem holds_write (h : fs.tree.Keyed)
    (writes : (fs.write now path content false owner).result = .ok ())
    (goes : fs.tree.writeTarget path = .ok target) (null : target ≠ Tree.nullDevice)
    (placed : fs.tree.WellPlaced path target) :
    (fs.write now path content false owner).system.Holds path target content := by
  obtain ⟨node, w, fresh, replaced⟩ := writing_of_write h writes goes null
  refine ⟨w.leads placed, node, w.find?_target, w.notDir, ?_⟩
  cases found : fs.tree.find? target with
  | none => exact fresh found
  | some old => exact replaced old found

section
variable (holds : fs.Holds other place kept) (h : fs.tree.Keyed)
  (writes : (fs.write now path content append owner).result = .ok ())
include holds h writes

/-- A write to the same place, through whatever path, leaves its own content there. -/
theorem Holds.write_same (goes : fs.tree.writeTarget path = .ok place)
    (null : place ≠ Tree.nullDevice) :
    (fs.write now path content append owner).system.Holds other place
      (if append then kept ++ content else content) := by
  obtain ⟨node, w, -, replaced⟩ := writing_of_write h writes goes null
  obtain ⟨old, found, -, rfl⟩ := holds.stands
  exact ⟨w.keeps_realPath holds.leads, node, w.find?_target, w.notDir, replaced old found⟩

/-- A write to another place leaves the file as it is. -/
theorem Holds.write_other (elsewhere : fs.tree.writeTarget path ≠ .ok place) :
    (fs.write now path content append owner).system.Holds other place kept := by
  obtain ⟨change, plan, -⟩ := tree_change_of_ok writes
  obtain ⟨target, goes, -⟩ := Tree.planWrite_eq_ok_iff.1 plan
  by_cases null : target = Tree.nullDevice
  · have same := tree_write_of_null writes (null ▸ goes)
    exact ⟨same.symm ▸ holds.leads, same.symm ▸ holds.stands⟩
  · obtain ⟨node, w, -, -⟩ := writing_of_write h writes goes null
    obtain ⟨old, found, stands⟩ := holds.stands
    refine ⟨w.keeps_realPath holds.leads, old, ?_, stands⟩
    rw [w.after, if_neg, found]
    rintro rfl
    exact elsewhere goes

end

end FileSystem

/-- A fresh file system with a link `/tmp/a` to a link `/tmp/b` to nothing. -/
def chainedLinks : FileSystem :=
  let opened := (FileSystem.load { volume := { store := .memory ∅ } } 0).system
  let first := (Request.run opened ⟨.edit (.link (ascii "none") (ascii "/tmp/b")), 1, none⟩).system
  (Request.run first ⟨.edit (.link (ascii "b") (ascii "/tmp/a")), 2, none⟩).system

theorem reachable_chainedLinks : Reachable chainedLinks :=
  .request _ (.request _ (.load 0 (.fresh { store := .memory ∅ })))

/-- Through the second link, which leads to nothing itself, what is written is read back. -/
theorem readsBack_through_one_link :
    ReadsBack chainedLinks (chainedLinks.write 3 (ascii "/tmp/b") (ascii "hello")).system 4
      (ascii "/tmp/b") (ascii "hello") false := by
  have goes : chainedLinks.tree.writeTarget (ascii "/tmp/b") = .ok (ascii "/tmp/none") := rfl
  have lost : chainedLinks.tree.realPath (ascii "/tmp/b") =
      .error (.plain .notFound (ascii "/tmp/b")) := rfl
  refine (readsBack_write_iff reachable_chainedLinks rfl goes (by decide)).2 ⟨?_, ?_, rfl⟩
  · intro old there
    cases there
  · rw [lost]
    simp

/-- **Through both links it is not**: the write goes to the second link and puts the content in
the place of its target, and the path leads nowhere as before. -/
theorem not_readsBack_of_chained_links :
    let after := chainedLinks.write 3 (ascii "/tmp/a") (ascii "hello")
    chainedLinks.tree.writeTarget (ascii "/tmp/a") = .ok (ascii "/tmp/b") ∧
      after.result = .ok () ∧
      (after.system.read 4 (ascii "/tmp/a")).result =
        .error (.plain .notFound (ascii "/tmp/a")) ∧
      chainedLinks.tree.readLink (ascii "/tmp/b") = .ok (ascii "none") ∧
      after.system.tree.readLink (ascii "/tmp/b") = .ok (ascii "hello") ∧
      Reachable chainedLinks ∧
      ¬ ReadsBack chainedLinks after.system 4 (ascii "/tmp/a") (ascii "hello") false := by
  refine ⟨rfl, rfl, rfl, rfl, rfl, reachable_chainedLinks, fun back => ?_⟩
  cases back.reads

end VirtualShell
