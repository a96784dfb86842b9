import Mathlib.Logic.Relation
import VirtualShell.Proofs.Relocation
import VirtualShell.Proofs.Tree.Entry

/-!
# Where a path leads

The walk of the tree starts over from the root, with other components, at every link. A `Journey` is
the plain walk that it stands for: it keeps the names that it has come along, goes on from the
link's own directory as the link's text reads, and never looks a second time at what it has
resolved.

* `Journey.Step.remains_iff`: what is left of the walk, started over from the root, is the same
  before and behind a step of the journey (step lemma); so it is along a whole journey
  (`remains_iff_of_travels`).
* `exists_meets`: every journey comes to an end within the limit of links, or exceeds it.
* `realPath_agrees`: real paths are where the journeys end.
-/

namespace VirtualShell

namespace Path

/-! ## Reading a link's text from a directory -/

/-- One component of a text that is read from a directory: what is kept of the directory, and the
names behind it, the last name first in both. -/
def turn (place : List Bytes × List Bytes) (part : Bytes) : List Bytes × List Bytes :=
  if part = ascii "." then place
  else if part = ascii ".." then
    match place.2 with
    | [] => (place.1.tail, [])
    | _ :: names => (place.1, names)
  else (place.1, part :: place.2)

/-- What a text that is read from a directory keeps of it, the last name first, and the names that
lead on from there. -/
def redirect (dir : List Bytes) (text : Bytes) : List Bytes × List Bytes :=
  let place := (components text).foldl turn (if isAbsolute text then [] else dir, [])
  (place.1, place.2.reverse)

theorem turn_spec {place : List Bytes × List Bytes} {part : Bytes} :
    (turn place part).1 <:+ place.1 ∧
      (turn place part).2 ++ (turn place part).1 = step (place.2 ++ place.1) part := by
  obtain ⟨kept, names⟩ := place
  unfold turn step
  split
  · exact ⟨List.suffix_refl _, rfl⟩
  · split
    · cases names with
      | nil => exact ⟨List.tail_suffix kept, rfl⟩
      | cons name names => exact ⟨List.suffix_refl _, rfl⟩
    · exact ⟨List.suffix_refl _, rfl⟩

theorem foldl_turn_spec (parts : List Bytes) (place : List Bytes × List Bytes) :
    (parts.foldl turn place).1 <:+ place.1 ∧
      (parts.foldl turn place).2 ++ (parts.foldl turn place).1 =
        parts.foldl step (place.2 ++ place.1) := by
  induction parts generalizing place with
  | nil => exact ⟨List.suffix_refl _, rfl⟩
  | cons part parts ih =>
    obtain ⟨kept, names⟩ := @turn_spec place part
    obtain ⟨kept', names'⟩ := ih (turn place part)
    exact ⟨kept'.trans kept, by rw [List.foldl_cons, List.foldl_cons, names', names]⟩

/-- **A text that is read from a directory** names what it keeps of the directory and, behind that,
the names that lead on. -/
theorem redirect_spec {dir : List Bytes} (proper : ProperStack dir) (text : Bytes) :
    (redirect dir text).1 <:+ dir ∧ ProperStack (redirect dir text).2 ∧
      components (resolve text (ofStack dir)) =
        (redirect dir text).1.reverse ++ (redirect dir text).2 := by
  obtain ⟨kept, names⟩ :=
    foldl_turn_spec (components text) (if isAbsolute text then [] else dir, [])
  have start : (if isAbsolute text then [] else (components (ofStack dir)).foldl step []) =
      if isAbsolute text then [] else dir := by
    rw [components_ofStack proper, foldl_step_of_proper proper.reverse, List.reverse_reverse,
      List.append_nil]
  have stack :
      ProperStack ((components text).foldl step (if isAbsolute text then [] else dir)) := by
    refine properStack_foldl ?_ fun _ => mem_components
    split
    · exact .nil
    · exact proper
  rw [List.nil_append] at names
  refine ⟨kept.trans ?_, fun part mem => stack part ?_, ?_⟩
  · split
    · exact List.nil_suffix
    · exact List.suffix_refl _
  · rw [← names]
    exact List.mem_append_left _ (List.mem_reverse.1 mem)
  · have resolved : resolve text (ofStack dir) =
        ofStack ((components text).foldl step (if isAbsolute text then [] else dir)) := by
      simp only [resolve, expandHome, List.isEmpty_nil, if_true, start]
    rw [resolved, components_ofStack stack, ← names, List.reverse_append]
    rfl

end Path

namespace Tree

/-! ## Journeys -/

/-- A walk on its way. -/
structure Journey where
  /-- The names that it has come along, the last one first. -/
  behind : List Bytes
  /-- The names that it has yet to go. -/
  ahead : List Bytes
  /-- How many links it has followed. -/
  links : Nat

namespace Journey

/-- Where a walk along the names starts: at the root. -/
def along (names : List Bytes) : Journey := ⟨[], names, 0⟩

/-- One step of a walk: into what stands under the next name or, if a link does, to where its text
leads from the directory that the walk has come to. -/
inductive Step (tree : Tree) : Journey → Journey → Prop
  | enter {behind ahead : List Bytes} {name : Bytes} {links : Nat} {node : Inode} :
      tree.find? (Path.ofStack (name :: behind)) = some node → node.isSymlink = false →
      (ahead ≠ [] → node.isDirectory = true) →
      Step tree ⟨behind, name :: ahead, links⟩ ⟨name :: behind, ahead, links⟩
  | follow {behind ahead : List Bytes} {name : Bytes} {links : Nat} {link : Inode} :
      tree.find? (Path.ofStack (name :: behind)) = some link → link.isSymlink = true →
      Step tree ⟨behind, name :: ahead, links⟩
        ⟨(Path.redirect behind link.content).1, (Path.redirect behind link.content).2 ++ ahead,
          links + 1⟩

/-- Where a walk has no step to go: it has arrived, or the next name is missing or, with more to
come, no directory. -/
inductive Ends (tree : Tree) : Journey → Except WalkFault Bytes → Prop
  | arrived {behind : List Bytes} {links : Nat} :
      Ends tree ⟨behind, [], links⟩ (.ok (Path.ofStack behind))
  | missing {behind ahead : List Bytes} {name : Bytes} {links : Nat} :
      tree.find? (Path.ofStack (name :: behind)) = none →
      Ends tree ⟨behind, name :: ahead, links⟩ (.error .missing)
  | blocked {behind ahead : List Bytes} {name : Bytes} {links : Nat} {node : Inode} :
      tree.find? (Path.ofStack (name :: behind)) = some node → node.isSymlink = false →
      node.isDirectory = false → ahead ≠ [] →
      Ends tree ⟨behind, name :: ahead, links⟩ (.error .notADirectory)

/-- One step after the other leads from the one journey to the other. -/
abbrev Travels (tree : Tree) : Journey → Journey → Prop := Relation.ReflTransGen (Step tree)

variable {tree : Tree} {s s' : Journey} {result : Except WalkFault Bytes} {total : Nat}

/-! ## What is left of the walk -/

/-- What holds of every journey: it has come along names of directories and across no link. -/
structure Fit (tree : Tree) (s : Journey) : Prop where
  behind : Path.ProperStack s.behind
  ahead : Path.ProperStack s.ahead
  straight : tree.Straight (Path.ofStack s.behind)
  isDir : s.ahead ≠ [] → s.behind ≠ [] → tree.IsDir (Path.ofStack s.behind)

/-- What is left of the walk, as the tree walks it, ends so after so many links in all. -/
def Remains (tree : Tree) (s : Journey) (total : Nat) (result : Except WalkFault Bytes) : Prop :=
  ∃ links, s.links + links = total ∧ Walks tree (Path.ofStack s.behind) s.ahead links result

theorem fit_along {path : Bytes} (h : Path.Canonical path) :
    Fit tree (along (Path.components path)) :=
  ⟨.nil, Path.proper_components h, straight_root, fun _ ne => absurd rfl ne⟩

/-- What a link's text keeps of the directory is led straight to, and is a directory. -/
theorem Fit.redirect {behind ahead : List Bytes} {name : Bytes} {links : Nat}
    (fit : Fit tree ⟨behind, name :: ahead, links⟩) (text : Bytes) :
    tree.Straight (Path.ofStack (Path.redirect behind text).1) ∧
      ((Path.redirect behind text).1 ≠ [] →
        tree.IsDir (Path.ofStack (Path.redirect behind text).1)) := by
  obtain ⟨⟨gone, whole⟩, -, -⟩ := Path.redirect_spec fit.behind text
  have proper := fit.behind
  have straight := fit.straight
  have isDir := fit.isDir (by simp)
  dsimp only at proper straight isDir
  generalize (Path.redirect behind text).1 = kept at whole ⊢
  subst whole
  obtain ⟨above, dirs⟩ := straight.above proper
  refine ⟨above, fun some => ?_⟩
  by_cases all : gone = []
  · subst all
    exact isDir some
  · exact dirs all some

theorem Step.fit (step : Step tree s s') (fit : Fit tree s) : Fit tree s' := by
  cases step with
  | @enter behind ahead name links node found notLink dirs =>
    have proper : Path.ProperStack (name :: behind) := .cons fit.ahead.head fit.behind
    refine ⟨proper, fit.ahead.tail, ?_, fun more _ => ⟨node, found, dirs more⟩⟩
    have joined := Path.join_ofStack fit.behind name
    rw [← joined] at found ⊢
    refine fit.straight.join fit.ahead.head (fun notRoot => fit.isDir (by simp) ?_) found notLink
    rintro none
    exact notRoot (by rw [none, Path.ofStack_nil])
  | @follow behind ahead name links link found isLink =>
    obtain ⟨kept, proper, -⟩ := Path.redirect_spec fit.behind link.content
    obtain ⟨straight, isDir⟩ := fit.redirect link.content
    exact ⟨fun part mem => fit.behind part (kept.subset mem), proper.append fit.ahead.tail,
      straight, fun _ => isDir⟩

/-- **A step leaves what is left of the walk**: at a link, to start over from the root is to go on
from what the link's text keeps of the directory. -/
theorem Step.remains_iff (step : Step tree s s') (fit : Fit tree s) :
    Remains tree s total result ↔ Remains tree s' total result := by
  cases step with
  | @enter behind ahead name links node found notLink dirs =>
    have joined := Path.join_ofStack fit.behind name
    rw [← joined] at found
    refine exists_congr fun more => and_congr_right fun _ => ?_
    dsimp only
    rw [← joined]
    constructor
    · intro walks
      cases walks with
      | enter _ _ _ onward => exact onward
      | missing | blocked | link => simp_all
    · exact .enter found notLink dirs
  | @follow behind ahead name links link found isLink =>
    obtain ⟨kept, -, parts⟩ := Path.redirect_spec fit.behind link.content
    obtain ⟨straight, isDir⟩ := fit.redirect link.content
    have proper : Path.ProperStack (Path.redirect behind link.content).1 :=
      fun part mem => fit.behind part (kept.subset mem)
    have joined := Path.join_ofStack fit.behind name
    rw [← joined] at found
    have onward : ∀ {more : Nat}, Walks tree Path.root
        (Path.components (Path.resolve link.content (Path.ofStack behind)) ++ ahead) more result ↔
          Walks tree (Path.ofStack (Path.redirect behind link.content).1)
            ((Path.redirect behind link.content).2 ++ ahead) more result := by
      intro more
      rw [parts, ← Path.components_ofStack proper, List.append_assoc]
      refine straight.walks_iff fun _ notRoot => isDir ?_
      intro none
      exact notRoot (by rw [none, Path.ofStack_nil])
    constructor
    · rintro ⟨more, rfl, walks⟩
      cases walks with
      | @link _ _ _ _ more _ found' _ rest =>
        rw [found] at found'
        cases found'
        exact ⟨more, by dsimp only; omega, onward.1 rest⟩
      | missing | blocked | enter => simp_all
    · rintro ⟨more, rfl, walks⟩
      exact ⟨more + 1, by dsimp only; omega, .link found isLink (onward.2 walks)⟩

/-- So does a whole journey. -/
theorem remains_iff_of_travels (travels : Travels tree s s') (fit : Fit tree s) :
    Fit tree s' ∧ (Remains tree s total result ↔ Remains tree s' total result) := by
  induction travels with
  | refl => exact ⟨fit, Iff.rfl⟩
  | tail _ step ih =>
    obtain ⟨fit', same⟩ := ih
    exact ⟨step.fit fit', same.trans (step.remains_iff fit')⟩

/-- Where a journey ends nothing is left of the walk. -/
theorem Ends.remains (ends : Ends tree s result) (fit : Fit tree s) :
    Remains tree s s.links result := by
  have joined := fun name => Path.join_ofStack fit.behind name
  refine ⟨0, Nat.add_zero _, ?_⟩
  cases ends with
  | arrived => exact .here _
  | @missing behind ahead name links none => exact .missing (joined name ▸ none)
  | @blocked behind ahead name links node found notLink notDir more =>
    exact .blocked (joined name ▸ found) notLink notDir more

/-! ## Journeys within the limit -/

/-- **No journey within the limit goes on forever**: each step follows one more link, or leaves
fewer names to go. -/
theorem wellFounded_step (tree : Tree) :
    WellFounded fun next s => Step tree s next ∧ next.links ≤ linkLimit := by
  refine Subrelation.wf (r := InvImage (Prod.Lex (· < ·) (· < ·))
    fun s : Journey => (linkLimit - s.links, s.ahead.length)) ?_
    (InvImage.wf _ (Prod.lex Nat.lt_wfRel Nat.lt_wfRel).wf)
  rintro next s ⟨step, within⟩
  cases step with
  | enter => exact Prod.Lex.right _ (Nat.lt_succ_self _)
  | follow => exact Prod.Lex.left _ _ (by dsimp only at within ⊢; omega)

/-- A journey ends, or goes on. -/
theorem ends_or_steps (tree : Tree) (s : Journey) :
    (∃ result, Ends tree s result) ∨ ∃ next, Step tree s next := by
  obtain ⟨behind, ahead, links⟩ := s
  cases ahead with
  | nil => exact .inl ⟨_, .arrived⟩
  | cons name ahead =>
    cases found : tree.find? (Path.ofStack (name :: behind)) with
    | none => exact .inl ⟨_, .missing found⟩
    | some node =>
      by_cases isLink : node.isSymlink = true
      · exact .inr ⟨_, .follow found isLink⟩
      · have notLink : node.isSymlink = false := by simpa using isLink
        by_cases passes : ahead ≠ [] → node.isDirectory = true
        · exact .inr ⟨_, .enter found notLink passes⟩
        · obtain ⟨more, notDir⟩ := Classical.not_imp.1 passes
          exact .inl ⟨_, .blocked found notLink (by simpa using notDir) more⟩

/-- What the walk along a path meets first: its end within the limit of links, or one link more. -/
inductive Meets (tree : Tree) (path : Bytes) : Except WalkFault Bytes → Prop
  | ends {s : Journey} {result : Except WalkFault Bytes} :
      Travels tree (along (Path.components (Path.resolve path))) s → s.links ≤ linkLimit →
      Ends tree s result → Meets tree path result
  | exceeds {s : Journey} :
      Travels tree (along (Path.components (Path.resolve path))) s → s.links = linkLimit + 1 →
      Meets tree path (.error .tooManyLinks)

/-- **Every journey comes to something**: an end within the limit, or one link too many. -/
theorem exists_meets (tree : Tree) (path : Bytes) : ∃ result, Meets tree path result := by
  have onward : ∀ s : Journey, s.links ≤ linkLimit →
      Travels tree (along (Path.components (Path.resolve path))) s →
        ∃ result, Meets tree path result := by
    intro s
    induction s using (wellFounded_step tree).induction with
    | _ s ih =>
      intro within travels
      rcases ends_or_steps tree s with ⟨result, ends⟩ | ⟨next, step⟩
      · exact ⟨result, .ends travels within ends⟩
      · by_cases within' : next.links ≤ linkLimit
        · exact ih next ⟨step, within'⟩ within' (travels.tail step)
        · refine ⟨_, .exceeds (travels.tail step) ?_⟩
          cases step <;> dsimp only at within within' ⊢ <;> omega
  exact onward _ (Nat.zero_le _) .refl

variable {path : Bytes}

theorem Meets.walk_eq (meets : Meets tree path result) :
    tree.walk linkLimit (Path.components (Path.resolve path)) = result := by
  have fit : Fit tree (along (Path.components (Path.resolve path))) :=
    fit_along (Path.canonical_resolve ..)
  cases meets with
  | ends travels within ends =>
    obtain ⟨fit', same⟩ := remains_iff_of_travels travels fit
    obtain ⟨links, total, walks⟩ := same.2 (ends.remains fit')
    refine walk_eq_of_walks walks ?_
    rw [← total] at within
    exact Nat.le_trans (Nat.le_add_left _ _) within
  | exceeds travels beyond =>
    refine walk_eq_tooManyLinks_iff.2 fun links result walks => ?_
    obtain ⟨-, same⟩ := remains_iff_of_travels travels fit
    obtain ⟨rest, total, -⟩ := same.1 ⟨links, Nat.zero_add links, walks⟩
    omega

/-- **The walk of the tree** comes to what the journey meets. -/
theorem meets_iff : Meets tree path result ↔
    tree.walk linkLimit (Path.components (Path.resolve path)) = result := by
  constructor
  · exact Meets.walk_eq
  · rintro rfl
    obtain ⟨result, meets⟩ := exists_meets tree path
    exact meets.walk_eq ▸ meets

end Journey

/-! ## Real paths -/

/-- The kind of fault that ends a walk. -/
def WalkFault.kind : WalkFault → ErrorKind
  | missing => .notFound
  | notADirectory => .notADirectory
  | tooManyLinks => .invalidArgument

theorem WalkFault.kind_along (path : Bytes) (stop : WalkFault) :
    (stop.along path).kind = stop.kind := by
  cases stop <;> rfl

theorem WalkFault.kind_injective {a b : WalkFault} (h : a.kind = b.kind) : a = b := by
  cases a <;> cases b <;> first | rfl | cases h

/-- A path in which every link has been followed. -/
structure Settled (tree : Tree) (place : Bytes) : Prop where
  /-- A record stands at it. -/
  found : ∃ node, tree.find? place = some node
  /-- Neither it nor anything above it is a link. -/
  noLink : ∀ dir node, place = dir ∨ Path.isWithin place dir = true →
    tree.find? dir = some node → node.isSymlink = false
  /-- It leads to itself. -/
  fixed : tree.realPath place = .ok place

variable {tree : Tree} {path place : Bytes}

theorem Sound.settled (h : tree.Sound) (real : tree.realPath path = .ok place) :
    tree.Settled place := by
  have straight := straight_of_realPath real
  have found : ∃ node, tree.find? place = some node ∧ node.isSymlink = false := by
    by_cases root : place = Path.root
    · obtain ⟨node, found, dir⟩ := h.root
      exact ⟨node, root ▸ found, isSymlink_of_isDirectory dir⟩
    · exact found_of_walks root straight.2
  obtain ⟨node, found, notLink⟩ := found
  refine ⟨⟨node, found⟩, ?_, realPath_of_straight straight⟩
  rintro dir above (rfl | within) there
  · rw [found] at there
    cases there
    exact notLink
  · have isDir := h.ancestor found (h.keyed _ _ there).1 within
    exact isSymlink_of_isDirectory (isDir.of_find? there)

/-- **A real path is where the walk ends.** Of a sound tree the path leads to a place, across at
most sixteen links, just when the walk along its components arrives there, and fails with the kind
of fault for what the walk meets first. The walk goes on forever for no path. A place that is led to
is settled: it has a record, no link is at it or above it, and it leads to itself. -/
theorem realPath_agrees (h : tree.Sound) (path : Bytes) :
    (WellFounded fun next s => Journey.Step tree s next ∧ next.links ≤ linkLimit) ∧
    (∀ place, tree.realPath path = .ok place ↔ Journey.Meets tree path (.ok place)) ∧
    (∀ stop : WalkFault, (∃ fault, tree.realPath path = .error fault ∧ fault.kind = stop.kind) ↔
      Journey.Meets tree path (.error stop)) ∧
    ∀ place, tree.realPath path = .ok place → tree.Settled place := by
  refine ⟨Journey.wellFounded_step tree, fun place => ?_, fun stop => ?_, fun place => h.settled⟩
  · rw [Journey.meets_iff]
    cases walked : tree.walk linkLimit (Path.components (Path.resolve path)) with
    | ok finish => simp [realPath_of_walk_ok walked]
    | error stop => simp [realPath_of_walk_error walked]
  · rw [Journey.meets_iff]
    cases walked : tree.walk linkLimit (Path.components (Path.resolve path)) with
    | ok finish => simp [realPath_of_walk_ok walked]
    | error stop' =>
      simp only [realPath_of_walk_error walked, Except.error.injEq, exists_eq_left',
        WalkFault.kind_along]
      exact ⟨WalkFault.kind_injective, congrArg _⟩

/-- A link to a file over a link to its directory is followed, one to itself for sixteen times. -/
theorem realPath_agrees_through_links :
    let tree := (FileSystem.seededWith [.link (ascii "../etc") (ascii "/tmp/e"),
      .link (ascii "e/hostname") (ascii "/tmp/h"), .link (ascii "./l") (ascii "/tmp/l")]).tree
    tree.Sound ∧ Journey.Meets tree (ascii "/tmp/h") (.ok (ascii "/etc/hostname")) ∧
      tree.Settled (ascii "/etc/hostname") ∧
        Journey.Meets tree (ascii "/tmp/l") (.error .tooManyLinks) := by
  intro tree
  have sound : tree.Sound := FileSystem.sound_seededWith (by simp [Edit.Merges])
  have real : tree.realPath (ascii "/tmp/h") = .ok (ascii "/etc/hostname") := rfl
  have loops : tree.realPath (ascii "/tmp/l") = .error (.tooManyLinks (ascii "/tmp/l")) := rfl
  obtain ⟨-, arrives, -, settled⟩ := realPath_agrees sound (ascii "/tmp/h")
  obtain ⟨-, -, stops, -⟩ := realPath_agrees sound (ascii "/tmp/l")
  exact ⟨sound, (arrives _).1 real, settled _ real, (stops _).1 ⟨_, loops, rfl⟩⟩

end Tree

end VirtualShell
