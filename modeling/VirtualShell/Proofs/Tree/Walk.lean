import VirtualShell.Proofs.Tree.Canonical
import VirtualShell.Tree.Lookup

/-!
# Walks

`Tree.Walks tree current parts links end`: the components, walked on from a directory, come to
their end across so many links. The walk of the tree is this relation cut off at a number of links
(`walk_eq_of_walks`, `walks_of_walk`), and the relation is a function of the components
(`Walks.unique`), so that a walk breaks off for its links just when it needs too many
(`walk_eq_tooManyLinks_iff`).

* `Walks.append`: a walk that comes to a directory may be walked on.
* `Walks.straight`: where a walk comes to, its components lead without any link, and to start over
  from the root is to go on from there (`Straight.walks_iff`).
* `Walks.mono`: a walk that succeeds is the same in a tree that keeps its records.
-/

namespace VirtualShell.Tree

/-- A record that is a directory stands at the path. -/
def IsDir (tree : Tree) (path : Bytes) : Prop :=
  ∃ node, tree.find? path = some node ∧ node.isDirectory = true

theorem isDir_iff_any {tree : Tree} {path : Bytes} :
    tree.IsDir path ↔ (tree.find? path).any Inode.isDirectory = true := by
  simp [IsDir, Option.any_eq_true]

theorem isSymlink_of_isDirectory {node : Inode} (h : node.isDirectory = true) :
    node.isSymlink = false := by
  cases kind : node.kind <;> simp_all [Inode.isDirectory, Inode.isSymlink]

/-- Walking the components on from a directory ends so, after so many links. -/
inductive Walks (tree : Tree) : Bytes → List Bytes → Nat → Except WalkFault Bytes → Prop
  | here (current : Bytes) : Walks tree current [] 0 (.ok current)
  | missing {current part : Bytes} {rest : List Bytes} :
      tree.find? (Path.join current part) = none →
      Walks tree current (part :: rest) 0 (.error .missing)
  | blocked {current part : Bytes} {rest : List Bytes} {node : Inode} :
      tree.find? (Path.join current part) = some node → node.isSymlink = false →
      node.isDirectory = false → rest ≠ [] →
      Walks tree current (part :: rest) 0 (.error .notADirectory)
  | link {current part : Bytes} {rest : List Bytes} {node : Inode} {links : Nat}
      {result : Except WalkFault Bytes} :
      tree.find? (Path.join current part) = some node → node.isSymlink = true →
      Walks tree Path.root (Path.components (Path.resolve node.content current) ++ rest) links
        result →
      Walks tree current (part :: rest) (links + 1) result
  | enter {current part : Bytes} {rest : List Bytes} {node : Inode} {links : Nat}
      {result : Except WalkFault Bytes} :
      tree.find? (Path.join current part) = some node → node.isSymlink = false →
      (rest ≠ [] → node.isDirectory = true) →
      Walks tree (Path.join current part) rest links result →
      Walks tree current (part :: rest) links result

/-! ## The walk of the tree -/

section
variable {tree : Tree}

/-- One component of a walk: the four ways that a walk goes on. -/
theorem walkFrom_cons (onLink : List Bytes → Except WalkFault Bytes) (current part : Bytes)
    (rest : List Bytes) :
    tree.walkFrom onLink current (part :: rest) =
      match tree.find? (Path.join current part) with
      | none => .error .missing
      | some node =>
        if node.isSymlink then
          onLink (Path.components (Path.resolve node.content current) ++ rest)
        else if !node.isDirectory && !rest.isEmpty then .error .notADirectory
        else tree.walkFrom onLink (Path.join current part) rest := rfl

/-- What a walk does at links is all that it takes from outside. -/
theorem walkFrom_of_walks {onLink : List Bytes → Except WalkFault Bytes} {current : Bytes}
    {parts : List Bytes} {links bound : Nat} {result : Except WalkFault Bytes}
    (h : Walks tree current parts links result) (le : links ≤ bound)
    (hlink : ∀ parts links result, Walks tree Path.root parts links result → links + 1 ≤ bound →
      onLink parts = result) :
    tree.walkFrom onLink current parts = result := by
  induction h with
  | here => rfl
  | missing none => rw [walkFrom_cons, none]
  | blocked found notLink notDir more =>
    rw [walkFrom_cons, found]
    simp [notLink, notDir, more]
  | link found isLink walks _ =>
    rw [walkFrom_cons, found]
    simp only [isLink, if_true]
    exact hlink _ _ _ walks le
  | enter found notLink dir _ ih =>
    rw [walkFrom_cons, found]
    simp only [notLink, Bool.false_eq_true, if_false]
    rw [if_neg, ih le]
    intro bad
    simp only [Bool.and_eq_true, Bool.not_eq_true', List.isEmpty_eq_false_iff] at bad
    simp [dir bad.2] at bad

/-- **A walk within the limit is found**, whatever it ends in. -/
theorem walk_eq_of_walks {parts : List Bytes} {links : Nat} {result : Except WalkFault Bytes}
    (h : Walks tree Path.root parts links result) {limit : Nat} (le : links ≤ limit) :
    tree.walk limit parts = result := by
  induction limit generalizing parts links result with
  | zero => exact walkFrom_of_walks h le fun _ _ _ _ le => absurd le (Nat.not_succ_le_zero _)
  | succ limit ih =>
    exact walkFrom_of_walks h le fun _ _ _ walks le => ih walks (Nat.le_of_succ_le_succ le)

theorem walks_of_walkFrom {onLink : List Bytes → Except WalkFault Bytes} {current : Bytes}
    {parts : List Bytes} {bound : Nat} {result : Except WalkFault Bytes}
    (h : tree.walkFrom onLink current parts = result) (ne : result ≠ .error .tooManyLinks)
    (hlink : ∀ parts, onLink parts ≠ .error .tooManyLinks →
      ∃ links, links + 1 ≤ bound ∧ Walks tree Path.root parts links (onLink parts)) :
    ∃ links ≤ bound, Walks tree current parts links result := by
  induction parts generalizing current with
  | nil => exact ⟨0, Nat.zero_le _, h ▸ .here current⟩
  | cons part rest ih =>
    rw [walkFrom_cons] at h
    cases found : tree.find? (Path.join current part) with
    | none => rw [found] at h; exact ⟨0, Nat.zero_le _, h ▸ .missing found⟩
    | some node =>
      rw [found] at h
      dsimp only at h
      split at h
      next isLink =>
        subst h
        obtain ⟨links, le, walks⟩ := hlink _ ne
        exact ⟨links + 1, le, .link found isLink walks⟩
      next notLink =>
        have notLink : node.isSymlink = false := by simpa using notLink
        split at h
        next bad =>
          simp only [Bool.and_eq_true, Bool.not_eq_true', List.isEmpty_eq_false_iff] at bad
          exact ⟨0, Nat.zero_le _, h ▸ .blocked found notLink bad.1 bad.2⟩
        next good =>
          obtain ⟨links, le, walks⟩ := ih h
          refine ⟨links, le, .enter found notLink (fun more => ?_) walks⟩
          simpa [more] using good

/-- **A walk that does not break off for its links** is one within the limit. -/
theorem walks_of_walk {parts : List Bytes} {limit : Nat} {result : Except WalkFault Bytes}
    (h : tree.walk limit parts = result) (ne : result ≠ .error .tooManyLinks) :
    ∃ links ≤ limit, Walks tree Path.root parts links result := by
  induction limit generalizing parts result with
  | zero => exact walks_of_walkFrom h ne fun _ bad => absurd rfl bad
  | succ limit ih =>
    refine walks_of_walkFrom h ne fun parts ne => ?_
    obtain ⟨links, le, walks⟩ := ih rfl ne
    exact ⟨links, Nat.succ_le_succ le, walks⟩

/-- Components end in one way, after one number of links. -/
theorem Walks.unique {current : Bytes} {parts : List Bytes} {links links' : Nat}
    {result result' : Except WalkFault Bytes} (h : Walks tree current parts links result)
    (h' : Walks tree current parts links' result') : links = links' ∧ result = result' := by
  induction h generalizing links' with
  | here => cases h'; exact ⟨rfl, rfl⟩
  | missing none => cases h' <;> simp_all
  | blocked found notLink notDir more => cases h' <;> simp_all
  | link found isLink _ ih =>
    cases h' with
    | link found' _ walks' =>
      rw [found] at found'
      cases found'
      obtain ⟨rfl, rfl⟩ := ih walks'
      exact ⟨rfl, rfl⟩
    | missing | blocked | enter => simp_all
  | enter found notLink dir _ ih =>
    cases h' with
    | enter _ _ _ walks' => exact ih walks'
    | missing | blocked | link => simp_all

theorem Walks.ne_tooManyLinks {current : Bytes} {parts : List Bytes} {links : Nat}
    {result : Except WalkFault Bytes} (h : Walks tree current parts links result) :
    result ≠ .error .tooManyLinks := by
  induction h with
  | here | missing | blocked => simp
  | link _ _ _ ih | enter _ _ _ _ ih => exact ih

/-- A walk breaks off for its links just when it does not end within the limit. -/
theorem walk_eq_tooManyLinks_iff {parts : List Bytes} {limit : Nat} :
    tree.walk limit parts = .error .tooManyLinks ↔
      ∀ links result, Walks tree Path.root parts links result → limit < links := by
  constructor
  · intro h links result walks
    refine Nat.lt_of_not_le fun le => ?_
    have := walk_eq_of_walks walks le
    rw [h] at this
    subst this
    exact walks.ne_tooManyLinks rfl
  · intro h
    refine Classical.byContradiction fun ne => ?_
    obtain ⟨links, le, walks⟩ := walks_of_walk rfl ne
    exact absurd le (Nat.not_le_of_lt (h links _ walks))

/-! ## Walking on -/

/-- **A walk that comes to a directory may be walked on.** Of the root this need not be known,
since no walk enters it. -/
theorem Walks.append {current middle : Bytes} {parts more : List Bytes} {links links' : Nat}
    {result : Except WalkFault Bytes} (h : Walks tree current parts links (.ok middle))
    (h' : Walks tree middle more links' result) (hc : Path.Canonical current)
    (hp : Path.ProperStack parts)
    (dir : more ≠ [] → middle ≠ Path.root → ∀ node, tree.find? middle = some node →
      node.isDirectory = true) :
    Walks tree current (parts ++ more) (links + links') result := by
  generalize hr : (Except.ok middle : Except WalkFault Bytes) = ending at h
  induction h with
  | here => cases hr; simpa using h'
  | missing | blocked => cases hr
  | @link current part rest node links ending found isLink walks ih =>
    have proper := (Path.proper_components_resolve node.content current []).append hp.tail
    have onward := ih Path.canonical_root proper hr
    rw [List.append_assoc] at onward
    rw [Nat.add_right_comm]
    exact .link found isLink onward
  | @enter current part rest node links ending found notLink dirs walks ih =>
    have joined := Path.canonical_join hc hp.head
    refine .enter found notLink (fun ne => ?_) (ih joined hp.tail hr)
    cases rest with
    | nil =>
      -- the record entered last is where the walk came to
      cases walks
      cases hr
      exact dir (by simpa using ne) (Path.join_ne_root hc hp.head) node found
    | cons next others => exact dirs (by simp)

/-- **A walk is cut** where its first components come to; if it goes on from there, a directory
stands there. -/
theorem Walks.split {current middle : Bytes} {parts more : List Bytes} {links links' : Nat}
    {result : Except WalkFault Bytes} (h : Walks tree current (parts ++ more) links result)
    (h' : Walks tree current parts links' (.ok middle)) (ne : result ≠ .error .notADirectory) :
    ∃ rest, links = links' + rest ∧ Walks tree middle more rest result ∧
      (parts ≠ [] → more ≠ [] → middle ≠ Path.root → ∀ node, tree.find? middle = some node →
        node.isDirectory = true) := by
  generalize hr : (Except.ok middle : Except WalkFault Bytes) = ending at h'
  induction h' generalizing links with
  | here =>
    cases hr
    exact ⟨links, (Nat.zero_add _).symm, h, fun some => absurd rfl some⟩
  | missing | blocked => cases hr
  | @link current part rest node links' ending found isLink walks ih =>
    rw [List.cons_append] at h
    cases h with
    | link found' _ walks' =>
      rw [found] at found'
      cases found'
      rw [← List.append_assoc] at walks'
      obtain ⟨onward, e, walks', dir⟩ := ih walks' hr
      refine ⟨onward, by omega, walks', fun _ some notRoot => dir (fun none => ?_) some notRoot⟩
      rw [none] at walks
      cases walks
      cases hr
      exact notRoot rfl
    | missing | blocked | enter => simp_all
  | @enter current part rest node links' ending found notLink dirs walks ih =>
    rw [List.cons_append] at h
    cases h with
    | enter found' _ dirs' walks' =>
      rw [found] at found'
      cases found'
      obtain ⟨onward, e, walks', dir⟩ := ih walks' hr
      refine ⟨onward, e, walks', fun _ some notRoot => ?_⟩
      by_cases last : rest = []
      · subst last
        cases walks
        cases hr
        intro node' found'
        rw [found] at found'
        cases found'
        exact dirs' (by simpa using some)
      · exact dir last some notRoot
    | blocked => exact absurd rfl ne
    | missing | link => simp_all

/-- What a walk within a tree comes to is where it started or a record that is no link. -/
theorem Walks.found {current finish : Bytes} {parts : List Bytes} {links : Nat}
    (h : Walks tree current parts links (.ok finish)) :
    (finish = current ∨ finish = Path.root) ∨
      ∃ node, tree.find? finish = some node ∧ node.isSymlink = false := by
  generalize hr : (Except.ok finish : Except WalkFault Bytes) = ending at h
  induction h with
  | here => cases hr; exact .inl (.inl rfl)
  | missing | blocked => cases hr
  | link _ _ _ ih => exact (ih hr).imp (fun h => .inr (h.elim id id)) id
  | enter found notLink _ _ ih =>
    rcases ih hr with (rfl | root) | there
    · exact .inr ⟨_, found, notLink⟩
    · exact .inl (.inr root)
    · exact .inr there

/-- The components of the path lead to it from the root, and across no link. -/
def Straight (tree : Tree) (path : Bytes) : Prop :=
  Path.Canonical path ∧ Walks tree Path.root (Path.components path) 0 (.ok path)

theorem straight_root : tree.Straight Path.root := ⟨Path.canonical_root, .here _⟩

/-- One more component that is no link, behind what is a directory or the root. -/
theorem Straight.join {dir part : Bytes} {node : Inode} (h : tree.Straight dir)
    (hp : Path.Proper part) (isDir : dir ≠ Path.root → tree.IsDir dir)
    (found : tree.find? (Path.join dir part) = some node) (notLink : node.isSymlink = false) :
    tree.Straight (Path.join dir part) := by
  refine ⟨Path.canonical_join h.1 hp, ?_⟩
  rw [Path.components_join h.1 hp]
  refine h.2.append (.enter found notLink (by simp) (.here _)) Path.canonical_root
    (Path.proper_components h.1) fun _ notRoot node' found' => ?_
  obtain ⟨node'', found'', yes⟩ := isDir notRoot
  rw [found'] at found''
  cases found''
  exact yes

/-- **Where a walk comes to, its components lead straight.** -/
theorem Walks.straight {current finish : Bytes} {parts : List Bytes} {links : Nat}
    (h : Walks tree current parts links (.ok finish)) (hc : tree.Straight current)
    (hp : Path.ProperStack parts)
    (isDir : parts ≠ [] → current ≠ Path.root → tree.IsDir current) : tree.Straight finish := by
  generalize hr : (Except.ok finish : Except WalkFault Bytes) = ending at h
  induction h with
  | here => cases hr; exact hc
  | missing | blocked => cases hr
  | link _ _ _ ih =>
    refine ih straight_root ?_ (fun _ ne => absurd rfl ne) hr
    exact (Path.proper_components_resolve _ _ _).append hp.tail
  | enter found notLink dirs _ ih =>
    exact ih (hc.join hp.head (isDir (by simp)) found notLink) hp.tail
      (fun ne _ => ⟨_, found, dirs ne⟩) hr

/-- **A walk starts** with the walk of its first components. -/
theorem Walks.start {current finish : Bytes} {parts more : List Bytes} {links : Nat}
    (h : Walks tree current (parts ++ more) links (.ok finish)) :
    ∃ middle first last, links = first + last ∧ Walks tree current parts first (.ok middle) ∧
      Walks tree middle more last (.ok finish) := by
  generalize hw : parts ++ more = whole at h
  generalize hr : (Except.ok finish : Except WalkFault Bytes) = ending at h
  induction h generalizing parts with
  | here current =>
    obtain ⟨rfl, rfl⟩ := List.append_eq_nil_iff.1 hw
    cases hr
    exact ⟨finish, 0, 0, rfl, .here finish, .here finish⟩
  | missing | blocked => cases hr
  | @link current part rest node links ending found isLink walks ih =>
    cases parts with
    | nil =>
      rw [List.nil_append] at hw
      subst hw hr
      exact ⟨current, 0, links + 1, (Nat.zero_add _).symm, .here current, .link found isLink walks⟩
    | cons name parts =>
      obtain ⟨rfl, rfl⟩ := List.cons.inj hw
      obtain ⟨middle, first, last, rfl, before, behind⟩ := ih (List.append_assoc ..) hr
      exact ⟨middle, first + 1, last, by omega, .link found isLink before, behind⟩
  | @enter current part rest node links ending found notLink dirs walks ih =>
    cases parts with
    | nil =>
      rw [List.nil_append] at hw
      subst hw hr
      exact ⟨current, 0, links, (Nat.zero_add _).symm, .here current,
        .enter found notLink dirs walks⟩
    | cons name parts =>
      obtain ⟨rfl, rfl⟩ := List.cons.inj hw
      obtain ⟨middle, first, last, rfl, before, behind⟩ := ih rfl hr
      exact ⟨middle, first, last, rfl,
        .enter found notLink (fun ne => dirs (by simp [ne])) before, behind⟩

/-- A walk from one directory to another goes through a directory wherever it is cut. -/
theorem Walks.through {current finish : Bytes} {parts more : List Bytes} {links : Nat}
    (h : Walks tree current (parts ++ more) links (.ok finish)) (root : tree.IsDir Path.root)
    (start : tree.IsDir current) (isDir : tree.IsDir finish) :
    ∃ middle first last, links = first + last ∧ Walks tree current parts first (.ok middle) ∧
      Walks tree middle more last (.ok finish) ∧ tree.IsDir middle := by
  obtain ⟨middle, first, last, sum, before, behind⟩ := h.start
  refine ⟨middle, first, last, sum, before, behind, ?_⟩
  by_cases none : parts = []
  · subst none
    cases before
    exact start
  by_cases all : more = []
  · subst all
    cases behind
    exact isDir
  by_cases top : middle = Path.root
  · exact top ▸ root
  obtain ⟨-, -, -, dir⟩ := h.split before (by simp)
  rcases before.found with (e | e) | ⟨node, found, -⟩
  · exact e ▸ start
  · exact absurd e top
  · exact ⟨node, found, dir none all top node found⟩

/-- A walk across no link comes to where its components name. -/
theorem Walks.finish_of_no_link {stack parts : List Bytes} {finish : Bytes}
    (hs : Path.ProperStack stack) (hp : Path.ProperStack parts)
    (h : Walks tree (Path.ofStack stack) parts 0 (.ok finish)) :
    finish = Path.ofStack (parts.reverse ++ stack) := by
  induction parts generalizing stack with
  | nil =>
    cases h
    rfl
  | cons part parts ih =>
    cases h with
    | enter _ _ _ walks =>
      rw [Path.join_ofStack hs] at walks
      rw [ih (.cons hp.head hs) hp.tail walks, List.reverse_cons, List.append_assoc,
        List.singleton_append]

/-- A walk goes on from where its first components come to across no link, if a directory stands
there. -/
theorem Walks.resume {current middle : Bytes} {parts more : List Bytes} {links : Nat}
    {result : Except WalkFault Bytes} (h : Walks tree current (parts ++ more) links result)
    (h' : Walks tree current parts 0 (.ok middle))
    (isDir : parts ≠ [] → more ≠ [] → tree.IsDir middle) : Walks tree middle more links result := by
  induction parts generalizing current with
  | nil =>
    cases h'
    exact h
  | cons part parts ih =>
    cases h' with
    | @enter _ _ _ node _ _ found notLink dirs walks =>
      cases h with
      | enter _ _ _ onward => exact ih onward walks fun _ => isDir (by simp)
      | missing none =>
        rw [found] at none
        cases none
      | link found' isLink =>
        rw [found] at found'
        cases found'
        rw [notLink] at isLink
        cases isLink
      | blocked found' _ notDir some =>
        rw [found] at found'
        cases found'
        -- more is to come, so the record that blocks the way is a directory
        have dir : node.isDirectory = true := by
          by_cases last : parts = []
          · subst last
            cases walks
            obtain ⟨_, there, dir⟩ := isDir (by simp) (by simpa using some)
            rw [found] at there
            cases there
            exact dir
          · exact dirs last
        rw [notDir] at dir
        cases dir

/-- **To start over from the root** is to go on from a directory that is led straight to. -/
theorem Straight.walks_iff {dir : Bytes} {more : List Bytes} {links : Nat}
    {result : Except WalkFault Bytes} (h : tree.Straight dir)
    (isDir : more ≠ [] → dir ≠ Path.root → tree.IsDir dir) :
    Walks tree Path.root (Path.components dir ++ more) links result ↔
      Walks tree dir more links result := by
  constructor
  · refine fun walks => walks.resume h.2 fun some ne => isDir ne ?_
    rintro rfl
    exact some rfl
  · intro walks
    rw [← Nat.zero_add links]
    refine h.2.append walks Path.canonical_root (Path.proper_components h.1) fun ne notRoot => ?_
    obtain ⟨node, found, yes⟩ := isDir ne notRoot
    intro node' found'
    rw [found] at found'
    cases found'
    exact yes

/-- What leads straight to a path leads straight to all above it, and finds directories there. -/
theorem Straight.above {above below : List Bytes}
    (h : tree.Straight (Path.ofStack (below ++ above)))
    (proper : Path.ProperStack (below ++ above)) :
    tree.Straight (Path.ofStack above) ∧
      (below ≠ [] → above ≠ [] → tree.IsDir (Path.ofStack above)) := by
  have upper : Path.ProperStack above := fun part mem => proper part (List.mem_append_right _ mem)
  have walks := h.2
  rw [Path.components_ofStack proper, List.reverse_append] at walks
  obtain ⟨middle, first, last, none, before, behind⟩ := walks.start
  obtain ⟨rfl, rfl⟩ : first = 0 ∧ last = 0 := by omega
  have middle_eq := before.finish_of_no_link .nil upper.reverse
  rw [List.reverse_reverse, List.append_nil] at middle_eq
  subst middle_eq
  refine ⟨⟨Path.canonical_ofStack upper, ?_⟩, fun more some => ?_⟩
  · rwa [Path.components_ofStack upper]
  · obtain ⟨part, stack, rfl⟩ := List.exists_cons_of_ne_nil some
    have notRoot := Path.ofStack_cons_ne_root upper
    obtain ⟨_, -, -, isDir⟩ := walks.split before (by simp)
    rcases before.found with (e | e) | ⟨node, found, -⟩
    · exact absurd e notRoot
    · exact absurd e notRoot
    · exact ⟨node, found, isDir (by simp) (by simpa using more) notRoot node found⟩

/-- What leads straight to a path leads straight to its parent. -/
theorem Straight.parent {path : Bytes} (h : tree.Straight path) :
    tree.Straight (Path.parent path) := by
  obtain ⟨stack, proper, rfl⟩ := Path.canonical_iff.1 h.1
  cases stack with
  | nil => exact straight_root
  | cons part stack =>
    rw [Path.parent_ofStack_cons proper]
    exact (@Straight.above tree stack [part] h proper).1

/-- What a record tells a walk: its kind, and its target if it is a link. -/
def guide (node : Inode) : InodeKind × Bytes :=
  (node.kind, if node.isSymlink then node.content else [])

theorem isSymlink_of_guide {node node' : Inode} (h : guide node = guide node') :
    node.isSymlink = node'.isSymlink := by
  have := congrArg Prod.fst h
  simpa [guide, Inode.isSymlink] using congrArg (· == InodeKind.symlink) this

theorem isDirectory_of_guide {node node' : Inode} (h : guide node = guide node') :
    node.isDirectory = node'.isDirectory := by
  have := congrArg Prod.fst h
  simpa [guide, Inode.isDirectory] using congrArg (· == InodeKind.directory) this

theorem content_of_guide {node node' : Inode} (h : guide node = guide node')
    (isLink : node.isSymlink = true) : node.content = node'.content := by
  have := congrArg Prod.snd h
  simpa [guide, isLink, ← isSymlink_of_guide h] using this

/-- **A walk that succeeds** is the same in every tree that keeps the records' guidance. -/
theorem Walks.mono {tree' : Tree} {current finish : Bytes} {parts : List Bytes} {links : Nat}
    (h : Walks tree current parts links (.ok finish))
    (keeps : ∀ path node, tree.find? path = some node →
      ∃ node', tree'.find? path = some node' ∧ guide node = guide node') :
    Walks tree' current parts links (.ok finish) := by
  generalize hr : (Except.ok finish : Except WalkFault Bytes) = ending at h
  induction h with
  | here => exact .here _
  | missing | blocked => cases hr
  | link found isLink _ ih =>
    obtain ⟨node', found', same⟩ := keeps _ _ found
    refine .link found' (isSymlink_of_guide same ▸ isLink) ?_
    rw [← content_of_guide same isLink]
    exact ih hr
  | enter found notLink dirs _ ih =>
    obtain ⟨node', found', same⟩ := keeps _ _ found
    exact .enter found' (isSymlink_of_guide same ▸ notLink)
      (fun ne => isDirectory_of_guide same ▸ dirs ne) (ih hr)

/-- It is enough to keep what stands where the walk may come to; of the links, those that lead on to
where the walk ends. -/
theorem Walks.mono_of_straight {tree' : Tree} {current finish : Bytes} {parts : List Bytes}
    {links : Nat} (h : Walks tree current parts links (.ok finish)) (hc : tree.Straight current)
    (hp : Path.ProperStack parts)
    (isDir : parts ≠ [] → current ≠ Path.root → tree.IsDir current)
    (keeps : ∀ path node, Path.Canonical path → tree.Straight (Path.parent path) →
      tree.find? path = some node →
        (node.isSymlink = true → ∃ rest links, Walks tree Path.root
          (Path.components (Path.resolve node.content (Path.parent path)) ++ rest) links
            (.ok finish)) →
          ∃ node', tree'.find? path = some node' ∧ guide node = guide node') :
    Walks tree' current parts links (.ok finish) := by
  have kept : ∀ {dir part node}, tree.Straight dir → Path.Proper part →
      tree.find? (Path.join dir part) = some node →
        (node.isSymlink = true → ∃ rest links, Walks tree Path.root
          (Path.components (Path.resolve node.content dir) ++ rest) links (.ok finish)) →
          ∃ node', tree'.find? (Path.join dir part) = some node' ∧ guide node = guide node' := by
    intro dir part node straight proper found onward
    have parent := Path.parent_join straight.1 proper
    exact keeps _ _ (Path.canonical_join straight.1 proper) (parent.symm ▸ straight) found
      (parent.symm ▸ onward)
  generalize hr : (Except.ok finish : Except WalkFault Bytes) = ending at h
  induction h with
  | here => exact .here _
  | missing | blocked => cases hr
  | @link current part rest node links ending found isLink walks ih =>
    have proper := (Path.proper_components_resolve node.content current []).append hp.tail
    obtain ⟨node', found', same⟩ := kept hc hp.head found fun _ => ⟨rest, links, hr ▸ walks⟩
    refine .link found' (isSymlink_of_guide same ▸ isLink) ?_
    rw [← content_of_guide same isLink]
    exact ih straight_root proper (fun _ ne => absurd rfl ne) hr
  | @enter current part rest node links ending found notLink dirs walks ih =>
    obtain ⟨node', found', same⟩ := kept hc hp.head found fun isLink => by
      rw [notLink] at isLink
      cases isLink
    exact .enter found' (isSymlink_of_guide same ▸ notLink)
      (fun ne => isDirectory_of_guide same ▸ dirs ne)
      (ih (hc.join hp.head (isDir (by simp)) found notLink) hp.tail
        (fun ne _ => ⟨node, found, dirs ne⟩) hr)

/-- **A walk that misses a record** misses it in a directory that it has come to straight. In a
tree that keeps the records' guidance the walk comes there too, and goes on as that tree has it. -/
theorem Walks.of_missing {tree' : Tree} {current : Bytes} {parts : List Bytes} {links : Nat}
    (h : Walks tree current parts links (.error .missing)) (hc : tree.Straight current)
    (hp : Path.ProperStack parts)
    (isDir : parts ≠ [] → current ≠ Path.root → tree.IsDir current)
    (keeps : ∀ path node, tree.find? path = some node →
      ∃ node', tree'.find? path = some node' ∧ guide node = guide node') :
    ∃ dir part rest, tree.find? (Path.join dir part) = none ∧ tree.Straight dir ∧
      Path.Proper part ∧ ∀ more result, Walks tree' dir (part :: rest) more result →
        Walks tree' current parts (links + more) result := by
  generalize hr : (Except.error .missing : Except WalkFault Bytes) = ending at h
  induction h with
  | here | blocked => cases hr
  | @missing current part rest none =>
    exact ⟨current, part, rest, none, hc, hp.head,
      fun more _ walks => (Nat.zero_add more).symm ▸ walks⟩
  | @link current part rest node links ending found isLink walks ih =>
    have proper := (Path.proper_components_resolve node.content current []).append hp.tail
    obtain ⟨dir, part', rest', none, straight, hp', onward⟩ :=
      ih straight_root proper (fun _ ne => absurd rfl ne) hr
    refine ⟨dir, part', rest', none, straight, hp', fun more result walks => ?_⟩
    obtain ⟨node', found', same⟩ := keeps _ _ found
    rw [Nat.add_right_comm]
    refine .link found' (isSymlink_of_guide same ▸ isLink) ?_
    rw [← content_of_guide same isLink]
    exact onward more result walks
  | @enter current part rest node links ending found notLink dirs walks ih =>
    obtain ⟨dir, part', rest', none, straight, hp', onward⟩ :=
      ih (hc.join hp.head (isDir (by simp)) found notLink) hp.tail
        (fun ne _ => ⟨node, found, dirs ne⟩) hr
    refine ⟨dir, part', rest', none, straight, hp', fun more result walks => ?_⟩
    obtain ⟨node', found', same⟩ := keeps _ _ found
    exact .enter found' (isSymlink_of_guide same ▸ notLink)
      (fun ne => isDirectory_of_guide same ▸ dirs ne) (onward more result walks)

/-- Trees that guide alike are walked alike. -/
theorem Walks.congr {tree' : Tree} {current : Bytes} {parts : List Bytes} {links : Nat}
    {result : Except WalkFault Bytes} (h : Walks tree current parts links result)
    (same : ∀ path, (tree.find? path).map guide = (tree'.find? path).map guide) :
    Walks tree' current parts links result := by
  have keeps : ∀ {path node}, tree.find? path = some node →
      ∃ node', tree'.find? path = some node' ∧ guide node = guide node' := by
    intro path node found
    have := same path
    rw [found, Option.map_some, eq_comm, Option.map_eq_some_iff] at this
    obtain ⟨node', found', e⟩ := this
    exact ⟨node', found', e.symm⟩
  induction h with
  | here => exact .here _
  | @missing current part rest none =>
    have := same (Path.join current part)
    rw [none, Option.map_none, eq_comm, Option.map_eq_none_iff] at this
    exact .missing this
  | blocked found notLink notDir more =>
    obtain ⟨node', found', e⟩ := keeps found
    exact .blocked found' (isSymlink_of_guide e ▸ notLink) (isDirectory_of_guide e ▸ notDir) more
  | link found isLink _ ih =>
    obtain ⟨node', found', e⟩ := keeps found
    refine .link found' (isSymlink_of_guide e ▸ isLink) ?_
    rw [← content_of_guide e isLink]
    exact ih
  | enter found notLink dirs _ ih =>
    obtain ⟨node', found', e⟩ := keeps found
    exact .enter found' (isSymlink_of_guide e ▸ notLink)
      (fun ne => isDirectory_of_guide e ▸ dirs ne) ih

/-! ## Paths that lead somewhere -/

theorem realPath_of_walk_ok {path finish : Bytes}
    (h : tree.walk linkLimit (Path.components (Path.resolve path)) = .ok finish) :
    tree.realPath path = .ok finish :=
  congrArg (Except.mapError (WalkFault.along (Path.resolve path))) h

theorem realPath_of_walk_error {path : Bytes} {stop : WalkFault}
    (h : tree.walk linkLimit (Path.components (Path.resolve path)) = .error stop) :
    tree.realPath path = .error (stop.along (Path.resolve path)) :=
  congrArg (Except.mapError (WalkFault.along (Path.resolve path))) h

theorem realPath_eq_ok_iff {path finish : Bytes} :
    tree.realPath path = .ok finish ↔
      ∃ links ≤ linkLimit,
        Walks tree Path.root (Path.components (Path.resolve path)) links (.ok finish) := by
  constructor
  · intro h
    cases hw : tree.walk linkLimit (Path.components (Path.resolve path)) with
    | error stop =>
      rw [realPath_of_walk_error hw] at h
      cases h
    | ok r =>
      rw [realPath_of_walk_ok hw] at h
      cases h
      exact walks_of_walk hw (by simp)
  · rintro ⟨links, le, walks⟩
    exact realPath_of_walk_ok (walk_eq_of_walks walks le)

/-- A path that leads nowhere for want of a record has a walk within the limit. -/
theorem walks_missing_of_realPath {path : Bytes} {fault : Fault}
    (h : tree.realPath path = .error fault) (kind : fault.kind = .notFound) :
    ∃ links ≤ linkLimit,
      Walks tree Path.root (Path.components (Path.resolve path)) links (.error .missing) := by
  cases hw : tree.walk linkLimit (Path.components (Path.resolve path)) with
  | ok r =>
    rw [realPath_of_walk_ok hw] at h
    cases h
  | error stop =>
    rw [realPath_of_walk_error hw] at h
    cases h
    cases stop with
    | missing => exact walks_of_walk hw (by simp)
    | notADirectory | tooManyLinks => cases kind

theorem straight_of_realPath {path finish : Bytes} (h : tree.realPath path = .ok finish) :
    tree.Straight finish := by
  obtain ⟨links, -, walks⟩ := realPath_eq_ok_iff.1 h
  exact walks.straight straight_root (Path.proper_components_resolve _ _ _)
    fun _ ne => absurd rfl ne

theorem realPath_of_straight {path : Bytes} (h : tree.Straight path) :
    tree.realPath path = .ok path := by
  refine realPath_eq_ok_iff.2 ⟨0, Nat.zero_le _, ?_⟩
  rw [h.1]
  exact h.2

/-- **The entry that a path names**: the root, or a name in the directory that the path without
its last component leads to. -/
theorem entryPath_eq_ok_iff {path entry : Bytes} :
    tree.entryPath path = .ok entry ↔
      (Path.resolve path = Path.root ∧ entry = Path.root) ∨
        Path.resolve path ≠ Path.root ∧ ∃ dir,
          tree.realPath (Path.parent (Path.resolve path)) = .ok dir ∧
            entry = Path.join dir (Path.base (Path.resolve path)) := by
  by_cases root : Path.resolve path = Path.root
  · simp only [entryPath, root, if_true, Except.ok.injEq, true_and, ne_eq, not_true_eq_false,
      false_and, or_false]
    exact eq_comm
  · simp only [entryPath, root, if_false, false_and, ne_eq, not_false_eq_true, true_and, false_or]
    cases tree.realPath (Path.parent (Path.resolve path)) with
    | ok dir => simpa using eq_comm
    | error fault =>
      by_cases kind : fault.kind = .notFound <;> simp [kind]

theorem canonical_of_entryPath {path entry : Bytes} (h : tree.entryPath path = .ok entry) :
    Path.Canonical entry := by
  rcases entryPath_eq_ok_iff.1 h with ⟨-, rfl⟩ | ⟨ne, dir, real, rfl⟩
  · exact Path.canonical_root
  · exact Path.canonical_join (straight_of_realPath real).1
      (Path.proper_base (Path.canonical_resolve ..) ne)

end

end VirtualShell.Tree
