import VirtualShell.Proofs.Pattern.Meaning
import VirtualShell.Proofs.Pattern.Written
import VirtualShell.Proofs.Relocation
import VirtualShell.Proofs.Tree.Listing
import VirtualShell.Shell.Interpreter

/-!
# Finding paths by patterns

A pattern is held against the *candidates* of a tree: all its keys, or those below a base as they
are seen from it (`mem_candidates_iff`), in strictly increasing byte order (`pairwise_candidates`).
What it finds are those that its expression accepts.

* `glob_spec`: every pattern has an expression, and where no key contains a line break it finds
  just the candidates that it means.
* `mem_glob_wide_iff`: what a pattern still finds with one of its stars doubled.
* `glob_star_iff`: a single star finds the names of a listing iff the directory is not seen through
  a link, or is empty.
-/

namespace VirtualShell

namespace Tree

variable {tree : Tree} {pattern base path before after : Bytes} {absolute : Bool}

open Glob

/-! ## Candidates -/

/-- A path is one that a pattern is held against: a key in full for a pattern that starts with a
slash, else a key strictly below the base as it is seen from there. -/
def Candidate (tree : Tree) (absolute : Bool) (base path : Bytes) : Prop :=
  if absolute then tree.contains path = true
  else ∃ key, tree.contains key = true ∧ Path.isWithin key (Path.resolve base) = true ∧
    path = Path.behind (Path.resolve base) key

/-- A candidate is a key or the end of one. -/
theorem Candidate.forall_byte {p : UInt8 → Prop} (candidate : tree.Candidate absolute base path)
    (all : ∀ key, tree.contains key = true → ∀ c ∈ key, p c) : ∀ c ∈ path, p c := by
  cases absolute with
  | true => exact all path candidate
  | false =>
    obtain ⟨key, there, -, rfl⟩ := candidate
    exact fun c mem => all key there c (List.mem_of_mem_drop mem)

/-- In full, every key is one; all of them start with a slash. -/
theorem candidates_true (h : tree.Keyed) (base : Bytes) :
    tree.candidates true base = tree.keys := by
  rw [ByteMap.keys, ← List.filterMap_eq_map]
  show (tree.scan (Path.below Path.root)).filterMap _ = _
  rw [ByteMap.scan_eq_filter, List.filterMap_filter]
  refine List.filterMap_congr fun e mem => ?_
  have canonical := (h e.1 e.2 (ByteMap.find?_of_mem mem)).1
  have absolute := Path.isPrefixOf_root canonical
  have some : e.1.isEmpty = false := by
    cases whole : e.1 with
    | nil =>
      rw [whole] at absolute
      cases absolute
    | cons => rfl
  simp [absolute, some]

/-- Seen from a base, the keys that lie within it are; the scan may come to the base itself, which
has no name there. -/
theorem candidates_false (h : tree.Keyed) (base : Bytes) :
    tree.candidates false base =
      (tree.keys.filter (Path.isWithin · (Path.resolve base))).map
        (Path.behind (Path.resolve base)) := by
  have hd := Path.canonical_resolve base Path.root []
  generalize dir : Path.resolve base = top at hd
  rw [ByteMap.keys, List.filter_map, List.map_map, ← List.filterMap_eq_map, List.filterMap_filter]
  show (tree.scan (Path.below (Path.resolve base))).filterMap _ = _
  rw [dir, ByteMap.scan_eq_filter, List.filterMap_filter]
  refine List.filterMap_congr fun e mem => ?_
  have canonical := (h e.1 e.2 (ByteMap.find?_of_mem mem)).1
  show (if _ then if (Path.behind top e.1).isEmpty then none else some (Path.behind top e.1)
    else none) = _
  cases pre : (Path.below top).isPrefixOf e.1 with
  | true =>
    rw [Path.behind_isEmpty_eq canonical hd pre]
    cases within : Path.isWithin e.1 top <;> simp [within]
  | false =>
    have outside : Path.isWithin e.1 top = false := Bool.eq_false_iff.2 fun within => by
      rw [((Path.isWithin_iff_below canonical hd).1 within).1] at pre
      cases pre
    simp [outside]

/-- **The candidates of a pattern.** -/
theorem mem_candidates_iff (h : tree.Keyed) :
    path ∈ tree.candidates absolute base ↔ tree.Candidate absolute base path := by
  cases absolute with
  | true => rw [candidates_true h, ByteMap.mem_keys_iff]; rfl
  | false =>
    rw [candidates_false h, List.mem_map]
    simp only [List.mem_filter, ByteMap.mem_keys_iff, Candidate, Bool.false_eq_true, if_false,
      and_assoc, eq_comm (a := path)]

/-- **Candidates stand in byte order**, each once. -/
theorem pairwise_candidates (h : tree.Keyed) (absolute : Bool) (base : Bytes) :
    (tree.candidates absolute base).Pairwise (· < ·) := by
  cases absolute with
  | true => exact (candidates_true h base).symm ▸ tree.pairwise_keys
  | false =>
    have hd := Path.canonical_resolve base Path.root []
    rw [candidates_false h, List.pairwise_map]
    refine (tree.pairwise_keys.filter _).imp_of_mem fun {a b} ha hb lt => ?_
    have whole : ∀ key ∈ tree.keys.filter (Path.isWithin · (Path.resolve base)),
        Path.below (Path.resolve base) ++ Path.behind (Path.resolve base) key = key := by
      intro key mem
      obtain ⟨there, within⟩ := List.mem_filter.1 mem
      obtain ⟨node, found⟩ := Option.isSome_iff_exists.1 (ByteMap.mem_keys_iff.1 there)
      exact Path.below_append_behind
        ((Path.isWithin_iff_below (h _ _ found).1 hd).1 within).1
    rw [← whole a ha, ← whole b hb] at lt
    exact lt_of_append_lt_append UInt8.lt_irrefl lt

/-! ## What patterns find -/

theorem mem_glob_iff :
    path ∈ tree.glob pattern base ↔
      path ∈ tree.candidates (Path.isAbsolute pattern) base ∧ accepts pattern path = true :=
  List.mem_filter

/-- What a pattern finds when its expression is first read from its written form. A text that the
reader refuses is an invalid argument, for what the reader says about it. -/
def globReading (read : Bytes → Except Bytes Regex) (tree : Tree) (pattern base : Bytes) :
    Except (ErrorKind × Bytes) (List Bytes) :=
  match read (regexText pattern) with
  | .ok regex => .ok ((tree.candidates (Path.isAbsolute pattern) base).filter regex.matchesAll)
  | .error reason => .error (.invalidArgument, pattern ++ ascii ": " ++ reason)

/-- The reader of regular expressions, with a reason for what it refuses. It sets no bound to the
number of states, as `Regex.read?` does. -/
def readExpression (reason text : Bytes) : Except Bytes Regex :=
  match Regex.parse? false text with
  | some (regex, _) => .ok regex
  | none => .error reason

/-- **Patterns find what they mean.** Every pattern is written as a regular expression, which on
paths without line breaks accepts just what the pattern means; so reading it back refuses nothing,
with no bound on the states of its automaton. What is found stands in byte order, each path once.
Where no key contains a line break, it is the candidates that the pattern means. -/
theorem glob_spec (h : tree.Keyed) (pattern base : Bytes) :
    (∃ states, Regex.parse? false (regexText pattern) = some (regex pattern, states)) ∧
    (∀ path : Bytes, (∀ c ∈ path, IsLineByte c) →
      ((regex pattern).matchesAll path = true ↔ Means pattern path)) ∧
    (∀ reason, globReading (readExpression reason) tree pattern base =
      .ok (tree.glob pattern base)) ∧
    (tree.glob pattern base).Pairwise (· < ·) ∧
    ((∀ key, tree.contains key = true → ∀ c ∈ key, IsLineByte c) →
      ∀ path, path ∈ tree.glob pattern base ↔
        tree.Candidate (Path.isAbsolute pattern) base path ∧ Means pattern path) := by
  have written := parse?_regexText pattern
  refine ⟨⟨_, written⟩, fun path => accepts_iff_means, fun reason => ?_,
    (pairwise_candidates h _ _).filter _, fun lines path => ?_⟩
  · have read : readExpression reason (regexText pattern) = .ok (regex pattern) := by
      rw [readExpression, written]
    rw [globReading, read]
    rfl
  · rw [mem_glob_iff, mem_candidates_iff h]
    refine and_congr_right fun candidate => accepts_iff_means ?_
    exact Candidate.forall_byte candidate lines

/-- Names in a directory of their own, by a pattern with a wildcard of each kind. -/
theorem glob_spec_at_nested_names :
    let tree := (FileSystem.seededWith [.makeDirectory (ascii "/tmp/d/e") true,
      .write (ascii "/tmp/d/e/a.txt") (ascii "x")]).tree
    tree.Keyed ∧ (∀ key, tree.contains key = true → ∀ c ∈ key, IsLineByte c) ∧
      tree.glob (ascii "**/e/?.*") (ascii "/tmp") = [ascii "d/e/a.txt"] ∧
      tree.Candidate false (ascii "/tmp") (ascii "d/e/a.txt") ∧
      Means (ascii "**/e/?.*") (ascii "d/e/a.txt") := by
  intro tree
  have sound : tree.Sound := FileSystem.sound_seededWith (by simp [Edit.Merges])
  have run : (∀ key ∈ tree.keys, ∀ c ∈ key, IsLineByte c) ∧
      tree.glob (ascii "**/e/?.*") (ascii "/tmp") = [ascii "d/e/a.txt"] := by decide +kernel
  obtain ⟨lines, finds⟩ := run
  have lines : ∀ key, tree.contains key = true → ∀ c ∈ key, IsLineByte c :=
    fun key there => lines key (ByteMap.mem_keys_iff.2 there)
  obtain ⟨-, -, -, -, found⟩ := glob_spec sound.keyed (ascii "**/e/?.*") (ascii "/tmp")
  have mem : ascii "d/e/a.txt" ∈ tree.glob (ascii "**/e/?.*") (ascii "/tmp") :=
    finds ▸ List.mem_singleton_self _
  obtain ⟨candidate, means⟩ := (found lines _).1 mem
  exact ⟨sound.keyed, lines, finds, candidate, means⟩

/-! ## Doubling a star -/

theorem isAbsolute_append_star (before after after' : Bytes) :
    Path.isAbsolute (before ++ Ascii.star :: after) =
      Path.isAbsolute (before ++ Ascii.star :: after') := by
  cases before <;> rfl

/-- **Two stars find less than one** where a name contains a line break. Of the paths that a pattern
finds, the pattern with one of its stars doubled finds just those of which the double star can take
its part without a line break, or nothing together with the slash behind it; among them are all
paths without line breaks. -/
theorem mem_glob_wide_iff (apart : before.getLast? ≠ some Ascii.star)
    (next : after.head? ≠ some Ascii.star)
    (mem : path ∈ tree.glob (before ++ Ascii.star :: after) base) :
    (path ∈ tree.glob (before ++ Ascii.star :: Ascii.star :: after) base ↔
      (∃ left text right, path = left ++ text ++ right ∧ accepts before left = true ∧
        (∀ c ∈ text, IsLineByte c) ∧ accepts after right = true) ∨
      ∃ deeper left right, after = Ascii.slash :: deeper ∧ path = left ++ right ∧
        accepts before left = true ∧ accepts deeper right = true) ∧
    ((∀ c ∈ path, IsLineByte c) →
      path ∈ tree.glob (before ++ Ascii.star :: Ascii.star :: after) base) := by
  obtain ⟨candidate, accepted⟩ := mem_glob_iff.1 mem
  rw [isAbsolute_append_star before after (Ascii.star :: after)] at candidate
  have found : path ∈ tree.glob (before ++ Ascii.star :: Ascii.star :: after) base ↔
      accepts (before ++ Ascii.star :: Ascii.star :: after) path = true :=
    mem_glob_iff.trans (and_iff_right candidate)
  refine ⟨found.trans (accepts_wide_iff apart), fun line => found.2 ?_⟩
  obtain ⟨left, name, right, rfl, front, -, behind⟩ := (accepts_star_iff apart next).1 accepted
  have given : ∀ c ∈ name, IsLineByte c := fun c inName =>
    line c (List.mem_append_left _ (List.mem_append_right _ inName))
  exact (accepts_wide_iff apart).2 (.inl ⟨left, name, right, rfl, front, given, behind⟩)

/-- A file in a directory, by one star behind the name of the directory, and by two. -/
theorem mem_glob_wide_iff_at_file :
    let tree := (FileSystem.seededWith [.makeDirectory (ascii "/tmp/d"),
      .write (ascii "/tmp/d/x") (ascii "x")]).tree
    ascii "d/x" ∈ tree.glob (ascii "d/*") (ascii "/tmp") ∧ (∀ c ∈ ascii "d/x", IsLineByte c) ∧
      ascii "d/x" ∈ tree.glob (ascii "d/**") (ascii "/tmp") := by
  intro tree
  have mem : ascii "d/x" ∈ tree.glob (ascii "d/*") (ascii "/tmp") := by decide +kernel
  have line : ∀ c ∈ ascii "d/x", IsLineByte c := by decide +kernel
  clear_value tree
  have cut : ascii "d/x" ∈ tree.glob (ascii "d/" ++ Ascii.star :: []) (ascii "/tmp") := mem
  exact ⟨mem, line, (mem_glob_wide_iff (by decide) (by decide) cut).2 line⟩

/-- **A name with a line break** is found by one star and not by two. -/
theorem not_mem_glob_wide :
    let tree := (FileSystem.seededWith [.makeDirectory (ascii "/tmp/d"),
      .write (ascii "/tmp/d/a\nb") (ascii "x")]).tree
    tree.Sound ∧ tree.glob (ascii "*") (ascii "/tmp/d") = [ascii "a\nb"] ∧
      tree.glob (ascii "**") (ascii "/tmp/d") = [] ∧
      ¬ ∀ before after base path : Bytes, before.getLast? ≠ some Ascii.star →
        after.head? ≠ some Ascii.star → path ∈ tree.glob (before ++ Ascii.star :: after) base →
          path ∈ tree.glob (before ++ Ascii.star :: Ascii.star :: after) base := by
  intro tree
  have sound : tree.Sound := FileSystem.sound_seededWith (by simp [Edit.Merges])
  have run : tree.glob (ascii "*") (ascii "/tmp/d") = [ascii "a\nb"] ∧
      tree.glob (ascii "**") (ascii "/tmp/d") = [] := by decide +kernel
  obtain ⟨one, two⟩ := run
  refine ⟨sound, one, two, fun wider => ?_⟩
  clear_value tree
  have mem := wider [] [] (ascii "/tmp/d") (ascii "a\nb") (by decide) (by decide)
    (one ▸ List.mem_singleton_self _)
  have none : ascii "a\nb" ∈ tree.glob (ascii "**") (ascii "/tmp/d") := mem
  rw [two] at none
  cases none

/-! ## Listings -/

/-- A name, seen from its directory, is what a star takes; what lies deeper has a slash in it. -/
theorem accepts_star_behind {key dir : Bytes} (hk : Path.Canonical key) (hd : Path.Canonical dir)
    (within : Path.isWithin key dir = true) :
    accepts [Ascii.star] (Path.behind dir key) = true ↔ Path.parent key = dir := by
  have ne := Path.ne_root_of_isWithin hd within
  rw [accepts_star]
  constructor
  · intro plain
    refine ((Path.isWithin_iff_parent hk hd ne).1 within).resolve_right fun deeper => plain ?_
    rw [← Path.join_parent_base hk ne,
      Path.behind_join_of_isWithin (Path.canonical_parent hk) hd deeper]
    simp
  · intro parent
    rw [Path.behind_of_parent hk ne parent]
    exact (Path.proper_base hk ne).no_slash

/-- The keys below a directory that a star takes are those of its children. -/
theorem within_and_accepts_star {key dir : Bytes} (hk : Path.Canonical key)
    (hd : Path.Canonical dir) :
    Path.isWithin key dir = true ∧ accepts [Ascii.star] (Path.behind dir key) = true ↔
      key ≠ Path.root ∧ Path.parent key = dir := by
  constructor
  · rintro ⟨within, accepted⟩
    exact ⟨Path.ne_root_of_isWithin hd within, (accepts_star_behind hk hd within).1 accepted⟩
  · rintro ⟨ne, parent⟩
    have within := (Path.isWithin_iff_parent hk hd ne).2 (.inl parent)
    exact ⟨within, (accepts_star_behind hk hd within).2 parent⟩

/-- **A single star finds the children** that the canonical path has by its text. -/
theorem glob_star (h : tree.Keyed) (path : Bytes) :
    tree.glob [Ascii.star] path =
      ((tree.children (Path.resolve path)).map entryOf).map (·.name) := by
  have hd := Path.canonical_resolve path Path.root []
  rw [List.map_map, children]
  show (tree.candidates false path).filter (accepts [Ascii.star]) = _
  rw [candidates_false h, ByteMap.keys]
  generalize Path.resolve path = dir at hd
  rw [List.filter_map, List.filter_map, List.filter_map, List.map_map, List.filter_filter]
  have canonical : ∀ e ∈ tree.entries, Path.Canonical e.1 := fun e mem =>
    (h e.1 e.2 (ByteMap.find?_of_mem mem)).1
  have children : tree.entries.filter (fun e => accepts [Ascii.star] (Path.behind dir e.1) &&
      Path.isWithin e.1 dir) =
      tree.entries.filter fun e => decide (e.1 ≠ Path.root ∧ Path.parent e.1 = dir) := by
    refine List.filter_congr fun e mem => ?_
    rw [Bool.and_comm, Bool.eq_iff_iff, Bool.and_eq_true, decide_eq_true_iff]
    exact within_and_accepts_star (canonical e mem) hd
  show (tree.entries.filter fun e => accepts [Ascii.star] (Path.behind dir e.1) &&
    Path.isWithin e.1 dir).map _ = _
  rw [children]
  refine List.map_congr_left fun e mem => ?_
  obtain ⟨mem, child⟩ := List.mem_filter.1 mem
  obtain ⟨ne, parent⟩ := of_decide_eq_true child
  exact Path.behind_of_parent (canonical e mem) ne parent

/-- The names of a listing that a pattern without a leading dot shows. -/
def shownNames (entries : List DirEntry) : List Bytes :=
  (entries.map (·.name)).filter fun name => name.head? != some Ascii.dot

theorem isHiddenMatch_star {name : Bytes} (h : Path.Proper name) :
    isHiddenMatch [Ascii.star] name = (name.head? == some Ascii.dot) := by
  have ne : Ascii.slash :: name ≠ Path.root := fun same => h.ne_nil (List.cons.inj same).2
  have split : Bytes.splitAtLast? Ascii.slash (Ascii.slash :: name) = some ([], name) :=
    @Path.splitAtLast?_append [] name h.no_slash
  have last : Path.base (Ascii.slash :: name) = name := by rw [Path.base, if_neg ne, split]
  rw [isHiddenMatch, last]
  exact Bool.and_true _

variable {entries : List DirEntry}

/-- **What a star stands for in a word**: the names that it finds and shows, or itself. -/
theorem expandWord_star (h : tree.Keyed) (path : Bytes) :
    expandWord tree path ⟨[Ascii.star], true⟩ =
      let shown := shownNames ((tree.children (Path.resolve path)).map entryOf)
      if shown.isEmpty then [[Ascii.star]] else shown := by
  have shown : (tree.glob [Ascii.star] path).filter (fun name => !isHiddenMatch [Ascii.star] name) =
      shownNames ((tree.children (Path.resolve path)).map entryOf) := by
    rw [glob_star h, shownNames]
    refine List.filter_congr fun name mem => ?_
    obtain ⟨e, child, rfl⟩ : ∃ e ∈ tree.children (Path.resolve path), Path.base e.1 = name := by
      simpa [entryOf] using mem
    obtain ⟨found, ne, -⟩ := mem_children_iff.1 child
    rw [isHiddenMatch_star (Path.proper_base (h _ _ found).1 ne)]
    rfl
  have word : expandWord tree path ⟨[Ascii.star], true⟩ =
      let shown := (tree.glob [Ascii.star] path).filter fun name => !isHiddenMatch [Ascii.star] name
      if shown.isEmpty then [[Ascii.star]] else shown.map ([] ++ ·) := rfl
  rw [word, shown]
  simp only [List.nil_append, List.map_id']

/-- **A star finds what is listed, if no link is followed.** Of a directory that can be listed it
finds the names of the listing, in their order, just if the path is the real path of the directory,
or the directory is empty; seen through a link it finds nothing. The word `*` stands in the one case
for the names that do not begin with a dot, or if there are none, and in the other case always, for
itself. -/
theorem glob_star_iff (h : tree.Sound) (lists : tree.list path = .ok entries) :
    (tree.glob [Ascii.star] path = entries.map (·.name) ↔
      tree.realPath path = .ok (Path.resolve path) ∨ entries = []) ∧
    (tree.realPath path = .ok (Path.resolve path) →
      expandWord tree path ⟨[Ascii.star], true⟩ =
        if (shownNames entries).isEmpty then [[Ascii.star]] else shownNames entries) ∧
    (tree.realPath path ≠ .ok (Path.resolve path) →
      tree.glob [Ascii.star] path = [] ∧
        expandWord tree path ⟨[Ascii.star], true⟩ = [[Ascii.star]]) := by
  obtain ⟨dir, real, -, rfl⟩ := (list_eq_ok_iff h.keyed).1 lists
  rw [glob_star h.keyed, expandWord_star h.keyed]
  by_cases direct : tree.realPath path = .ok (Path.resolve path)
  · obtain rfl : Path.resolve path = dir := Except.ok.inj (direct.symm.trans real)
    exact ⟨iff_of_true rfl (.inl direct), fun _ => rfl, fun elsewhere => absurd direct elsewhere⟩
  · have same : tree.realPath (Path.resolve path) = tree.realPath path := by
      rw [realPath, realPath, Path.canonical_resolve path Path.root []]
    rw [h.children_eq_nil (same.symm ▸ direct)]
    refine ⟨?_, fun straight => absurd straight direct, fun _ => ⟨rfl, rfl⟩⟩
    rw [or_iff_right direct]
    constructor
    · intro none
      exact List.map_eq_nil_iff.1 none.symm
    · intro none
      rw [none]
      rfl

/-- A directory by its own path, and the same through a link. -/
theorem glob_star_iff_at_directory :
    let tree := (FileSystem.seededWith [.makeDirectory (ascii "/tmp/d"),
      .write (ascii "/tmp/d/x") (ascii "x"), .link (ascii "d") (ascii "/tmp/l")]).tree
    tree.Sound ∧ (∃ entries, tree.list (ascii "/tmp/d") = .ok entries ∧
      tree.glob (ascii "*") (ascii "/tmp/d") = entries.map (·.name)) ∧
      ∃ entries, tree.list (ascii "/tmp/l") = .ok entries ∧
        expandWord tree (ascii "/tmp/l") ⟨ascii "*", true⟩ = [ascii "*"] := by
  intro tree
  have sound : tree.Sound := FileSystem.sound_seededWith (by simp [Edit.Merges])
  have run : (tree.list (ascii "/tmp/d")).toOption.isSome = true ∧
      (tree.list (ascii "/tmp/l")).toOption.isSome = true ∧
      (tree.realPath (ascii "/tmp/d")).toOption = some (ascii "/tmp/d") ∧
      (tree.realPath (ascii "/tmp/l")).toOption ≠ some (ascii "/tmp/l") := by decide +kernel
  obtain ⟨own, through, direct, leads⟩ := run
  clear_value tree
  obtain ⟨entries, listed⟩ := Option.isSome_iff_exists.1 own
  obtain ⟨entries', listed'⟩ := Option.isSome_iff_exists.1 through
  have lists := Outcome.eq_ok_of_toOption listed
  have lists' := Outcome.eq_ok_of_toOption listed'
  refine ⟨sound, ⟨entries, lists, ?_⟩, entries', lists', ?_⟩
  · exact (glob_star_iff sound lists).1.2 (.inl (Outcome.eq_ok_of_toOption direct))
  · obtain ⟨-, -, elsewhere⟩ := glob_star_iff sound lists'
    refine (elsewhere fun real => leads ?_).2
    rw [real]
    rfl

/-- **Seen through a link a directory with a file in it has no names.** -/
theorem glob_star_ne_names :
    let tree := (FileSystem.seededWith [.makeDirectory (ascii "/tmp/d"),
      .write (ascii "/tmp/d/x") (ascii "x"), .link (ascii "d") (ascii "/tmp/l")]).tree
    tree.Sound ∧ tree.glob (ascii "*") (ascii "/tmp/l") = [] ∧
      (tree.list (ascii "/tmp/l")).toOption.map (·.map (·.name)) = some [ascii "x"] ∧
      ¬ ∀ path entries, tree.list path = .ok entries →
        tree.glob (ascii "*") path = entries.map (·.name) := by
  intro tree
  have sound : tree.Sound := FileSystem.sound_seededWith (by simp [Edit.Merges])
  have run : tree.glob (ascii "*") (ascii "/tmp/l") = [] ∧
      (tree.list (ascii "/tmp/l")).toOption.map (·.map (·.name)) = some [ascii "x"] := by
    decide +kernel
  obtain ⟨finds, names⟩ := run
  refine ⟨sound, finds, names, fun agrees => ?_⟩
  clear_value tree
  cases listed : tree.list (ascii "/tmp/l") with
  | error fault =>
    rw [listed] at names
    cases names
  | ok entries =>
    rw [listed] at names
    have names : entries.map (·.name) = [ascii "x"] := Option.some.inj names
    rw [← agrees _ _ listed, finds] at names
    cases names

end Tree

end VirtualShell
