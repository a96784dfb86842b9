import VirtualShell.Proofs.Tree.Landing

/-!
# What moves and copies do to every key

A rename and a copy put a part of the tree down elsewhere: each record at or below the one path goes
to the same place at or below the other, with a few of its fields changed (`Relays`). No two go to
the same place, so what is found behind the batch is known at every key (`Relays.find?_rekey`,
`Relays.find?_of_free`). From this follow

* `renamed_of_planRename`: all that a rename does (`Renamed`);
* `copied_of_planCopy`: all that a copy does to where no directory stands (`Copied`);
* `merged_iff_of_planCopy`: when a copy into a directory that stands already leaves a sound tree
  and spares its source (`Merged`, `MergesCleanly`).
-/

namespace VirtualShell

/-! ## At or below a path -/

namespace Path

/-- The path is the directory, or lies within it. -/
abbrev Under (path dir : Bytes) : Prop := path = dir ∨ isWithin path dir = true

/-- At or below a directory is to have its stack as a tail. -/
theorem under_ofStack {dir path : List Bytes} (hd : ProperStack dir) (hp : ProperStack path) :
    Under (ofStack path) (ofStack dir) ↔ dir <:+ path := by
  rw [Under, isWithin_ofStack hd hp]
  constructor
  · rintro (same | ⟨below, -, rfl⟩)
    · exact ofStack_injective hp hd same ▸ List.suffix_refl _
    · exact List.suffix_append _ _
  · rintro ⟨below, rfl⟩
    by_cases here : below = []
    · exact .inl (by simp [here])
    · exact .inr ⟨below, here, rfl⟩

/-- Of two directories above one path the one is above the other. -/
theorem under_or_under {path a b : Bytes} (hp : Canonical path) (ha : Canonical a)
    (hb : Canonical b) (below_a : Under path a) (below_b : Under path b) :
    Under a b ∨ Under b a := by
  obtain ⟨p, proper, rfl⟩ := canonical_iff.1 hp
  obtain ⟨s, hs, rfl⟩ := canonical_iff.1 ha
  obtain ⟨t, ht, rfl⟩ := canonical_iff.1 hb
  rw [under_ofStack hs proper] at below_a
  rw [under_ofStack ht proper] at below_b
  rw [under_ofStack ht hs, under_ofStack hs ht]
  exact (List.suffix_or_suffix_of_suffix below_a below_b).symm

theorem not_isWithin_self {dir : Bytes} (h : Canonical dir) : isWithin dir dir = false := by
  refine Bool.eq_false_iff.2 fun within => ?_
  exact ((isWithin_iff_below h h).1 within).2 rfl

/-- What stands at or below one path may be put down at another, which is not at or below it. -/
structure Route (old new : Bytes) : Prop where
  source : Canonical old
  source_ne : old ≠ root
  target : Canonical new
  target_ne : new ≠ root
  out : ¬ Under new old

end Path

open VirtualShell.Path (Under Route)

/-- Of several records the only one with its path is the last with it. -/
theorem Batch.last?_of_mem {puts : List Inode} {node : Inode} (mem : node ∈ puts)
    (alone : ∀ other ∈ puts, other.path = node.path → other = node) :
    last? puts node.path = some node := by
  obtain ⟨last, h⟩ := last?_isSome mem
  obtain ⟨mem', same⟩ := last?_eq_some h
  rw [h, alone last mem' same]

namespace Tree

variable {tree : Tree} {now : Int} {source target old new : Bytes} {change : Change}

/-! ## Records put down elsewhere -/

/-- Records are put down for a part of the tree at or below a path: each is made from the one that
stands there, and stands at the same place at or below another path. -/
structure Relays (tree : Tree) (old new : Bytes) (part : Bytes → Prop)
    (made : Bytes → Inode → Inode) (puts : List Inode) : Prop where
  mem_iff : ∀ put, put ∈ puts ↔
    ∃ key node, tree.find? key = some node ∧ part key ∧ put = made key node
  under : ∀ key, part key → Under key old
  place : ∀ key node, (made key node).path = Path.rekey key old new

namespace Relays

variable {part : Bytes → Prop} {made : Bytes → Inode → Inode} {b : Batch}

/-- **At the place of a record** stands what was made from it. -/
theorem find?_rekey (relays : tree.Relays old new part made b.puts) (h : tree.Keyed)
    (ho : Path.Canonical old) {key : Bytes} {node : Inode} (found : tree.find? key = some node)
    (within : part key) :
    (b.apply tree).find? (Path.rekey key old new) = some (made key node) := by
  have mem := (relays.mem_iff _).2 ⟨key, node, found, within, rfl⟩
  have alone : ∀ other ∈ b.puts, other.path = (made key node).path → other = made key node := by
    intro other mem' same
    obtain ⟨key', node', found', within', rfl⟩ := (relays.mem_iff other).1 mem'
    rw [relays.place, relays.place] at same
    obtain rfl : key' = key :=
      Path.rekey_injective (h.isPrefixOf_of_carried ho found' (relays.under _ within'))
        (h.isPrefixOf_of_carried ho found (relays.under _ within)) same
    rw [found] at found'
    cases found'
    rfl
  rw [← relays.place key node, Batch.find?_apply, Batch.last?_of_mem mem alone, Option.some_or]

/-- **Where nothing is put down** there is what was there, if it is not erased. -/
theorem find?_of_free (relays : tree.Relays old new part made b.puts) {path : Bytes}
    (free : ∀ key node, tree.find? key = some node → part key →
      Path.rekey key old new ≠ path) :
    (b.apply tree).find? path = if path ∈ b.erases then none else tree.find? path := by
  have none : Batch.last? b.puts path = Option.none := by
    refine Batch.last?_eq_none.2 fun put mem => ?_
    obtain ⟨key, node, found, within, rfl⟩ := (relays.mem_iff put).1 mem
    rw [relays.place]
    exact free key node found within
  rw [Batch.find?_apply, none, Option.none_or]

end Relays

/-- Where neither of two paths is at or below the other, what is put down leaves the place that it
was taken from. -/
theorem Keyed.not_under_rekey (h : tree.Keyed) (route : Route old new) (apart : ¬ Under old new)
    {key : Bytes} {node : Inode} (found : tree.find? key = some node) (within : Under key old) :
    ¬ Under (Path.rekey key old new) old := by
  intro at_old
  obtain ⟨canonical, at_new⟩ :=
    h.rekey_of_carried route.source route.source_ne route.target route.target_ne found within
  rcases Path.under_or_under canonical route.target route.source at_new at_old with inside | inside
  · exact route.out inside
  · exact apart inside

/-- What is put down from within one path comes to stand within the other, and its parent goes with
it. -/
theorem Keyed.rekey_spec (h : tree.Keyed) (route : Route old new) {key : Bytes} {node : Inode}
    (found : tree.find? key = some node) (within : Path.isWithin key old = true) :
    Path.Canonical (Path.rekey key old new) ∧ Path.isWithin (Path.rekey key old new) new = true ∧
      Path.parent (Path.rekey key old new) = Path.rekey (Path.parent key) old new :=
  Path.rekey_spec (h _ _ found).1 route.source route.target route.source_ne route.target_ne within

/-! ## Renames -/

/-- A record as a rename leaves it. The time of modification is that of the path renamed. -/
def relocated (now : Int) (old new key : Bytes) (node : Inode) : Inode :=
  { node with
    path := Path.rekey key old new
    modified := if key = old then now else node.modified }

theorem Keyed.relays_moveBatch (h : tree.Keyed) {node : Inode}
    (found : tree.find? node.path = some node) (new : Bytes) :
    tree.Relays node.path new (Under · node.path) (relocated now node.path new)
      (tree.moveBatch now node new).puts := by
  have canonical := (h _ _ found).1
  refine ⟨fun put => ?_, fun _ => id, fun _ _ => rfl⟩
  rw [moveBatch, List.mem_cons, mem_moved_iff]
  constructor
  · rintro (rfl | ⟨key, below, entry, rfl⟩)
    · exact ⟨node.path, node, found, .inl rfl, by simp [relocated, Path.rekey_self]⟩
    · obtain ⟨there, within⟩ := (h.mem_descendants_iff canonical).1 entry
      have ne : key ≠ node.path := by
        rintro rfl
        simp [Path.not_isWithin_self canonical] at within
      exact ⟨key, below, there, .inr within, by simp [relocated, ne]⟩
  · rintro ⟨key, below, there, rfl | within, rfl⟩
    · rw [found] at there
      cases there
      exact .inl (by simp [relocated, Path.rekey_self])
    · have ne : key ≠ node.path := by
        rintro rfl
        simp [Path.not_isWithin_self canonical] at within
      exact .inr ⟨key, below, (h.mem_descendants_iff canonical).2 ⟨there, within⟩,
        by simp [relocated, ne]⟩

/-- **The two places of a rename**: neither is at or below the other, for a directory that gives way
is empty. -/
theorem Sound.route_of_rename (h : tree.Sound) {node : Inode}
    (found : tree.find? node.path = some node) (ne : node.path ≠ Path.root)
    (hn : Path.Canonical new) (other : new ≠ node.path)
    (out : Path.isWithin new node.path = false) (dir : tree.IsDir (Path.parent new))
    (fits : tree.GivesWay node new) : Route node.path new ∧ ¬ Under node.path new := by
  have notRoot := h.keyed.ne_root_of_rename found ne dir fits
  refine ⟨⟨(h.keyed _ _ found).1, ne, hn, notRoot, ?_⟩, ?_⟩
  · rintro (same | within)
    · exact other same
    · rw [out] at within
      cases within
  · rintro (same | within)
    · exact other same.symm
    · rw [h.nothing_within hn (fun existing taken => (fits existing taken).2) found] at within
      cases within

/-- All that a rename does to a tree. -/
structure Renamed (before after : Tree) (now : Int) (old new : Bytes) : Prop where
  /-- What stood at or below the one path stands at the same place at or below the other, with no
  field changed but its path, and at the other path itself the time of modification. -/
  moved : ∀ key node, before.find? key = some node → Under key old →
    after.find? (Path.rekey key old new) = some (relocated now old new key node)
  /-- No two records come to stand at the same place. -/
  apart : ∀ key key', before.contains key = true → before.contains key' = true →
    Under key old → Under key' old → Path.rekey key old new = Path.rekey key' old new → key = key'
  /-- Nothing is left at or below the one path. -/
  gone : ∀ key, Under key old → after.find? key = none
  /-- Everywhere else all is as it was. -/
  kept : ∀ key, ¬ Under key old →
    (∀ moving, before.contains moving = true → Under moving old →
      Path.rekey moving old new ≠ key) → after.find? key = before.find? key

/-- **A rename** moves what stands at and below its source, and does nothing else. -/
theorem renamed_of_planRename (h : tree.Sound)
    (hp : tree.planRename now source target = .ok change)
    (starts : tree.entryPath source = .ok old) (goes : tree.entryPath target = .ok new)
    (other : new ≠ old) : Renamed tree (change.batch.apply tree) now old new := by
  obtain ⟨node, lstat, ne, new', entry, how⟩ := planRename_eq_ok hp
  obtain ⟨old', entry', found⟩ := lstat_eq_ok_iff.1 lstat
  rw [starts] at entry'
  rw [goes] at entry
  cases entry'
  cases entry
  obtain ⟨canonical, rfl⟩ := h.keyed _ _ found
  obtain ⟨same, -⟩ | ⟨-, out, dir, fits, batch⟩ := how
  · exact absurd same other
  have relays : tree.Relays node.path new (Under · node.path) (relocated now node.path new)
      change.batch.puts := batch ▸ h.keyed.relays_moveBatch found new
  have erased : ∀ key, key ∈ change.batch.erases ↔ _ := fun key =>
    batch ▸ h.keyed.mem_moveBatch_erases_iff found
  obtain ⟨route, apart⟩ :=
    h.route_of_rename found ne (canonical_of_entryPath goes) other out dir fits
  have lands : ∀ key below, tree.find? key = some below → Under key node.path →
      ¬ Under (Path.rekey key node.path new) node.path :=
    fun _ _ => h.keyed.not_under_rekey route apart
  refine ⟨fun key below there within => relays.find?_rekey h.keyed canonical there within,
    ?_, ?_, ?_⟩
  · intro key key' there there' within within' same
    obtain ⟨below, there⟩ := ByteMap.contains_eq_true_iff.1 there
    obtain ⟨below', there'⟩ := ByteMap.contains_eq_true_iff.1 there'
    exact Path.rekey_injective (h.keyed.isPrefixOf_of_carried canonical there within)
      (h.keyed.isPrefixOf_of_carried canonical there' within') same
  · intro key within
    rw [relays.find?_of_free fun moving below there within' same =>
      lands moving below there within' (same ▸ within)]
    split
    · rfl
    next kept =>
      cases there : tree.find? key with
      | none => rfl
      | some below =>
        refine absurd ((erased key).2 (.inr ?_)) kept
        exact within.imp id fun within => ⟨below, there, within⟩
  · intro key outside free
    rw [relays.find?_of_free fun moving below there within => free moving
      (ByteMap.contains_eq_true_iff.2 ⟨below, there⟩) within, if_neg]
    rw [erased]
    rintro (⟨rfl, -⟩ | rfl | ⟨below, -, within⟩)
    · exact free node.path (ByteMap.contains_eq_true_iff.2 ⟨node, found⟩) (.inl rfl)
        (Path.rekey_self _ _)
    · exact outside (.inl rfl)
    · exact outside (.inr within)

/-! ## Copies -/

/-- A copy of a record: its path and its three times are new, and all else is as it was. -/
def duplicate (now : Int) (old new key : Bytes) (node : Inode) : Inode :=
  { node with path := Path.rekey key old new, changed := now, modified := now, accessed := now }

theorem isDirectory_duplicate (now : Int) (old new key : Bytes) (node : Inode) :
    (duplicate now old new key node).isDirectory = node.isDirectory := rfl

theorem Sound.relays_copyBatch (h : tree.Sound) {node : Inode}
    (found : tree.find? node.path = some node) (new : Bytes) (merges : Bool) :
    tree.Relays node.path new
      (fun key => key = node.path ∧ merges = false ∨ Path.isWithin key node.path = true)
      (duplicate now node.path new) (tree.copyBatch now node new merges).puts := by
  have canonical := (h.keyed _ _ found).1
  -- nothing is below what is no directory
  have below : ∀ key inner, (key, inner) ∈
      (if node.isDirectory then tree.descendants node.path else []) ↔
        tree.find? key = some inner ∧ Path.isWithin key node.path = true := by
    intro key inner
    rw [← h.keyed.mem_descendants_iff canonical]
    split
    · rfl
    next notDir =>
      refine ⟨fun mem => absurd mem List.not_mem_nil, fun mem => ?_⟩
      obtain ⟨there, within⟩ := (h.keyed.mem_descendants_iff canonical).1 mem
      exact absurd ((h.ancestor there canonical within).of_find? found) notDir
  have puts : (tree.copyBatch now node new merges).puts =
      (if merges then [] else [duplicate now node.path new node.path node]) ++
        (if node.isDirectory then tree.descendants node.path else []).map
          fun e => duplicate now node.path new e.1 e.2 := by
    rw [copyBatch]
    cases merges <;> cases node.isDirectory <;>
      simp [duplicate, renewed, Path.rekey_self, moved, Function.comp_def]
  refine ⟨fun put => ?_, fun key within => within.imp And.left id, fun _ _ => rfl⟩
  rw [puts, List.mem_append, List.mem_map]
  constructor
  · rintro (mem | ⟨⟨key, inner⟩, mem, rfl⟩)
    · cases merges
      · exact ⟨node.path, node, found, .inl ⟨rfl, rfl⟩, by simpa using mem⟩
      · simp at mem
    · obtain ⟨there, within⟩ := (below key inner).1 mem
      exact ⟨key, inner, there, .inr within, rfl⟩
  · rintro ⟨key, inner, there, ⟨rfl, rfl⟩ | within, rfl⟩
    · rw [found] at there
      cases there
      exact .inl (by simp)
    · exact .inr ⟨(key, inner), (below key inner).2 ⟨there, within⟩, rfl⟩

/-- All that a copy does to a tree. -/
structure Copied (before after : Tree) (now : Int) (old new : Bytes) : Prop where
  /-- For each record at or below the one path there is one at the same place at or below the
  other, with no field changed but its path and its three times. -/
  copied : ∀ rest node, before.find? (old ++ rest) = some node → Under (old ++ rest) old →
    after.find? (new ++ rest) =
      some { node with path := new ++ rest, changed := now, modified := now, accessed := now }
  /-- At and below the one path all is as it was. -/
  source : ∀ key, Under key old → after.find? key = before.find? key
  /-- And so it is everywhere else. -/
  kept : ∀ key, (∀ rest, before.contains (old ++ rest) = true → Under (old ++ rest) old →
    new ++ rest ≠ key) → after.find? key = before.find? key

/-- What a copy is made of and where it goes to. -/
theorem Sound.planCopy_spec {recursive : Bool} (h : tree.Sound)
    (hp : tree.planCopy now source target recursive = .ok change)
    (starts : tree.realPath source = .ok old) (goes : tree.copyTarget old target = .ok new) :
    (∃ node, tree.find? old = some node) ∧ Route old new ∧ change.batch.erases = [] ∧
      tree.Relays old new
        (fun key => key = old ∧ (tree.find? new).any Inode.isDirectory = false ∨
          Path.isWithin key old = true)
        (duplicate now old new) change.batch.puts := by
  obtain ⟨node, stat, -, new', goes', other, out, dir, -, rfl⟩ := planCopy_eq_ok hp
  obtain ⟨old', real, found⟩ := stat_eq_ok_iff.1 stat
  rw [starts] at real
  cases real
  obtain ⟨canonical, rfl⟩ := h.keyed _ _ found
  rw [goes] at goes'
  cases goes'
  obtain ⟨ne, ne', hn⟩ := ne_root_of_copy canonical goes other out dir
  refine ⟨⟨node, found⟩, ⟨canonical, ne, hn, ne', ?_⟩, rfl, h.relays_copyBatch found new _⟩
  rintro (same | within)
  · exact other same
  · rw [out] at within
    cases within

/-- **A copy to where no directory stands** puts the copies there, and does nothing else. -/
theorem copied_of_planCopy {recursive : Bool} (h : tree.Sound)
    (hp : tree.planCopy now source target recursive = .ok change)
    (starts : tree.realPath source = .ok old) (goes : tree.copyTarget old target = .ok new)
    (fresh : ¬ tree.IsDir new) : Copied tree (change.batch.apply tree) now old new := by
  obtain ⟨⟨node, found⟩, route, none, relays⟩ := h.planCopy_spec hp starts goes
  have notDir : (tree.find? new).any Inode.isDirectory = false :=
    Bool.eq_false_iff.2 fun dir => fresh (isDir_iff_any.2 dir)
  have part : ∀ key, Under key old → key = old ∧ (tree.find? new).any Inode.isDirectory = false ∨
      Path.isWithin key old = true := fun key => Or.imp (fun same => ⟨same, notDir⟩) id
  -- the source is not below what is no directory
  have apart : ¬ Under old new := by
    rintro (same | within)
    · exact route.out (.inl same.symm)
    · exact fresh (h.ancestor found route.target within)
  have free : ∀ key, (∀ rest, tree.contains (old ++ rest) = true → Under (old ++ rest) old →
      new ++ rest ≠ key) → (change.batch.apply tree).find? key = tree.find? key := by
    intro key free
    rw [relays.find?_of_free, none, if_neg List.not_mem_nil]
    intro copying below there within
    obtain ⟨rest, rfl⟩ := List.isPrefixOf_iff_prefix.1
      (h.keyed.isPrefixOf_of_carried route.source there (relays.under _ within))
    rw [Path.rekey_append]
    exact free rest (ByteMap.contains_eq_true_iff.2 ⟨below, there⟩) (relays.under _ within)
  refine ⟨fun rest below there within => ?_,
    fun key within => free key fun rest there within' same => ?_, free⟩
  · have found := relays.find?_rekey h.keyed route.source there (part _ within)
    rwa [duplicate, Path.rekey_append] at found
  · obtain ⟨below, there⟩ := ByteMap.contains_eq_true_iff.1 there
    refine h.keyed.not_under_rekey route apart there within' ?_
    rwa [Path.rekey_append, same]

/-! ## Copies into a directory -/

/-- What a copy into a directory that stands already is to leave. -/
structure Merged (before after : Tree) (old new : Bytes) : Prop where
  sound : after.Sound
  /-- Every record at or below the source is as it was. -/
  source : ∀ key node, before.find? key = some node → Under key old → after.find? key = some node
  /-- Every record below the source has one of its kind and content at the same place below the
  target. -/
  copied : ∀ key node, before.find? key = some node → Path.isWithin key old = true →
    ∃ copy, after.find? (Path.rekey key old new) = some copy ∧ copy.body = node.body

/-- When a copy into a directory leaves this. -/
structure MergesCleanly (tree : Tree) (now : Int) (old new : Bytes) : Prop where
  /-- No file and no link goes to where something stands below. -/
  fits : ∀ key node, tree.find? key = some node → Path.isWithin key old = true →
    node.isDirectory = false → tree.hasChildren (Path.rekey key old new) = false
  /-- What goes to where a record of the source stands is that record. -/
  spares : ∀ key node existing, tree.find? key = some node → Path.isWithin key old = true →
    tree.find? (Path.rekey key old new) = some existing → Under (Path.rekey key old new) old →
      existing = duplicate now old new key node

/-- Where the source does not lie below the target nothing of it can be written over. -/
theorem Keyed.mergesCleanly_of_apart (h : tree.Keyed) (route : Route old new)
    (apart : ¬ Under old new) (fits : ∀ entry ∈ tree.descendants old, entry.2.isDirectory = false →
      tree.hasChildren (Path.rekey entry.1 old new) = false) :
    tree.MergesCleanly now old new := by
  constructor
  · intro key node found within notDir
    exact fits (key, node) ((h.mem_descendants_iff route.source).2 ⟨found, within⟩) notDir
  · intro key node existing found within _ at_old
    exact absurd at_old (h.not_under_rekey route apart found (.inr within))

section

variable {b : Batch} (h : tree.Sound) (route : Route old new) (none : b.erases = [])
  (relays : tree.Relays old new (Path.isWithin · old = true) (duplicate now old new) b.puts)
include h route none relays

/-- What stood somewhere stands there still, or a copy does. -/
theorem find?_merge {path : Bytes} {node : Inode} (found : tree.find? path = some node) :
    (b.apply tree).find? path = some node ∨
      ∃ key below, tree.find? key = some below ∧ Path.isWithin key old = true ∧
        path = Path.rekey key old new ∧
          (b.apply tree).find? path = some (duplicate now old new key below) := by
  by_cases taken : ∃ key below, tree.find? key = some below ∧ Path.isWithin key old = true ∧
      Path.rekey key old new = path
  · obtain ⟨key, below, there, within, rfl⟩ := taken
    exact .inr ⟨key, below, there, within, rfl,
      relays.find?_rekey h.keyed route.source there within⟩
  · refine .inl ?_
    rw [relays.find?_of_free fun key below there within same =>
      taken ⟨key, below, there, within, same⟩, none, if_neg List.not_mem_nil, found]

/-- Where a file or a link is copied over a directory with something in it, the tree is not
sound. -/
theorem fits_of_sound (sound : Sound (b.apply tree)) {key : Bytes} {node : Inode}
    (found : tree.find? key = some node) (within : Path.isWithin key old = true)
    (notDir : node.isDirectory = false) : tree.hasChildren (Path.rekey key old new) = false := by
  have canonical := (h.keyed.rekey_spec route found within).1
  rw [hasChildren_eq_false_iff, List.eq_nil_iff_forall_not_mem]
  rintro ⟨child, inner⟩ mem
  obtain ⟨there, inside⟩ := (h.keyed.mem_descendants_iff canonical).1 mem
  have copy := relays.find?_rekey h.keyed route.source found within
  have dir : IsDir (b.apply tree) (Path.rekey key old new) := by
    rcases find?_merge h route none relays there with still | ⟨_, _, -, -, -, still⟩
    · exact sound.ancestor still canonical inside
    · exact sound.ancestor still canonical inside
  have isDir : (duplicate now old new key node).isDirectory = true := dir.of_find? copy
  rw [isDirectory_duplicate, notDir] at isDir
  cases isDir

/-- A directory with something in it stays one if what is copied fits. -/
theorem isDir_merge (clean : tree.MergesCleanly now old new) {path child : Bytes} {inner : Inode}
    (dir : tree.IsDir path) (hp : Path.Canonical path) (found : tree.find? child = some inner)
    (inside : Path.isWithin child path = true) : IsDir (b.apply tree) path := by
  obtain ⟨node, there, isDir⟩ := dir
  rcases find?_merge h route none relays there with still | ⟨key, below, copied, within, rfl, still⟩
  · exact ⟨node, still, isDir⟩
  · refine ⟨_, still, ?_⟩
    rw [isDirectory_duplicate]
    cases kind : below.isDirectory with
    | true => rfl
    | false =>
      have alone := clean.fits key below copied within kind
      rw [h.keyed.nothing_within hp alone found] at inside
      cases inside

variable (dir : tree.IsDir new)
include dir

/-- A copy stands in a directory: the target itself, or the copy of what the copied stood in. -/
theorem isDir_parent_merge {key : Bytes} {node : Inode} (found : tree.find? key = some node)
    (within : Path.isWithin key old = true) :
    IsDir (b.apply tree) (Path.parent (Path.rekey key old new)) := by
  have canonical := (h.keyed _ _ found).1
  have inner : key ≠ Path.root := by
    rintro rfl
    rw [Path.isWithin_root_eq_false route.source] at within
    cases within
  rw [(h.keyed.rekey_spec route found within).2.2]
  obtain ⟨above, there, isDir⟩ := h.parents _ _ found inner
  rcases (Path.isWithin_iff_parent canonical route.source inner).1 within with top | within'
  · -- nothing is copied to the target, only below it
    rw [top, Path.rekey_self]
    refine dir.apply (none ▸ List.not_mem_nil) fun put mem same => ?_
    obtain ⟨key', node', found', within', rfl⟩ := (relays.mem_iff put).1 mem
    have below := (h.keyed.rekey_spec route found' within').2.1
    rw [← relays.place key' node', same, Path.not_isWithin_self route.target] at below
    cases below
  · exact ⟨_, relays.find?_rekey h.keyed route.source there within', isDir⟩

theorem sound_merge (clean : tree.MergesCleanly now old new) : Sound (b.apply tree) := by
  refine h.keyed.sound_apply h.sized ?_ (fun put mem => ?_) fun path node found _ inner => ?_
  · refine h.root.apply (none ▸ List.not_mem_nil) fun put mem same => ?_
    obtain ⟨key, node, found, within, rfl⟩ := (relays.mem_iff put).1 mem
    have below := (h.keyed.rekey_spec route found within).2.1
    rw [← relays.place key node, same, Path.isWithin_root_eq_false route.target] at below
    cases below
  · obtain ⟨key, node, found, within, rfl⟩ := (relays.mem_iff put).1 mem
    rw [relays.place]
    exact ⟨(h.keyed.rekey_spec route found within).1, (h.sized _ _ found).of_body rfl,
      fun _ => isDir_parent_merge h route none relays dir found within⟩
  · have canonical := (h.keyed _ _ found).1
    have above := Path.canonical_parent canonical
    exact isDir_merge h route none relays clean (h.parents _ _ found inner) above found
      ((Path.isWithin_iff_parent canonical above inner).2 (.inl rfl))

end

/-- **A copy into a directory** leaves a sound tree, its source and all the copies exactly when
no file or link goes to a directory with something in it, and nothing of the source is written over
with anything else. -/
theorem merged_iff_of_planCopy {recursive : Bool} (h : tree.Sound)
    (hp : tree.planCopy now source target recursive = .ok change)
    (starts : tree.realPath source = .ok old) (goes : tree.copyTarget old target = .ok new)
    (dir : tree.IsDir new) :
    Merged tree (change.batch.apply tree) old new ↔ MergesCleanly tree now old new := by
  obtain ⟨-, route, none, relays⟩ := h.planCopy_spec hp starts goes
  -- the source itself is not copied: a directory stands for it already
  simp only [isDir_iff_any.1 dir, Bool.true_eq_false, and_false, false_or] at relays
  have landed : ∀ key node, tree.find? key = some node → Path.isWithin key old = true →
      (change.batch.apply tree).find? (Path.rekey key old new) =
        some (duplicate now old new key node) := fun _ _ =>
    relays.find?_rekey h.keyed route.source
  constructor
  · intro merged
    constructor
    · intro key node found within notDir
      exact fits_of_sound h route none relays merged.sound found within notDir
    · intro key node existing found within taken at_old
      have kept := merged.source _ _ taken at_old
      rw [landed key node found within] at kept
      exact (Option.some.inj kept).symm
  · intro clean
    refine ⟨sound_merge h route none relays dir clean, fun key node found at_old => ?_,
      fun key node found within => ⟨_, landed key node found within, rfl⟩⟩
    rcases find?_merge h route none relays found with
      still | ⟨key, below, there, within, rfl, still⟩
    · exact still
    · rw [still, clean.spares key below node there within found at_old]

end Tree

end VirtualShell
