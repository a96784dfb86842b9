import VirtualShell.Proofs.Tree.Canonical

/-!
# Canonical paths as texts

`Path.Canonical` says of a path that resolving leaves it alone. Here the same is said of its bytes:
a `Normal` path starts with a slash, and what stands between its slashes (`HasPiece`) is never
empty, `.` or `..`. The two are one (`normal_iff_canonical`), since a normal path is put together
again from its components (`flatMap_components`).

`resolve_laws` collects the algebra of paths: what resolving gives, what it leaves alone, how a base
and `..` are read, and that a path is the join of its parent and its base.
-/

namespace VirtualShell.Path

/-! ## What stands between slashes -/

/-- The piece stands in the path behind a slash and reaches to the next one, or to the end. -/
def HasPiece (path piece : Bytes) : Prop :=
  Ascii.slash ∉ piece ∧ ∃ before after, path = before ++ Ascii.slash :: (piece ++ after) ∧
    (after = [] ∨ ∃ more, after = Ascii.slash :: more)

theorem HasPiece.behind {path piece : Bytes} (h : HasPiece path piece) (front : Bytes) :
    HasPiece (front ++ path) piece := by
  obtain ⟨free, before, after, rfl, stops⟩ := h
  exact ⟨free, front ++ before, after, (List.append_assoc ..).symm, stops⟩

/-- **The components of a text** are the pieces of it that are not empty, its beginning counting as
one. -/
theorem mem_components_iff {text part : Bytes} :
    part ∈ components text ↔ part ≠ [] ∧ HasPiece (Ascii.slash :: text) part := by
  constructor
  · intro mem
    refine ⟨(mem_components mem).1, ?_⟩
    -- cut the text at its first slash, if it has one
    induction hn : text.length using Nat.strongRecOn generalizing text with
    | ind n ih =>
      by_cases slashed : Ascii.slash ∈ text
      · obtain ⟨piece, others, rfl, free⟩ := List.eq_append_cons_of_mem slashed
        rw [components_piece free, List.mem_append] at mem
        rcases mem with here | later
        · obtain rfl : part = piece := by
            split at here
            · cases here
            · exact List.mem_singleton.1 here
          exact ⟨free, [], Ascii.slash :: others, rfl, .inr ⟨others, rfl⟩⟩
        · have shorter : others.length < n := by
            rw [← hn, List.length_append, List.length_cons]; omega
          exact (ih _ shorter later rfl).behind (Ascii.slash :: piece)
      · obtain rfl : part = text := by
          rw [components_of_no_slash slashed] at mem
          split at mem
          · cases mem
          · exact List.mem_singleton.1 mem
        exact ⟨slashed, [], [], by simp, .inl rfl⟩
  · rintro ⟨ne, free, before, after, whole, stops⟩
    have parts : components (Ascii.slash :: text) =
        components before ++ components (part ++ after) :=
      whole ▸ components_append_slash before (part ++ after)
    rw [components_slash_cons] at parts
    rw [parts, List.mem_append]
    refine .inr ?_
    rcases stops with rfl | ⟨more, rfl⟩
    · simp [components_of_no_slash free, ne]
    · simp [components_piece free, ne]

/-- Where texts that start with a slash, or are empty, stand behind two pieces, the pieces are what
comes before the first slash. -/
theorem piece_unique {piece piece' after after' : Bytes} (free : Ascii.slash ∉ piece)
    (free' : Ascii.slash ∉ piece') (stops : after = [] ∨ ∃ more, after = Ascii.slash :: more)
    (stops' : after' = [] ∨ ∃ more, after' = Ascii.slash :: more)
    (same : piece ++ after = piece' ++ after') : piece = piece' := by
  have before : ∀ {piece after : Bytes}, Ascii.slash ∉ piece →
      (after = [] ∨ ∃ more, after = Ascii.slash :: more) →
        (piece ++ after).takeWhile (· != Ascii.slash) = piece := by
    intro piece after free stops
    rw [List.takeWhile_append_of_pos fun c mem => by
      simpa using fun e : c = Ascii.slash => free (e ▸ mem)]
    rcases stops with rfl | ⟨more, rfl⟩ <;> simp
  rw [← before free stops, same, before free' stops']

/-- Behind slashes that are put in front of parts stand just these parts. -/
theorem mem_of_hasPiece_flatMap {parts : List Bytes} {piece : Bytes}
    (free : ∀ part ∈ parts, Ascii.slash ∉ part)
    (h : HasPiece (parts.flatMap (Ascii.slash :: ·)) piece) : piece ∈ parts := by
  induction parts with
  | nil =>
    obtain ⟨-, before, after, whole, -⟩ := h
    simp at whole
  | cons part parts ih =>
    obtain ⟨here, later⟩ := List.forall_mem_cons.1 free
    obtain ⟨free', before, after, whole, stops⟩ := h
    have front : parts.flatMap (Ascii.slash :: ·) = [] ∨
        ∃ more, parts.flatMap (Ascii.slash :: ·) = Ascii.slash :: more := by
      cases parts with
      | nil => exact .inl rfl
      | cons next others => exact .inr ⟨_, rfl⟩
    rw [List.flatMap_cons, List.cons_append] at whole
    cases before with
    | nil =>
      rw [List.nil_append, List.cons.injEq] at whole
      exact piece_unique here free' front stops whole.2 ▸ List.mem_cons_self
    | cons slash before =>
      rw [List.cons_append, List.cons.injEq] at whole
      -- the slash in front of the piece is none of the first part
      rcases List.append_eq_append_iff.1 whole.2 with ⟨rest, rfl, behind⟩ | ⟨rest, rfl, behind⟩
      · exact List.mem_cons_of_mem _ (ih later ⟨free', rest, after, behind, stops⟩)
      · cases rest with
        | nil => exact List.mem_cons_of_mem _ (ih later ⟨free', [], after, behind.symm, stops⟩)
        | cons c rest =>
          rw [List.cons_append, List.cons.injEq] at behind
          exact absurd (by simp [behind.1]) here

/-! ## Normal paths -/

/-- The path stands in its normal form. -/
structure Normal (path : Bytes) : Prop where
  /-- It starts with a slash. -/
  absolute : [Ascii.slash] <+: path
  /-- It has no empty, `.` or `..` component; the root has none at all. -/
  pieces : path ≠ root → ∀ piece, HasPiece path piece →
    piece ≠ [] ∧ piece ≠ ascii "." ∧ piece ≠ ascii ".."
  /-- Only the root ends with a slash. -/
  trailing : path ≠ root → ¬ [Ascii.slash] <:+ path

/-- A path without empty components is put together again from its components. -/
theorem flatMap_components {path : Bytes} (absolute : [Ascii.slash] <+: path)
    (pieces : ∀ piece, HasPiece path piece → piece ≠ []) :
    (components path).flatMap (Ascii.slash :: ·) = path := by
  -- take off the first component, up to the next slash
  induction hn : path.length using Nat.strongRecOn generalizing path with
  | ind n ih =>
    obtain ⟨text, rfl⟩ := absolute
    rw [List.singleton_append] at pieces hn ⊢
    by_cases slashed : Ascii.slash ∈ text
    · obtain ⟨piece, others, rfl, free⟩ := List.eq_append_cons_of_mem slashed
      have ne := pieces piece ⟨free, [], Ascii.slash :: others, rfl, .inr ⟨others, rfl⟩⟩
      have shorter : (Ascii.slash :: others).length < n := by
        rw [← hn]; simp only [List.length_cons, List.length_append]; omega
      have rest := ih _ shorter ⟨others, rfl⟩
        (fun part has => pieces part (has.behind (Ascii.slash :: piece))) rfl
      rw [List.singleton_append, components_slash_cons] at rest
      rw [components_slash_cons, components_piece free, if_neg ne, List.singleton_append,
        List.flatMap_cons, rest, List.cons_append]
    · have ne := pieces text ⟨slashed, [], [], by simp, .inl rfl⟩
      simp [components_slash_cons, components_of_no_slash slashed, ne]

theorem normal_root : Normal root :=
  ⟨List.prefix_refl _, fun ne => absurd rfl ne, fun ne => absurd rfl ne⟩

theorem Canonical.normal {path : Bytes} (h : Canonical path) : Normal path := by
  obtain ⟨stack, proper, rfl⟩ := canonical_iff.1 h
  cases stack with
  | nil => exact normal_root
  | cons part stack =>
    have pieces : ∀ piece, HasPiece (ofStack (part :: stack)) piece → Proper piece := by
      intro piece has
      rw [ofStack_of_ne_nil (by simp)] at has
      exact proper.reverse piece
        (mem_of_hasPiece_flatMap (fun part mem => (proper.reverse part mem).no_slash) has)
    refine ⟨?_, fun _ piece has => ?_, fun _ => ?_⟩
    · obtain ⟨first, others, e⟩ :=
        List.exists_cons_of_ne_nil (l := (part :: stack).reverse) (by simp)
      rw [ofStack_of_ne_nil (by simp), e, List.flatMap_cons]
      exact ⟨_, rfl⟩
    · have proper := pieces piece has
      exact ⟨proper.ne_nil, proper.ne_dot, proper.ne_dots⟩
    · rintro ⟨before, whole⟩
      -- behind a slash at the end stands the empty piece
      have has : HasPiece (ofStack (part :: stack)) [] :=
        ⟨by simp, before, [], whole.symm, .inl rfl⟩
      exact (pieces [] has).ne_nil rfl

theorem Normal.canonical {path : Bytes} (h : Normal path) : Canonical path := by
  by_cases isRoot : path = root
  · exact isRoot ▸ canonical_root
  · have pieces := h.pieces isRoot
    have parts : ProperStack (components path) := by
      obtain ⟨text, rfl⟩ := h.absolute
      intro part mem
      rw [List.singleton_append, components_slash_cons, mem_components_iff] at mem
      obtain ⟨ne, dot, dots⟩ := pieces part mem.2
      exact ⟨ne, mem.2.1, dot, dots⟩
    have whole := flatMap_components h.absolute fun piece has => (pieces piece has).1
    have some : (components path).reverse ≠ [] := by
      intro none
      rw [List.reverse_eq_nil_iff] at none
      rw [none] at whole
      obtain ⟨text, rfl⟩ := h.absolute
      cases whole
    refine canonical_iff.2 ⟨_, parts.reverse, ?_⟩
    rw [ofStack_of_ne_nil some, List.reverse_reverse, whole]

/-- **The normal paths** are the canonical ones. -/
theorem normal_iff_canonical {path : Bytes} : Normal path ↔ Canonical path :=
  ⟨Normal.canonical, Canonical.normal⟩

/-! ## The algebra of resolving -/

/-- A `~` gives way where it stands alone or in front of a slash. -/
theorem expandHome_eq (home raw : Bytes) :
    expandHome home raw =
      if home ≠ [] ∧ (raw = [Ascii.tilde] ∨ [Ascii.tilde, Ascii.slash] <+: raw) then
        home ++ raw.drop 1
      else raw := by
  unfold expandHome
  by_cases none : home = []
  · simp [none]
  · simp only [List.isEmpty_iff, none, if_false, ne_eq, not_false_eq_true, true_and]
    split
    · simp
    next rest => rw [if_pos (.inr ⟨rest, rfl⟩)]
    next alone before =>
      rw [if_neg]
      rintro (rfl | ⟨rest, rfl⟩)
      · exact alone rfl
      · exact before rest rfl

/-- An absolute path has no home directory put in. -/
theorem expandHome_of_isAbsolute {path : Bytes} (h : isAbsolute path = true) (home : Bytes) :
    expandHome home path = path := by
  rw [expandHome_eq, if_neg]
  rintro ⟨-, rfl | ⟨rest, rfl⟩⟩
  · cases h
  · cases h

/-- A canonical path is left alone whatever it is read from. -/
theorem resolve_of_canonical {path : Bytes} (h : Canonical path) (base home : Bytes) :
    resolve path base home = path := by
  obtain ⟨stack, proper, rfl⟩ := canonical_iff.1 h
  have absolute := isAbsolute_ofStack stack
  simp only [resolve, expandHome_of_isAbsolute absolute, absolute, if_true,
    components_ofStack proper, foldl_step_of_proper proper.reverse, List.reverse_reverse,
    List.append_nil]

/-- A base is read from the root. -/
theorem resolve_base (base : Bytes) :
    resolve base = ofStack ((components base).foldl step []) := by
  simp only [resolve, expandHome, List.isEmpty_nil, if_true, show components root = [] from rfl,
    List.foldl_nil, ite_self]

/-- A base may be made canonical first. -/
theorem resolve_resolve_base (raw base home : Bytes) :
    resolve raw (resolve base) home = resolve raw base home := by
  have proper : ProperStack ((components base).foldl step []) :=
    properStack_foldl .nil fun _ => mem_components
  have stack : (components (resolve base)).foldl step [] = (components base).foldl step [] := by
    rw [resolve_base, components_ofStack proper, foldl_step_of_proper proper.reverse,
      List.reverse_reverse, List.append_nil]
  unfold resolve at stack ⊢
  rw [stack]

/-- A slash and what follows leave a `~` in front of them as it is read alone. -/
theorem expandHome_append {raw : Bytes} (ne : raw ≠ []) (home more : Bytes) :
    expandHome home (raw ++ Ascii.slash :: more) = expandHome home raw ++ Ascii.slash :: more := by
  have alike : (raw ++ Ascii.slash :: more = [Ascii.tilde] ∨
      [Ascii.tilde, Ascii.slash] <+: raw ++ Ascii.slash :: more) ↔
        (raw = [Ascii.tilde] ∨ [Ascii.tilde, Ascii.slash] <+: raw) := by
    obtain ⟨c, rest, rfl⟩ := List.exists_cons_of_ne_nil ne
    cases rest with
    | nil => simpa [List.cons_prefix_cons] using eq_comm
    | cons d rest => simp [List.cons_prefix_cons]
  rw [expandHome_eq, expandHome_eq]
  simp only [alike]
  split
  · rw [List.drop_append_of_le_length (List.length_pos_iff.2 ne), List.append_assoc]
  · rfl

/-- **Going up from a path** gives its parent, and from the root the root. -/
theorem resolve_append_dots {raw : Bytes} (ne : raw ≠ []) (base home : Bytes) :
    resolve (raw ++ ascii "/..") base home = parent (resolve raw base home) := by
  have input := expandHome_append ne home (ascii "..")
  have some : expandHome home raw ≠ [] := by
    rw [expandHome_eq]
    split
    next expands => simp [expands.1]
    · exact ne
  have absolute : isAbsolute (expandHome home raw ++ Ascii.slash :: ascii "..") =
      isAbsolute (expandHome home raw) := by
    obtain ⟨c, rest, e⟩ := List.exists_cons_of_ne_nil some
    rw [e]
    rfl
  have up : ∀ {stack : List Bytes}, ProperStack stack →
      ofStack (step stack (ascii "..")) = parent (ofStack stack) := by
    intro stack proper
    cases stack with
    | nil => exact parent_root.symm
    | cons part stack => exact (parent_ofStack_cons proper).symm
  have last : components (ascii "..") = [ascii ".."] := by decide
  have split : raw ++ ascii "/.." = raw ++ Ascii.slash :: ascii ".." := rfl
  simp only [split, resolve, input, absolute, components_append_slash, last, List.foldl_append,
    List.foldl_cons, List.foldl_nil]
  refine up (properStack_foldl ?_ fun _ => mem_components)
  split
  · exact .nil
  · exact properStack_foldl .nil fun _ => mem_components

/-- **The laws of paths.** What a text resolves to, whatever it is read from, is a normal path; the
normal paths are those that every reading leaves alone, so that to resolve twice is to resolve once.
Going up stops at the root, a base may be resolved first, and a normal path but the root is the
join of its parent, which is normal, and its base. -/
theorem resolve_laws :
    (∀ raw base home, Normal (resolve raw base home)) ∧
    (∀ path, (∀ base home, resolve path base home = path) ↔ Normal path) ∧
    (∀ raw base home base' home',
      resolve (resolve raw base home) base' home' = resolve raw base home) ∧
    parent root = root ∧
    (∀ raw base home, raw ≠ [] →
      resolve (raw ++ ascii "/..") base home = parent (resolve raw base home)) ∧
    (∀ raw base home, resolve raw base home = resolve raw (resolve base) home) ∧
    ∀ path, Normal path → path ≠ root →
      Normal (parent path) ∧ join (parent path) (base path) = path := by
  have resolved := fun raw base home => canonical_resolve raw base home
  refine ⟨fun raw base home => (resolved raw base home).normal, fun path => ⟨fun alone => ?_, ?_⟩,
    fun raw base home => resolve_of_canonical (resolved raw base home), parent_root,
    fun raw base home ne => resolve_append_dots ne base home,
    fun raw base home => (resolve_resolve_base raw base home).symm, ?_⟩
  · have canonical : Canonical path := alone root []
    exact canonical.normal
  · exact fun normal => resolve_of_canonical normal.canonical
  · intro path normal ne
    have canonical := normal.canonical
    exact ⟨(canonical_parent canonical).normal, join_parent_base canonical ne⟩

/-- A home directory with dots in it, a base that is no canonical path, and more `..` than there is
above. -/
example :
    resolve (ascii "~/../../../.././x//y") (ascii "a/./b") (ascii "h/../k") = ascii "/x/y" := by
  decide

end VirtualShell.Path
