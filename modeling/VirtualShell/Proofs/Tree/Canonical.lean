import VirtualShell.Tree.Path

/-!
# Canonical paths

A canonical path is `Path.ofStack` of a stack of *proper* components (`Path.Proper`), last one
first, and of only one (`ofStack_injective`). On stacks the operations on paths are plain:
`Path.join` pushes a component, `Path.parent` pops one, `Path.base` reads the top, and to lie
within a directory is to have its stack as a proper tail (`isWithin_ofStack`).

* `resolve_eq_ofStack`: every resolved path is the path of a proper stack.
* `canonical_iff`: the paths that resolve to themselves are just these.
-/

namespace VirtualShell.Path

/-- A component that a canonical path may have. -/
structure Proper (part : Bytes) : Prop where
  ne_nil : part ≠ []
  no_slash : Ascii.slash ∉ part
  ne_dot : part ≠ ascii "."
  ne_dots : part ≠ ascii ".."

/-- A stack of proper components. -/
def ProperStack (stack : List Bytes) : Prop := ∀ part ∈ stack, Proper part

/-- The path stands in its one canonical form. -/
def Canonical (path : Bytes) : Prop := resolve path = path

theorem ProperStack.nil : ProperStack [] := fun _ h => absurd h List.not_mem_nil

theorem ProperStack.cons {part : Bytes} {stack : List Bytes} (h : Proper part)
    (hs : ProperStack stack) : ProperStack (part :: stack) := by
  intro p hp
  rcases List.mem_cons.1 hp with rfl | hp
  · exact h
  · exact hs p hp

theorem ProperStack.head {part : Bytes} {stack : List Bytes} (h : ProperStack (part :: stack)) :
    Proper part := h part List.mem_cons_self

theorem ProperStack.tail {part : Bytes} {stack : List Bytes} (h : ProperStack (part :: stack)) :
    ProperStack stack := fun p hp => h p (List.mem_cons_of_mem _ hp)

theorem ProperStack.append {a b : List Bytes} (ha : ProperStack a) (hb : ProperStack b) :
    ProperStack (a ++ b) := by
  intro p hp
  rcases List.mem_append.1 hp with hp | hp
  · exact ha p hp
  · exact hb p hp

theorem ProperStack.reverse {stack : List Bytes} (h : ProperStack stack) :
    ProperStack stack.reverse := fun p hp => h p (List.mem_reverse.1 hp)

/-! ## Components -/

@[simp] theorem components_nil : components [] = [] := rfl

theorem components_slash_cons (path : Bytes) :
    components (Ascii.slash :: path) = components path := by
  simp [components, Bytes.fields]

/-- A piece without slashes in front of a slash is one component, or none if it is empty. -/
theorem components_piece {piece : Bytes} (h : Ascii.slash ∉ piece) (rest : Bytes) :
    components (piece ++ Ascii.slash :: rest) =
      (if piece = [] then [] else [piece]) ++ components rest := by
  rw [components, Bytes.fields_concat_separator h]
  by_cases e : piece = []
  · simp [e, components]
  · simp [e, components]

theorem components_of_no_slash {piece : Bytes} (h : Ascii.slash ∉ piece) :
    components piece = if piece = [] then [] else [piece] := by
  by_cases e : piece = []
  · simp [e]
  · simp [components, Bytes.fields_eq_singleton h e, e]

/-- The components on either side of a slash. -/
theorem components_append_slash (path rest : Bytes) :
    components (path ++ Ascii.slash :: rest) = components path ++ components rest := by
  -- cut the path at its first slash, if it has one
  induction hn : path.length using Nat.strongRecOn generalizing path with
  | ind n ih =>
    by_cases h : Ascii.slash ∈ path
    · obtain ⟨piece, others, rfl, free⟩ := List.eq_append_cons_of_mem h
      have shorter : others.length < n := by
        rw [← hn, List.length_append, List.length_cons]; omega
      rw [List.append_assoc, List.cons_append, components_piece free, ih _ shorter others rfl,
        components_piece free, List.append_assoc]
    · rw [components_piece h, components_of_no_slash h]

/-- Components are never empty and have no slash in them. -/
theorem mem_components {path part : Bytes} (h : part ∈ components path) :
    part ≠ [] ∧ Ascii.slash ∉ part := by
  induction hn : path.length using Nat.strongRecOn generalizing path with
  | ind n ih =>
    by_cases hs : Ascii.slash ∈ path
    · obtain ⟨piece, others, rfl, free⟩ := List.eq_append_cons_of_mem hs
      have shorter : others.length < n := by
        rw [← hn, List.length_append, List.length_cons]; omega
      rw [components_piece free] at h
      rcases List.mem_append.1 h with h | h
      · split at h
        · simp at h
        next ne => simp only [List.mem_singleton] at h; exact h ▸ ⟨ne, free⟩
      · exact ih _ shorter h rfl
    · rw [components_of_no_slash hs] at h
      split at h
      · simp at h
      next ne => simp only [List.mem_singleton] at h; exact h ▸ ⟨ne, hs⟩

/-- Slashes in front of proper components cut the text into just these. -/
theorem components_flatMap {parts : List Bytes} (h : ProperStack parts) :
    components (parts.flatMap (Ascii.slash :: ·)) = parts := by
  induction parts with
  | nil => rfl
  | cons part parts ih =>
    have ne := h.head.ne_nil
    have free := h.head.no_slash
    cases parts with
    | nil => simp [components_slash_cons, components_of_no_slash free, ne]
    | cons next others =>
      have ih := ih h.tail
      simp only [List.flatMap_cons, List.cons_append, components_slash_cons] at ih ⊢
      rw [components_piece free, if_neg ne, List.singleton_append, ih]

/-! ## Paths of stacks -/

@[simp] theorem ofStack_nil : ofStack [] = root := rfl

theorem ofStack_cons (part : Bytes) (stack : List Bytes) :
    ofStack (part :: stack) = stack.reverse.flatMap (Ascii.slash :: ·) ++ Ascii.slash :: part := by
  simp [ofStack]

theorem ofStack_of_ne_nil {stack : List Bytes} (h : stack ≠ []) :
    ofStack stack = stack.reverse.flatMap (Ascii.slash :: ·) := by
  cases stack with
  | nil => exact absurd rfl h
  | cons part stack => simp [ofStack]

theorem components_ofStack {stack : List Bytes} (h : ProperStack stack) :
    components (ofStack stack) = stack.reverse := by
  cases stack with
  | nil => rfl
  | cons part stack => rw [ofStack_of_ne_nil (by simp), components_flatMap h.reverse]

theorem ofStack_injective {a b : List Bytes} (ha : ProperStack a) (hb : ProperStack b)
    (h : ofStack a = ofStack b) : a = b := by
  have := congrArg components h
  rw [components_ofStack ha, components_ofStack hb] at this
  exact List.reverse_inj.1 this

theorem ofStack_cons_ne_root {part : Bytes} {stack : List Bytes}
    (h : ProperStack (part :: stack)) : ofStack (part :: stack) ≠ root := by
  intro e
  have := ofStack_injective h .nil (e.trans ofStack_nil.symm)
  simp at this

theorem isAbsolute_ofStack (stack : List Bytes) : isAbsolute (ofStack stack) = true := by
  cases stack with
  | nil => rfl
  | cons part stack =>
    rw [ofStack_of_ne_nil (by simp)]
    cases h : (part :: stack).reverse with
    | nil => simp at h
    | cons first others => simp [isAbsolute]

/-! ## Resolving -/

/-- A component that is read from a text leaves a proper stack proper. -/
theorem properStack_step {stack : List Bytes} {part : Bytes} (hs : ProperStack stack)
    (ne : part ≠ []) (free : Ascii.slash ∉ part) : ProperStack (step stack part) := by
  unfold step
  split
  · exact hs
  next dot =>
    split
    · exact fun p hp => hs p (List.mem_of_mem_tail hp)
    next dots => exact .cons ⟨ne, free, dot, dots⟩ hs

theorem properStack_foldl {parts stack : List Bytes} (hs : ProperStack stack)
    (h : ∀ part ∈ parts, part ≠ [] ∧ Ascii.slash ∉ part) :
    ProperStack (parts.foldl step stack) := by
  induction parts generalizing stack with
  | nil => exact hs
  | cons part parts ih =>
    obtain ⟨ne, free⟩ := h part List.mem_cons_self
    exact ih (properStack_step hs ne free) fun p hp => h p (List.mem_cons_of_mem _ hp)

/-- Proper components are pushed one by one. -/
theorem foldl_step_of_proper {parts : List Bytes} (h : ProperStack parts) (stack : List Bytes) :
    parts.foldl step stack = parts.reverse ++ stack := by
  induction parts generalizing stack with
  | nil => rfl
  | cons part parts ih =>
    rw [List.foldl_cons, ih h.tail, step, if_neg h.head.ne_dot, if_neg h.head.ne_dots]
    simp

/-- Every resolved path is the path of a proper stack. -/
theorem resolve_eq_ofStack (raw base home : Bytes) :
    ∃ stack, ProperStack stack ∧ resolve raw base home = ofStack stack := by
  refine ⟨_, properStack_foldl ?_ fun _ => mem_components, rfl⟩
  split
  · exact .nil
  · exact properStack_foldl .nil fun _ => mem_components

theorem resolve_ofStack {stack : List Bytes} (h : ProperStack stack) (base : Bytes) :
    resolve (ofStack stack) base = ofStack stack := by
  simp [resolve, expandHome, isAbsolute_ofStack, components_ofStack h,
    foldl_step_of_proper h.reverse]

/-- **The canonical paths** are the paths of proper stacks. -/
theorem canonical_iff {path : Bytes} :
    Canonical path ↔ ∃ stack, ProperStack stack ∧ path = ofStack stack := by
  constructor
  · intro h
    obtain ⟨stack, hs, e⟩ := resolve_eq_ofStack path root []
    exact ⟨stack, hs, h.symm.trans e⟩
  · rintro ⟨stack, hs, rfl⟩
    exact resolve_ofStack hs root

theorem canonical_ofStack {stack : List Bytes} (h : ProperStack stack) :
    Canonical (ofStack stack) := canonical_iff.2 ⟨stack, h, rfl⟩

theorem canonical_resolve (raw base home : Bytes) : Canonical (resolve raw base home) :=
  canonical_iff.2 (resolve_eq_ofStack raw base home)

theorem canonical_root : Canonical root := rfl

/-- The components of a canonical path are proper. -/
theorem proper_components {path : Bytes} (h : Canonical path) :
    ProperStack (components path) := by
  obtain ⟨stack, hs, rfl⟩ := canonical_iff.1 h
  rw [components_ofStack hs]
  exact hs.reverse

theorem proper_components_resolve (raw base home : Bytes) :
    ProperStack (components (resolve raw base home)) :=
  proper_components (canonical_resolve raw base home)

/-! ## Directories and names -/

theorem join_ofStack {stack : List Bytes} (h : ProperStack stack) (name : Bytes) :
    join (ofStack stack) name = ofStack (name :: stack) := by
  cases stack with
  | nil => simp [join, ofStack]
  | cons part stack =>
    rw [join, if_neg (ofStack_cons_ne_root h), ofStack_cons name, ofStack_of_ne_nil (by simp)]

theorem canonical_join {dir name : Bytes} (hd : Canonical dir) (hn : Proper name) :
    Canonical (join dir name) := by
  obtain ⟨stack, hs, rfl⟩ := canonical_iff.1 hd
  rw [join_ofStack hs]
  exact canonical_ofStack (.cons hn hs)

/-- The last slash of a text cuts it in front of a piece without slashes. -/
theorem splitAtLast?_append {before after : Bytes} (h : Ascii.slash ∉ after) :
    Bytes.splitAtLast? Ascii.slash (before ++ Ascii.slash :: after) = some (before, after) := by
  have hd : (after.reverse ++ Ascii.slash :: before.reverse).dropWhile (· != Ascii.slash) =
      Ascii.slash :: before.reverse := by
    rw [List.dropWhile_append_of_pos]
    · simp
    · intro c hc
      simpa using fun e : c = Ascii.slash => h (e ▸ List.mem_reverse.1 hc)
  have ht : (after.reverse ++ Ascii.slash :: before.reverse).takeWhile (· != Ascii.slash) =
      after.reverse := by
    rw [List.takeWhile_append_of_pos]
    · simp
    · intro c hc
      simpa using fun e : c = Ascii.slash => h (e ▸ List.mem_reverse.1 hc)
  simp [Bytes.splitAtLast?, hd, ht]

theorem parent_root : parent root = root := rfl

theorem parent_ofStack_cons {part : Bytes} {stack : List Bytes} (h : ProperStack (part :: stack)) :
    parent (ofStack (part :: stack)) = ofStack stack := by
  rw [parent, ofStack_cons, splitAtLast?_append h.head.no_slash]
  cases stack with
  | nil => rfl
  | cons next others =>
    have ne : ((next :: others).reverse.flatMap (Ascii.slash :: ·)).isEmpty = false := by simp
    simp only [ne]
    exact (ofStack_of_ne_nil (by simp)).symm

theorem base_ofStack_cons {part : Bytes} {stack : List Bytes} (h : ProperStack (part :: stack)) :
    base (ofStack (part :: stack)) = part := by
  rw [base, if_neg (ofStack_cons_ne_root h), ofStack_cons, splitAtLast?_append h.head.no_slash]

theorem canonical_parent {path : Bytes} (h : Canonical path) : Canonical (parent path) := by
  obtain ⟨stack, hs, rfl⟩ := canonical_iff.1 h
  cases stack with
  | nil => exact canonical_root
  | cons part stack =>
    rw [parent_ofStack_cons hs]
    exact canonical_ofStack hs.tail

theorem proper_base {path : Bytes} (h : Canonical path) (ne : path ≠ root) :
    Proper (base path) := by
  obtain ⟨stack, hs, rfl⟩ := canonical_iff.1 h
  cases stack with
  | nil => exact absurd rfl ne
  | cons part stack =>
    rw [base_ofStack_cons hs]
    exact hs.head

theorem join_parent_base {path : Bytes} (h : Canonical path) (ne : path ≠ root) :
    join (parent path) (base path) = path := by
  obtain ⟨stack, hs, rfl⟩ := canonical_iff.1 h
  cases stack with
  | nil => exact absurd rfl ne
  | cons part stack => rw [parent_ofStack_cons hs, base_ofStack_cons hs, join_ofStack hs.tail]

theorem parent_join {dir name : Bytes} (hd : Canonical dir) (hn : Proper name) :
    parent (join dir name) = dir := by
  obtain ⟨stack, hs, rfl⟩ := canonical_iff.1 hd
  rw [join_ofStack hs, parent_ofStack_cons (.cons hn hs)]

theorem join_ne_root {dir name : Bytes} (hd : Canonical dir) (hn : Proper name) :
    join dir name ≠ root := by
  obtain ⟨stack, hs, rfl⟩ := canonical_iff.1 hd
  rw [join_ofStack hs]
  exact ofStack_cons_ne_root (.cons hn hs)

theorem components_join {dir name : Bytes} (hd : Canonical dir) (hn : Proper name) :
    components (join dir name) = components dir ++ [name] := by
  obtain ⟨stack, hs, rfl⟩ := canonical_iff.1 hd
  rw [join_ofStack hs, components_ofStack (.cons hn hs), components_ofStack hs, List.reverse_cons]

/-- The components of a path but the root are those of its parent, and its base. -/
theorem components_parent_base {path : Bytes} (h : Canonical path) (ne : path ≠ root) :
    components path = components (parent path) ++ [base path] := by
  have parts := components_join (canonical_parent h) (proper_base h ne)
  rwa [join_parent_base h ne] at parts

/-! ## Subtrees -/

theorem flatMap_slash_append (a b : List Bytes) :
    (a ++ b).flatMap (Ascii.slash :: ·) =
      a.flatMap (Ascii.slash :: ·) ++ b.flatMap (Ascii.slash :: ·) := List.flatMap_append

/-- Below a path that is not the root, its text comes first. -/
theorem ofStack_append {above below : List Bytes} (h : above ≠ []) :
    ofStack (below ++ above) = ofStack above ++ below.reverse.flatMap (Ascii.slash :: ·) := by
  rw [ofStack_of_ne_nil (by simp [h]), ofStack_of_ne_nil h, List.reverse_append,
    flatMap_slash_append]

/-- A text that starts with the text of components and a slash has them as its first
components. -/
theorem components_of_isPrefixOf {dir path : Bytes}
    (h : (dir ++ [Ascii.slash]).isPrefixOf path = true) :
    ∃ rest, components path = components dir ++ components rest := by
  obtain ⟨rest, rfl⟩ := List.isPrefixOf_iff_prefix.1 h
  exact ⟨rest, by rw [List.append_assoc, List.singleton_append, components_append_slash]⟩

/-- **A path lies within a directory** when its stack goes on from that of the directory. -/
theorem isWithin_ofStack {dir path : List Bytes} (hd : ProperStack dir) (hp : ProperStack path) :
    isWithin (ofStack path) (ofStack dir) = true ↔ ∃ below, below ≠ [] ∧ path = below ++ dir := by
  cases dir with
  | nil =>
    rw [ofStack_nil, isWithin, if_pos rfl]
    constructor
    · intro h
      refine ⟨path, ?_, by simp⟩
      rintro rfl
      simp at h
    · rintro ⟨below, ne, rfl⟩
      obtain ⟨part, others, rfl⟩ := List.exists_cons_of_ne_nil ne
      simpa using ofStack_cons_ne_root hp
  | cons name dir =>
    rw [isWithin, if_neg (ofStack_cons_ne_root hd), below, if_neg (ofStack_cons_ne_root hd)]
    constructor
    · intro h
      obtain ⟨rest, e⟩ := components_of_isPrefixOf h
      rw [components_ofStack hp, components_ofStack hd] at e
      have e : path = (components rest).reverse ++ (name :: dir) := by
        have := congrArg List.reverse e
        simpa using this
      refine ⟨_, fun nil => ?_, e⟩
      -- nothing below it would make the path the directory, which the slash behind it excludes
      rw [nil, List.nil_append] at e
      subst e
      have := (List.isPrefixOf_iff_prefix.1 h).length_le
      rw [List.length_append, List.length_singleton] at this
      omega
    · rintro ⟨below, ne, rfl⟩
      rw [ofStack_append (by simp), List.isPrefixOf_iff_prefix, List.prefix_append_right_inj]
      cases e : below.reverse with
      | nil => simp_all
      | cons first others => simp

end VirtualShell.Path
