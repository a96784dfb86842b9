import Mathlib.Data.List.TakeWhile
import VirtualShell.Builtin.Names
import VirtualShell.Proofs.Filter.Writing
import VirtualShell.Proofs.Tree.NormalForm

/-!
# The two parts of a path

`dirname` and `basename` cut a path at its last slash, behind which slashes at the end do not count.
What they print, put together again with a slash, has the components of the path, but for a `.` in
front where there was no slash, and starts at the root just if the path does. So it names what the
path names, whatever it is read from (`resolve_parts`).
-/

namespace VirtualShell

/-- The last occurrence of a byte cuts the text; where there is none the byte is not in it. -/
theorem Bytes.splitAtLast?_cases (c : UInt8) (text : Bytes) :
    (∃ before after, splitAtLast? c text = some (before, after) ∧ text = before ++ c :: after)
      ∨ splitAtLast? c text = none ∧ c ∉ text := by
  have parts : text.reverse.takeWhile (· != c) ++ text.reverse.dropWhile (· != c) = text.reverse :=
    List.takeWhile_append_dropWhile
  rw [splitAtLast?]
  cases behind : text.reverse.dropWhile (· != c) with
  | nil =>
    refine .inr ⟨rfl, fun mem => ?_⟩
    have other := List.dropWhile_eq_nil_iff.1 behind c (List.mem_reverse.2 mem)
    simp at other
  | cons d before =>
    have last : d = c := by
      have stops := List.head?_dropWhile_not (· != c) text.reverse
      rw [behind] at stops
      simpa using stops
    subst last
    refine .inl ⟨_, _, rfl, ?_⟩
    rw [behind] at parts
    have := congrArg List.reverse parts
    simpa using this.symm

namespace Path

/-! ## Slashes at the end -/

/-- The components of slashes alone are none. -/
theorem components_replicate_slash (n : Nat) :
    components (List.replicate n Ascii.slash) = [] := by
  induction n with
  | zero => rfl
  | succ n ih => rw [List.replicate_succ, components_slash_cons, ih]

/-- Slashes at the end add no components. -/
theorem components_append_replicate_slash (path : Bytes) (n : Nat) :
    components (path ++ List.replicate n Ascii.slash) = components path := by
  cases n with
  | zero => rw [List.replicate_zero, List.append_nil]
  | succ n =>
    rw [List.replicate_succ, components_append_slash, components_replicate_slash, List.append_nil]

/-- What is dropped from the end is slashes only, and the first byte stays. -/
theorem exists_eq_dropTrailingSlashes_append (path : Bytes) :
    ∃ n, path = dropTrailingSlashes path ++ List.replicate n Ascii.slash
      ∧ (path ≠ [] → dropTrailingSlashes path ≠ []) := by
  have cut : path = Bytes.dropTrailing (· == Ascii.slash) path ++
      (path.reverse.takeWhile (· == Ascii.slash)).reverse := by
    have parts := congrArg List.reverse
      (List.takeWhile_append_dropWhile (p := (· == Ascii.slash)) (l := path.reverse))
    rw [List.reverse_append, List.reverse_reverse] at parts
    exact parts.symm
  have slashes : (path.reverse.takeWhile (· == Ascii.slash)).reverse =
      List.replicate (path.reverse.takeWhile (· == Ascii.slash)).length Ascii.slash := by
    refine List.eq_replicate_iff.2 ⟨List.length_reverse, fun c mem => ?_⟩
    simpa using List.mem_takeWhile_imp (List.mem_reverse.1 mem)
  rw [slashes] at cut
  generalize (path.reverse.takeWhile (· == Ascii.slash)).length = n at cut
  unfold dropTrailingSlashes
  cases shorter : Bytes.dropTrailing (· == Ascii.slash) path with
  | cons c rest =>
    rw [shorter] at cut
    exact ⟨n, cut, fun _ => List.cons_ne_nil _ _⟩
  | nil =>
    rw [shorter, List.nil_append] at cut
    subst cut
    cases n with
    | zero => exact ⟨0, rfl, fun some => absurd rfl some⟩
    | succ n => exact ⟨n, rfl, fun _ => List.cons_ne_nil _ _⟩

theorem components_dropTrailingSlashes (path : Bytes) :
    components (dropTrailingSlashes path) = components path := by
  obtain ⟨n, cut, -⟩ := exists_eq_dropTrailingSlashes_append path
  rw [← components_append_replicate_slash _ n, ← cut]

/-- A path that goes on starts where it started. -/
theorem isAbsolute_append {path : Bytes} (some : path ≠ []) (more : Bytes) :
    isAbsolute (path ++ more) = isAbsolute path := by
  obtain ⟨c, rest, rfl⟩ := List.exists_cons_of_ne_nil some
  rfl

theorem isAbsolute_dropTrailingSlashes (path : Bytes) :
    isAbsolute (dropTrailingSlashes path) = isAbsolute path := by
  obtain ⟨n, cut, some⟩ := exists_eq_dropTrailingSlashes_append path
  by_cases empty : path = []
  · rw [empty]
    rfl
  · rw [← isAbsolute_append (some empty) (List.replicate n Ascii.slash), ← cut]

/-! ## The parts -/

/-- The parts hold the components of the path, in front of them at most a `.`, and start where it
starts. -/
theorem components_parts (path : Bytes) :
    let joined := directoryName path ++ Ascii.slash :: fileName path
    (components joined = components path ∨ components joined = ascii "." :: components path)
      ∧ isAbsolute joined = isAbsolute path := by
  intro joined
  have components_joined : components joined =
      components (directoryName path) ++ components (fileName path) :=
    components_append_slash _ _
  rw [components_joined, ← components_dropTrailingSlashes path,
    ← isAbsolute_dropTrailingSlashes path]
  simp only [joined, directoryName, fileName]
  generalize dropTrailingSlashes path = short
  obtain ⟨before, after, split, rfl⟩ | ⟨split, free⟩ :=
    Bytes.splitAtLast?_cases Ascii.slash short
  · -- There is a slash: what stands before it keeps its components, and the root if it is empty.
    rw [split]
    have name : components (if before ++ Ascii.slash :: after = root then root else after) =
        components after := by
      split
      next root =>
        cases before with
        | nil => obtain rfl : after = [] := (List.cons.inj root).2; rfl
        | cons c before => simp [Path.root] at root
      next => rfl
    simp only [name]
    by_cases empty : before = []
    · subst empty
      exact ⟨.inl rfl, rfl⟩
    · obtain ⟨-, -, some⟩ := exists_eq_dropTrailingSlashes_append before
      rw [if_neg (by simpa using some empty), components_dropTrailingSlashes,
        components_append_slash, isAbsolute_append (some empty), isAbsolute_dropTrailingSlashes,
        isAbsolute_append empty]
      exact ⟨.inl rfl, rfl⟩
  · rw [split]
    have noRoot : short ≠ root := fun e => free (by rw [e]; exact List.mem_singleton_self _)
    have relative : isAbsolute short = false := by
      cases short with
      | nil => rfl
      | cons c rest =>
        have : c ≠ Ascii.slash := fun e => free (e ▸ List.mem_cons_self)
        simpa [isAbsolute] using this
    simp only [if_neg noRoot, relative]
    exact ⟨.inr rfl, rfl⟩

/-- A `.` in front changes nothing. -/
theorem foldl_step_dot (parts stack : List Bytes) :
    (ascii "." :: parts).foldl step stack = parts.foldl step stack := by
  rw [List.foldl_cons, step, if_pos rfl]

theorem resolve_directoryName_fileName (path base : Bytes) :
    resolve (directoryName path ++ Ascii.slash :: fileName path) base = resolve path base := by
  obtain ⟨parts, absolute⟩ := components_parts path
  simp only [resolve, expandHome, List.isEmpty_nil, if_true, absolute]
  obtain same | dotted := parts
  · rw [same]
  · rw [dotted, foldl_step_dot]

theorem dropSuffix_nil (name : Bytes) : dropSuffix [] name = name := by
  simp [dropSuffix]

end Path

namespace Builtin

open ShellAction

/-- **The two parts of a path** name together what the path names: what `dirname` prints for it, a
slash and what `basename` prints resolve to what the path resolves to, from every base. -/
theorem resolve_parts (path base : Bytes) (c c' : Call) (w w' : World)
    (given : c.arguments = [path]) (given' : c'.arguments = [path])
    (noLong : path ≠ ascii "--help") (noShort : path ≠ ascii "-h") :
    ∃ directory name,
      (dirname.invoke c).run w = ⟨0, [.out (directory ++ [Ascii.newline])], w⟩
        ∧ (basename.invoke c').run w' = ⟨0, [.out (name ++ [Ascii.newline])], w'⟩
        ∧ Path.resolve (directory ++ Ascii.slash :: name) base = Path.resolve path base := by
  refine ⟨Path.directoryName path, Path.fileName path, ?_, ?_,
    Path.resolve_directoryName_fileName path base⟩
  · rw [invoke_of_noHelp dirname given noLong noShort, dirname]
    dsimp only
    rw [given]
    rfl
  · rw [invoke_of_noHelp basename given' noLong noShort, basename]
    dsimp only
    rw [given']
    simp only [List.headD_nil, Path.dropSuffix_nil]
    rfl

/-- Slashes in a row, at the end too, and components that go back. -/
theorem resolve_parts_of_slashes :
    let path := ascii "a//..//b///"
    let call (name : String) : Call := { name := ascii name, arguments := [path] }
    let w : World := { session := {}, system := { volume := { store := .memory ∅ } }, now := 0 }
    ∃ directory name,
      (dirname.invoke (call "dirname")).run w = ⟨0, [.out (directory ++ [Ascii.newline])], w⟩
        ∧ (basename.invoke (call "basename")).run w = ⟨0, [.out (name ++ [Ascii.newline])], w⟩
        ∧ Path.resolve (directory ++ Ascii.slash :: name) (ascii "x/.") = ascii "/x/b" := by
  intro path call w
  obtain ⟨directory, name, printed, printed', same⟩ := resolve_parts path (ascii "x/.")
    (call "dirname") (call "basename") w w rfl rfl (by decide) (by decide)
  exact ⟨directory, name, printed, printed', same.trans (by decide)⟩

end Builtin

end VirtualShell
