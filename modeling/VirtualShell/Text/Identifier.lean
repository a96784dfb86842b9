import VirtualShell.Text.Bytes

/-!
# Names, assignments and comment lines

* `isIdentifier`: a letter or underscore, then letters, digits and underscores.
* `Assignment.read?` reads `NAME=value`, cutting at the first equals sign;
  `Assignment.read?_eq_some_iff` says exactly which words are assignments.
-/

namespace VirtualShell

def isIdentifierStart (c : UInt8) : Bool := isAlpha c || c == Ascii.underscore

def isIdentifierByte (c : UInt8) : Bool := isAlnum c || c == Ascii.underscore

/-- A non-empty name that starts with no digit. -/
def isIdentifier (name : Bytes) : Bool :=
  match name with
  | [] => false
  | c :: _ => isIdentifierStart c && name.all isIdentifierByte

/-- A variable to set and its new value. -/
structure Assignment where
  name : Bytes
  value : Bytes
  deriving DecidableEq

namespace Assignment

/-- The word as written. -/
def render (a : Assignment) : Bytes := a.name ++ Ascii.equals :: a.value

/-- Reads `NAME=value` where the part before the first equals sign is an identifier. -/
def read? (word : Bytes) : Option Assignment :=
  match word.dropWhile (· != Ascii.equals) with
  | [] => none
  | _ :: value =>
    let name := word.takeWhile (· != Ascii.equals)
    if isIdentifier name then some ⟨name, value⟩ else none

theorem equals_not_mem_of_isIdentifier {name : Bytes} (h : isIdentifier name = true) :
    Ascii.equals ∉ name := by
  intro m
  cases name with
  | nil => simp at m
  | cons c rest =>
    simp only [isIdentifier, Bool.and_eq_true, List.all_eq_true] at h
    exact absurd (h.2 _ m) (by decide)

theorem read?_eq_some_iff {word : Bytes} {a : Assignment} :
    read? word = some a ↔ isIdentifier a.name = true ∧ word = a.render := by
  constructor
  · intro h
    rw [read?] at h
    split at h
    next => simp at h
    next c value hd =>
      dsimp only at h
      split at h
      next ident =>
        simp only [Option.some.injEq] at h
        subst h
        have hc : c = Ascii.equals := by
          have := List.head?_dropWhile_not (fun x : UInt8 => x != Ascii.equals) word
          rw [hd] at this
          simpa using this
        refine ⟨ident, ?_⟩
        rw [hc] at hd
        rw [render, ← hd]
        exact List.takeWhile_append_dropWhile.symm
      next => simp at h
  · rintro ⟨ident, rfl⟩
    have pass : ∀ c ∈ a.name, (c != Ascii.equals) = true := by
      intro c hc
      have : c ≠ Ascii.equals := fun e => equals_not_mem_of_isIdentifier ident (e ▸ hc)
      simpa using this
    have h1 : a.render.takeWhile (· != Ascii.equals) = a.name := by
      rw [render, List.takeWhile_append_of_pos pass]
      simp
    have h2 : a.render.dropWhile (· != Ascii.equals) = Ascii.equals :: a.value := by
      rw [render, List.dropWhile_append_of_pos pass]
      simp
    rw [read?, h2]
    simp [h1, ident]

end Assignment

/-- The first byte that is no separator is a number sign. -/
def isComment (line : Bytes) : Bool := (Bytes.trimLeft line).head? == some Ascii.numberSign

end VirtualShell
