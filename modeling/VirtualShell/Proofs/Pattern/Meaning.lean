import VirtualShell.Pattern.Glob
import VirtualShell.Proofs.Pattern.Language

/-!
# The meaning of file name patterns

`Glob.Matches` is the reading of a pattern from the left, byte by byte, over the paths that it
takes: `**/` for nothing or anything that ends in a slash, any other `**` for anything, `*` for
anything without a slash, `?` for one byte but a slash, every other byte for itself. What "anything"
may be is left open, since the expression of a pattern takes a run of *line bytes* for it and so
stops at a line break, which a name may contain.

* `matches_iff_mem_language`: the paths of a pattern are a product of languages, one for each item.
* `accepts_iff_mem_language`: its expression accepts that product over the line bytes.
* `accepts_iff_means`: so a path without line breaks is accepted iff the pattern means it.
* `language_append`: a pattern may be cut anywhere but behind a star.
-/

namespace VirtualShell.Glob

open Regex

/-- A byte that does not end a line. -/
def IsLineByte (c : UInt8) : Prop := c ≠ Ascii.newline ∧ c ≠ Ascii.carriageReturn

instance : DecidablePred IsLineByte := fun _ => inferInstanceAs (Decidable (_ ∧ _))

/-- The pattern, read from the left, takes the whole path; `**` takes runs of the bytes that are
given. -/
inductive Matches (wide : UInt8 → Prop) : Bytes → Bytes → Prop
  | nil : Matches wide [] []
  | noDirectories {rest path : Bytes} :
      Matches wide rest path → Matches wide (Ascii.star :: Ascii.star :: Ascii.slash :: rest) path
  | directories {rest path : Bytes} (above : Bytes) :
      (∀ c ∈ above, wide c) → Matches wide rest path →
      Matches wide (Ascii.star :: Ascii.star :: Ascii.slash :: rest) (above ++ Ascii.slash :: path)
  | anything {rest path : Bytes} (text : Bytes) :
      rest.head? ≠ some Ascii.slash → (∀ c ∈ text, wide c) → Matches wide rest path →
      Matches wide (Ascii.star :: Ascii.star :: rest) (text ++ path)
  | anyName {rest path : Bytes} (name : Bytes) :
      rest.head? ≠ some Ascii.star → (∀ c ∈ name, c ≠ Ascii.slash) → Matches wide rest path →
      Matches wide (Ascii.star :: rest) (name ++ path)
  | anyNameByte {rest path : Bytes} {c : UInt8} :
      c ≠ Ascii.slash → Matches wide rest path → Matches wide (Ascii.question :: rest) (c :: path)
  | literal {rest path : Bytes} {c : UInt8} :
      c ≠ Ascii.star → c ≠ Ascii.question → Matches wide rest path →
      Matches wide (c :: rest) (c :: path)

/-- What a pattern is meant to match: `**` takes any bytes. -/
def Means : Bytes → Bytes → Prop := Matches fun _ => True

variable {wide : UInt8 → Prop} {pattern path before after rest : Bytes}

/-- Bytes that the path does not contain need not be given to `**`. -/
theorem Matches.mono {other : UInt8 → Prop} (h : Matches wide pattern path)
    (given : ∀ c ∈ path, wide c → other c) : Matches other pattern path := by
  induction h with
  | nil => exact .nil
  | noDirectories _ ih => exact .noDirectories (ih given)
  | directories above ok _ ih =>
    refine .directories above (fun c mem => ?_) (ih fun c mem => ?_)
    · exact given c (List.mem_append_left _ mem) (ok c mem)
    · exact given c (List.mem_append_right _ (List.mem_cons_of_mem _ mem))
  | anything text next ok _ ih =>
    refine .anything text next (fun c mem => ?_) (ih fun c mem => ?_)
    · exact given c (List.mem_append_left _ mem) (ok c mem)
    · exact given c (List.mem_append_right _ mem)
  | anyName name next ok _ ih =>
    exact .anyName name next ok (ih fun c mem => given c (List.mem_append_right _ mem))
  | anyNameByte ok _ ih =>
    exact .anyNameByte ok (ih fun c mem => given c (List.mem_cons_of_mem _ mem))
  | literal star question _ ih =>
    exact .literal star question (ih fun c mem => given c (List.mem_cons_of_mem _ mem))

/-! ## Languages -/

/-- The texts that an item takes. -/
def Item.language (wide : UInt8 → Prop) : Item → Language UInt8
  | directories => manyOf wide * oneOf (· = Ascii.slash) + 1
  | anything => manyOf wide
  | anyName => manyOf (· ≠ Ascii.slash)
  | anyNameByte => oneOf (· ≠ Ascii.slash)
  | literal c => oneOf (· = c)

/-- The texts that the items of a pattern take one after another. -/
def language (wide : UInt8 → Prop) (pattern : Bytes) : Language UInt8 :=
  ((items pattern).map (Item.language wide)).prod

theorem language_nil : language wide [] = 1 := rfl

theorem language_of_items {item : Item} (h : items pattern = item :: items rest) :
    language wide pattern = item.language wide * language wide rest := by
  simp only [language, h, List.map_cons, List.prod_cons]

theorem language_directories :
    language wide (Ascii.star :: Ascii.star :: Ascii.slash :: rest) =
      manyOf wide * (oneOf (· = Ascii.slash) * language wide rest) + language wide rest := by
  have first : items (Ascii.star :: Ascii.star :: Ascii.slash :: rest) =
    .directories :: items rest := rfl
  rw [language_of_items first, Item.language, add_mul, one_mul, mul_assoc]

theorem language_anything (next : rest.head? ≠ some Ascii.slash) :
    language wide (Ascii.star :: Ascii.star :: rest) = manyOf wide * language wide rest :=
  language_of_items (items_anything next)

theorem language_anyName (next : rest.head? ≠ some Ascii.star) :
    language wide (Ascii.star :: rest) = manyOf (· ≠ Ascii.slash) * language wide rest :=
  language_of_items (items_anyName next)

theorem language_anyNameByte :
    language wide (Ascii.question :: rest) = oneOf (· ≠ Ascii.slash) * language wide rest := by
  have first : items (Ascii.question :: rest) = .anyNameByte :: items rest := rfl
  exact language_of_items first

theorem language_literal {c : UInt8} (star : c ≠ Ascii.star) (question : c ≠ Ascii.question) :
    language wide (c :: rest) = oneOf (· = c) * language wide rest :=
  language_of_items (items_literal star question)

/-- **A pattern takes a product of languages**, one for each of its items. -/
theorem matches_iff_mem_language : Matches wide pattern path ↔ path ∈ language wide pattern := by
  constructor
  · intro h
    induction h with
    | nil => exact Set.mem_singleton _
    | noDirectories _ ih =>
      rw [language_directories]
      exact .inr ih
    | @directories rest path above ok _ ih =>
      rw [language_directories]
      exact .inl ⟨above, ok, Ascii.slash :: path, cons_mem_oneOf_mul.2 ⟨rfl, ih⟩, rfl⟩
    | anything text next ok _ ih =>
      rw [language_anything next]
      exact ⟨text, ok, _, ih, rfl⟩
    | anyName name next ok _ ih =>
      rw [language_anyName next]
      exact ⟨name, ok, _, ih, rfl⟩
    | anyNameByte ok _ ih =>
      rw [language_anyNameByte]
      exact cons_mem_oneOf_mul.2 ⟨ok, ih⟩
    | literal star question _ ih =>
      rw [language_literal star question]
      exact cons_mem_oneOf_mul.2 ⟨rfl, ih⟩
  · intro h
    induction pattern using readingInduction generalizing path with
    | nil =>
      rw [language_nil, Language.mem_one] at h
      rw [h]
      exact .nil
    | directories rest ih =>
      rw [language_directories] at h
      obtain ⟨above, ok, _, mem, rfl⟩ | mem := h
      · obtain ⟨_, path, rfl, rfl, behind⟩ := exists_of_mem_oneOf_mul mem
        exact .directories above ok (ih behind)
      · exact .noDirectories (ih mem)
    | anything rest next ih =>
      rw [language_anything next] at h
      obtain ⟨text, ok, behind, mem, rfl⟩ := h
      exact .anything text next ok (ih mem)
    | anyName rest next ih =>
      rw [language_anyName next] at h
      obtain ⟨name, ok, behind, mem, rfl⟩ := h
      exact .anyName name next ok (ih mem)
    | anyNameByte rest ih =>
      rw [language_anyNameByte] at h
      obtain ⟨c, behind, rfl, ok, mem⟩ := exists_of_mem_oneOf_mul h
      exact .anyNameByte ok (ih mem)
    | literal c rest star question ih =>
      rw [language_literal star question] at h
      obtain ⟨c, behind, rfl, rfl, mem⟩ := exists_of_mem_oneOf_mul h
      exact .literal star question (ih mem)

/-! ## Expressions -/

theorem spans_item (item : Item) : Spans item.regex (item.language IsLineByte) := by
  have lines : Spans (.star true Item.lineByte) (manyOf IsLineByte) :=
    spans_star_byte fun c => by simp [IsLineByte]
  cases item with
  | directories =>
    have slash : Spans (.seq (.byte (· == Ascii.slash)) .empty) (oneOf (· = Ascii.slash) * 1) :=
      (spans_byte fun c => beq_iff_eq).seq spans_empty
    rw [mul_one] at slash
    exact (lines.seq slash).upTo_one
  | anything => exact lines
  | anyName => exact spans_star_byte fun c => bne_iff_ne
  | anyNameByte => exact spans_byte fun c => bne_iff_ne
  | literal c => exact spans_byte fun d => beq_iff_eq

theorem spans_regex (pattern : Bytes) : Spans (regex pattern) (language IsLineByte pattern) := by
  rw [regex, language]
  induction items pattern with
  | nil => exact spans_empty
  | cons item list ih => exact (spans_item item).seq ih

theorem accepts_iff_mem_language :
    accepts pattern path = true ↔ path ∈ language IsLineByte pattern :=
  (spans_regex pattern).matchesAll_iff path

/-- **What a pattern accepts**: its expression stops a `**` at the end of a line. -/
theorem accepts_iff_matches : accepts pattern path = true ↔ Matches IsLineByte pattern path :=
  accepts_iff_mem_language.trans matches_iff_mem_language.symm

/-- **On paths without line breaks a pattern accepts what it means.** -/
theorem accepts_iff_means (line : ∀ c ∈ path, IsLineByte c) :
    accepts pattern path = true ↔ Means pattern path :=
  accepts_iff_matches.trans
    ⟨fun h => h.mono fun _ _ _ => trivial, fun h => h.mono fun c mem _ => line c mem⟩

/-! ## Cutting patterns -/

theorem getLast?_of_cons {c d : UInt8} {text : Bytes} (h : (c :: text).getLast? ≠ some d) :
    text.getLast? ≠ some d := by
  intro last
  rw [List.getLast?_cons, last] at h
  exact h rfl

/-- What does not end in a star has something behind each of its stars. -/
theorem head?_append_of_star {next : UInt8}
    (apart : (Ascii.star :: before).getLast? ≠ some Ascii.star) (h : before.head? ≠ some next) :
    (before ++ rest).head? ≠ some next := by
  cases before with
  | nil => exact absurd rfl apart
  | cons c before => exact h

/-- No item reaches from the part in front of a cut to the part behind it, if that in front does
not end in a star. -/
theorem items_append (apart : before.getLast? ≠ some Ascii.star) :
    items (before ++ rest) = items before ++ items rest := by
  induction before using readingInduction with
  | nil => rfl
  | directories before ih =>
    have apart := getLast?_of_cons (getLast?_of_cons (getLast?_of_cons apart))
    exact congrArg (.directories :: ·) (ih apart)
  | anything before next ih =>
    have behind := getLast?_of_cons apart
    have ih := ih (getLast?_of_cons behind)
    rw [items_anything next, List.cons_append, List.cons_append,
      items_anything (head?_append_of_star behind next), ih, List.cons_append]
  | anyName before next ih =>
    have ih := ih (getLast?_of_cons apart)
    rw [items_anyName next, List.cons_append, items_anyName (head?_append_of_star apart next), ih,
      List.cons_append]
  | anyNameByte before ih => exact congrArg (.anyNameByte :: ·) (ih (getLast?_of_cons apart))
  | literal c before star question ih =>
    have ih := ih (getLast?_of_cons apart)
    rw [items_literal star question, List.cons_append, items_literal star question, ih,
      List.cons_append]

theorem language_append (apart : before.getLast? ≠ some Ascii.star) :
    language wide (before ++ rest) = language wide before * language wide rest := by
  simp only [language, items_append apart, List.map_append, List.prod_append]

theorem mem_mul_mul {L M N : Language UInt8} :
    path ∈ L * (M * N) ↔
      ∃ left middle right, path = left ++ middle ++ right ∧ left ∈ L ∧ middle ∈ M ∧ right ∈ N := by
  constructor
  · rintro ⟨left, inL, _, ⟨middle, inM, right, inN, rfl⟩, rfl⟩
    exact ⟨left, middle, right, (List.append_assoc ..).symm, inL, inM, inN⟩
  · rintro ⟨left, middle, right, rfl, inL, inM, inN⟩
    exact ⟨left, inL, _, ⟨middle, inM, right, inN, rfl⟩, (List.append_assoc ..).symm⟩

/-- What a star takes between what stands before it and what stands behind it. -/
theorem accepts_star_iff (apart : before.getLast? ≠ some Ascii.star)
    (next : after.head? ≠ some Ascii.star) :
    accepts (before ++ Ascii.star :: after) path = true ↔
      ∃ left name right, path = left ++ name ++ right ∧ accepts before left = true ∧
        (∀ c ∈ name, c ≠ Ascii.slash) ∧ accepts after right = true := by
  simp only [accepts_iff_mem_language]
  rw [language_append apart, language_anyName next]
  exact mem_mul_mul

/-- What two stars take: a run of line bytes, or also nothing together with a slash behind them. -/
theorem accepts_wide_iff (apart : before.getLast? ≠ some Ascii.star) :
    accepts (before ++ Ascii.star :: Ascii.star :: after) path = true ↔
      (∃ left text right, path = left ++ text ++ right ∧ accepts before left = true ∧
        (∀ c ∈ text, IsLineByte c) ∧ accepts after right = true) ∨
      ∃ deeper left right, after = Ascii.slash :: deeper ∧ path = left ++ right ∧
        accepts before left = true ∧ accepts deeper right = true := by
  simp only [accepts_iff_mem_language]
  rw [language_append apart]
  by_cases next : after.head? = some Ascii.slash
  · obtain ⟨deeper, rfl⟩ := List.head?_eq_some_iff.1 next
    rw [language_directories, mul_add, ← language_literal (by decide) (by decide),
      Language.mem_add]
    refine or_congr mem_mul_mul ⟨?_, ?_⟩
    · rintro ⟨left, inL, right, inR, rfl⟩
      exact ⟨deeper, left, right, rfl, rfl, inL, inR⟩
    · rintro ⟨_, left, right, same, rfl, inL, inR⟩
      obtain ⟨-, rfl⟩ := List.cons.inj same
      exact ⟨left, inL, right, inR, rfl⟩
  · rw [language_anything next, or_iff_left]
    · exact mem_mul_mul
    · rintro ⟨deeper, left, right, rfl, -⟩
      exact next rfl

/-- A star alone takes any name. -/
theorem accepts_star : accepts [Ascii.star] path = true ↔ Ascii.slash ∉ path := by
  rw [accepts_iff_mem_language, language_anyName (by decide), language_nil, mul_one, mem_manyOf]
  exact ⟨fun h mem => h _ mem rfl, fun h c mem same => h (same ▸ mem)⟩

end VirtualShell.Glob
