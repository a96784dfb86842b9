import VirtualShell.Proofs.Lexing.Blanks

/-!
# Pieces joined to a line

Texts that leave nothing open, and have no bar at top level, are the segments of what they make when
they are joined with bars (`segments_join`): whatever is quoted, escaped or substituted in them, the
line is cut where it was joined and nowhere else. The same holds of semicolons and statements
(`statements_join`), and of whatever else cuts where it stands between such texts and at no other
place (`Separates`).

The reader of the line comes to each piece at top level, though not in the state in which it would
start on the piece alone, since it remembers where the last escape went back to. Such states read on
alike (`Delimiters.Alike`).
-/

namespace VirtualShell

/-! ## Pieces -/

/-- The byte stands nowhere in the text at top level. -/
def IsFreeOf (c : UInt8) (text : Bytes) : Prop := ∀ m ∈ marks {} text, m.isTop c = false

/-- A text that can stand between others: there is something in it, it is trimmed, and it leaves
nothing open. -/
structure IsPiece (text : Bytes) : Prop where
  nonempty : text ≠ []
  trimmed : Bytes.trim text = text
  terminated : (Delimiters.read {} text).unterminated = false

instance (c : UInt8) (text : Bytes) : Decidable (IsFreeOf c text) :=
  inferInstanceAs (Decidable (∀ m ∈ marks {} text, m.isTop c = false))

instance (text : Bytes) : Decidable (IsPiece text) :=
  decidable_of_iff
    (text ≠ [] ∧ Bytes.trim text = text ∧ (Delimiters.read {} text).unterminated = false)
    ⟨fun ⟨nonempty, trimmed, terminated⟩ => ⟨nonempty, trimmed, terminated⟩,
      fun h => ⟨h.nonempty, h.trimmed, h.terminated⟩⟩

namespace Delimiters.Alike

variable {d d' : Delimiters} (alike : d.Alike d') {c : UInt8}
include alike

theorem isTop_mark {taken : Bytes} {after after' : Delimiters} :
    (Mark.mk taken d' after').isTop c = (Mark.mk taken d after).isTop c := by
  rw [Mark.isTop, Mark.isTop, alike.atTopLevel]

/-- Read from alike delimiters, the same bytes are at top level. -/
theorem isTop_eq_false {text : Bytes} (free : ∀ m ∈ marks d text, m.isTop c = false) :
    ∀ m ∈ marks d' text, m.isTop c = false := by
  induction d, text using readingInduction generalizing d' with
  | nil d => exact free
  | enter d rest admits ih =>
    rw [marks_enter admits] at free
    obtain ⟨here, behind⟩ := List.forall_mem_cons.1 free
    rw [marks_enter (alike.admitsSubstitution.trans admits)]
    exact List.forall_mem_cons.2 ⟨alike.isTop_mark.trans here, ih alike.enter behind⟩
  | feed d b rest plain ih =>
    rw [marks_cons plain] at free
    obtain ⟨here, behind⟩ := List.forall_mem_cons.1 free
    rw [marks_cons (mt alike.opens_iff.1 plain)]
    exact List.forall_mem_cons.2 ⟨alike.isTop_mark.trans here, ih (alike.feed b) behind⟩

end Delimiters.Alike

section

variable {d : Delimiters} {text : Bytes} (top : d.atTopLevel = true)
include top

/-- At top level the byte stands nowhere in the text at top level either. -/
theorem IsFreeOf.isTop_eq_false {c : UInt8} (h : IsFreeOf c text) :
    ∀ m ∈ marks d text, m.isTop c = false :=
  Delimiters.Alike.isTop_eq_false (.of_atTopLevel rfl top) h

/-- A piece that is started on at top level ends there. -/
theorem IsPiece.atTopLevel (h : IsPiece text) : (d.read text).atTopLevel = true := by
  have ends : (Delimiters.read {} text).atTopLevel = true := by
    simpa [Delimiters.unterminated] using h.terminated
  have alike : Delimiters.Alike {} d := .of_atTopLevel rfl top
  rw [(alike.read text).atTopLevel, ends]

end

theorem isBlank_nil : IsBlank [] := fun _ mem => absurd mem List.not_mem_nil

theorem isBlank_space : IsBlank [Ascii.space] := List.forall_mem_singleton.2 rfl

/-! ## Cutting -/

/-- The byte right before what is read behind these steps. -/
def byteBefore (previous : Option UInt8) (steps : List Mark) : Option UInt8 :=
  steps.getLast?.elim previous (·.taken.getLast?)

/-- The byte that these steps read first. -/
def byteBehind (steps : List Mark) : Option UInt8 := steps.head?.bind (·.taken.head?)

theorem byteBefore_nil (previous : Option UInt8) : byteBefore previous [] = previous := rfl

theorem byteBefore_cons (previous : Option UInt8) (m : Mark) (steps : List Mark) :
    byteBefore previous (m :: steps) = byteBefore m.taken.getLast? steps := by
  rw [byteBefore, byteBefore, List.getLast?_cons]
  cases steps.getLast? <;> rfl

theorem byteBefore_concat (previous : Option UInt8) (steps : List Mark) (m : Mark) :
    byteBefore previous (steps ++ [m]) = m.taken.getLast? := by
  rw [byteBefore, List.getLast?_concat]
  rfl

theorem exists_eq_concat_of_byteBefore {steps : List Mark} {c : UInt8}
    (h : byteBefore none steps = some c) : ∃ start, steps.flatMap Mark.taken = start ++ [c] := by
  rcases steps.eq_nil_or_concat with rfl | ⟨others, last, rfl⟩
  · cases h
  · rw [List.concat_eq_append] at h ⊢
    rw [byteBefore_concat] at h
    obtain ⟨start, eq⟩ := List.getLast?_eq_some_iff.1 h
    exact ⟨others.flatMap Mark.taken ++ start, by simp [eq]⟩

theorem exists_eq_cons_of_byteBehind {steps : List Mark} {c : UInt8}
    (h : byteBehind steps = some c) : ∃ rest, steps.flatMap Mark.taken = c :: rest := by
  obtain ⟨m, first, taken⟩ := Option.bind_eq_some_iff.1 h
  obtain ⟨others, rfl⟩ := List.head?_eq_some_iff.1 first
  obtain ⟨more, eq⟩ := List.head?_eq_some_iff.1 taken
  exact ⟨more ++ others.flatMap Mark.taken, by simp [eq]⟩

/-- The first step that cuts ends the first piece. -/
theorem cutWhere_append_cons {cuts : Option UInt8 → Mark → Option UInt8 → Bool}
    {before after : List Mark} {m : Mark} {previous : Option UInt8}
    (never : ∀ m ∈ before, ∀ previous next, cuts previous m next = false)
    (cut : cuts (byteBefore previous before) m (byteBehind after) = true) :
    cutWhere cuts previous (before ++ m :: after) =
      before.flatMap Mark.taken :: cutWhere cuts m.taken.getLast? after := by
  induction before generalizing previous with
  | nil => exact if_pos cut
  | cons first rest ih =>
    obtain ⟨here, behind⟩ := List.forall_mem_cons.1 never
    rw [byteBefore_cons] at cut
    rw [List.cons_append, cutWhere, here, if_neg Bool.false_ne_true, ih behind cut]
    rfl

/-! ## Separators -/

theorem IsPlain.head?_append_ne {plain : Bytes} (h : IsPlain plain) (some : plain ≠ [])
    (rest : Bytes) : (plain ++ rest).head? ≠ Option.some Ascii.openParen := by
  obtain ⟨c, plain, rfl⟩ := List.exists_cons_of_ne_nil some
  rintro ⟨⟩
  exact absurd (h _ List.mem_cons_self).1 (by decide)

/-- Behind a text that ends at top level a separator is read byte by byte. -/
theorem marks_append_plain {d : Delimiters} {text plain : Bytes} (h : IsPlain plain)
    (some : plain ≠ []) (top : (d.read text).atTopLevel = true) (rest : Bytes) :
    marks d (text ++ (plain ++ rest)) =
      marks d text ++
        (plain.map (fun c => ⟨[c], d.read text, d.read text⟩) ++ marks (d.read text) rest) := by
  rw [VirtualShell.marks_append (h.head?_append_ne some rest), h.marks_append top]

/-- What is joined with the separator is cut there. Only where the byte stands at top level can
there be a cut; behind a text without it the separator makes one, and leaves no more than blanks on
either side. -/
structure Separates (cuts : Option UInt8 → Mark → Option UInt8 → Bool) (c : UInt8)
    (separator : Bytes) : Prop where
  visible : isSeparator c = false
  only : ∀ m : Mark, m.isTop c = false → ∀ previous next, cuts previous m next = false
  cut : ∀ {d : Delimiters} {text : Bytes} (rest : Bytes) (previous : Option UInt8),
    (∀ m ∈ marks d text, m.isTop c = false) → (d.read text).atTopLevel = true →
      ∃ before after previous', IsBlank before ∧ IsBlank after ∧
        cutWhere cuts previous (marks d (text ++ (separator ++ rest))) =
          (text ++ before) :: cutWhere cuts previous' (marks (d.read text) (after ++ rest))

theorem Bytes.join_singleton (separator part : Bytes) : join separator [part] = part := by
  simp [join]

theorem Bytes.join_cons_cons (separator part next : Bytes) (parts : List Bytes) :
    join separator (part :: next :: parts) =
      part ++ (separator ++ join separator (next :: parts)) := by
  simp [join, List.intercalate]

theorem trimmedPieces_cons {text : Bytes} {texts : List Bytes} (h : Bytes.trim text ≠ []) :
    trimmedPieces (text :: texts) = Bytes.trim text :: trimmedPieces texts := by
  rw [trimmedPieces, List.map_cons, List.filter_cons_of_pos (by simpa using h), ← trimmedPieces]

/-- Between blanks nothing of a piece is lost. -/
theorem IsPiece.trim_eq {piece before after : Bytes} (h : IsPiece piece) (hb : IsBlank before)
    (ha : IsBlank after) : Bytes.trim (before ++ piece ++ after) = piece := by
  rw [Bytes.trim_append_blank ha, Bytes.trim_blank_append hb, h.trimmed]

theorem IsPiece.trimmedPieces_cons {piece before after : Bytes} (h : IsPiece piece)
    (hb : IsBlank before) (ha : IsBlank after) (texts : List Bytes) :
    trimmedPieces ((before ++ piece ++ after) :: texts) = piece :: trimmedPieces texts := by
  have trimmed := h.trim_eq hb ha
  rw [VirtualShell.trimmedPieces_cons (trimmed.symm ▸ h.nonempty), trimmed]

section

variable {cuts : Option UInt8 → Mark → Option UInt8 → Bool} {c : UInt8} {separator : Bytes}
  (separates : Separates cuts c separator)
include separates

/-- Behind blanks, as after a cut, what is joined is cut where it was. -/
theorem Separates.trimmedPieces_join {pieces : List Bytes} (some : pieces ≠ [])
    (h : ∀ piece ∈ pieces, IsPiece piece) (free : ∀ piece ∈ pieces, IsFreeOf c piece)
    {blank : Bytes} (hb : IsBlank blank) {d : Delimiters} (top : d.atTopLevel = true)
    (previous : Option UInt8) :
    trimmedPieces (cutWhere cuts previous (marks d (blank ++ Bytes.join separator pieces))) =
      pieces := by
  induction pieces generalizing blank d previous with
  | nil => exact absurd rfl some
  | cons piece pieces ih =>
    obtain ⟨hp, others⟩ := List.forall_mem_cons.1 h
    obtain ⟨here, frees⟩ := List.forall_mem_cons.1 free
    have within : ∀ m ∈ marks d (blank ++ piece), m.isTop c = false := by
      rw [marks_blank_append hb top]
      exact List.forall_mem_append.2
        ⟨hb.not_isTop c separates.visible d, here.isTop_eq_false top⟩
    cases pieces with
    | nil =>
      rw [Bytes.join_singleton,
        cutWhere_of_forall_mem fun m mem => separates.only m (within m mem),
        flatMap_taken_marks, ← List.append_nil (blank ++ piece),
        hp.trimmedPieces_cons hb isBlank_nil]
      rfl
    | cons next pieces =>
      have ends : (d.read (blank ++ piece)).atTopLevel = true := by
        rw [read_blank_append hb top]
        exact hp.atTopLevel top
      obtain ⟨before, after, previous', hb', ha', cut⟩ :=
        separates.cut (Bytes.join separator (next :: pieces)) previous within ends
      rw [Bytes.join_cons_cons, ← List.append_assoc, cut, hp.trimmedPieces_cons hb hb']
      exact congrArg (piece :: ·) (ih (List.cons_ne_nil _ _) others frees ha' ends _)

/-- **What is joined** is cut into just the pieces again. -/
theorem Separates.cut_join {pieces : List Bytes} (some : pieces ≠ [])
    (h : ∀ piece ∈ pieces, IsPiece piece) (free : ∀ piece ∈ pieces, IsFreeOf c piece) :
    trimmedPieces (cutWhere cuts none (marks {} (Bytes.join separator pieces))) = pieces :=
  separates.trimmedPieces_join some h free isBlank_nil rfl none

end

/-! ## Pipelines -/

theorem isPipe_eq_false {m : Mark} (h : m.isTop Ascii.bar = false) (previous next : Option UInt8) :
    isPipe previous m next = false := by
  rw [isPipe, h]
  rfl

theorem separates_semicolon :
    Separates (fun _ m _ => m.isTop Ascii.semicolon) Ascii.semicolon [Ascii.semicolon] where
  visible := rfl
  only _ other _ _ := other
  cut {d text} rest previous free top := by
    refine ⟨[], [], some Ascii.semicolon, isBlank_nil, isBlank_nil, ?_⟩
    rw [marks_append_plain (by decide) (by decide) top, List.append_nil, List.nil_append]
    have cut : (Mark.mk [Ascii.semicolon] (d.read text) (d.read text)).isTop Ascii.semicolon =
        true := by
      rw [Mark.isTop, top]
      rfl
    show cutWhere _ previous (marks d text ++ ⟨[Ascii.semicolon], d.read text, d.read text⟩ ::
      marks (d.read text) rest) = _
    rw [cutWhere_append_cons (fun m mem _ _ => free m mem) cut, flatMap_taken_marks]
    rfl

/-- **What is joined with semicolons** is cut into just the pieces again. -/
theorem statements_join {pieces : List Bytes} (h : ∀ piece ∈ pieces, IsPiece piece)
    (free : ∀ piece ∈ pieces, IsFreeOf Ascii.semicolon piece) :
    statements (Bytes.join [Ascii.semicolon] pieces) = pieces := by
  cases pieces with
  | nil => rfl
  | cons piece pieces => exact separates_semicolon.cut_join (List.cons_ne_nil _ _) h free

end VirtualShell
