import VirtualShell.Proofs.Lexing.Splitting

/-!
# Bars in a pipeline

A bar cuts a pipeline unless a bar stands beside it. The byte beside it is taken as it is: in a part
of a chain a bar behind a bar at top level would have made an operator, so what stands before a bar
that does not cut is a bar behind a backslash (`atTopLevel_or_escape`). A part is cut at every bar
at top level just if there is no such place in it (`segments_isFreeOf_iff`).
-/

namespace VirtualShell

namespace Delimiters

/-! ## Where an escape comes from -/

/-- No escape waits to go back to an escape. -/
structure Steady (d : Delimiters) : Prop where
  resume : d.resume ≠ .escaped
  enclosing : .escaped ∉ d.enclosing

namespace Steady

variable {d : Delimiters} (h : d.Steady)
include h

theorem enter (admits : d.admitsSubstitution = true) : d.enter.Steady := by
  refine ⟨h.resume, ?_⟩
  rw [Delimiters.enter, List.mem_cons, not_or]
  refine ⟨fun escaped => ?_, h.enclosing⟩
  rw [admitsSubstitution, ← escaped] at admits
  cases admits

/-- A byte behind a backslash ends the escape, a backslash starts one, and nothing else has to do
with escapes. -/
theorem feed_cases (c : UInt8) :
    (d.state = .escaped ∧ d.feed c = { d with state := d.resume }) ∨
      (c = Ascii.backslash ∧ d.state ≠ .escaped ∧
        d.feed c = { d with state := .escaped, resume := d.state }) ∨
      ((d.feed c).state ≠ .escaped ∧ (d.feed c).resume = d.resume ∧
        ∀ outer ∈ (d.feed c).enclosing, outer ∈ .normal :: d.enclosing) := by
  have same (outer : LexState) (mem : outer ∈ d.enclosing) : outer ∈ .normal :: d.enclosing :=
    List.mem_cons_of_mem _ mem
  have normal : LexState.normal ≠ .escaped := by decide
  have single : LexState.singleQuoted ≠ .escaped := by decide
  have double : LexState.doubleQuoted ≠ .escaped := by decide
  rw [Delimiters.feed]
  cases state : d.state with
  | escaped => exact .inl ⟨rfl, rfl⟩
  | singleQuoted =>
    refine .inr (.inr ?_)
    dsimp only
    split
    · exact ⟨normal, rfl, same⟩
    · exact ⟨state ▸ single, rfl, same⟩
  | doubleQuoted =>
    dsimp only
    split
    next eq => exact .inr (.inl ⟨eq, double, rfl⟩)
    refine .inr (.inr ?_)
    split
    · exact ⟨normal, rfl, same⟩
    split
    · exact ⟨double, rfl, same⟩
    · exact ⟨state ▸ double, rfl, same⟩
  | normal =>
    dsimp only
    split
    next eq => exact .inr (.inl ⟨eq, normal, rfl⟩)
    refine .inr (.inr ?_)
    split
    · exact ⟨single, rfl, same⟩
    split
    · exact ⟨double, rfl, same⟩
    split
    · split
      · exact ⟨state ▸ normal, rfl, same⟩
      · exact ⟨normal, rfl, fun _ => id⟩
    split
    · -- the states around a substitution are those it was opened in
      split
      next => exact ⟨state ▸ normal, rfl, same⟩
      next outer others eq =>
        refine ⟨fun escaped => h.enclosing ?_, rfl, fun _ mem => ?_⟩
        · rw [eq, ← escaped]
          exact List.mem_cons_self
        · exact List.mem_cons_of_mem _ (eq ▸ List.mem_cons_of_mem _ mem)
    split
    · exact ⟨normal, rfl, same⟩
    · exact ⟨state ▸ normal, rfl, same⟩

theorem feed (c : UInt8) : (d.feed c).Steady := by
  rcases h.feed_cases c with ⟨-, eq⟩ | ⟨-, plain, eq⟩ | ⟨-, resume, enclosing⟩
  · exact eq ▸ ⟨h.resume, h.enclosing⟩
  · exact eq ▸ ⟨plain, h.enclosing⟩
  · refine ⟨resume ▸ h.resume, fun escaped => ?_⟩
    rcases List.mem_cons.1 (enclosing _ escaped) with eq | mem
    · cases eq
    · exact h.enclosing mem

theorem read (text : Bytes) : (d.read text).Steady := by
  induction d, text using readingInduction with
  | nil d => exact h
  | enter d rest admits ih =>
    rw [read_enter admits]
    exact ih (h.enter admits)
  | feed d c rest plain ih =>
    rw [read_cons plain]
    exact ih (h.feed c)

/-- Only a backslash starts an escape. -/
theorem feed_of_escaped {c : UInt8} (escaped : (d.feed c).state = .escaped) :
    c = Ascii.backslash ∧ d.feed c = { d with state := .escaped, resume := d.state } := by
  rcases h.feed_cases c with ⟨-, eq⟩ | ⟨backslash, -, eq⟩ | ⟨plain, -⟩
  · rw [eq] at escaped
    exact absurd escaped h.resume
  · exact ⟨backslash, eq⟩
  · exact absurd escaped plain

end Steady

/-- Within an escape a text ends in the backslash that started it. -/
theorem exists_backslash_of_escaped {text : Bytes}
    (escaped : (Delimiters.read {} text).state = .escaped) :
    ∃ before, text = before ++ [Ascii.backslash] ∧
      Delimiters.read {} text = { Delimiters.read {} before with
        state := .escaped, resume := (Delimiters.read {} before).state } := by
  have steady (text : Bytes) : (Delimiters.read {} text).Steady :=
    Steady.read ⟨by decide, by decide⟩ text
  rcases (marks {} text).eq_nil_or_concat with eq | ⟨others, last, eq⟩
  · rw [Delimiters.read, eq] at escaped
    cases escaped
  · rw [List.concat_eq_append] at eq
    have state := read_of_marks_concat eq
    obtain ⟨-, rest, -, -, step⟩ := marks_eq_cons (marks_eq_append eq).2
    have text_eq := eq_of_marks_eq eq
    rw [state] at escaped
    rcases step with ⟨c, taken, after, -⟩ | ⟨-, after, -⟩
    · rw [after] at escaped
      obtain ⟨rfl, fed⟩ := (steady _).feed_of_escaped escaped
      rw [taken] at text_eq
      exact ⟨_, text_eq, state.trans (after.trans fed)⟩
    · rw [after] at escaped
      cases escaped

theorem feed_bar {d : Delimiters} (h : d.state ≠ .escaped) : d.feed Ascii.bar = d := by
  cases state : d.state with
  | escaped => exact absurd state h
  | normal => exact feed_eq_self_of_isPlain state rfl
  | singleQuoted | doubleQuoted =>
    rw [feed, state]
    rfl

/-- **What stands before a byte at top level**, if it is a bar that is not at top level itself, is
escaped by a backslash there. -/
theorem atTopLevel_or_escape {text : Bytes}
    (top : (Delimiters.read {} (text ++ [Ascii.bar])).atTopLevel = true) :
    (Delimiters.read {} text).atTopLevel = true ∨
      ∃ before, text = before ++ [Ascii.backslash] ∧
        (Delimiters.read {} before).atTopLevel = true := by
  rw [read_concat (by decide)] at top
  by_cases escaped : (Delimiters.read {} text).state = .escaped
  · obtain ⟨before, text_eq, eq⟩ := exists_backslash_of_escaped escaped
    rw [eq] at top
    exact .inr ⟨before, text_eq, top⟩
  · rw [feed_bar escaped] at top
    exact .inl top

end Delimiters

/-! ## Bars that do not cut -/

/-- A bar behind a backslash at top level, and a bar behind that. -/
def escapedBar : Bytes := [Ascii.backslash, Ascii.bar, Ascii.bar]

/-- The steps that cut a pipeline are at top level. -/
theorem cutInto_runs_isPipe (text : Bytes) :
    CutInto (marks {} text) (runs isPipe none (marks {} text)) := by
  refine cutInto_runs (fun m mem previous next cut => ?_) none
  refine atTopLevel_after_of_mem (c := Ascii.bar) mem ?_ rfl
  cases top : m.isTop Ascii.bar with
  | true => rfl
  | false => cases (isPipe_eq_false top previous next).symm.trans cut

/-- Where no operator and no such place is in a text, no bar stands beside one at top level. -/
theorem isPipe_eq_isTop {text : Bytes} (noOperator : ¬ HasAtTop Connective.either.symbol text)
    (clear : ¬ HasAtTop escapedBar text) {before behind : List Mark} {m : Mark}
    (eq : marks {} text = before ++ m :: behind) :
    isPipe (byteBefore none before) m (byteBehind behind) = m.isTop Ascii.bar := by
  cases top : m.isTop Ascii.bar with
  | false => exact isPipe_eq_false top _ _
  | true =>
    have bar := top
    rw [Mark.isTop, Bool.and_eq_true, beq_iff_eq] at bar
    obtain ⟨taken, here⟩ := bar
    have text_eq := eq_of_marks_eq eq
    have next : byteBehind behind ≠ some Ascii.bar := by
      intro next
      obtain ⟨rest, behind_eq⟩ := exists_eq_cons_of_byteBehind next
      refine noOperator (hasAtTop_of_marks_eq rfl eq here ⟨rest, ?_⟩)
      rw [taken, behind_eq]
      rfl
    have previous : byteBefore none before ≠ some Ascii.bar := by
      intro previous
      obtain ⟨start, before_eq⟩ := exists_eq_concat_of_byteBefore previous
      rw [before_of_marks_eq eq, before_eq] at here
      rw [before_eq, taken] at text_eq
      rcases Delimiters.atTopLevel_or_escape here with above | ⟨escape, rfl, above⟩
      · refine noOperator ⟨start, ⟨behind.flatMap Mark.taken, ?_⟩, above⟩
        rw [text_eq, Connective.symbol_eq]
        simp [Connective.byte]
      · refine clear ⟨escape, ⟨behind.flatMap Mark.taken, ?_⟩, above⟩
        rw [text_eq]
        simp [escapedBar]
    simp [isPipe, top, next, previous]

/-- Such a place is read in three steps, the last of them at top level. -/
theorem marks_escapedBar {e : Delimiters} (top : e.atTopLevel = true) (behind : Bytes) :
    ∃ escape escaped bar : Mark, escaped.taken = [Ascii.bar] ∧ bar.isTop Ascii.bar = true ∧
      marks e (escapedBar ++ behind) = escape :: escaped :: bar :: marks bar.after behind := by
  have normal := Delimiters.state_of_atTopLevel top
  let e' := (e.feed Ascii.backslash).feed Ascii.bar
  have here : e'.atTopLevel = true := by
    show ((e.feed Ascii.backslash).feed Ascii.bar).atTopLevel = true
    rw [Delimiters.feed_backslash (.inl normal)]
    exact top
  refine ⟨⟨[Ascii.backslash], e, e.feed Ascii.backslash⟩,
    ⟨[Ascii.bar], e.feed Ascii.backslash, e'⟩, ⟨[Ascii.bar], e', e'.feed Ascii.bar⟩, rfl,
    by rw [Mark.isTop, here]; rfl, ?_⟩
  have other {c : UInt8} (h : c ≠ Ascii.dollar) (d : Delimiters) (rest : Bytes) :
      ¬ d.Opens c rest := fun opens => h opens.1
  show marks e (Ascii.backslash :: Ascii.bar :: Ascii.bar :: behind) = _
  rw [marks_cons (other (by decide) _ _), marks_cons (other (by decide) _ _),
    marks_cons (other (by decide) _ _)]

/-- A bar behind an escaped bar is left in a segment. -/
theorem exists_segment_of_escapedBar {text : Bytes} (h : HasAtTop escapedBar text) :
    ∃ segment ∈ segments text, ¬ IsFreeOf Ascii.bar segment := by
  obtain ⟨before, behind, top, eq⟩ := h.exists_marks_eq (e := {}) rfl fun _ first => by cases first
  obtain ⟨escape, escaped, bar, taken, here, place⟩ := marks_escapedBar top behind
  have split : marks {} text =
      (marks {} before ++ [escape] ++ [escaped]) ++ bar :: marks bar.after behind := by
    rw [eq, place]
    simp
  have stays : isPipe (byteBefore none (marks {} before ++ [escape] ++ [escaped])) bar
      (byteBehind (marks bar.after behind)) = false := by
    rw [byteBefore_concat, taken, isPipe]
    exact Bool.and_false _
  obtain ⟨run, mem, within⟩ := exists_mem_runs stays
  rw [← split] at mem
  obtain ⟨e, top, alone⟩ := (cutInto_runs_isPipe text).exists_marks_eq mem
  have hidden : ¬ IsFreeOf Ascii.bar (Bytes.trim (run.flatMap Mark.taken)) := by
    rw [isFreeOf_trim_iff rfl, isFreeOf_iff top, alone]
    intro free
    cases here.symm.trans (free bar within)
  refine ⟨_, mem_trimmedPieces.2 ⟨⟨_, ?_, rfl⟩, ?_⟩, hidden⟩
  · rw [rawSegments, cutWhere_eq_map_runs]
    exact List.mem_map_of_mem mem
  · intro empty
    rw [empty] at hidden
    exact hidden (by decide)

/-- **A part of a chain is cut at every bar** that stands in it at top level just if no escaped bar
stands there right before a bar. -/
theorem segments_isFreeOf_iff {statement : Bytes} {part : LogicPart}
    (h : part ∈ logicParts statement) :
    (∀ segment ∈ segments part.command, IsFreeOf Ascii.bar segment) ↔
      ¬ HasAtTop escapedBar part.command := by
  obtain ⟨-, -, noOperator⟩ := command_of_mem_logicParts h
  constructor
  · intro free stands
    obtain ⟨segment, mem, bar⟩ := exists_segment_of_escapedBar stands
    exact bar (free segment mem)
  · intro clear segment mem
    obtain ⟨⟨raw, cut, rfl⟩, -⟩ := mem_trimmedPieces.1 mem
    have same : rawSegments part.command =
        cutWhere (fun _ m _ => m.isTop Ascii.bar) none (marks {} part.command) :=
      cutWhere_congr fun _ _ _ eq => isPipe_eq_isTop (noOperator .either) clear eq
    exact (isFreeOf_trim_iff rfl).2 (isFreeOf_of_mem_cutWhere rfl (same ▸ cut))

/-- Bars in quotes, in a substitution and behind a backslash are no borders; each other one is. -/
theorem segments_isFreeOf_iff_of_quoted :
    let part : LogicPart := ⟨ascii "echo '|' a\\|b $(ls | wc)|cat \"|\"", none⟩
    part ∈ logicParts (ascii "echo '|' a\\|b $(ls | wc)|cat \"|\"") ∧
      segments part.command = [ascii "echo '|' a\\|b $(ls | wc)", ascii "cat \"|\""] ∧
      ∀ segment ∈ segments part.command, IsFreeOf Ascii.bar segment := by
  intro part
  have mem : part ∈ logicParts (ascii "echo '|' a\\|b $(ls | wc)|cat \"|\"") := by decide
  exact ⟨mem, by decide, (segments_isFreeOf_iff mem).2 (by decide)⟩

/-- An escaped bar hides the bar behind it. -/
theorem not_isFreeOf_of_escaped : ¬ ∀ statement, ∀ part ∈ logicParts statement,
    ∀ segment ∈ segments part.command, IsFreeOf Ascii.bar segment := fun h =>
  absurd (h (ascii "echo a\\||cat") ⟨ascii "echo a\\||cat", none⟩ (by decide)
    (ascii "echo a\\||cat") (by decide)) (by decide)

end VirtualShell
