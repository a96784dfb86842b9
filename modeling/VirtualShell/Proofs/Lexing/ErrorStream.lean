import VirtualShell.Proofs.Lexing.Bars
import VirtualShell.Proofs.Lexing.Lifting
import VirtualShell.Proofs.Lexing.Output

/-!
# Redirects of the error stream

A `2` with a `>` behind it names the error stream at the start of a word. What the reader looks at
is the one byte before it, and a word starts behind a separator unless that is a letter of the word
in progress. In quotes nothing is at top level, so it can be one behind a backslash only: there, and
only there, a place within a word is taken for the start of one (`errorStream_iff`).

* `Place.inStep`: without backticks and substitutions, what is kept is read alike for delimiters
  and for words.
* `WordScan.current_step_eq_none_iff`: where no word is in progress.
* `Place.covers`: a place of the segment is one that the reading comes to, or within a redirect.
* `Place.alike`: what is kept is read as the segment is, so that the places at top level are those
  of the segment (`Place.exists_place_or_target`).
-/

namespace VirtualShell

/-! ## Words in progress -/

namespace WordScan

variable {c : UInt8}

theorem current_flush (s : WordScan) : s.flush.current = none := by
  rw [flush]
  split
  · assumption
  · rfl

/-- Behind a byte that ends up outside quotes, no word is in progress just if the byte is a
separator outside quotes itself. -/
theorem current_step_eq_none_iff {before : Bytes}
    (outside : (read {} (before ++ [c])).state = .normal) :
    (read {} (before ++ [c])).current = none ↔
      isSeparator c = true ∧ (read {} before).state = .normal := by
  have quoted := @exists_current_of_quoted before
  rw [read_append] at outside ⊢
  generalize read {} before = s at outside quoted ⊢
  change (s.step c).state = .normal at outside
  change (s.step c).current = none ↔ _
  rw [step] at outside ⊢
  cases state : s.state with
  | escaped => simp [addQuoted]
  | singleQuoted =>
    obtain ⟨letters, current⟩ := quoted (.inl state)
    rw [state] at outside
    dsimp only at outside ⊢
    split
    · simp [current]
    · simp [addQuoted]
  | doubleQuoted =>
    obtain ⟨letters, current⟩ := quoted (.inr state)
    rw [state] at outside
    dsimp only at outside ⊢
    split
    · simp [current]
    split
    · simp [current]
    · simp [addQuoted]
  | normal =>
    rw [state] at outside
    dsimp only at outside ⊢
    split
    next separator => simp [separator, s.current_flush]
    next letter =>
      rw [if_neg letter] at outside
      split
      next escape =>
        rw [if_pos escape] at outside
        cases outside
      split
      · simp [openWord, letter]
      split
      · simp [openWord, letter]
      · simp [addUnquoted, letter]

/-- What leaves no quotes open, if it is no quote, was read outside them. -/
theorem state_of_separator {before : Bytes} (separator : isSeparator c = true)
    (outside : (read {} (before ++ [c])).state = .normal) :
    (read {} before).state = .normal ∨ (read {} before).state = .escaped := by
  have other {b : UInt8} (hb : isSeparator b = false) : c ≠ b := by
    rintro rfl
    cases separator.symm.trans hb
  rw [read_append] at outside
  generalize read {} before = s at outside ⊢
  change (s.step c).state = .normal at outside
  cases state : s.state with
  | escaped => exact .inr rfl
  | normal => exact .inl rfl
  | singleQuoted =>
    rw [step, state] at outside
    dsimp only at outside
    rw [if_neg (other rfl)] at outside
    cases state.symm.trans outside
  | doubleQuoted =>
    rw [step, state] at outside
    dsimp only at outside
    rw [if_neg (other rfl), if_neg (other rfl)] at outside
    cases state.symm.trans outside

end WordScan

/-- A separator behind a backslash at top level ends the text. -/
def EndsEscaped (text : Bytes) : Prop :=
  ∃ before c, text = before ++ [Ascii.backslash, c] ∧ isSeparator c = true ∧
    (Delimiters.read {} before).atTopLevel = true

instance (text : Bytes) : Decidable (EndsEscaped text) :=
  decidable_of_iff (∃ before ∈ text.inits, ∃ c ∈ text, text = before ++ [Ascii.backslash, c] ∧
      isSeparator c = true ∧ (Delimiters.read {} before).atTopLevel = true)
    ⟨fun ⟨before, _, c, _, h⟩ => ⟨before, c, h⟩, fun ⟨before, c, eq, h⟩ =>
      ⟨before, (List.mem_inits _ _).2 ⟨_, eq.symm⟩, c, by simp [eq], eq, h⟩⟩

theorem endsEscaped_concat_iff {text : Bytes} {c : UInt8}
    (top : (Delimiters.read {} (text ++ [c])).atTopLevel = true) :
    EndsEscaped (text ++ [c]) ↔
      isSeparator c = true ∧ (Delimiters.read {} text).state = .escaped := by
  constructor
  · rintro ⟨before, c', eq, separator, above⟩
    have eq : text ++ [c] = (before ++ [Ascii.backslash]) ++ [c'] := by simp [eq]
    obtain ⟨rfl, last⟩ := List.append_inj' eq rfl
    obtain rfl := List.singleton_inj.1 last
    refine ⟨separator, ?_⟩
    rw [Delimiters.read_concat (by decide),
      Delimiters.feed_backslash (.inl (Delimiters.state_of_atTopLevel above))]
  · rintro ⟨separator, escaped⟩
    have noParen : c ≠ Ascii.openParen := by
      rintro rfl
      cases separator
    obtain ⟨before, rfl, state⟩ := Delimiters.exists_backslash_of_escaped escaped
    rw [Delimiters.read_concat noParen, state] at top
    exact ⟨before, c, by simp, separator, top⟩

/-! ## Readers in step -/

/-- Text in which delimiters and words are read alike. -/
structure NoSubstitution (text : Bytes) : Prop where
  noBacktick : Ascii.backtick ∉ text
  noOpener : ¬ ascii "$(" <:+: text

/-- What a space takes the place of could not have opened anything. -/
theorem NoSubstitution.replace {before taken behind : Bytes}
    (h : NoSubstitution (before ++ (taken ++ behind))) :
    NoSubstitution (before ++ Ascii.space :: behind) := by
  obtain ⟨noBacktick, noOpener⟩ := h
  refine ⟨fun mem => noBacktick ?_, fun ⟨start, rest, eq⟩ => noOpener ?_⟩
  · rcases List.mem_append.1 mem with mem | mem
    · exact List.mem_append_left _ mem
    · have mem := List.mem_of_ne_of_mem (by decide) mem
      exact List.mem_append_right _ (List.mem_append_right _ mem)
  · have opener : ascii "$(" = [Ascii.dollar, Ascii.openParen] := rfl
    rw [opener, List.append_assoc] at eq
    rw [opener]
    rcases List.append_eq_append_iff.1 eq with ⟨others, rfl, here⟩ | ⟨others, rfl, here⟩
    · -- the space would be one of the two bytes, or it stands behind them
      rcases others with _ | ⟨x, _ | ⟨y, others⟩⟩
      · cases here
      · cases here
      · obtain ⟨rfl, second⟩ := List.cons.inj here
        obtain ⟨rfl, -⟩ := List.cons.inj second
        exact ⟨start, others ++ (taken ++ behind), by simp⟩
    · rcases others with _ | ⟨x, others⟩
      · cases here
      · obtain ⟨-, rfl⟩ := List.cons.inj here
        exact ⟨before ++ (taken ++ others), rest, by simp⟩

namespace Place

variable {p q : Place} {segment before : Bytes} {r : Redirection} {behind rest : Bytes} {c : UInt8}

theorem noSubstitution (h : NoSubstitution segment) (leads : Leads (start segment) p) :
    NoSubstitution (p.kept ++ p.rest) := by
  induction leads with
  | refl => exact h
  | tail _ step ih =>
    cases step with
    | lift stands =>
      rw [stands.rest] at ih
      rw [lift, List.append_assoc]
      exact ih.replace
    | keep _ here =>
      rw [here] at ih
      rw [keep, List.append_assoc]
      exact ih

theorem inStep (h : NoSubstitution segment) (leads : Leads (start segment) p) :
    p.delimiters.InStep (WordScan.read {} p.kept) := by
  obtain ⟨noBacktick, noOpener⟩ := noSubstitution h leads
  exact Delimiters.InStep.read ⟨rfl, rfl, rfl, rfl⟩
    (fun mem => noBacktick (List.mem_append_left _ mem))
    (fun within => noOpener (within.trans (List.prefix_append _ _).isInfix))

theorem state_read_kept (h : NoSubstitution segment) (leads : Leads (start segment) p)
    (top : p.delimiters.atTopLevel = true) : (WordScan.read {} p.kept).state = .normal :=
  (inStep h leads).state.symm.trans (Delimiters.state_of_atTopLevel top)

/-! ## All places of a segment -/

/-- Each place of the text that has been read is one that the reading came to, or lies within a
redirect. -/
theorem covers (h : Leads (start segment) q) (within : before <+: q.before) :
    (∃ p, Leads (start segment) p ∧ p.before = before) ∨
      ∃ p r behind inside outside, Leads (start segment) p ∧ p.Stands r behind ∧
        before = p.before ++ inside ∧ r.text = inside ++ outside ∧ inside ≠ [] ∧ outside ≠ [] := by
  induction h with
  | refl => exact .inl ⟨_, .refl, (List.prefix_nil.1 within).symm⟩
  | @tail p q leads step ih =>
    cases step with
    | @lift r behind stands =>
      obtain ⟨outside, eq⟩ := within
      rcases List.append_eq_append_iff.1 eq with ⟨others, here, -⟩ | ⟨inside, rfl, here⟩
      · exact ih ⟨others, here.symm⟩
      by_cases first : inside = []
      · exact ih (by simp [first])
      by_cases last : outside = []
      · exact .inl ⟨_, leads.tail (.lift stands), by simp [lift, here, last]⟩
      · exact .inr ⟨p, r, behind, inside, outside, leads, stands, rfl, here, first, last⟩
    | keep none here =>
      rcases List.prefix_concat_iff.1 within with rfl | within
      · exact .inl ⟨_, leads.tail (.keep none here), rfl⟩
      · exact ih within

/-- The bytes before a target change nothing that is open. -/
theorem Stands.read_target (h : p.Stands r behind) (source : Bytes) :
    Delimiters.read {} (p.kept ++ (r.kind.symbol ++ (r.gap ++ source))) =
      p.delimiters.read source := by
  have symbol : IsPlain r.kind.symbol := fun c mem => (RedirectKind.isPlain_symbol mem).symm
  have gap : IsPlain r.gap := by
    intro c mem
    have blank := h.reaches.gap c mem
    simp only [Bool.or_eq_true, beq_iff_eq] at blank
    rcases blank with rfl | rfl <;> decide
  have top := h.atTopLevel
  rw [Delimiters.read_append (symbol.head?_append_ne r.kind.symbol_ne_nil _), ← delimiters,
    symbol.read_append top, gap.read_append top]

theorem Stands.delimiters_lift (h : p.Stands r behind) :
    (p.lift r behind).delimiters = p.delimiters := by
  rw [delimiters, lift, Delimiters.read_concat (by decide)]
  exact Delimiters.feed_eq_self_of_atTopLevel h.atTopLevel rfl

/-- The segment and what is kept of it are read alike, until it ends in a target. -/
theorem alike (h : Leads (start segment) p) (more : p.rest ≠ []) :
    ∀ after : Bytes, (after.head? = some Ascii.openParen → p.rest.head? = some Ascii.openParen) →
      (Delimiters.read {} (p.before ++ after)).Alike (Delimiters.read {} (p.kept ++ after)) := by
  induction h with
  | refl => exact fun _ _ => .refl _
  | @tail p q leads step ih =>
    cases step with
    | @lift r behind stands =>
      intro after border
      have closed : (Delimiters.read {} r.source).atTopLevel = true := by
        rcases stands.reaches.stops with none | ⟨c, -, ends⟩
        · exact absurd none more
        · exact (Bool.and_eq_true_iff.1 ends).1
      have there := stands.read_target r.source
      have same := ih (by simp [stands.rest, r.text_ne_nil]) r.text (by
        rw [stands.rest, List.head?_append_of_ne_nil _ r.text_ne_nil]
        exact id)
      have above : (p.lift r behind).delimiters.atTopLevel = true := by
        rw [stands.delimiters_lift, stands.atTopLevel]
      have top : (Delimiters.read {} (p.before ++ r.text)).atTopLevel = true := by
        rw [← same.atTopLevel, Redirection.text, there,
          Delimiters.atTopLevel_read stands.atTopLevel, closed]
      have noParen : after.head? ≠ some Ascii.openParen := fun first =>
        stands.reaches.head?_ne_openParen (border first)
      have both := (Delimiters.Alike.of_atTopLevel top above).read after
      rw [delimiters, ← Delimiters.read_append noParen, ← Delimiters.read_append noParen] at both
      exact both
    | keep none here =>
      intro after border
      have whole := ih (by simp [here]) (_ :: after) (by rw [here]; exact id)
      rw [keep, List.append_assoc, List.append_assoc]
      exact whole

/-! ## Descriptors -/

/-- A redirect of the error stream is read here. -/
def ReadsError (p : Place) : Prop :=
  ∃ r behind, p.Stands r behind ∧ (r.kind = .error ∨ r.kind = .errorAppend)

/-- The `2` here is kept, as the next byte of the word in progress, and the `>` behind it redirects
the output. -/
structure JoinsWord (p : Place) (after : Bytes) : Prop where
  step : Step p (p.keep Ascii.two (Ascii.greater :: after))
  word : ∃ letters, (WordScan.read {} p.kept).current = some letters ∧
    (WordScan.read {} (p.kept ++ [Ascii.two])).current = some (Ascii.two :: letters)
  output : ∃ r behind, (p.keep Ascii.two (Ascii.greater :: after)).Stands r behind ∧
    r.kind.isOutput = true

section

variable {after : Bytes} (here : p.rest = ascii "2>" ++ after)
  (top : p.delimiters.atTopLevel = true)
include here top

/-- The byte before it decides. -/
theorem operator?_descriptor :
    p.operator? =
      if p.before.getLast?.all isSeparator then
        some (if after.head? = some Ascii.greater then .errorAppend else .error)
      else none := by
  have here : p.rest = Ascii.two :: Ascii.greater :: after := here
  have noAngle : Ascii.two ≠ Ascii.greater ∧ Ascii.two ≠ Ascii.less := by decide
  rw [operator?, if_pos top, here, RedirectKind.read?_cons, if_neg noAngle.1, if_neg noAngle.2]
  by_cases apart : p.before.getLast?.all isSeparator = true
  · rw [if_pos ⟨rfl, rfl, apart⟩, if_pos apart]
    rfl
  · rw [if_neg fun descriptor => apart descriptor.2.2, if_neg apart]

theorem readsError_iff_separator :
    p.ReadsError ↔ p.before.getLast?.all isSeparator = true := by
  have operator := operator?_descriptor here top
  constructor
  · rintro ⟨r, behind, stands, -⟩
    by_contra inside
    rw [if_neg inside, stands.operator] at operator
    cases operator
  · intro apart
    rw [if_pos apart] at operator
    obtain ⟨r, behind, kind, stands⟩ := exists_stands operator
    refine ⟨r, behind, stands, ?_⟩
    rw [kind]
    split
    · exact .inr rfl
    · exact .inl rfl

/-- A target would have gone on with the `2`. -/
theorem eq_start_or_keep (leads : Leads (start segment) p) :
    p = start segment ∨
      ∃ q c, Leads (start segment) q ∧ p = q.keep c (ascii "2>" ++ after) := by
  rcases leads.cases_tail with rfl | ⟨q, before, step⟩
  · exact .inl rfl
  · cases step with
    | lift stands =>
      rcases stands.reaches.stops with none | ⟨c, first, ends⟩
      · cases none.symm.trans here
      · obtain rfl : Ascii.two = c := Option.some.inj ((congrArg List.head? here).symm.trans first)
        cases (Bool.and_eq_true_iff.1 ends).2
    | keep _ _ =>
      obtain rfl : _ = ascii "2>" ++ after := here
      exact .inr ⟨q, _, before, rfl⟩

theorem readsError_iff (h : NoSubstitution segment) (leads : Leads (start segment) p) :
    (p.ReadsError ↔ (WordScan.read {} p.kept).current = none ∨ EndsEscaped p.kept) ∧
      (EndsEscaped p.kept → (WordScan.read {} p.kept).current ≠ none) := by
  rw [readsError_iff_separator here top]
  rcases eq_start_or_keep here top leads with rfl | ⟨q, c, before, rfl⟩
  · refine ⟨iff_of_true rfl (.inl rfl), ?_⟩
    rintro ⟨text, c, nothing, -⟩
    simp [start] at nothing
  · have there := (inStep h before).state
    have outside : (WordScan.read {} (q.kept ++ [c])).state = .normal :=
      state_read_kept h leads top
    have last : (q.before ++ [c]).getLast?.all isSeparator = isSeparator c := by simp
    change ((q.before ++ [c]).getLast?.all isSeparator = true ↔
        (WordScan.read {} (q.kept ++ [c])).current = none ∨ EndsEscaped (q.kept ++ [c])) ∧
      (EndsEscaped (q.kept ++ [c]) → (WordScan.read {} (q.kept ++ [c])).current ≠ none)
    rw [last, ne_eq, WordScan.current_step_eq_none_iff outside, endsEscaped_concat_iff top,
      ← delimiters, there]
    refine ⟨⟨fun separator => ?_, ?_⟩, ?_⟩
    · exact (WordScan.state_of_separator separator outside).imp (⟨separator, ·⟩) (⟨separator, ·⟩)
    · rintro (⟨separator, -⟩ | ⟨separator, -⟩) <;> exact separator
    · rintro ⟨-, escaped⟩ ⟨-, normal⟩
      cases escaped.symm.trans normal

/-- A `2` that does not name the error stream belongs to the word before it. -/
theorem joinsWord_of_not_readsError (h : NoSubstitution segment) (leads : Leads (start segment) p)
    (other : ¬ p.ReadsError) : p.JoinsWord after := by
  have inside := (readsError_iff here top h leads).1.not.1 other
  rw [readsError_iff_separator here top] at other
  have none := operator?_descriptor here top
  rw [if_neg other] at none
  have plain : p.delimiters.feed Ascii.two = p.delimiters :=
    Delimiters.feed_eq_self_of_atTopLevel top rfl
  have above : (p.keep Ascii.two (Ascii.greater :: after)).delimiters.atTopLevel = true := by
    rw [delimiters, keep, Delimiters.read_concat (by decide), ← delimiters, plain, top]
  refine ⟨.keep none here, ?_, ?_⟩
  · obtain ⟨letters, current⟩ := Option.ne_none_iff_exists'.1 (not_or.1 inside).1
    refine ⟨letters, current, ?_⟩
    rw [WordScan.read_append]
    have letter : (WordScan.read {} p.kept).step Ascii.two =
        (WordScan.read {} p.kept).addUnquoted Ascii.two := by
      rw [WordScan.step, state_read_kept h leads top]
      rfl
    change ((WordScan.read {} p.kept).step Ascii.two).current = _
    rw [letter, WordScan.addUnquoted, current]
    rfl
  · have operator : (p.keep Ascii.two (Ascii.greater :: after)).operator? =
        some (if after.head? = some Ascii.greater then .append else .output) := by
      rw [operator?, if_pos above, keep, RedirectKind.read?_cons,
        if_neg fun descriptor => absurd descriptor.1 (by decide)]
      rfl
    obtain ⟨r, behind, kind, stands⟩ := exists_stands operator
    refine ⟨r, behind, stands, ?_⟩
    rw [kind]
    split <;> rfl

end

/-! ## Descriptors in targets -/

/-- A `2` within a redirect that does not start it is in the target. -/
theorem Stands.exists_source {inside others : Bytes} (h : p.Stands r behind)
    (text : r.text = inside ++ Ascii.two :: others) (some : inside ≠ []) :
    ∃ source, inside = r.kind.symbol ++ (r.gap ++ source) ∧
      r.source = source ++ Ascii.two :: others := by
  have noSymbol : Ascii.two ∉ r.kind.symbol.tail := by cases r.kind <;> decide
  have noGap : Ascii.two ∉ r.gap := fun mem => by cases h.reaches.gap _ mem
  have behindSymbol : ∃ rest, inside = r.kind.symbol ++ rest ∧
      r.gap ++ r.source = rest ++ Ascii.two :: others := by
    rcases List.append_eq_append_iff.1 text with ⟨rest, eq, here⟩ | ⟨rest, eq, here⟩
    · exact ⟨rest, eq, here⟩
    · cases rest with
      | nil => exact ⟨[], by simp [eq], here.symm⟩
      | cons c rest =>
        obtain ⟨first, inside, rfl⟩ := List.exists_cons_of_ne_nil some
        obtain ⟨rfl, -⟩ := List.cons.inj here
        exact absurd (by simp [eq]) noSymbol
  obtain ⟨rest, rfl, eq⟩ := behindSymbol
  rcases List.append_eq_append_iff.1 eq with ⟨source, rfl, here⟩ | ⟨source, gap, here⟩
  · exact ⟨source, rfl, here⟩
  · cases source with
    | nil => exact ⟨[], by simp [gap], here.symm⟩
    | cons c source =>
      obtain ⟨rfl, -⟩ := List.cons.inj here
      exact absurd (by simp [gap]) noGap

/-- No angle bracket stands in a target at top level. -/
theorem Stands.not_hasAtTop_source (h : p.Stands r behind) :
    ¬ HasAtTop [Ascii.greater] r.source := by
  rw [← isFreeOf_iff_not_hasAtTop (by decide) (by decide)]
  intro m mem
  have stays := h.reaches.whole m mem
  cases top : m.isTop Ascii.greater with
  | false => rfl
  | true =>
    rw [Mark.isTop, Bool.and_eq_true, beq_iff_eq] at top
    rw [endsTarget, top.1, top.2] at stays
    cases stays

/-- In front of a target everything is as it is at the start of a text. -/
theorem Stands.atTopLevel_source (leads : Leads (start segment) p) (h : p.Stands r behind)
    (source : Bytes) :
    (Delimiters.read {} source).atTopLevel =
      (Delimiters.read {} (p.before ++ (r.kind.symbol ++ (r.gap ++ source)))).atTopLevel := by
  have rest : p.rest ≠ [] := by simp [h.rest, r.text_ne_nil]
  have same := alike leads rest (r.kind.symbol ++ (r.gap ++ source)) (by
    rw [h.rest, Redirection.text, List.append_assoc,
      List.head?_append_of_ne_nil _ r.kind.symbol_ne_nil,
      List.head?_append_of_ne_nil _ r.kind.symbol_ne_nil]
    exact id)
  rw [h.read_target] at same
  rw [← same.atTopLevel, Delimiters.atTopLevel_read h.atTopLevel]

/-- **Every `2>` of the segment that stands at top level** is a place that the reading comes to, or
the `2` ends the target before the `>`. -/
theorem exists_place_or_target {after : Bytes} (split : before ++ (ascii "2>" ++ after) = segment)
    (top : (Delimiters.read {} before).atTopLevel = true) :
    (∃ p, Leads (start segment) p ∧ p.before = before ∧ p.rest = ascii "2>" ++ after ∧
        p.delimiters.atTopLevel = true) ∨
      ∃ p r source, Leads (start segment) p ∧ p.Stands r (Ascii.greater :: after) ∧
        r.source = source ++ [Ascii.two] ∧
        before = p.before ++ (r.kind.symbol ++ (r.gap ++ source)) := by
  have ends := leads_end_iff.2 (Eq.refl (liftRedirects segment))
  rcases covers ends (split ▸ List.prefix_append before _) with
    ⟨p, leads, rfl⟩ | ⟨p, r, behind, inside, outside, leads, stands, rfl, text, some, more⟩
  · have rest : p.rest = ascii "2>" ++ after :=
      List.append_cancel_left ((before_append_rest leads).trans split.symm)
    have same := alike leads (by simp [rest, ascii]) [] (fun nothing => by cases nothing)
    rw [List.append_nil, List.append_nil, ← delimiters] at same
    exact .inl ⟨p, leads, rfl, rest, same.atTopLevel.trans top⟩
  · right
    have rest : outside ++ behind = Ascii.two :: Ascii.greater :: after := by
      have whole := before_append_rest leads
      rw [stands.rest, text, ← split, List.append_assoc, List.append_assoc] at whole
      exact List.append_cancel_left (List.append_cancel_left whole)
    obtain ⟨two, others, rfl⟩ := List.exists_cons_of_ne_nil more
    obtain ⟨rfl, next⟩ := List.cons.inj rest
    obtain ⟨source, rfl, target⟩ := stands.exists_source text some
    have above := stands.atTopLevel_source leads source
    rw [top] at above
    cases others with
    | nil =>
      obtain rfl : behind = Ascii.greater :: after := next
      exact ⟨p, r, source, leads, stands, target, rfl⟩
    | cons c others =>
      -- the target would have ended in front of the `>`
      obtain ⟨rfl, -⟩ := List.cons.inj next
      refine absurd ⟨source ++ [Ascii.two], ⟨others, by simp [target]⟩, ?_⟩
        stands.not_hasAtTop_source
      rw [Delimiters.read_concat (by decide), Delimiters.feed_eq_self_of_atTopLevel above rfl,
        above]

end Place

/-! ## The start of a word -/

/-- **Where `2>` names the error stream**, in a segment without backticks and substitutions: at
each place that the reading comes to just if no word is in progress in the text kept so far, or if
that ends in an escaped separator, though it is part of a word then. Anywhere else the `2` belongs
to the word before it, and the `>` redirects the output. All others of the segment at top level are
at the end of a target. -/
theorem errorStream_iff {segment : Bytes} (noBacktick : Ascii.backtick ∉ segment)
    (noSubstitution : ¬ ascii "$(" <:+: segment) :
    (∀ p after, Place.Leads (.start segment) p → p.rest = ascii "2>" ++ after →
      p.delimiters.atTopLevel = true →
        (p.ReadsError ↔ (WordScan.read {} p.kept).current = none ∨ EndsEscaped p.kept) ∧
        (EndsEscaped p.kept → (WordScan.read {} p.kept).current ≠ none) ∧
        (¬ p.ReadsError → p.JoinsWord after)) ∧
    ∀ before after, before ++ (ascii "2>" ++ after) = segment →
      (Delimiters.read {} before).atTopLevel = true →
        (∃ p, Place.Leads (.start segment) p ∧ p.before = before ∧ p.rest = ascii "2>" ++ after ∧
          p.delimiters.atTopLevel = true) ∨
        ∃ p r source, Place.Leads (.start segment) p ∧ p.Stands r (Ascii.greater :: after) ∧
          r.source = source ++ [Ascii.two] ∧
          before = p.before ++ (r.kind.symbol ++ (r.gap ++ source)) := by
  have h : NoSubstitution segment := ⟨noBacktick, noSubstitution⟩
  refine ⟨fun p after leads here top => ?_, fun before after split top =>
    Place.exists_place_or_target split top⟩
  obtain ⟨reads, escaped⟩ := Place.readsError_iff here top h leads
  exact ⟨reads, escaped, Place.joinsWord_of_not_readsError here top h leads⟩

/-- A `2` at the end of a word with an escaped separator further before it. -/
theorem errorStream_iff_of_word :
    let segment := ascii "echo a\\ x2>f"
    let p : Place := ⟨ascii "echo a\\ x", ascii "2>f", ascii "echo a\\ x", []⟩
    (Ascii.backtick ∉ segment ∧ ¬ ascii "$(" <:+: segment) ∧ Place.Leads (.start segment) p ∧
      ¬ p.ReadsError ∧ p.JoinsWord (ascii "f") := by
  intro segment p
  have noBacktick : Ascii.backtick ∉ segment := by decide
  have noSubstitution : ¬ ascii "$(" <:+: segment := by decide
  have leads : Place.Leads (.start segment) p :=
    Place.leads_plain (.start segment) (ascii "echo a\\ x") _ rfl (by decide +kernel)
  obtain ⟨reads, -, joins⟩ := (errorStream_iff noBacktick noSubstitution).1 p (ascii "f") leads rfl
    (by decide)
  have other : ¬ p.ReadsError := mt reads.1 (by decide)
  exact ⟨⟨noBacktick, noSubstitution⟩, leads, other, joins other⟩

/-- Behind an escaped space the `2` is part of a word, and is taken for the start of one. -/
theorem not_errorStream_iff : ¬ ∀ segment : Bytes, Ascii.backtick ∉ segment →
    ¬ ascii "$(" <:+: segment → ∀ p after, Place.Leads (.start segment) p →
      p.rest = ascii "2>" ++ after → p.delimiters.atTopLevel = true →
        (p.ReadsError ↔ (WordScan.read {} p.kept).current = none) := by
  intro claim
  let text := ascii "echo a\\ "
  let p : Place := ⟨text, ascii "2>/tmp/f", text, []⟩
  have leads : Place.Leads (.start (ascii "echo a\\ 2>/tmp/f")) p :=
    Place.leads_plain (.start (ascii "echo a\\ 2>/tmp/f")) text _ rfl (by decide +kernel)
  have top : p.delimiters.atTopLevel = true := by decide
  have reads : p.ReadsError := (Place.readsError_iff_separator rfl top).2 (by decide)
  have none := (claim _ (by decide) (by decide) p (ascii "/tmp/f") leads rfl top).1 reads
  exact absurd none (by decide)

end VirtualShell
