import Mathlib.Logic.Relation
import VirtualShell.Proofs.Lexing.Redirect
import VirtualShell.Proofs.Lexing.Words

/-!
# Lifting redirects out of a segment

A segment is read from left to right. What is open at a place is what the text kept so far leaves
open; an operator that stands there at top level is taken with its target, and any other byte is
kept (`Place.Step`).

* `Redirection.Reaches`: how far a target goes, said of the text alone. There is always one such
  target (`exists_reaches`), and it is the one that the reader finds (`targetAt_eq`).
* `Place.leads_end_iff`: the steps lead from the start of a segment to its end, and there to what is
  lifted out of it.
* `Place.not_hasAtTop_kept`: what is kept has no operator at top level, so that nothing is lifted
  out of it again.
* `redirects_complete`: reading fails just at an operator without a target.
-/

namespace VirtualShell

/-! ## Redirects in a text -/

theorem RedirectKind.symbol_ne_nil (kind : RedirectKind) : kind.symbol ≠ [] := by
  cases kind <;> exact List.cons_ne_nil _ _

/-- A redirect as it is written: the operator, blanks and the text of the target. -/
structure Redirection where
  kind : RedirectKind
  gap : Bytes
  source : Bytes
  deriving DecidableEq

namespace Redirection

def text (r : Redirection) : Bytes := r.kind.symbol ++ (r.gap ++ r.source)

def raw (r : Redirection) : RawRedirect := ⟨r.kind, r.source⟩

/-- The redirect reaches up to what stands behind it: the blanks are all there are, and the target
goes on until a byte at top level ends it. -/
structure Reaches (r : Redirection) (behind : Bytes) : Prop where
  gap : ∀ c ∈ r.gap, (c == Ascii.space || c == Ascii.tab) = true
  start : ∀ c ∈ (r.source ++ behind).head?, (c == Ascii.space || c == Ascii.tab) = false
  whole : ∀ m ∈ marks {} r.source, endsTarget m = false
  stops : behind = [] ∨ ∃ c ∈ behind.head?, (Delimiters.read {} r.source).endsTargetAt c = true

variable {r r' : Redirection} {behind behind' : Bytes}

theorem text_ne_nil (r : Redirection) : r.text ≠ [] :=
  List.append_ne_nil_of_left_ne_nil r.kind.symbol_ne_nil _

theorem Reaches.head?_ne_openParen (h : r.Reaches behind) :
    behind.head? ≠ some Ascii.openParen := by
  intro first
  rcases h.stops with rfl | ⟨c, mem, ends⟩
  · cases first
  · obtain rfl : c = Ascii.openParen := Option.some.inj (mem.symm.trans first)
    cases (Bool.and_eq_true_iff.1 ends).2

/-- The target behind an operator is found as far as it reaches. -/
theorem targetAt_eq (h : r.Reaches behind) :
    targetAt (r.gap ++ (r.source ++ behind)) = (r.source, (r.gap ++ r.source).length) := by
  have blanks : (r.gap ++ (r.source ++ behind)).takeWhile
      (fun c => c == Ascii.space || c == Ascii.tab) = r.gap := by
    rw [List.takeWhile_append_of_pos h.gap]
    cases following : r.source ++ behind with
    | nil => rw [List.takeWhile_nil, List.append_nil]
    | cons c rest =>
      have start := h.start c (by rw [following]; rfl)
      rw [List.takeWhile_cons_of_neg (by simp [start]), List.append_nil]
  have source : (marks {} (r.source ++ behind)).takeWhile (fun m => !endsTarget m) =
      marks {} r.source := by
    rw [marks_append h.head?_ne_openParen,
      List.takeWhile_append_of_pos fun m mem => by rw [h.whole m mem]; rfl]
    rcases h.stops with rfl | ⟨c, first, ends⟩
    · exact List.append_nil _
    · obtain ⟨rest, rfl⟩ := List.head?_eq_some_iff.1 first
      have plain : ¬ (Delimiters.read {} r.source).Opens c rest := by
        rintro ⟨rfl, -, -⟩
        cases (Bool.and_eq_true_iff.1 ends).2
      have stops : ∀ after, endsTarget ⟨[c], Delimiters.read {} r.source, after⟩ = true :=
        fun _ => ends
      rw [marks_cons plain, List.takeWhile_cons_of_neg (by simp [stops]), List.append_nil]
  rw [targetAt, blanks]
  simp only [List.drop_left, source, flatMap_taken_marks, List.length_append]

/-- Behind every operator there is a target, though perhaps nothing is in it. -/
theorem exists_reaches (kind : RedirectKind) (text : Bytes) :
    ∃ r : Redirection, ∃ behind, r.kind = kind ∧ text = r.gap ++ (r.source ++ behind) ∧
      r.Reaches behind := by
  let isBlank : UInt8 → Bool := fun c => c == Ascii.space || c == Ascii.tab
  let steps := marks {} (text.dropWhile isBlank)
  let taken := steps.takeWhile (fun m => !endsTarget m)
  let others := steps.dropWhile (fun m => !endsTarget m)
  have whole : marks {} (text.dropWhile isBlank) = taken ++ others :=
    (List.takeWhile_append_dropWhile ..).symm
  have split : text.dropWhile isBlank = taken.flatMap Mark.taken ++ others.flatMap Mark.taken := by
    rw [← flatMap_taken_marks {} (text.dropWhile isBlank), whole, List.flatMap_append]
  have alone := (marks_eq_append whole).1
  refine ⟨⟨kind, text.takeWhile isBlank, taken.flatMap Mark.taken⟩, others.flatMap Mark.taken, rfl,
    ?_, ?_, ?_, ?_, ?_⟩
  · rw [← split, List.takeWhile_append_dropWhile]
  · intro c mem
    have blank : isBlank c = true := List.mem_takeWhile_imp mem
    exact blank
  · intro c first
    rw [← split] at first
    have stops := List.head?_dropWhile_not isBlank text
    rw [first] at stops
    exact stops
  · intro m mem
    rw [alone] at mem
    simpa using List.mem_takeWhile_imp mem
  · cases ends : others with
    | nil => exact .inl rfl
    | cons m behind =>
      have stops := List.head?_dropWhile_not (fun m => !endsTarget m) steps
      rw [show steps.dropWhile (fun m => !endsTarget m) = m :: behind from ends] at stops
      have stops : endsTarget m = true := by simpa using stops
      rw [ends] at whole
      have place := before_of_marks_eq whole
      rw [endsTarget, place, Bool.and_eq_true] at stops
      obtain ⟨top, ends⟩ := stops
      split at ends
      next c rest eq =>
        exact .inr ⟨c, by rw [List.flatMap_cons, eq]; rfl, Bool.and_eq_true_iff.2 ⟨top, ends⟩⟩
      next => cases ends

/-- There is no other. -/
theorem Reaches.unique (h : r.Reaches behind) (h' : r'.Reaches behind') (kind : r.kind = r'.kind)
    (same : r.text ++ behind = r'.text ++ behind') : r = r' ∧ behind = behind' := by
  have following : r.gap ++ (r.source ++ behind) = r'.gap ++ (r'.source ++ behind') := by
    simpa [text, kind] using same
  have target := targetAt_eq h
  rw [following, targetAt_eq h'] at target
  obtain ⟨source, length⟩ := Prod.mk.inj target
  have gaps : r.gap.length = r'.gap.length := by
    simp only [source, List.length_append] at length
    omega
  obtain ⟨gap, rest⟩ := List.append_inj following gaps
  rw [source] at rest
  refine ⟨?_, List.append_cancel_left rest⟩
  cases r
  cases r'
  simp_all

end Redirection

/-! ## Reading from left to right -/

/-- A place in a segment: the text before it and behind it, and what there is of the text before
it, kept and lifted out. -/
structure Place where
  before : Bytes
  rest : Bytes
  kept : Bytes
  redirects : List RawRedirect

namespace Place

variable {p q q' : Place} {segment : Bytes} {r r' : Redirection} {behind behind' rest : Bytes}
  {c : UInt8}

def start (segment : Bytes) : Place := ⟨[], segment, [], []⟩

/-- What is open: a redirect leaves it as it is, and so does the space in its place. -/
def delimiters (p : Place) : Delimiters := Delimiters.read {} p.kept

/-- The operator that stands here at top level. -/
def operator? (p : Place) : Option RedirectKind :=
  if p.delimiters.atTopLevel then RedirectKind.read? (p.before.getLast?.all isSeparator) p.rest
  else none

/-- A redirect stands here, and reaches up to `behind`. -/
structure Stands (p : Place) (r : Redirection) (behind : Bytes) : Prop where
  operator : p.operator? = some r.kind
  rest : p.rest = r.text ++ behind
  reaches : r.Reaches behind

/-- Behind a redirect. -/
def lift (p : Place) (r : Redirection) (behind : Bytes) : Place :=
  ⟨p.before ++ r.text, behind, p.kept ++ [Ascii.space], p.redirects ++ [r.raw]⟩

/-- Behind a byte that is kept. -/
def keep (p : Place) (c : UInt8) (rest : Bytes) : Place :=
  ⟨p.before ++ [c], rest, p.kept ++ [c], p.redirects⟩

/-- One step of the reading. -/
inductive Step : Place → Place → Prop
  | lift {p : Place} {r : Redirection} {behind : Bytes} :
    p.Stands r behind → Step p (p.lift r behind)
  | keep {p : Place} {c : UInt8} {rest : Bytes} :
    p.operator? = none → p.rest = c :: rest → Step p (p.keep c rest)

/-- The reading comes from one place to another. -/
abbrev Leads : Place → Place → Prop := Relation.ReflTransGen Step

/-! ### Steps -/

theorem atTopLevel_of_operator? {kind : RedirectKind} (h : p.operator? = some kind) :
    p.delimiters.atTopLevel = true ∧
      RedirectKind.read? (p.before.getLast?.all isSeparator) p.rest = some kind := by
  rw [operator?] at h
  split at h
  next top => exact ⟨top, h⟩
  next => cases h

theorem Stands.atTopLevel (h : p.Stands r behind) : p.delimiters.atTopLevel = true :=
  (atTopLevel_of_operator? h.operator).1

theorem exists_stands {kind : RedirectKind} (h : p.operator? = some kind) :
    ∃ r : Redirection, ∃ behind, r.kind = kind ∧ p.Stands r behind := by
  obtain ⟨-, read⟩ := atTopLevel_of_operator? h
  obtain ⟨following, written⟩ :=
    List.isPrefixOf_iff_prefix.1 (RedirectKind.symbol_isPrefixOf_of_read? read)
  obtain ⟨r, behind, rfl, split, reaches⟩ := Redirection.exists_reaches kind following
  refine ⟨r, behind, rfl, h, ?_, reaches⟩
  rw [← written, split, Redirection.text, List.append_assoc, List.append_assoc]

/-- The steps are those of the reader. -/
theorem Stands.redirectAt?_eq (h : p.Stands r behind) :
    redirectAt? p.delimiters p.before.getLast? p.rest = some (r.raw, r.text.length) := by
  obtain ⟨top, read⟩ := atTopLevel_of_operator? h.operator
  have following : p.rest.drop r.kind.symbol.length = r.gap ++ (r.source ++ behind) := by
    rw [h.rest, Redirection.text, List.append_assoc, List.drop_left, List.append_assoc]
  rw [redirectAt?, if_pos top, read, Option.map_some, following, Redirection.targetAt_eq h.reaches]
  simp [Redirection.text, Redirection.raw]

theorem redirectAt?_eq_none (h : p.operator? = none) :
    redirectAt? p.delimiters p.before.getLast? p.rest = none := by
  rw [operator?] at h
  rw [redirectAt?]
  split at h
  next top => rw [if_pos top, h]; rfl
  next low => exact if_neg low

theorem operator?_openParen (h : p.rest = Ascii.openParen :: rest) : p.operator? = none := by
  rw [operator?, h, RedirectKind.read?_cons]
  exact ite_self none

theorem Stands.unique (h : p.Stands r behind) (h' : p.Stands r' behind') :
    r = r' ∧ behind = behind' :=
  h.reaches.unique h'.reaches (Option.some.inj (h.operator.symm.trans h'.operator))
    (h.rest.symm.trans h'.rest)

/-- There is one way to go on. -/
theorem step_unique (h : Step p q) (h' : Step p q') : q = q' := by
  cases h with
  | lift stands =>
    cases h' with
    | lift stands' =>
      obtain ⟨rfl, rfl⟩ := stands.unique stands'
      rfl
    | keep none _ => cases stands.operator.symm.trans none
  | keep none rest =>
    cases h' with
    | lift stands => cases stands.operator.symm.trans none
    | keep _ rest' =>
      obtain ⟨rfl, rfl⟩ := List.cons.inj (rest.symm.trans rest')
      rfl

/-- At the end there is none. -/
theorem not_step_of_rest (h : p.rest = []) : ¬ Step p q := by
  rintro (stands | ⟨-, rest⟩)
  · have whole := stands.rest.symm.trans h
    exact Redirection.text_ne_nil _ (List.append_eq_nil_iff.1 whole).1
  · cases rest.symm.trans h

/-- Whatever the reading comes to is on the way to its end. -/
theorem leads_end (h : Leads p q) (h' : Leads p q') (ends : q'.rest = []) : Leads q q' := by
  have unique : Relator.RightUnique Step := fun _ _ _ => step_unique
  rcases Relation.ReflTransGen.total_of_right_unique unique h h' with on | back
  · exact on
  · rcases back.cases_head with rfl | ⟨next, step, -⟩
    · exact .refl
    · exact absurd step (not_step_of_rest ends)

/-! ### The reader -/

/-- What is kept is read on as the segment is: it does not end within a `$(` that opens a
substitution. -/
def ReadsOn (p : Place) : Prop :=
  ∀ after : Bytes, (after.head? = some Ascii.openParen → p.rest.head? = some Ascii.openParen) →
    marks {} (p.kept ++ after) = marks {} p.kept ++ marks p.delimiters after

theorem readsOn_start (segment : Bytes) : (start segment).ReadsOn := fun _ _ => rfl

/-- A text that is read on by one step. -/
theorem ReadsOn.append {text rest : Bytes} {m : Mark} (h : p.ReadsOn)
    (first : text.head? = some Ascii.openParen → p.rest.head? = some Ascii.openParen)
    (some : text ≠ [])
    (step : ∀ after : Bytes,
      (after.head? = .some Ascii.openParen → rest.head? = .some Ascii.openParen) →
        marks p.delimiters (text ++ after) = m :: marks m.after after)
    (q : Place) (kept : q.kept = p.kept ++ text) (behind : q.rest = rest) :
    q.delimiters = m.after ∧ q.ReadsOn := by
  have whole (after : Bytes)
      (border : after.head? = .some Ascii.openParen → rest.head? = .some Ascii.openParen) :
      marks {} (q.kept ++ after) = marks {} p.kept ++ m :: marks m.after after := by
    rw [kept, List.append_assoc, h (text ++ after), step after border]
    rw [List.head?_append_of_ne_nil _ some]
    exact first
  have alone := whole [] (fun nothing => by cases nothing)
  rw [List.append_nil, marks_nil] at alone
  have delimiters : q.delimiters = m.after := Delimiters.read_of_marks_concat alone
  refine ⟨delimiters, fun after border => ?_⟩
  rw [behind] at border
  rw [whole after border, alone, delimiters, List.append_assoc, List.singleton_append]

theorem ReadsOn.keep (h : p.ReadsOn) (here : p.rest = c :: rest)
    (plain : ¬ p.delimiters.Opens c rest) :
    (p.keep c rest).delimiters = p.delimiters.feed c ∧ (p.keep c rest).ReadsOn := by
  refine h.append (m := ⟨[c], p.delimiters, p.delimiters.feed c⟩) (fun first => ?_)
    (List.cons_ne_nil _ _) (fun after border => ?_) _ rfl rfl
  · rw [here]
    exact first
  · exact marks_cons fun opens => plain ⟨opens.1, border opens.2.1, opens.2.2⟩

theorem ReadsOn.enter (h : p.ReadsOn) (admits : p.delimiters.admitsSubstitution = true)
    (rest : Bytes) :
    let q := (p.keep Ascii.dollar (Ascii.openParen :: rest)).keep Ascii.openParen rest
    q.delimiters = p.delimiters.enter ∧ q.ReadsOn := by
  refine h.append (m := ⟨[Ascii.dollar, Ascii.openParen], p.delimiters, p.delimiters.enter⟩)
    (fun first => ?_) (List.cons_ne_nil Ascii.dollar [Ascii.openParen])
    (fun _ _ => marks_enter admits) _ (List.append_assoc _ _ _) rfl
  cases first

theorem ReadsOn.lift (h : p.ReadsOn) (top : p.delimiters.atTopLevel = true) (r : Redirection)
    (behind : Bytes) :
    (p.lift r behind).delimiters = p.delimiters ∧ (p.lift r behind).ReadsOn := by
  have space : p.delimiters.feed Ascii.space = p.delimiters :=
    Delimiters.feed_eq_self_of_atTopLevel top rfl
  refine h.append (m := ⟨[Ascii.space], p.delimiters, p.delimiters⟩) (fun first => ?_)
    (List.cons_ne_nil _ _) (fun after _ => ?_) _ rfl rfl
  · cases first
  · have plain : ¬ p.delimiters.Opens Ascii.space after := fun opens => absurd opens.1 (by decide)
    exact (marks_cons plain).trans (by rw [space])

/-- The reader goes by the steps to the end. -/
theorem exists_leads_end (n : Nat) (length : p.rest.length = n) (on : p.ReadsOn) :
    ∃ q, Leads p q ∧ q.rest = [] ∧
      (q.kept, q.redirects) =
        (liftRedirectsFrom p.delimiters p.before.getLast? p.rest).map
          (p.kept ++ ·) (p.redirects ++ ·) := by
  induction n using Nat.strongRecOn generalizing p with
  | ind n ih =>
    cases here : p.rest with
    | nil => exact ⟨p, .refl, here, by rw [liftRedirectsFrom]; simp⟩
    | cons c rest =>
      rw [here, List.length_cons] at length
      cases operator : p.operator? with
      | some kind =>
        obtain ⟨r, behind, -, stands⟩ := exists_stands operator
        obtain ⟨delimiters, on⟩ := on.lift stands.atTopLevel r behind
        have found := stands.redirectAt?_eq
        have whole := stands.rest
        rw [here] at found whole
        have shorter : behind.length < n := by
          have sum := congrArg List.length whole
          have some := List.length_pos_of_ne_nil r.text_ne_nil
          rw [List.length_cons, List.length_append] at sum
          omega
        obtain ⟨q, leads, ends, lifted⟩ := ih _ shorter rfl on
        have last : (p.before ++ r.text).getLast? = r.text.getLast? :=
          List.getLast?_append_of_ne_nil _ r.text_ne_nil
        have dropped : rest.drop (r.text.length - 1) = behind := by
          have whole := congrArg (List.drop r.text.length) whole
          rw [List.drop_left] at whole
          rw [← whole, ← List.drop_succ_cons, Nat.sub_add_cancel
            (List.length_pos_of_ne_nil r.text_ne_nil)]
        refine ⟨q, .head (.lift stands) leads, ends, ?_⟩
        rw [lifted, delimiters, liftRedirectsFrom_of_some found, whole, List.take_left, dropped,
          ← last]
        simp [lift, Prod.map]
      | none =>
        have silent := redirectAt?_eq_none operator
        rw [here] at silent
        by_cases opens : p.delimiters.Opens c rest
        · obtain ⟨rfl, second, admits⟩ := opens
          obtain ⟨rest, rfl⟩ := List.head?_eq_some_iff.1 second
          obtain ⟨delimiters, on⟩ := on.enter admits rest
          obtain ⟨q, leads, ends, lifted⟩ := ih rest.length (by simp at length; omega) rfl on
          refine ⟨q, .head (.keep operator here)
            (.head (.keep (operator?_openParen rfl) rfl) leads), ends, ?_⟩
          rw [lifted, delimiters, liftRedirectsFrom_of_opens silent admits]
          simp [keep, Prod.map]
        · obtain ⟨delimiters, on⟩ := on.keep here opens
          obtain ⟨q, leads, ends, lifted⟩ := ih rest.length (by omega) rfl on
          refine ⟨q, .head (.keep operator here) leads, ends, ?_⟩
          rw [lifted, delimiters, liftRedirectsFrom_of_none silent opens]
          simp [keep, Prod.map]

/-! ### The places of a reading -/

theorem before_append_rest (h : Leads (start segment) p) : p.before ++ p.rest = segment := by
  induction h with
  | refl => rfl
  | tail _ step ih =>
    cases step with
    | lift stands => rw [← ih, stands.rest, lift, List.append_assoc]
    | keep _ here => rw [← ih, here, keep, List.append_assoc, List.singleton_append]

/-- **Lifting is reading to the end.** -/
theorem leads_end_iff {kept : Bytes} {redirects : List RawRedirect} :
    Leads (start segment) ⟨segment, [], kept, redirects⟩ ↔
      liftRedirects segment = (kept, redirects) := by
  obtain ⟨⟨before, rest, kept', redirects'⟩, leads, rfl, lifted⟩ :=
    exists_leads_end segment.length (p := start segment) rfl (readsOn_start segment)
  obtain rfl : before = segment := by simpa using before_append_rest leads
  have same : liftRedirects before = (kept', redirects') := by
    rw [lifted, liftRedirects]
    simp [start, delimiters, Prod.map]
    rfl
  constructor
  · intro other
    rcases (leads_end leads other rfl).cases_head with eq | ⟨next, step, -⟩
    · obtain ⟨-, -, rfl, rfl⟩ := Place.mk.inj eq
      exact same
    · exact absurd step (not_step_of_rest rfl)
  · intro eq
    obtain ⟨rfl, rfl⟩ := Prod.mk.inj (same.symm.trans eq)
    exact leads

theorem Leads.redirects_prefix (h : Leads p q) : p.redirects <+: q.redirects := by
  induction h with
  | refl => exact List.prefix_rfl
  | tail _ step ih =>
    cases step with
    | lift => exact ih.trans (List.prefix_append _ _)
    | keep => exact ih

/-- What has been lifted out stood at places that the reading has come to. -/
theorem exists_stands_of_mem {raw : RawRedirect} (h : Leads (start segment) q)
    (mem : raw ∈ q.redirects) :
    ∃ p r behind, Leads (start segment) p ∧ p.Stands r behind ∧ r.raw = raw := by
  induction h with
  | refl => cases mem
  | tail leads step ih =>
    cases step with
    | lift stands =>
      rcases List.mem_append.1 mem with mem | mem
      · exact ih mem
      · exact ⟨_, _, _, leads, stands, (List.mem_singleton.1 mem).symm⟩
    | keep => exact ih mem

theorem mem_liftRedirects_iff {raw : RawRedirect} :
    raw ∈ (liftRedirects segment).2 ↔
      ∃ p r behind, Leads (start segment) p ∧ p.Stands r behind ∧ r.raw = raw := by
  have ends := leads_end_iff.2 (Eq.refl (liftRedirects segment))
  constructor
  · exact exists_stands_of_mem ends
  · rintro ⟨p, r, behind, leads, stands, rfl⟩
    have on := leads_end (leads.tail (.lift stands)) ends rfl
    exact on.redirects_prefix.subset (List.mem_append_right _ List.mem_cons_self)

/-! ### What is kept -/

/-- A text in which no byte begins an operator is kept. -/
theorem leads_plain (p : Place) (text rest : Bytes) (here : p.rest = text ++ rest)
    (plain : ∀ c ∈ text, c ≠ Ascii.two ∧ c ≠ Ascii.greater ∧ c ≠ Ascii.less) :
    Leads p ⟨p.before ++ text, rest, p.kept ++ text, p.redirects⟩ := by
  induction text generalizing p with
  | nil =>
    obtain rfl : p.rest = rest := here
    rw [List.append_nil, List.append_nil]
  | cons c text ih =>
    obtain ⟨⟨noTwo, noGreater, noLess⟩, others⟩ := List.forall_mem_cons.1 plain
    have none : RedirectKind.read? (p.before.getLast?.all isSeparator) p.rest = none := by
      rw [here, List.cons_append, RedirectKind.read?_cons,
        if_neg fun descriptor => noTwo descriptor.1, if_neg noGreater, if_neg noLess]
    have silent : p.operator? = Option.none := by
      rw [operator?, none]
      exact ite_self Option.none
    have behind := ih (p.keep c (text ++ rest)) rfl others
    simp only [keep, List.append_assoc, List.singleton_append] at behind
    exact .head (.keep silent here) behind

/-- Where a redirect stands, an angle bracket stands at top level. -/
theorem Stands.hasAtTop (h : p.Stands r behind) :
    HasAtTop [Ascii.greater] (p.kept ++ p.rest) ∨ HasAtTop [Ascii.less] (p.kept ++ p.rest) := by
  obtain ⟨top, read⟩ := atTopLevel_of_operator? h.operator
  obtain ⟨following, written⟩ :=
    List.isPrefixOf_iff_prefix.1 (RedirectKind.symbol_isPrefixOf_of_read? read)
  have here {c : UInt8} {others : Bytes} (eq : r.kind.symbol = c :: others) :
      HasAtTop [c] (p.kept ++ p.rest) :=
    ⟨p.kept, ⟨others ++ following, by simp [← written, eq]⟩, top⟩
  have behindTwo {others : Bytes} (eq : r.kind.symbol = Ascii.two :: Ascii.greater :: others) :
      HasAtTop [Ascii.greater] (p.kept ++ p.rest) := by
    refine ⟨p.kept ++ [Ascii.two], ⟨others ++ following, by simp [← written, eq]⟩, ?_⟩
    rw [Delimiters.read_concat (by decide)]
    rwa [← delimiters, Delimiters.feed_eq_self_of_atTopLevel top rfl]
  cases kind : r.kind with
  | input => exact .inr (here (by rw [kind]; rfl))
  | output => exact .inl (here (by rw [kind]; rfl))
  | append => exact .inl (here (by rw [kind]; rfl))
  | error => exact .inl (behindTwo (by rw [kind]; rfl))
  | errorAppend => exact .inl (behindTwo (by rw [kind]; rfl))

/-- What stands at top level behind one more byte stood there before, or is that byte. -/
theorem hasAtTop_concat {b : UInt8} {text : Bytes} (h : HasAtTop [c] (text ++ [b])) :
    HasAtTop [c] text ∨ (b = c ∧ (Delimiters.read {} text).atTopLevel = true) := by
  obtain ⟨before, stands, top⟩ := h
  rcases List.prefix_concat_iff.1 stands with eq | stands
  · obtain ⟨rfl, last⟩ := List.append_inj' eq rfl
    exact .inr ⟨(List.singleton_inj.1 last).symm, top⟩
  · exact .inl ⟨before, stands, top⟩

theorem ne_of_operator?_eq_none (none : p.operator? = none) (here : p.rest = c :: rest)
    (top : p.delimiters.atTopLevel = true) : c ≠ Ascii.greater ∧ c ≠ Ascii.less := by
  rw [operator?, if_pos top, here, RedirectKind.read?_cons] at none
  constructor
  · rintro rfl
    cases none
  · rintro rfl
    cases none

/-- No operator is kept at top level. -/
theorem not_hasAtTop_kept (angle : c = Ascii.greater ∨ c = Ascii.less)
    (h : Leads (start segment) p) : ¬ HasAtTop [c] p.kept := by
  induction h with
  | refl =>
    rintro ⟨before, stands, -⟩
    simp [start] at stands
  | tail _ step ih =>
    intro stands
    cases step with
    | lift =>
      rcases hasAtTop_concat stands with stands | ⟨rfl, -⟩
      · exact ih stands
      · rcases angle with angle | angle <;> cases angle
    | keep none here =>
      rcases hasAtTop_concat stands with stands | ⟨rfl, top⟩
      · exact ih stands
      · obtain ⟨noGreater, noLess⟩ := ne_of_operator?_eq_none none here top
        exact angle.elim noGreater noLess

/-- A text without operators is kept as it is. -/
theorem kept_of_free (noGreater : ¬ HasAtTop [Ascii.greater] segment)
    (noLess : ¬ HasAtTop [Ascii.less] segment) (h : Leads (start segment) p) :
    p.kept = p.before ∧ p.redirects = [] := by
  induction h with
  | refl => exact ⟨rfl, rfl⟩
  | @tail p q leads step ih =>
    obtain ⟨kept, redirects⟩ := ih
    cases step with
    | lift stands =>
      have angle := stands.hasAtTop
      rw [kept, before_append_rest leads] at angle
      exact (angle.elim noGreater noLess).elim
    | keep => exact ⟨congrArg (· ++ _) kept, redirects⟩

end Place

theorem liftRedirects_of_isFreeOf {text : Bytes} (noGreater : IsFreeOf Ascii.greater text)
    (noLess : IsFreeOf Ascii.less text) : liftRedirects text = (text, []) := by
  rw [isFreeOf_iff_not_hasAtTop (by decide) (by decide)] at noGreater noLess
  have ends := Place.leads_end_iff.2 (Eq.refl (liftRedirects text))
  obtain ⟨kept, redirects⟩ := Place.kept_of_free noGreater noLess ends
  exact Prod.ext kept redirects

/-- Nothing is left at top level that could be lifted out. -/
theorem isFreeOf_liftRedirects {c : UInt8} (angle : c = Ascii.greater ∨ c = Ascii.less)
    (segment : Bytes) : IsFreeOf c (liftRedirects segment).1 := by
  have ends := Place.leads_end_iff.2 (Eq.refl (liftRedirects segment))
  have free := Place.not_hasAtTop_kept angle ends
  rcases angle with rfl | rfl
  · exact (isFreeOf_iff_not_hasAtTop (by decide) (by decide)).2 free
  · exact (isFreeOf_iff_not_hasAtTop (by decide) (by decide)).2 free

/-! ## Targets -/

namespace RawRedirect

/-- A target names nothing when it has no word or an empty one first. -/
theorem resolve?_eq_none_iff {raw : RawRedirect} :
    raw.resolve? = none ↔ ∀ word ∈ (words raw.source).head?, word.text = [] := by
  rw [resolve?]
  split
  next nothing => simp [nothing]
  next word others found => simp [found]

theorem target_ne_nil {raw : RawRedirect} {r : Redirect} (h : raw.resolve? = some r) :
    r.target ≠ [] := by
  rw [resolve?] at h
  split at h
  · cases h
  · split at h
    · cases h
    next some =>
      obtain rfl := Option.some.inj h
      simpa using some

theorem mapM_resolve?_eq_none_iff {raws : List RawRedirect} :
    raws.mapM resolve? = none ↔ ∃ raw ∈ raws, raw.resolve? = none := by
  induction raws with
  | nil => simp
  | cons raw raws ih =>
    rw [List.mapM_cons]
    simp only [List.exists_mem_cons_iff, ← ih]
    cases raw.resolve? <;> cases raws.mapM resolve? <;> simp

theorem target_ne_nil_of_mapM {raws : List RawRedirect} {redirects : List Redirect}
    (h : raws.mapM resolve? = some redirects) : ∀ r ∈ redirects, r.target ≠ [] := by
  induction raws generalizing redirects with
  | nil =>
    obtain rfl : redirects = [] := by simpa using h.symm
    simp
  | cons raw raws ih =>
    rw [List.mapM_cons] at h
    obtain ⟨r, first, h⟩ := Option.bind_eq_some_iff.1 h
    obtain ⟨others, rest, h⟩ := Option.bind_eq_some_iff.1 h
    obtain rfl := Option.some.inj h
    exact List.forall_mem_cons.2 ⟨target_ne_nil first, ih rest⟩

end RawRedirect

theorem Command.read_of_isFreeOf {text : Bytes} (noGreater : IsFreeOf Ascii.greater text)
    (noLess : IsFreeOf Ascii.less text) : Command.read text = .ok ⟨Bytes.trim text, []⟩ := by
  rw [Command.read, liftRedirects_of_isFreeOf noGreater noLess]
  rfl

theorem Command.read_eq_error_iff {segment : Bytes} :
    Command.read segment = .error .missingTarget ↔
      ∃ raw ∈ (liftRedirects segment).2, raw.resolve? = none := by
  rw [← RawRedirect.mapM_resolve?_eq_none_iff, Command.read]
  dsimp only
  split
  next some => simp [some]
  next none => simp [none]

/-- **All redirects are lifted out of a segment**: each has a target, and in the text that is left
nothing stands at top level that would be one. It fails just at an operator whose target, behind
blanks, has no word or an empty one. -/
theorem redirects_complete (segment : Bytes) :
    (∀ command, Command.read segment = .ok command →
      (∀ r ∈ command.redirects, r.target ≠ []) ∧
      Command.read command.text = .ok ⟨command.text, []⟩ ∧
      IsFreeOf Ascii.greater command.text ∧ IsFreeOf Ascii.less command.text) ∧
    (Command.read segment = .error .missingTarget ↔
      ∃ p r behind, Place.Leads (.start segment) p ∧ p.Stands r behind ∧
        ∀ word ∈ (words r.source).head?, word.text = []) := by
  refine ⟨fun command read => ?_, ?_⟩
  · have text := Command.text_of_read read
    have noGreater : IsFreeOf Ascii.greater command.text := by
      rw [text]
      exact (isFreeOf_trim_iff rfl).2 (isFreeOf_liftRedirects (.inl rfl) segment)
    have noLess : IsFreeOf Ascii.less command.text := by
      rw [text]
      exact (isFreeOf_trim_iff rfl).2 (isFreeOf_liftRedirects (.inr rfl) segment)
    have again : Bytes.trim command.text = command.text := by rw [text, Bytes.trim_trim]
    refine ⟨?_, ?_, noGreater, noLess⟩
    · rw [Command.read] at read
      dsimp only at read
      split at read
      next found =>
        obtain rfl := Except.ok.inj read
        exact RawRedirect.target_ne_nil_of_mapM found
      next => cases read
    · rw [Command.read_of_isFreeOf noGreater noLess, again]
  · rw [Command.read_eq_error_iff]
    constructor
    · rintro ⟨raw, mem, none⟩
      obtain ⟨p, r, behind, leads, stands, rfl⟩ := Place.mem_liftRedirects_iff.1 mem
      exact ⟨p, r, behind, leads, stands, RawRedirect.resolve?_eq_none_iff.1 none⟩
    · rintro ⟨p, r, behind, leads, stands, nameless⟩
      exact ⟨r.raw, Place.mem_liftRedirects_iff.2 ⟨p, r, behind, leads, stands, rfl⟩,
        RawRedirect.resolve?_eq_none_iff.2 nameless⟩

/-- Brackets in quotes and a digit in a word are left in the text; a target in quotes with nothing
between them names nothing. -/
theorem redirects_complete_of_quoted :
    let segment := ascii "cat <in 'a>b' 2>>\"e f\" c2>g"
    let unnamed := ascii "echo 'a>b' >c >'' d"
    (∃ command, Command.read segment = .ok command ∧
        command.redirects =
          [⟨.input, ascii "in"⟩, ⟨.errorAppend, ascii "e f"⟩, ⟨.output, ascii "g"⟩] ∧
        Command.read command.text = .ok ⟨command.text, []⟩ ∧
        IsFreeOf Ascii.greater command.text) ∧
      ∃ p r behind, Place.Leads (.start unnamed) p ∧ p.Stands r behind ∧
        ∀ word ∈ (words r.source).head?, word.text = [] := by
  intro segment unnamed
  have read : Command.read segment = .ok ⟨ascii "cat   'a>b'   c2",
      [⟨.input, ascii "in"⟩, ⟨.errorAppend, ascii "e f"⟩, ⟨.output, ascii "g"⟩]⟩ := by
    decide +kernel
  have fails : Command.read unnamed = .error .missingTarget := by decide +kernel
  obtain ⟨-, again, free, -⟩ := (redirects_complete segment).1 _ read
  exact ⟨⟨_, read, rfl, again, free⟩, (redirects_complete unnamed).2.1 fails⟩

end VirtualShell
