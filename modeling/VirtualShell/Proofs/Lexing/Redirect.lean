import Mathlib.Data.List.TakeWhile
import VirtualShell.Proofs.Lexing.Template

/-!
# Output is data

Substitutions go into a segment before its redirects are lifted out of it, as text that is read
again. Where the outputs are inert, the second reading finds the templates of the segment and
nothing else, whatever the commands printed.

* `redirectAt?_fillAll`: one step; at an operator of the symbols the reader of the text finds the
  redirect of the template, and none anywhere else.
* `liftRedirectsFrom_fillAll`: so over the whole row.
* `redirects_agree`: two runs of a segment have the same redirects, but for the targets that hold an
  output.
* `not_redirects_agree`: a command that prints `2` right before a `>` turns the redirect into one of
  the error stream.
-/

namespace VirtualShell

/-! ## Operators -/

/-- An operator is made by its first byte and the few behind it. -/
theorem RedirectKind.read?_cons (wordStart : Bool) (c : UInt8) (rest : Bytes) :
    read? wordStart (c :: rest) =
      if c = Ascii.two ∧ rest.head? = some Ascii.greater ∧ wordStart = true then
        some (if rest.tail.head? = some Ascii.greater then .errorAppend else .error)
      else if c = Ascii.greater then
        some (if rest.head? = some Ascii.greater then .append else .output)
      else if c = Ascii.less then some .input
      else none := by
  have written : ascii "2>>" = [Ascii.two, Ascii.greater, Ascii.greater] ∧
      ascii "2>" = [Ascii.two, Ascii.greater] ∧ ascii ">>" = [Ascii.greater, Ascii.greater] ∧
      ascii ">" = [Ascii.greater] ∧ ascii "<" = [Ascii.less] := ⟨rfl, rfl, rfl, rfl, rfl⟩
  rw [read?, written.1, written.2.1, written.2.2.1, written.2.2.2.1, written.2.2.2.2]
  rcases rest with _ | ⟨x, _ | ⟨y, rest⟩⟩
  all_goals
    simp only [List.isPrefixOf, Bool.and_true, Bool.and_eq_true, beq_iff_eq, List.head?_cons,
      List.head?_nil, List.tail_cons, List.tail_nil, Option.some.injEq]
    grind

section
variable {answers : Nat → Captured} {before : Bytes} {d d' : Delimiters} {c : UInt8}
  {rest : List Symbol} {wordStart : Bool}

theorem head?_leading (symbols : List Symbol) (c : UInt8) :
    (Symbol.leading symbols).head? = some c ↔ symbols.head? = some (.byte c) := by
  cases symbols with
  | nil => simp [Symbol.leading]
  | cons s rest => cases s <;> simp [Symbol.leading]

theorem head?_fillAll_of_byte {symbols : List Symbol} (h : symbols.head? = some (.byte c)) :
    (fillAll answers symbols).head? = some c := by
  cases symbols with
  | nil => cases h
  | cons s rest =>
    obtain rfl : s = .byte c := by simpa using h
    rfl

/-- Outputs make no `2` before them an operator. -/
theorem head?_of_fillAll (top : d.atTopLevel = true) (placed : Placed d rest)
    (inert : InertFrom answers (before ++ [Ascii.two]) rest)
    (apart : before.getLast?.all isSeparator = true)
    (first : (fillAll answers rest).head? = some Ascii.greater) :
    rest.head? = some (.byte Ascii.greater) := by
  cases rest with
  | nil => cases first
  | cons s others =>
    cases s with
    | byte x => simpa using first
    | output index inDoubleQuotes =>
      exfalso
      obtain rfl : inDoubleQuotes = false := placed.of_output.1.unquoted_of_atTopLevel top
      have lone := inert.1.noDescriptor rfl
      rw [fillAll_cons] at first
      cases output : (Symbol.output index false).fill answers with
      | nil =>
        rw [output] at first lone
        simpa [endsInTwo, apart] using lone first
      | cons x others =>
        rw [output] at first
        obtain rfl : x = Ascii.greater := by simpa using first
        exact (head?_escapeOutput (congrArg List.head? output)).1 rfl

/-- The start of a word is seen alike wherever it counts. -/
def AgreesAt (answers : Nat → Captured) (before : Bytes) (wordStart : Bool)
    (symbols : List Symbol) : Prop :=
  ascii "2>" <+: fillAll answers symbols → before.getLast?.all isSeparator = wordStart

/-- What ends a target is no `2`. -/
theorem agreesAt_of_stops {behind : List Symbol}
    (stops : behind = [] ∨ ∃ c others, behind = .byte c :: others ∧ isTargetEnd c = true) :
    AgreesAt answers before wordStart behind := by
  rintro ⟨others, same⟩
  exfalso
  rcases stops with rfl | ⟨c, symbols, rfl, ends⟩
  · cases same
  · obtain rfl : Ascii.two = c := List.head_eq_of_cons_eq same
    exact absurd ends (by decide)

/-- A `2` at the start of a word with a `>` behind it is one of the symbols. -/
theorem descriptor_iff (top : d.atTopLevel = true) (placed : Placed d rest)
    (inert : InertFrom answers (before ++ [Ascii.two]) rest)
    (agrees : AgreesAt answers before wordStart (.byte Ascii.two :: rest)) :
    ((fillAll answers rest).head? = some Ascii.greater ∧
        before.getLast?.all isSeparator = true) ↔
      ((Symbol.leading rest).head? = some Ascii.greater ∧ wordStart = true) := by
  have operator : (fillAll answers rest).head? = some Ascii.greater →
      before.getLast?.all isSeparator = wordStart := by
    intro first
    obtain ⟨others, same⟩ := List.head?_eq_some_iff.1 first
    refine agrees ?_
    rw [fillAll_cons, Symbol.fill_byte, same]
    exact ⟨others, rfl⟩
  refine ⟨fun ⟨first, apart⟩ => ?_, fun ⟨first, apart⟩ => ?_⟩
  · refine ⟨(head?_leading rest _).2 (head?_of_fillAll top placed inert apart first), ?_⟩
    rw [← operator first, apart]
  · have first := @head?_fillAll_of_byte answers _ _ ((head?_leading rest _).1 first)
    exact ⟨first, by rw [operator first, apart]⟩

/-- Plain bytes at top level leave what comes behind them in its place. -/
theorem Placed.of_append {first : List Symbol} (placed : Placed d (first ++ rest))
    (top : d.atTopLevel = true)
    (plain : ∀ s ∈ first, ∃ c, s = .byte c ∧ c ≠ Ascii.dollar ∧ Delimiters.isPlain c = true) :
    Placed d rest := by
  induction first with
  | nil => exact placed
  | cons s first ih =>
    obtain ⟨⟨c, rfl, noDollar, same⟩, others⟩ := List.forall_mem_cons.1 plain
    have behind := placed.of_not_opens fun opens => noDollar opens.1
    rw [Delimiters.feed_eq_self_of_atTopLevel top same] at behind
    exact ih behind others

theorem Placed.of_two (placed : Placed d (.byte Ascii.two :: rest)) (top : d.atTopLevel = true) :
    Placed d rest :=
  Placed.of_append (show Placed d ([.byte Ascii.two] ++ rest) from placed) top fun _ mem =>
    ⟨Ascii.two, List.mem_singleton.1 mem, by decide, by decide⟩

/-- Where the symbols make no operator, the text makes none. -/
theorem read?_fillAll_of_none (top : d.atTopLevel = true) (placed : Placed d (.byte c :: rest))
    (inert : InertFrom answers before (.byte c :: rest))
    (agrees : AgreesAt answers before wordStart (.byte c :: rest))
    (h : RedirectKind.read? wordStart (Symbol.leading (.byte c :: rest)) = none) :
    RedirectKind.read? (before.getLast?.all isSeparator) (fillAll answers (.byte c :: rest)) =
      none := by
  rw [Symbol.leading, RedirectKind.read?_cons] at h
  rw [fillAll_cons, Symbol.fill_byte, List.singleton_append, RedirectKind.read?_cons]
  split at h
  · cases h
  rename_i noDescriptor
  split at h
  · cases h
  rename_i noGreater
  split at h
  · cases h
  rename_i noLess
  rw [if_neg, if_neg noGreater, if_neg noLess]
  rintro ⟨rfl, descriptor⟩
  exact noDescriptor ⟨rfl, (descriptor_iff top (placed.of_two top) inert agrees).1 descriptor⟩

/-- Which of two operators stands there, the one with a `>` more or the other, is the same in the
text, if nothing that is filled in lengthens the other. -/
theorem longer_or_shorter {longer shorter kind : RedirectKind}
    (h : some (if (Symbol.leading rest).head? = some Ascii.greater then longer else shorter) =
      some kind)
    (apart : kind = shorter → (fillAll answers rest).head? = some Ascii.greater →
      rest.head? = some (.byte Ascii.greater)) :
    some (if (fillAll answers rest).head? = some Ascii.greater then longer else shorter) =
      some kind := by
  split at h
  · rename_i goesOn
    rw [if_pos (head?_fillAll_of_byte ((head?_leading rest _).1 goesOn)), h]
  · rename_i ends
    cases h
    rw [if_neg fun first => ends ((head?_leading rest _).2 (apart rfl first))]

/-- Where the symbols make an operator that nothing behind it lengthens, the text makes the same. -/
theorem read?_fillAll_of_some {kind : RedirectKind} (top : d.atTopLevel = true)
    (placed : Placed d (.byte c :: rest)) (inert : InertFrom answers before (.byte c :: rest))
    (agrees : AgreesAt answers before wordStart (.byte c :: rest))
    (h : RedirectKind.read? wordStart (Symbol.leading (.byte c :: rest)) = some kind)
    (apart : (fillAll answers (rest.drop (kind.symbol.length - 1))).head? = some Ascii.greater →
      (rest.drop (kind.symbol.length - 1)).head? = some (.byte Ascii.greater)) :
    RedirectKind.read? (before.getLast?.all isSeparator) (fillAll answers (.byte c :: rest)) =
      some kind := by
  rw [Symbol.leading, RedirectKind.read?_cons] at h
  rw [fillAll_cons, Symbol.fill_byte, List.singleton_append, RedirectKind.read?_cons]
  split at h
  · rename_i descriptor
    obtain ⟨rfl, descriptor⟩ := descriptor
    have descriptor' := (descriptor_iff top (placed.of_two top) inert agrees).2 descriptor
    rw [if_pos ⟨rfl, descriptor'⟩]
    obtain ⟨rest, rfl⟩ := List.head?_eq_some_iff.1 ((head?_leading rest _).1 descriptor.1)
    rw [Symbol.leading, List.tail_cons] at h
    rw [fillAll_cons, Symbol.fill_byte, List.singleton_append, List.tail_cons]
    refine longer_or_shorter h ?_
    rintro rfl
    exact apart
  rename_i noDescriptor
  have noDescriptor' : ¬ (c = Ascii.two ∧ (fillAll answers rest).head? = some Ascii.greater ∧
      before.getLast?.all isSeparator = true) := by
    rintro ⟨rfl, descriptor⟩
    exact noDescriptor ⟨rfl, (descriptor_iff top (placed.of_two top) inert agrees).1 descriptor⟩
  rw [if_neg noDescriptor']
  split at h
  · rename_i greater
    rw [if_pos greater]
    refine longer_or_shorter h ?_
    rintro rfl
    exact apart
  rename_i noGreater
  rw [if_neg noGreater]
  split at h
  · rename_i less
    rw [if_pos less, h]
  · cases h

/-! ## Lifting the redirects out -/

theorem liftRedirectsFrom_of_none {text : Bytes} {previous : Option UInt8}
    (h : redirectAt? d previous (c :: text) = none) (plain : ¬ d.Opens c text) :
    liftRedirectsFrom d previous (c :: text) =
      (liftRedirectsFrom (d.feed c) (some c) text).map (c :: ·) id := by
  rw [Delimiters.Opens] at plain
  rw [liftRedirectsFrom, h]
  dsimp only
  rw [if_neg plain]
  rfl

theorem liftRedirectsFrom_of_opens {text : Bytes} {previous : Option UInt8}
    (h : redirectAt? d previous (Ascii.dollar :: Ascii.openParen :: text) = none)
    (admits : d.admitsSubstitution = true) :
    liftRedirectsFrom d previous (Ascii.dollar :: Ascii.openParen :: text) =
      (liftRedirectsFrom d.enter (some Ascii.openParen) text).map
        (Ascii.dollar :: Ascii.openParen :: ·) id := by
  rw [liftRedirectsFrom, h]
  dsimp only
  rw [if_pos ⟨rfl, rfl, admits⟩]
  rfl

theorem liftRedirectsFrom_of_some {text : Bytes} {previous : Option UInt8} {redirect : RawRedirect}
    {taken : Nat} (h : redirectAt? d previous (c :: text) = some (redirect, taken)) :
    liftRedirectsFrom d previous (c :: text) =
      (liftRedirectsFrom d ((c :: text).take taken).getLast? (text.drop (taken - 1))).map
        (Ascii.space :: ·) (redirect :: ·) := by
  rw [liftRedirectsFrom, h]
  rfl

/-- A byte at top level that is no operator itself starts one only before a `>`. -/
theorem redirectAt?_of_quiet {rest after : Bytes} {inDoubleQuotes : Bool} {d'' : Delimiters}
    (plain : d.atTopLevel = true → inDoubleQuotes = false ∧ c ≠ Ascii.greater ∧ c ≠ Ascii.less)
    (quiet : (d.feed c).Quiet
      (fun c => inDoubleQuotes = false ∧ c ≠ Ascii.greater ∧ c ≠ Ascii.less) rest d'')
    (noDescriptor : inDoubleQuotes = false → after.head? = some Ascii.greater →
      endsInTwo (before ++ c :: rest) = false) :
    redirectAt? d before.getLast? (c :: (rest ++ after)) = none := by
  rw [redirectAt?]
  cases top : d.atTopLevel with
  | false => rfl
  | true =>
    obtain ⟨unquoted, noGreater, noLess⟩ := plain top
    rw [if_pos rfl, RedirectKind.read?_cons, if_neg, if_neg noGreater, if_neg noLess]
    · rfl
    rintro ⟨rfl, first, apart⟩
    cases quiet with
    | nil => simpa [endsInTwo, apart] using noDescriptor unquoted first
    | enter => exact absurd (Option.some.inj first) (by decide)
    | feed _ next _ =>
      rw [Delimiters.feed_eq_self_of_atTopLevel top (by decide)] at next
      exact (next top).2.1 (by simpa using first)

/-- An output that stands outside targets brings no redirect. -/
theorem liftRedirectsFrom_append {output after : Bytes} {inDoubleQuotes : Bool}
    (quiet : d.Quiet (fun c => inDoubleQuotes = false ∧ c ≠ Ascii.greater ∧ c ≠ Ascii.less)
      output d')
    (border : ¬ (output.getLast? = some Ascii.dollar ∧ after.head? = some Ascii.openParen))
    (noDescriptor : inDoubleQuotes = false → after.head? = some Ascii.greater →
      endsInTwo (before ++ output) = false) :
    (liftRedirectsFrom d before.getLast? (output ++ after)).2 =
      (liftRedirectsFrom d' (before ++ output).getLast? after).2 := by
  induction quiet generalizing before with
  | nil => rw [List.nil_append, List.append_nil]
  | @enter d d' rest admits _ ih =>
    have silent : redirectAt? d before.getLast?
        (Ascii.dollar :: Ascii.openParen :: (rest ++ after)) = none := by
      have noOperator : RedirectKind.read? (before.getLast?.all isSeparator)
          (Ascii.dollar :: Ascii.openParen :: (rest ++ after)) = none := by
        rw [RedirectKind.read?_cons]
        rfl
      rw [redirectAt?, noOperator]
      exact ite_self none
    have following := @ih (before ++ [Ascii.dollar, Ascii.openParen])
      (fun ⟨last, first⟩ => border ⟨by simp [List.getLast?_cons, last], first⟩)
      (fun unquoted first => by simpa using noDescriptor unquoted first)
    rw [List.cons_append, List.cons_append, liftRedirectsFrom_of_opens silent admits]
    simpa using following
  | @feed d d' c rest single plain quiet ih =>
    have silent := redirectAt?_of_quiet plain quiet noDescriptor
    have following := @ih (before ++ [c])
      (fun ⟨last, first⟩ => border ⟨by simp [List.getLast?_cons, last], first⟩)
      (fun unquoted first => by simpa using noDescriptor unquoted first)
    rw [List.cons_append, liftRedirectsFrom_of_none silent (not_opens_append single border)]
    simpa using following

/-- The blanks before a target are symbols, if no output starts with one. -/
theorem takeWhile_fillAll {symbols : List Symbol}
    (first : ∀ c ∈ (fillAll answers (symbols.dropWhile Symbol.isBlank)).head?,
      (c == Ascii.space || c == Ascii.tab) = false) :
    (fillAll answers symbols).takeWhile (fun c => c == Ascii.space || c == Ascii.tab) =
      fillAll answers (symbols.takeWhile Symbol.isBlank) := by
  induction symbols with
  | nil => rfl
  | cons s rest ih =>
    cases blank : s.isBlank with
    | true =>
      rw [List.dropWhile_cons_of_pos blank] at first
      rw [List.takeWhile_cons_of_pos blank, fillAll_cons, fillAll_cons]
      cases s with
      | byte c =>
        have blank : (c == Ascii.space || c == Ascii.tab) = true := blank
        rw [Symbol.fill_byte, List.singleton_append, List.singleton_append,
          List.takeWhile_cons_of_pos (by simpa using blank), ih first]
      | output index inDoubleQuotes => cases blank
    | false =>
      rw [List.dropWhile_cons_of_neg (by simp [blank])] at first
      rw [List.takeWhile_cons_of_neg (by simp [blank]), fillAll_nil]
      cases text : fillAll answers (s :: rest) with
      | nil => rfl
      | cons c others =>
        rw [text] at first
        exact List.takeWhile_cons_of_neg (by simp [first c rfl])

/-- The target behind an operator, and what it takes. -/
theorem targetAt_fillAll {source behind : List Symbol}
    (target : targetFrom {} (fillAll answers (behind.dropWhile Symbol.isBlank)) =
      fillAll answers source)
    (first : ∀ c ∈ (fillAll answers (behind.dropWhile Symbol.isBlank)).head?,
      (c == Ascii.space || c == Ascii.tab) = false) :
    targetAt (fillAll answers behind) = (fillAll answers source,
      (fillAll answers (behind.takeWhile Symbol.isBlank ++ source)).length) := by
  have split : fillAll answers behind = fillAll answers (behind.takeWhile Symbol.isBlank) ++
      fillAll answers (behind.dropWhile Symbol.isBlank) := by
    rw [← fillAll_append, List.takeWhile_append_dropWhile]
  rw [targetAt, takeWhile_fillAll first]
  simp only [split, List.drop_left]
  rw [targetFrom] at target
  rw [target, fillAll_append, List.length_append]

theorem leading_starts (symbols : List Symbol) :
    (Symbol.leading symbols).map .byte <+: symbols := by
  induction symbols with
  | nil => exact List.nil_prefix
  | cons s rest ih =>
    cases s with
    | byte c => exact (List.prefix_cons_inj _).2 ih
    | output index inDoubleQuotes => exact List.nil_prefix

/-- An operator of the symbols is made by their first bytes. -/
theorem exists_of_read? {kind : RedirectKind}
    (h : RedirectKind.read? wordStart (Symbol.leading (.byte c :: rest)) = some kind) :
    ∃ symbol, kind.symbol = c :: symbol ∧
      rest = symbol.map .byte ++ rest.drop (kind.symbol.length - 1) := by
  have starts := List.isPrefixOf_iff_prefix.1 (RedirectKind.symbol_isPrefixOf_of_read? h)
  obtain ⟨others, same⟩ := (starts.map Symbol.byte).trans (leading_starts (.byte c :: rest))
  obtain ⟨x, symbol, written⟩ : ∃ x symbol, kind.symbol = x :: symbol := by
    cases kind <;> exact ⟨_, _, rfl⟩
  rw [written] at same
  obtain ⟨first, rfl⟩ := List.cons.inj same
  obtain rfl : x = c := Symbol.byte.inj first
  refine ⟨symbol, written, ?_⟩
  rw [written]
  simp

/-- No byte of an operator opens or closes anything. -/
theorem RedirectKind.isPlain_symbol {kind : RedirectKind} {c : UInt8} (h : c ∈ kind.symbol) :
    c ≠ Ascii.dollar ∧ Delimiters.isPlain c = true := by
  have all : kind.symbol.all (fun c => c != Ascii.dollar && Delimiters.isPlain c) = true := by
    cases kind <;> rfl
  simpa using List.all_eq_true.1 all c h

/-- No blank opens or closes anything. -/
theorem Symbol.isPlain_of_isBlank {s : Symbol} (blank : s.isBlank = true) :
    ∃ c, s = .byte c ∧ c ≠ Ascii.dollar ∧ Delimiters.isPlain c = true := by
  cases s with
  | byte c =>
    have blank : c = Ascii.space ∨ c = Ascii.tab := by simpa [isBlank] using blank
    refine ⟨c, rfl, ?_⟩
    rcases blank with rfl | rfl <;> decide
  | output index inDoubleQuotes => cases blank

/-- A target that starts with an output starts with nothing that would end it. -/
theorem RedirectTemplate.Whole.head?_fillAll {kind : RedirectKind} {target : List Symbol}
    (whole : RedirectTemplate.Whole answers ⟨kind, sourceFrom {} target⟩)
    (placed : Placed {} target) {s : Symbol} (start : target.head? = some s)
    (output : s.isOutput = true) {x : UInt8}
    (first : (fillAll answers target).head? = some x) : isTargetEnd x = false := by
  refine head?_fillAll_of_source placed rfl whole.oneWord (fun nothing => ?_) first
  have named := whole.named ?_
  · rw [RedirectTemplate.fill, RawRedirect.resolve?, nothing] at named
    cases named
  · obtain ⟨others, rfl⟩ := List.head?_eq_some_iff.1 start
    cases s with
    | byte b => cases output
    | output index inDoubleQuotes =>
      rw [sourceFrom]
      exact List.cons_ne_nil _ _

section
variable {kind : RedirectKind} {following : List Symbol}

/-- Outputs do not lengthen the operator before a target. -/
theorem RedirectTemplate.Whole.apart
    (whole : RedirectTemplate.Whole answers
      ⟨kind, sourceFrom {} (following.dropWhile Symbol.isBlank)⟩)
    (placed : Placed {} (following.dropWhile Symbol.isBlank))
    (first : (fillAll answers following).head? = some Ascii.greater) :
    following.head? = some (.byte Ascii.greater) := by
  cases following with
  | nil => cases first
  | cons s others =>
    cases s with
    | byte b => simpa using first
    | output index inDoubleQuotes =>
      exact absurd (whole.head?_fillAll placed rfl rfl first) (by decide)

/-- Outputs bring no blanks before a target. -/
theorem RedirectTemplate.Whole.noBlank
    (whole : RedirectTemplate.Whole answers
      ⟨kind, sourceFrom {} (following.dropWhile Symbol.isBlank)⟩)
    (placed : Placed {} (following.dropWhile Symbol.isBlank)) :
    ∀ c ∈ (fillAll answers (following.dropWhile Symbol.isBlank)).head?,
      (c == Ascii.space || c == Ascii.tab) = false := by
  intro c first
  have start := List.head?_dropWhile_not Symbol.isBlank following
  cases target : following.dropWhile Symbol.isBlank with
  | nil =>
    rw [target] at first
    cases first
  | cons s others =>
    rw [target] at whole placed first start
    cases s with
    | byte b =>
      obtain rfl : b = c := by simpa using first
      exact start
    | output index inDoubleQuotes =>
      have stays := whole.head?_fillAll placed rfl rfl first
      simp only [isTargetEnd, Bool.or_eq_false_iff, isSeparator] at stays ⊢
      exact stays.1.1.1.1

end

/-- **A redirect of a filled row of symbols is that of its template**: the same operator, and as the
target the symbols of the source. -/
theorem redirectAt?_fillAll {kind : RedirectKind} (placed : Placed d (.byte c :: rest))
    (alike : d.Alike d') (inert : InertFrom answers before (.byte c :: rest))
    (agrees : d.atTopLevel = true → AgreesAt answers before wordStart (.byte c :: rest))
    (operator : operatorAt? d wordStart (.byte c :: rest) = some kind) {target : List Symbol}
    (follows : target = (rest.drop (kind.symbol.length - 1)).dropWhile Symbol.isBlank)
    (whole : RedirectTemplate.Whole answers ⟨kind, sourceFrom {} target⟩) :
    ∃ taken behind, rest = taken ++ behind ∧ target.drop (sourceFrom {} target).length = behind ∧
      Placed d behind ∧
      (behind = [] ∨ ∃ c others, behind = .byte c :: others ∧ isTargetEnd c = true) ∧
      redirectAt? d' before.getLast? (fillAll answers (.byte c :: rest)) =
        some (⟨kind, fillAll answers (sourceFrom {} target)⟩,
          (fillAll answers taken).length + 1) := by
  have top : d.atTopLevel = true := by
    rw [operatorAt?] at operator
    split at operator
    · assumption
    · cases operator
  rw [operatorAt?, if_pos top] at operator
  obtain ⟨symbol, symbols, written⟩ := exists_of_read? operator
  generalize same : rest.drop (kind.symbol.length - 1) = following at written follows
  have blanks : following = following.takeWhile Symbol.isBlank ++ target := by
    rw [follows, List.takeWhile_append_dropWhile]
  have placedFollowing : Placed d following := by
    rw [written, ← List.cons_append, ← List.map_cons, ← symbols] at placed
    refine placed.of_append top fun s mem => ?_
    obtain ⟨b, inside, rfl⟩ := List.mem_map.1 mem
    exact ⟨b, rfl, RedirectKind.isPlain_symbol inside⟩
  have placedTarget : Placed {} target := by
    rw [blanks] at placedFollowing
    refine (placedFollowing.of_append top fun s mem => ?_).of_alike (.of_atTopLevel top rfl)
    exact Symbol.isPlain_of_isBlank (List.mem_takeWhile_imp mem)
  obtain ⟨behind, split, placedBehind, stops⟩ := exists_behind placedTarget top
  have inertTarget : InertFrom answers (before ++ fillAll answers
      (.byte c :: (symbol.map .byte ++ following.takeWhile Symbol.isBlank))) target := by
    refine InertFrom.append ?_
    rw [List.cons_append, List.append_assoc, ← blanks, ← written]
    exact inert
  refine ⟨symbol.map .byte ++ (following.takeWhile Symbol.isBlank ++ sourceFrom {} target),
    behind, ?_, ?_, placedBehind, stops, ?_⟩
  · rw [List.append_assoc, List.append_assoc, ← split, ← blanks, ← written]
  · have dropped := congrArg (List.drop (sourceFrom {} target).length) split
    rwa [List.drop_left] at dropped
  · have source := targetFrom_fillAll placedTarget (.refl _) inertTarget whole.oneWord
    subst follows
    have read := read?_fillAll_of_some top placed inert (agrees top) operator
      (same.symm ▸ whole.apart placedTarget)
    have split : fillAll answers (.byte c :: rest) = kind.symbol ++ fillAll answers following := by
      rw [fillAll_cons, written, fillAll_append, fillAll_map_byte, symbols]
      rfl
    rw [redirectAt?, if_pos (alike.atTopLevel.trans top), read, Option.map_some, split,
      List.drop_left, targetAt_fillAll source (whole.noBlank placedTarget), symbols]
    simp [Nat.add_right_comm]

/-- Where the symbols make no operator, the text has no redirect. -/
theorem redirectAt?_fillAll_of_none (placed : Placed d (.byte c :: rest)) (alike : d.Alike d')
    (inert : InertFrom answers before (.byte c :: rest))
    (agrees : d.atTopLevel = true → AgreesAt answers before wordStart (.byte c :: rest))
    (noOperator : operatorAt? d wordStart (.byte c :: rest) = none) :
    redirectAt? d' before.getLast? (fillAll answers (.byte c :: rest)) = none := by
  rw [redirectAt?, alike.atTopLevel]
  cases top : d.atTopLevel with
  | false => rfl
  | true =>
    rw [operatorAt?, if_pos top] at noOperator
    rw [if_pos rfl, read?_fillAll_of_none top placed inert (agrees top) noOperator]
    rfl

/-- **The redirects of a filled row of symbols are its templates, filled in.** -/
theorem liftRedirectsFrom_fillAll {symbols : List Symbol} (placed : Placed d symbols)
    (alike : d.Alike d') (inert : InertFrom answers before symbols)
    (agrees : d.atTopLevel = true → AgreesAt answers before wordStart symbols)
    (whole : ∀ t ∈ templatesFrom d wordStart symbols, t.Whole answers) :
    (liftRedirectsFrom d' before.getLast? (fillAll answers symbols)).2 =
      (templatesFrom d wordStart symbols).map (RedirectTemplate.fill answers) := by
  fun_induction templatesFrom d wordStart symbols generalizing d' before with
  | case1 d wordStart =>
    rw [fillAll_nil, liftRedirectsFrom]
    rfl
  | case2 d wordStart index inDoubleQuotes rest ih =>
    obtain ⟨between, behind⟩ := placed.of_output
    obtain ⟨d'', quiet, alike'⟩ : ∃ d'', d'.Quiet
        (fun c => inDoubleQuotes = false ∧ c ≠ Ascii.greater ∧ c ≠ Ascii.less)
        ((Symbol.output index inDoubleQuotes).fill answers) d'' ∧ d'.Alike d'' :=
      (between.of_alike alike).quiet_escapeOutput inert.1.closes
        fun quoted _ _ noGreater noLess => ⟨quoted, noGreater, noLess⟩
    rw [fillAll_cons, liftRedirectsFrom_append quiet inert.1.noOpener inert.1.noDescriptor]
    refine ih behind (alike.trans alike') inert.2 (fun top operator => ?_) whole
    exact inert.1.noWordStart (between.unquoted_of_atTopLevel top) operator
  | case3 d wordStart c rest kind operator target =>
    rename_i source ih
    obtain ⟨first, whole⟩ := List.forall_mem_cons.1 whole
    obtain ⟨taken, behind, split, rfl, placedBehind, stops, found⟩ :=
      redirectAt?_fillAll placed alike inert agrees operator rfl first
    have text : fillAll answers rest =
        fillAll answers taken ++ fillAll answers (target.drop source.length) := by
      rw [← fillAll_append]
      exact congrArg _ split
    have inertBehind := inert
    rw [split] at inertBehind
    have behind := ih placedBehind alike inertBehind.append (fun _ => agreesAt_of_stops stops) whole
    have last : (before ++ [c] ++ fillAll answers taken).getLast? =
        (c :: fillAll answers taken).getLast? := by
      rw [List.append_assoc, List.singleton_append, List.getLast?_append, List.getLast?_cons]
      rfl
    rw [fillAll_cons, Symbol.fill_byte, List.singleton_append] at found ⊢
    rw [liftRedirectsFrom_of_some found, List.take_succ_cons, Nat.add_sub_cancel, text,
      List.take_left, List.drop_left, ← last, Prod.map_snd, behind]
    rfl
  | case4 d wordStart c rest noOperator opens ih =>
    obtain ⟨rfl, others, rfl, inside⟩ := placed.of_opens opens
    have silent := redirectAt?_fillAll_of_none placed alike inert agrees noOperator
    have inert : InertFrom answers (before ++ [Ascii.dollar] ++ [Ascii.openParen]) others := inert
    have behind := ih inside alike.enter inert (fun top => ?_) whole
    · simp only [fillAll_cons, Symbol.fill_byte, List.singleton_append] at silent behind ⊢
      rw [liftRedirectsFrom_of_opens silent (alike.admitsSubstitution.trans opens.2.2), ← behind]
      simp
    · simp [Delimiters.atTopLevel, Delimiters.enter] at top
  | case5 d wordStart c rest noOperator plain ih =>
    have silent := redirectAt?_fillAll_of_none placed alike inert agrees noOperator
    have inertBehind : InertFrom answers (before ++ [c]) rest := inert
    have behind := ih (placed.of_not_opens plain) (alike.feed c) inertBehind (fun _ _ => by simp)
      whole
    rw [fillAll_cons, Symbol.fill_byte, List.singleton_append] at silent ⊢
    rw [liftRedirectsFrom_of_none silent (mt (opens_fillAll_iff inert alike).1 plain), ← behind]
    simp

end

/-! ## Two runs of a segment -/

section
variable {a b : Nat → Captured} {segment : Bytes}

/-- **The redirects of a segment are its templates, filled in**, where its commands print data. -/
theorem liftRedirects_expandedWith (inert : Inert a segment) :
    (liftRedirects (expandedWith a segment)).2 =
      (redirectTemplates segment).map (RedirectTemplate.fill a) := by
  rw [expandedWith_eq]
  exact liftRedirectsFrom_fillAll (placed_symbols segment) (.refl {}) inert.between
    (fun _ _ => rfl) inert.whole

namespace RedirectTemplate

/-- A target is the same where the outputs in it are. -/
theorem fill_congr {t : RedirectTemplate}
    (same : ∀ index ∈ t.outputs, (a index).out = (b index).out) :
    t.fill a = t.fill b := by
  refine congrArg (RawRedirect.mk t.kind) (fillAll_congr fun s mem => ?_)
  cases s with
  | byte c => rfl
  | output index inDoubleQuotes =>
    rw [Symbol.fill, Symbol.fill, same index (List.mem_filterMap.2 ⟨_, mem, rfl⟩)]

theorem kind_of_resolve? {raw : RawRedirect} {r : Redirect} (h : raw.resolve? = some r) :
    r.kind = raw.kind := by
  unfold RawRedirect.resolve? at h
  split at h
  · cases h
  · split at h
    · cases h
    · cases h
      rfl

end RedirectTemplate

/-- Two lists of redirects of the same templates: one for one the same operators, and the same
targets but where an output differs in one. -/
inductive SameRedirects (a b : Nat → Captured) :
    List RedirectTemplate → List Redirect → List Redirect → Prop
  | nil : SameRedirects a b [] [] []
  | cons {t : RedirectTemplate} {r r' : Redirect} {ts : List RedirectTemplate}
    {rs rs' : List Redirect} :
    r.kind = t.kind → r'.kind = t.kind →
    ((∀ index ∈ t.outputs, (a index).out = (b index).out) → r.target = r'.target) →
    SameRedirects a b ts rs rs' → SameRedirects a b (t :: ts) (r :: rs) (r' :: rs')

theorem sameRedirects_of_whole {ts : List RedirectTemplate} (ha : ∀ t ∈ ts, t.Whole a)
    (hb : ∀ t ∈ ts, t.Whole b) :
    ((ts.map (RedirectTemplate.fill a)).mapM RawRedirect.resolve? = none ∧
      (ts.map (RedirectTemplate.fill b)).mapM RawRedirect.resolve? = none) ∨
    ∃ rs rs', (ts.map (RedirectTemplate.fill a)).mapM RawRedirect.resolve? = some rs ∧
      (ts.map (RedirectTemplate.fill b)).mapM RawRedirect.resolve? = some rs' ∧
      SameRedirects a b ts rs rs' := by
  induction ts with
  | nil => exact .inr ⟨[], [], rfl, rfl, .nil⟩
  | cons t ts ih =>
    obtain ⟨first, ha⟩ := List.forall_mem_cons.1 ha
    obtain ⟨first', hb⟩ := List.forall_mem_cons.1 hb
    have both : ((t.fill a).resolve? = none ∧ (t.fill b).resolve? = none) ∨
        ∃ r r', (t.fill a).resolve? = some r ∧ (t.fill b).resolve? = some r' := by
      by_cases fixed : t.outputs = []
      · have same : t.fill a = t.fill b := RedirectTemplate.fill_congr (by simp [fixed])
        rw [same]
        cases (t.fill b).resolve? with
        | none => exact .inl ⟨rfl, rfl⟩
        | some r => exact .inr ⟨r, r, rfl, rfl⟩
      · obtain ⟨r, hr⟩ := Option.isSome_iff_exists.1 (first.named fixed)
        obtain ⟨r', hr'⟩ := Option.isSome_iff_exists.1 (first'.named fixed)
        exact .inr ⟨r, r', hr, hr'⟩
    simp only [List.map_cons, List.mapM_cons]
    rcases both with ⟨hr, hr'⟩ | ⟨r, r', hr, hr'⟩
    · rw [hr, hr']
      exact .inl ⟨rfl, rfl⟩
    rw [hr, hr']
    rcases ih ha hb with ⟨fails, fails'⟩ | ⟨rs, rs', reads, reads', same⟩
    · rw [fails, fails']
      exact .inl ⟨rfl, rfl⟩
    · rw [reads, reads']
      refine .inr ⟨r :: rs, r' :: rs', rfl, rfl, .cons (RedirectTemplate.kind_of_resolve? hr)
        (RedirectTemplate.kind_of_resolve? hr') (fun equal => ?_) same⟩
      rw [RedirectTemplate.fill_congr equal, hr'] at hr
      rw [Option.some.inj hr]

/-- **Output is data.** Where what the commands of a segment print is inert, the segment has the
same redirects in the same order whatever it is; only a target that holds the output of a command
follows it. -/
theorem redirects_agree (ha : Inert a segment) (hb : Inert b segment) :
    (Command.read (expandedWith a segment) = .error .missingTarget ∧
      Command.read (expandedWith b segment) = .error .missingTarget) ∨
    ∃ x y, Command.read (expandedWith a segment) = .ok x ∧
      Command.read (expandedWith b segment) = .ok y ∧
      SameRedirects a b (redirectTemplates segment) x.redirects y.redirects := by
  simp only [Command.read, liftRedirects_expandedWith ha, liftRedirects_expandedWith hb]
  rcases sameRedirects_of_whole ha.whole hb.whole with
    ⟨fails, fails'⟩ | ⟨rs, rs', reads, reads', same⟩
  · rw [fails, fails']
    exact .inl ⟨rfl, rfl⟩
  · rw [reads, reads']
    exact .inr ⟨_, _, rfl, rfl, same⟩

/-- An output with an operator and a substitution in it, and one with nothing in it, leave both
redirects where they are; the target in double quotes follows the other command. -/
theorem redirects_agree_of_quoted :
    let segment := ascii "echo $(x) 2>/tmp/e >\"$(y)\""
    let a : Nat → Captured := fun n =>
      if n = 0 then { out := ascii "p>q $(r)\n" } else { out := ascii "f g" }
    let b : Nat → Captured := fun n => if n = 0 then {} else { out := ascii "h\n" }
    Inert a segment ∧ Inert b segment ∧
      ∃ x y, Command.read (expandedWith a segment) = .ok x ∧
        Command.read (expandedWith b segment) = .ok y ∧
        x.redirects = [⟨.error, ascii "/tmp/e"⟩, ⟨.output, ascii "f g"⟩] ∧
        y.redirects = [⟨.error, ascii "/tmp/e"⟩, ⟨.output, ascii "h"⟩] ∧
        SameRedirects a b (redirectTemplates segment) x.redirects y.redirects := by
  intro segment a b
  have ha : Inert a segment := by decide +kernel
  have hb : Inert b segment := by decide +kernel
  have read : Command.read (expandedWith a segment) =
      .ok ⟨ascii "echo p\\>q $(r)", [⟨.error, ascii "/tmp/e"⟩, ⟨.output, ascii "f g"⟩]⟩ := by
    decide +kernel
  have read' : Command.read (expandedWith b segment) =
      .ok ⟨ascii "echo", [⟨.error, ascii "/tmp/e"⟩, ⟨.output, ascii "h"⟩]⟩ := by
    decide +kernel
  refine ⟨ha, hb, _, _, read, read', rfl, rfl, ?_⟩
  rcases redirects_agree ha hb with ⟨fails, -⟩ | ⟨x, y, reads, reads', same⟩
  · rw [read] at fails
    cases fails
  · rw [read] at reads
    rw [read'] at reads'
    cases reads
    cases reads'
    exact same

/-- **A command that prints `2` right before a `>`** turns a redirect of the output into one of the
error stream, though no output is in the target. -/
theorem not_redirects_agree :
    let segment := ascii "echo $(echo 2)>/tmp/f"
    let a : Nat → Captured := fun _ => { out := ascii "2\n" }
    let b : Nat → Captured := fun _ => { out := ascii "3\n" }
    redirectTemplates segment = [⟨.output, (ascii "/tmp/f").map .byte⟩] ∧
      Command.read (expandedWith a segment) =
        .ok ⟨ascii "echo", [⟨.error, ascii "/tmp/f"⟩]⟩ ∧
      Command.read (expandedWith b segment) =
        .ok ⟨ascii "echo 3", [⟨.output, ascii "/tmp/f"⟩]⟩ ∧
      ¬ ∀ (segment : Bytes) (a b : Nat → Captured) (x y : Command),
        Command.read (expandedWith a segment) = .ok x →
        Command.read (expandedWith b segment) = .ok y →
        SameRedirects a b (redirectTemplates segment) x.redirects y.redirects := by
  intro segment a b
  have templates : redirectTemplates segment = [⟨.output, (ascii "/tmp/f").map .byte⟩] := by
    decide +kernel
  have read : Command.read (expandedWith a segment) =
      .ok ⟨ascii "echo", [⟨.error, ascii "/tmp/f"⟩]⟩ := by
    decide +kernel
  have read' : Command.read (expandedWith b segment) =
      .ok ⟨ascii "echo 3", [⟨.output, ascii "/tmp/f"⟩]⟩ := by
    decide +kernel
  refine ⟨templates, read, read', fun agree => ?_⟩
  have same := agree segment a b _ _ read read'
  rw [templates] at same
  cases same with
  | cons kind => cases kind

end

end VirtualShell
