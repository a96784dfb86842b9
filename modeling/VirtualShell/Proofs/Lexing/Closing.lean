import Mathlib.Tactic.SplitIfs
import VirtualShell.Lexing.Substitution

/-!
# Two readers of a substitution

Where a line is cut, `Delimiters` keep the states around every open `$(` and parenthesis on a
stack; where a substitution is to be run, `closingParen?` keeps a count and the quotes of one level.
Inside a `$(` that stands in double quotes the stack starts afresh, while the search goes on
between the quotes it is in already: it sees the *parity* of the double quotes that are open
(`Scan.Sees`), and counts just what the stack holds at even parity.

* `Scan.Sees.step`, `Scan.Sees.enter`: reading on keeps the two in line, as long as no byte is read
  that means something at one parity only (`Mark.Legible`).
* `closingParen?_agrees`: then both find the same end of the substitution, or both find none.
* `closingParen?_disagrees`: a quoted parenthesis two levels deep is read in two ways.
-/

namespace VirtualShell

/-! ## The search for the end, byte by byte -/

/-- What the search for a closing parenthesis knows: how many are to come, and the quotes. -/
structure Scan where
  depth : Nat
  state : LexState
  resume : LexState

namespace Scan

/-- One byte of the search; `none` at the parenthesis that it looks for. -/
def step (s : Scan) (c : UInt8) : Option Scan :=
  match s.state with
  | .escaped => some { s with state := s.resume }
  | .singleQuoted => some (if c = Ascii.quote then { s with state := .normal } else s)
  | .doubleQuoted =>
    some (if c = Ascii.backslash then { s with state := .escaped, resume := .doubleQuoted }
      else if c = Ascii.doubleQuote then { s with state := .normal }
      else s)
  | .normal =>
    if c = Ascii.backslash then some { s with state := .escaped, resume := .normal }
    else if c = Ascii.doubleQuote then some { s with state := .doubleQuoted }
    else if c = Ascii.quote then some { s with state := .singleQuoted }
    else if c = Ascii.openParen then some { s with depth := s.depth + 1 }
    else if c = Ascii.closeParen then
      if s.depth ≤ 1 then none else some { s with depth := s.depth - 1 }
    else some s

/-- The search from what is known on. -/
def find? (s : Scan) (text : Bytes) : Option Nat := closingParenFrom? s.depth s.state s.resume text

theorem find?_cons (s : Scan) (c : UInt8) (rest : Bytes) :
    s.find? (c :: rest) =
      match s.step c with
      | none => some 0
      | some next => (next.find? rest).map (· + 1) := by
  obtain ⟨depth, state, resume⟩ := s
  rw [find?, closingParenFrom?.eq_def]
  cases state with
  | escaped => rfl
  | singleQuoted | doubleQuoted | normal =>
    dsimp only [step]
    split_ifs <;> rfl

theorem find?_cons_of_step {s next : Scan} {c : UInt8} (h : s.step c = some next) (rest : Bytes) :
    s.find? (c :: rest) = (next.find? rest).map (· + 1) := by
  rw [find?_cons, h]

/-! ## What the search sees of a stack -/

/-- An odd number of the states is in double quotes. -/
def odd : List LexState → Bool
  | [] => false
  | .doubleQuoted :: others => !odd others
  | _ :: others => odd others

@[simp] theorem odd_normal (others : List LexState) : odd (.normal :: others) = odd others := rfl

@[simp] theorem odd_doubleQuoted (others : List LexState) :
    odd (.doubleQuoted :: others) = !odd others := rfl

/-- How many of the states were entered at even parity. -/
def counted : List LexState → Nat
  | [] => 0
  | outer :: others => (if odd (outer :: others) then 0 else 1) + counted others

/-- A state as it looks at a parity: at odd parity what is quoted looks open, and what is open or in
single quotes looks quoted. -/
def look (odd : Bool) : LexState → LexState
  | .normal => if odd then .doubleQuoted else .normal
  | .doubleQuoted => if odd then .normal else .doubleQuoted
  | .singleQuoted => if odd then .doubleQuoted else .singleQuoted
  | .escaped => .escaped

/-- The states that a substitution or a parenthesis can be opened in. -/
def Openings (enclosing : List LexState) : Prop :=
  ∀ outer ∈ enclosing, outer = .normal ∨ outer = .doubleQuoted

/-- **The search sees the parity of the open double quotes**, and what was entered at even
parity. The first that was entered is a substitution at top level. -/
structure Sees (s : Scan) (d : Delimiters) : Prop where
  state : s.state = look (odd d.enclosing) d.state
  resume : d.state = .escaped → s.resume = look (odd d.enclosing) d.resume
  depth : s.depth = counted d.enclosing
  openings : Openings d.enclosing
  bottom : d.enclosing.getLast? = some .normal

theorem exists_doubleQuoted {enclosing : List LexState} (h : odd enclosing = true) :
    LexState.doubleQuoted ∈ enclosing := by
  induction enclosing with
  | nil => cases h
  | cons outer others ih =>
    cases outer with
    | doubleQuoted => exact List.mem_cons_self
    | normal | singleQuoted | escaped => exact List.mem_cons_of_mem _ (ih h)

/-- The substitution at the bottom is counted. -/
theorem counted_pos {enclosing : List LexState} (h : enclosing.getLast? = some .normal) :
    0 < counted enclosing := by
  induction enclosing with
  | nil => cases h
  | cons outer others ih =>
    cases others with
    | nil =>
      obtain rfl : outer = .normal := by simpa using h
      decide
    | cons next others =>
      have := ih (by simpa using h)
      rw [counted]
      omega

/-- Where the state around is left for, the search sees it again. -/
theorem look_of_opening {outer : LexState} (others : List LexState)
    (h : outer = .normal ∨ outer = .doubleQuoted) :
    look (odd others) outer = if odd (outer :: others) then .doubleQuoted else .normal := by
  rcases h with rfl | rfl
  · rfl
  · cases parity : odd others <;> simp [look, parity]

end Scan

/-! ## Bytes that mean the same at either parity -/

/-- Inside a substitution that stands in double quotes: no parenthesis and no single quote is read
in double quotes, no double quote and no backslash in single quotes. -/
def Mark.Legible (m : Mark) : Prop :=
  LexState.doubleQuoted ∈ m.before.enclosing →
    (m.before.state = .doubleQuoted →
      m.taken ≠ [Ascii.openParen] ∧ m.taken ≠ [Ascii.closeParen] ∧ m.taken ≠ [Ascii.quote]) ∧
    (m.before.state = .singleQuoted →
      m.taken ≠ [Ascii.doubleQuote] ∧ m.taken ≠ [Ascii.backslash])

instance (m : Mark) : Decidable m.Legible :=
  inferInstanceAs (Decidable (_ → (_ → _ ∧ _ ∧ _) ∧ (_ → _ ∧ _)))

namespace Delimiters

/-- The state and the number of open substitutions are those of the other delimiters again. -/
def isRestoredBy (d after : Delimiters) : Bool :=
  after.state == d.state && after.enclosing.length == d.enclosing.length

/-- Only a closing parenthesis outside quotes leaves the last substitution. -/
theorem of_enclosing_feed_eq_nil {d : Delimiters} {c : UInt8} (some : d.enclosing ≠ [])
    (h : (d.feed c).enclosing = []) :
    d.state = .normal ∧ c = Ascii.closeParen ∧ ∃ outer, d.enclosing = [outer] ∧
      (d.feed c).state = outer := by
  cases state : d.state with
  | escaped =>
    rw [feed, state] at h
    exact absurd h some
  | singleQuoted =>
    rw [feed, state] at h
    dsimp only at h
    split at h <;> exact absurd h some
  | doubleQuoted =>
    rw [feed, state] at h
    dsimp only at h
    repeat' split at h
    all_goals exact absurd h some
  | normal =>
    rw [feed, state] at h ⊢
    dsimp only at h ⊢
    by_cases closes : c = Ascii.closeParen
    · subst closes
      cases enclosing : d.enclosing with
      | nil => exact absurd enclosing some
      | cons outer others =>
        rw [enclosing] at h
        obtain rfl : others = [] := h
        exact ⟨rfl, rfl, outer, rfl, rfl⟩
    · rw [if_neg closes] at h
      repeat' split at h
      all_goals first | exact absurd h some | cases h

end Delimiters

namespace Scan.Sees

variable {s s' : Scan} {d d' : Delimiters} {c : UInt8}

/-- Where nothing is entered or left, the states and what escapes go back to are all to look at. -/
theorem move (h : s.Sees d) (stays : d'.enclosing = d.enclosing) (depth : s'.depth = s.depth)
    (state : s'.state = look (odd d.enclosing) d'.state)
    (resume : d'.state = .escaped → s'.resume = look (odd d.enclosing) d'.resume) :
    s'.Sees d' := by
  refine ⟨?_, ?_, ?_, ?_, ?_⟩
  · rw [stays, state]
  · rwa [stays]
  · rw [stays, depth, h.depth]
  · exact stays ▸ h.openings
  · exact stays ▸ h.bottom

/-- Something is entered: it is counted at even parity. -/
theorem push (h : s.Sees d) {outer : LexState} (opening : outer = .normal ∨ outer = .doubleQuoted)
    (enters : d'.enclosing = outer :: d.enclosing) (opens : d'.state = .normal)
    (depth : s'.depth = (if odd (outer :: d.enclosing) then 0 else 1) + s.depth)
    (state : s'.state = look (odd (outer :: d.enclosing)) .normal) : s'.Sees d' := by
  refine ⟨?_, ?_, ?_, ?_, ?_⟩
  · rw [enters, opens, state]
  · rw [opens]
    intro escaped
    cases escaped
  · rw [enters, counted, depth, h.depth]
  · rw [enters]
    exact List.forall_mem_cons.2 ⟨opening, h.openings⟩
  · rw [enters, List.getLast?_cons, h.bottom]
    rfl

theorem step_escaped (h : s.Sees d) (state : d.state = .escaped) :
    ∃ next, s.step c = some next ∧ next.Sees (d.feed c) := by
  have same : s.state = .escaped := by rw [h.state, state]; rfl
  have fed : d.feed c = { d with state := d.resume } := by rw [Delimiters.feed, state]
  refine ⟨{ s with state := s.resume }, by rw [Scan.step, same], ?_⟩
  rw [fed]
  exact h.move rfl rfl (h.resume state) fun _ => h.resume state

theorem step_singleQuoted (h : s.Sees d) (state : d.state = .singleQuoted)
    (plain : odd d.enclosing = true → c ≠ Ascii.doubleQuote ∧ c ≠ Ascii.backslash) :
    ∃ next, s.step c = some next ∧ next.Sees (d.feed c) := by
  have fed : d.feed c = if c = Ascii.quote then { d with state := .normal } else d := by
    rw [Delimiters.feed, state]
  have same := h.state
  rw [state] at same
  rw [fed]
  cases parity : odd d.enclosing with
  | false =>
    rw [parity] at same
    refine ⟨if c = Ascii.quote then { s with state := .normal } else s,
      by rw [Scan.step, same]; rfl, ?_⟩
    split
    · exact h.move rfl rfl (by rw [parity]; rfl) fun escaped => by cases escaped
    · exact h
  | true =>
    obtain ⟨noQuote, noEscape⟩ := plain parity
    rw [parity] at same
    refine ⟨s, ?_, ?_⟩
    · rw [Scan.step, same]
      simp [look, noQuote, noEscape]
    · split
      · exact h.move rfl rfl (by rw [parity, same]; rfl) fun escaped => by cases escaped
      · exact h

/-- A backslash that counts is seen as one at either parity. -/
theorem step_backslash (h : s.Sees d) (open_ : d.state = .normal ∨ d.state = .doubleQuoted) :
    ∃ next, s.step Ascii.backslash = some next ∧ next.Sees (d.feed Ascii.backslash) := by
  have same := h.state
  rw [Delimiters.feed_backslash open_]
  refine ⟨{ s with state := .escaped, resume := look (odd d.enclosing) d.state }, ?_,
    h.move rfl rfl rfl fun _ => rfl⟩
  rw [Scan.step, same]
  rcases open_ with state | state
  all_goals
    rw [state]
    cases odd d.enclosing <;> rfl

/-- A double quote that counts opens at one parity what it closes at the other. -/
theorem step_doubleQuote (h : s.Sees d) (open_ : d.state = .normal ∨ d.state = .doubleQuoted) :
    ∃ next, s.step Ascii.doubleQuote = some next ∧ next.Sees (d.feed Ascii.doubleQuote) := by
  have same := h.state
  rcases open_ with state | state
  · rw [state] at same
    rw [Delimiters.feed_doubleQuote state]
    refine ⟨{ s with state := look (odd d.enclosing) .doubleQuoted }, ?_,
      h.move rfl rfl rfl fun escaped => by cases escaped⟩
    rw [Scan.step, same]
    cases odd d.enclosing <;> rfl
  · rw [state] at same
    rw [Delimiters.feed_doubleQuote_of_doubleQuoted state]
    refine ⟨{ s with state := look (odd d.enclosing) .normal }, ?_,
      h.move rfl rfl rfl fun escaped => by cases escaped⟩
    rw [Scan.step, same]
    cases odd d.enclosing <;> rfl

/-- A byte that changes neither the state nor what is open. -/
theorem step_stays (h : s.Sees d) (open_ : d.state = .normal ∨ d.state = .doubleQuoted)
    (stays : (d.feed c).state = d.state ∧ (d.feed c).enclosing = d.enclosing)
    (same : s.step c = some s) : ∃ next, s.step c = some next ∧ next.Sees (d.feed c) := by
  refine ⟨s, same, h.move stays.2 rfl (by rw [stays.1, h.state]) fun escaped => ?_⟩
  rw [stays.1] at escaped
  rcases open_ with state | state
  all_goals
    rw [state] at escaped
    cases escaped

theorem step_doubleQuoted (h : s.Sees d) (state : d.state = .doubleQuoted)
    (plain : odd d.enclosing = true →
      c ≠ Ascii.openParen ∧ c ≠ Ascii.closeParen ∧ c ≠ Ascii.quote) :
    ∃ next, s.step c = some next ∧ next.Sees (d.feed c) := by
  by_cases escapes : c = Ascii.backslash
  · exact escapes ▸ h.step_backslash (.inr state)
  by_cases closes : c = Ascii.doubleQuote
  · exact closes ▸ h.step_doubleQuote (.inr state)
  refine h.step_stays (.inr state) ?_ ?_
  · rw [Delimiters.feed, state]
    dsimp only
    rw [if_neg escapes, if_neg closes]
    split
    · exact ⟨rfl, rfl⟩
    · exact ⟨state, rfl⟩
  · rw [Scan.step, h.state, state]
    cases parity : odd d.enclosing with
    | false => simp [look, escapes, closes]
    | true =>
      obtain ⟨noOpen, noClose, noQuote⟩ := plain parity
      simp [look, escapes, closes, noOpen, noClose, noQuote]

/-- Something is left: the search looks for the end of just what it has counted. -/
theorem step_closeParen (h : s.Sees d) (state : d.state = .normal) :
    (s.step Ascii.closeParen = none ∧ (d.feed Ascii.closeParen).enclosing = []) ∨
      ∃ next, s.step Ascii.closeParen = some next ∧ next.Sees (d.feed Ascii.closeParen) := by
  have same := h.state
  have depth := h.depth
  have openings := h.openings
  have bottom := h.bottom
  cases enclosing : d.enclosing with
  | nil =>
    rw [enclosing] at bottom
    cases bottom
  | cons outer others =>
    rw [enclosing] at same depth openings bottom
    rw [state] at same
    obtain ⟨opening, openings⟩ := List.forall_mem_cons.1 openings
    have back := look_of_opening others opening
    have fed : d.feed Ascii.closeParen = { d with state := outer, enclosing := others } := by
      rw [Delimiters.feed, state, enclosing]
      rfl
    rw [fed]
    cases others with
    | nil =>
      obtain rfl : outer = .normal := by simpa using bottom
      refine .inl ⟨?_, rfl⟩
      rw [Scan.step, same, depth]
      rfl
    | cons next others =>
      have bottom : (next :: others).getLast? = some .normal := by simpa using bottom
      have more := counted_pos bottom
      have unquoted : outer ≠ .escaped := by rcases opening with rfl | rfl <;> simp
      rw [counted] at depth
      right
      cases parity : odd (outer :: next :: others) with
      | true =>
        -- it was entered between quotes, where the search takes no notice
        rw [parity] at same depth back
        refine ⟨s, ?_, ?_, fun escaped => absurd escaped unquoted, ?_, openings, bottom⟩
        · rw [Scan.step, same]
          rfl
        · rw [same]
          exact back.symm
        · rw [depth]
          exact Nat.zero_add _
      | false =>
        rw [parity] at same depth back
        refine ⟨{ s with depth := s.depth - 1 }, ?_, ?_, fun escaped => absurd escaped unquoted, ?_,
          openings, bottom⟩
        · have several : ¬ s.depth ≤ 1 := by
            rw [depth]
            simp only [Bool.false_eq_true, if_false]
            omega
          rw [Scan.step, same]
          exact if_neg several
        · rw [same]
          exact back.symm
        · simp only [Bool.false_eq_true, if_false] at depth
          simp only
          omega

theorem step_quote (h : s.Sees d) (state : d.state = .normal) :
    ∃ next, s.step Ascii.quote = some next ∧ next.Sees (d.feed Ascii.quote) := by
  have same := h.state
  rw [state] at same
  rw [Delimiters.feed_quote state]
  refine ⟨{ s with state := look (odd d.enclosing) .singleQuoted }, ?_,
    h.move rfl rfl rfl fun escaped => by cases escaped⟩
  obtain ⟨depth, seen, resume⟩ := s
  obtain rfl : seen = look (odd d.enclosing) .normal := same
  rw [Scan.step]
  cases odd d.enclosing <;> rfl

/-- A parenthesis in a substitution is entered, and counted at even parity. -/
theorem step_openParen (h : s.Sees d) (state : d.state = .normal) :
    ∃ next, s.step Ascii.openParen = some next ∧ next.Sees (d.feed Ascii.openParen) := by
  have same := h.state
  rw [state] at same
  have inside : d.enclosing.isEmpty = false := by
    cases enclosing : d.enclosing with
    | nil =>
      have bottom := h.bottom
      rw [enclosing] at bottom
      cases bottom
    | cons => rfl
  have fed : d.feed Ascii.openParen = { d with enclosing := .normal :: d.enclosing } := by
    rw [Delimiters.feed, state, inside]
    rfl
  rw [fed]
  cases parity : odd d.enclosing with
  | true =>
    rw [parity] at same
    refine ⟨s, ?_, h.push (.inl rfl) rfl state ?_ ?_⟩
    · rw [Scan.step, same]
      rfl
    · simp [parity]
    · rw [odd_normal, parity, same]
  | false =>
    rw [parity] at same
    refine ⟨{ s with depth := s.depth + 1 }, ?_, h.push (.inl rfl) rfl state ?_ ?_⟩
    · rw [Scan.step, same]
      rfl
    · simp [parity, Nat.add_comm]
    · rw [odd_normal, parity]
      exact same

theorem step_normal (h : s.Sees d) (state : d.state = .normal) :
    (s.step c = none ∧ (d.feed c).enclosing = []) ∨
      ∃ next, s.step c = some next ∧ next.Sees (d.feed c) := by
  by_cases closes : c = Ascii.closeParen
  · exact closes ▸ h.step_closeParen state
  right
  by_cases escapes : c = Ascii.backslash
  · exact escapes ▸ h.step_backslash (.inl state)
  by_cases single : c = Ascii.quote
  · exact single ▸ h.step_quote state
  by_cases double : c = Ascii.doubleQuote
  · exact double ▸ h.step_doubleQuote (.inl state)
  by_cases opens : c = Ascii.openParen
  · exact opens ▸ h.step_openParen state
  refine h.step_stays (.inl state) ?_ ?_
  · rw [Delimiters.feed, state]
    dsimp only
    rw [if_neg escapes, if_neg single, if_neg double, if_neg opens, if_neg closes]
    split
    · exact ⟨rfl, rfl⟩
    · exact ⟨state, rfl⟩
  · rw [Scan.step, h.state, state]
    cases odd d.enclosing <;> simp [look, escapes, single, double, opens, closes]

/-- **A byte that is taken alone** keeps the search in line; where it leaves the last substitution
the search has found its end. -/
theorem step (h : s.Sees d) {m : Mark} (before : m.before = d) (taken : m.taken = [c])
    (legible : m.Legible) :
    (s.step c = none ∧ (d.feed c).enclosing = []) ∨
      ∃ next, s.step c = some next ∧ next.Sees (d.feed c) := by
  rw [Mark.Legible, before, taken] at legible
  simp only [ne_eq, List.cons.injEq, and_true] at legible
  cases state : d.state with
  | normal => exact h.step_normal state
  | escaped => exact .inr (h.step_escaped state)
  | singleQuoted =>
    exact .inr (h.step_singleQuoted state fun parity =>
      (legible (exists_doubleQuoted parity)).2 state)
  | doubleQuoted =>
    exact .inr (h.step_doubleQuoted state fun parity =>
      (legible (exists_doubleQuoted parity)).1 state)

/-- **Entering a substitution** keeps the search in line. -/
theorem enter (h : s.Sees d) (admits : d.admitsSubstitution = true) :
    ∃ next : Scan, next.Sees d.enter ∧ ∀ rest,
      s.find? (Ascii.dollar :: Ascii.openParen :: rest) = (next.find? rest).map (· + 2) := by
  have opening : d.state = .normal ∨ d.state = .doubleQuoted := by
    simpa [Delimiters.admitsSubstitution] using admits
  have same := h.state
  have back := look_of_opening d.enclosing opening
  rw [← same] at back
  have both : ∀ next : Scan, s.step Ascii.dollar = some s → s.step Ascii.openParen = some next →
      ∀ rest, s.find? (Ascii.dollar :: Ascii.openParen :: rest) =
        (next.find? rest).map (· + 2) := by
    intro next first second rest
    rw [find?_cons_of_step first, find?_cons_of_step second, Option.map_map]
    rfl
  cases parity : odd (d.state :: d.enclosing) with
  | true =>
    rw [parity] at back
    refine ⟨s, h.push opening rfl rfl ?_ ?_, both s ?_ ?_⟩
    · simp [parity]
    · rw [parity]
      exact back
    · rw [Scan.step, back]
      rfl
    · rw [Scan.step, back]
      rfl
  | false =>
    rw [parity] at back
    refine ⟨{ s with depth := s.depth + 1 }, h.push opening rfl rfl ?_ ?_, both _ ?_ ?_⟩
    · simp [parity, Nat.add_comm]
    · rw [parity]
      exact back
    · rw [Scan.step, back]
      rfl
    · rw [Scan.step, back]
      rfl

end Scan.Sees

/-! ## The same end -/

namespace Delimiters

variable {d : Delimiters}

/-- Where the steps first restore the state and the number of open substitutions: behind a closing
parenthesis with so many bytes before it, or nowhere. -/
def FirstRestored (d : Delimiters) (steps : List Mark) : Option Nat → Prop
  | some n => ∃ before close behind, steps = before ++ close :: behind ∧
      (before.flatMap Mark.taken).length = n ∧ close.taken = [Ascii.closeParen] ∧
      d.isRestoredBy close.after = true ∧ ∀ m ∈ before, d.isRestoredBy m.after = false
  | none => ∀ m ∈ steps, d.isRestoredBy m.after = false

/-- The steps up to the first that restores them. -/
def body (d : Delimiters) (steps : List Mark) : List Mark :=
  steps.takeWhile fun m => !d.isRestoredBy m.after

/-- A step that does not restore them only comes before. -/
theorem FirstRestored.cons {steps : List Mark} {r : Option Nat} (h : d.FirstRestored steps r)
    {m : Mark} (open_ : d.isRestoredBy m.after = false) :
    d.FirstRestored (m :: steps) (r.map (· + m.taken.length)) := by
  cases r with
  | none => exact List.forall_mem_cons.2 ⟨open_, h⟩
  | some n =>
    obtain ⟨before, close, behind, rfl, rfl, taken, restored, first⟩ := h
    refine ⟨m :: before, close, behind, rfl, ?_, taken, restored,
      List.forall_mem_cons.2 ⟨open_, first⟩⟩
    rw [List.flatMap_cons, List.length_append, Nat.add_comm]

theorem body_append {before behind : List Mark} {close : Mark}
    (first : ∀ m ∈ before, d.isRestoredBy m.after = false)
    (restored : d.isRestoredBy close.after = true) :
    d.body (before ++ close :: behind) = before := by
  rw [body, List.takeWhile_append_of_pos fun m mem => by rw [first m mem]; rfl,
    List.takeWhile_cons_of_neg (by simp [restored]), List.append_nil]

/-- They are restored first in one place. -/
theorem FirstRestored.unique {steps : List Mark} {r r' : Option Nat}
    (h : d.FirstRestored steps r) (h' : d.FirstRestored steps r') : r = r' := by
  cases r with
  | none =>
    cases r' with
    | none => rfl
    | some n =>
      obtain ⟨before, close, behind, rfl, -, -, restored, -⟩ := h'
      rw [h close (by simp)] at restored
      cases restored
  | some n =>
    obtain ⟨before, close, behind, rfl, rfl, -, restored, first⟩ := h
    cases r' with
    | none =>
      rw [h' close (by simp)] at restored
      cases restored
    | some n' =>
      obtain ⟨before', close', behind', same, rfl, -, restored', first'⟩ := h'
      have := @body_append d before behind close first restored
      rw [same, body_append first' restored'] at this
      rw [this]

end Delimiters

namespace Scan.Sees

variable {s : Scan} {d outer : Delimiters}

/-- What is open is not empty. -/
theorem enclosing_ne_nil (h : s.Sees d) : d.enclosing ≠ [] := by
  intro none
  have bottom := h.bottom
  rw [none] at bottom
  cases bottom

/-- A byte that is taken alone, with the steps behind it. -/
theorem finds_cons {c : UInt8} {rest : Bytes} {steps : List Mark} (h : s.Sees d)
    (unquoted : outer.state = .normal) (top : outer.enclosing = [])
    (legible : ∀ m ∈ outer.body (⟨[c], d, d.feed c⟩ :: steps), m.Legible)
    (onward : ∀ {next : Scan}, next.Sees (d.feed c) → (∀ m ∈ outer.body steps, m.Legible) →
      outer.FirstRestored steps (next.find? rest)) :
    outer.FirstRestored (⟨[c], d, d.feed c⟩ :: steps) (s.find? (c :: rest)) := by
  by_cases left : (d.feed c).enclosing = []
  · obtain ⟨state, rfl, last, enclosing, restores⟩ :=
      Delimiters.of_enclosing_feed_eq_nil h.enclosing_ne_nil left
    obtain rfl : last = .normal := by simpa [enclosing] using h.bottom
    rcases h.step_closeParen state with ⟨found, -⟩ | ⟨next, -, sees⟩
    · rw [find?_cons, found]
      refine ⟨[], _, steps, rfl, rfl, rfl, ?_, fun m mem => absurd mem List.not_mem_nil⟩
      simp [Delimiters.isRestoredBy, restores, left, unquoted, top]
    · exact absurd left sees.enclosing_ne_nil
  · have inside : outer.isRestoredBy (d.feed c) = false := by
      simp [Delimiters.isRestoredBy, top, left]
    rw [Delimiters.body, List.takeWhile_cons_of_pos (by simp [inside])] at legible
    obtain ⟨first, others⟩ := List.forall_mem_cons.1 legible
    rcases h.step rfl rfl first with ⟨-, none⟩ | ⟨next, found, sees⟩
    · exact absurd none left
    · rw [find?_cons_of_step found]
      exact (onward sees others).cons inside

/-- **The search finds where the delimiters are restored first.** -/
theorem finds {text : Bytes} (h : s.Sees d) (unquoted : outer.state = .normal)
    (top : outer.enclosing = []) (legible : ∀ m ∈ outer.body (marks d text), m.Legible) :
    outer.FirstRestored (marks d text) (s.find? text) := by
  fun_induction marks d text generalizing s with
  | case1 d => exact fun m mem => absurd mem List.not_mem_nil
  | case2 d c =>
    exact h.finds_cons unquoted top legible fun _ _ m mem => absurd mem List.not_mem_nil
  | case3 d c o rest opens ih =>
    obtain ⟨rfl, rfl, admits⟩ := opens
    have inside : outer.isRestoredBy d.enter = false := by
      simp [Delimiters.isRestoredBy, Delimiters.enter, top]
    rw [Delimiters.body, List.takeWhile_cons_of_pos (by simp [inside])] at legible
    obtain ⟨next, sees, found⟩ := h.enter admits
    rw [found]
    exact (ih sees (List.forall_mem_cons.1 legible).2).cons inside
  | case4 d c o rest plain ih =>
    exact h.finds_cons unquoted top legible fun sees others => ih sees others

end Scan.Sees

/-- **Two readers of one substitution.** At a `$(` at top level the delimiters are restored first
behind the parenthesis that the search for the closing one comes to, and never if it comes to none;
all as long as every step up to there is legible. -/
theorem closingParen?_agrees {d : Delimiters} {rest : Bytes} (top : d.atTopLevel = true)
    (legible : ∀ m ∈ d.body (marks d (ascii "$(" ++ rest)), m.Legible) :
    (∀ n, closingParen? rest = some n ↔
      d.FirstRestored (marks d (ascii "$(" ++ rest)) (some (n + 2))) ∧
    (closingParen? rest = none ↔ d.FirstRestored (marks d (ascii "$(" ++ rest)) none) := by
  have unquoted := Delimiters.state_of_atTopLevel top
  have empty : d.enclosing = [] := by
    simp only [Delimiters.atTopLevel, Bool.and_eq_true, List.isEmpty_iff] at top
    exact top.1.2
  have first : marks d (ascii "$(" ++ rest) =
      ⟨ascii "$(", d, d.enter⟩ :: marks d.enter rest := by
    exact if_pos ⟨rfl, rfl, by rw [Delimiters.admitsSubstitution, unquoted]; rfl⟩
  have inside : d.isRestoredBy d.enter = false := by
    simp [Delimiters.isRestoredBy, Delimiters.enter]
  have sees : Scan.Sees ⟨1, .normal, .normal⟩ d.enter := by
    rw [Delimiters.enter, unquoted, empty]
    exact ⟨rfl, (fun escaped => by cases escaped), rfl, List.forall_mem_singleton.2 (.inl rfl), rfl⟩
  rw [first, Delimiters.body, List.takeWhile_cons_of_pos (by simp [inside])] at legible
  have found : d.FirstRestored _ ((closingParen? rest).map (· + 2)) :=
    (sees.finds unquoted empty (List.forall_mem_cons.1 legible).2).cons
      (m := ⟨ascii "$(", d, d.enter⟩) inside
  rw [← first] at found
  refine ⟨fun n => ⟨fun h => ?_, fun h => ?_⟩, fun h => ?_, fun h => ?_⟩
  · rwa [h] at found
  · have same := found.unique h
    cases closing : closingParen? rest <;> simp_all
  · rwa [h] at found
  · have same := found.unique h
    cases closing : closingParen? rest <;> simp_all

/-- Double quotes in a substitution in double quotes are read alike. -/
theorem closingParen?_agrees_of_nested :
    let rest := ascii "echo \"$(echo \"x\")\")."
    closingParen? rest = some 18 ∧
      Delimiters.FirstRestored {} (marks {} (ascii "$(" ++ rest)) (some 20) := by
  have agrees := @closingParen?_agrees {} (ascii "echo \"$(echo \"x\")\").") rfl (by decide)
  exact ⟨by decide, (agrees.1 18).1 (by decide)⟩

/-- **A parenthesis in double quotes, in a substitution in double quotes**, ends the search too
early: it takes the inner quote that opens for one that closes. -/
theorem closingParen?_disagrees :
    let rest := ascii "echo \"$(echo \")\")\")"
    closingParen? rest = some 14 ∧
      Delimiters.FirstRestored {} (marks {} (ascii "$(" ++ rest)) (some 20) ∧
      ¬ ∀ n, closingParen? rest = some n ↔
        Delimiters.FirstRestored {} (marks {} (ascii "$(" ++ rest)) (some (n + 2)) := by
  have late : Delimiters.FirstRestored {} (marks {} (ascii "$(echo \"$(echo \")\")\")"))
      (some 20) := by
    refine ⟨(marks {} (ascii "$(echo \"$(echo \")\")\")")).take 18, _, [], rfl, rfl, rfl, rfl, ?_⟩
    decide
  refine ⟨by decide, late, fun agrees => ?_⟩
  cases ((agrees 14).1 (by decide)).unique late

end VirtualShell
