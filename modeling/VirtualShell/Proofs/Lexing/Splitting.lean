import VirtualShell.Proofs.Lexing.Runs

/-!
# Statements and logic chains

A line is cut into statements where it was joined from them with semicolons, and a statement into
the parts of a chain where it was joined from them with operators; and what any text is cut into is
not cut again (`splitting_laws`).

* `LogicPart.exists_rows_raw`: the raw parts are read by rows of steps with no operator in them.
* `LogicPart.raw_text`: what is joined with operators, cut and trimmed, is what was joined, with
  blanks around the operators or without.
* `LogicPart.mem_push`: all that a part can come from when empty parts hand their operators on.
-/

namespace VirtualShell

/-- The byte that is written twice. -/
def Connective.byte : Connective → UInt8
  | both => Ascii.ampersand
  | either => Ascii.bar

theorem Connective.symbol_eq (op : Connective) : op.symbol = [op.byte, op.byte] := by
  cases op <;> rfl

/-- The operator between blanks. -/
def Connective.between (op : Connective) : Bytes := Ascii.space :: op.symbol ++ [Ascii.space]

namespace LogicPart

/-! ## Operators in a reading -/

theorem connective?_eq_some_iff {m n : Mark} {op : Connective} :
    connective? m n = some op ↔ m.isTop op.byte = true ∧ n.taken = [op.byte] := by
  simp only [connective?, Mark.isTop, Bool.and_eq_true, beq_iff_eq]
  cases op with
  | both =>
    split
    next found => simp [found, Connective.byte]
    next other =>
      have : ¬ ((m.taken = [Ascii.ampersand] ∧ m.before.atTopLevel = true) ∧
        n.taken = [Ascii.ampersand]) := other
      split <;> simp [this, Connective.byte]
  | either =>
    split
    next found => simp [found.1.1, Connective.byte, (by decide : Ascii.ampersand ≠ Ascii.bar)]
    next => split <;> simp_all [Connective.byte]

theorem connective?_eq_none {m : Mark} (h : ∀ op : Connective, m.isTop op.byte = false)
    (n : Mark) : connective? m n = none :=
  Option.eq_none_iff_forall_ne_some.2 fun op found => by
    have top := (connective?_eq_some_iff.1 found).1
    rw [h op] at top
    cases top

theorem NoOperator.concat {steps : List Mark} (h : NoOperator steps) {n : Mark}
    (border : ∀ m ∈ steps.getLast?, connective? m n = none) : NoOperator (steps ++ [n]) := by
  refine List.isChain_append.2 ⟨h, List.isChain_singleton n, fun m last next first => ?_⟩
  obtain rfl : n = next := Option.some.inj first
  exact border m last

/-- The first operator ends the first part. -/
theorem raw_append_cons_cons {before behind : List Mark} {m n : Mark} {op : Connective}
    (h : NoOperator (before ++ [m])) (found : connective? m n = some op) :
    raw (before ++ m :: n :: behind) = ⟨before.flatMap Mark.taken, some op⟩ :: raw behind := by
  induction before with
  | nil =>
    rw [List.nil_append, raw, found]
    rfl
  | cons b before ih =>
    obtain ⟨here, rest⟩ := List.isChain_cons.1 h
    obtain ⟨next, others, eq⟩ : ∃ next others, before ++ m :: n :: behind = next :: others :=
      List.exists_cons_of_ne_nil (by simp)
    have none : connective? b next = none := by
      refine here next ?_
      cases before with
      | nil => exact (List.cons.inj eq).1 ▸ rfl
      | cons b' before => exact (List.cons.inj eq).1 ▸ rfl
    rw [List.cons_append, eq, raw, none, ← eq, ih rest]
    rfl

section

variable {d : Delimiters} {text : Bytes} (top : d.atTopLevel = true)
include top

/-- **Operators in a reading** are operators that stand in the text at top level. -/
theorem noOperator_marks_iff :
    NoOperator (marks d text) ↔ ∀ op : Connective, ¬ HasAtTop op.symbol text := by
  rw [NoOperator, List.isChain_iff_forall_rel_of_append_cons_cons]
  constructor
  · intro none op stands
    rw [op.symbol_eq] at stands
    have plain : IsPlain [op.byte, op.byte] := by cases op <;> decide
    obtain ⟨before, behind, here, eq⟩ := stands.exists_marks_eq top
      fun rest => plain.head?_append_ne (List.cons_ne_nil _ _) rest
    rw [plain.marks_append here] at eq
    refine absurd (none eq) ?_
    rw [connective?_eq_some_iff.2 ⟨by rw [Mark.isTop, here, beq_self_eq_true]; rfl, rfl⟩]
    exact Option.some_ne_none op
  · intro none m n before behind eq
    refine Option.eq_none_iff_forall_ne_some.2 fun op found => none op ?_
    obtain ⟨here, second⟩ := connective?_eq_some_iff.1 found
    rw [Mark.isTop, Bool.and_eq_true, beq_iff_eq] at here
    refine hasAtTop_of_marks_eq top eq here.2 ⟨behind.flatMap Mark.taken, ?_⟩
    rw [List.flatMap_cons, here.1, second, op.symbol_eq]
    rfl

end

/-- The raw parts of a text are read by rows of steps with no operator in them. -/
theorem exists_rows_raw {d : Delimiters} {text : Bytes} {steps : List Mark}
    (h : marks d text = steps) :
    ∃ rows, CutInto steps rows ∧
      (raw steps).map command = rows.map (List.flatMap Mark.taken) ∧
      ∀ row ∈ rows, NoOperator row := by
  fun_induction raw steps generalizing d text with
  | case1 => exact ⟨[[]], .whole _, rfl, by simp [NoOperator]⟩
  | case2 m => exact ⟨[[m]], .whole _, by simp, by simp [NoOperator]⟩
  | case3 m n rest op found ih =>
    obtain ⟨first, second⟩ := connective?_eq_some_iff.1 found
    have plain : Delimiters.isPlain op.byte = true := by cases op <;> rfl
    obtain ⟨-, _, -, behind, -⟩ := marks_eq_cons h
    obtain ⟨same, top⟩ := after_of_isTop h first plain
    obtain ⟨before, _, -, behind', -⟩ := marks_eq_cons behind
    have second : n.isTop op.byte = true := by
      rw [Mark.isTop, before, same, second, top, beq_self_eq_true]
      rfl
    obtain ⟨same', top'⟩ := after_of_isTop behind second plain
    obtain ⟨rows, cut, commands, none⟩ := ih behind'
    refine ⟨[] :: rows, .cut [] [m] (same' ▸ top') cut, ?_, ?_⟩
    · rw [List.map_cons, List.map_cons, commands]
      rfl
    · exact List.forall_mem_cons.2 ⟨List.isChain_nil, none⟩
  | case4 m n rest _ nothing ih =>
    obtain ⟨-, _, -, behind, -⟩ := marks_eq_cons h
    obtain ⟨rows, cut, commands, -⟩ := ih behind
    obtain ⟨row, others, rfl⟩ := cut.exists_eq_cons
    rw [nothing] at commands
    cases commands
  | case5 m n rest found first others eq ih =>
    obtain ⟨-, _, -, behind, -⟩ := marks_eq_cons h
    obtain ⟨rows, cut, commands, none⟩ := ih behind
    obtain ⟨row, others', rfl⟩ := cut.exists_eq_cons
    rw [eq, List.map_cons, List.map_cons, List.cons.injEq] at commands
    obtain ⟨here, others'_none⟩ := List.forall_mem_cons.1 none
    refine ⟨(m :: row) :: others', cut.cons m, ?_, List.forall_mem_cons.2 ⟨?_, others'_none⟩⟩
    · rw [List.map_cons, List.map_cons, commands.2, List.flatMap_cons, ← commands.1]
    · refine List.isChain_cons.2 ⟨fun next mem => ?_, here⟩
      -- the row starts with the step behind
      obtain ⟨tail, row_eq⟩ := cut.isPrefix
      cases row with
      | nil => cases mem
      | cons b row =>
        obtain rfl : b = next := Option.some.inj mem
        exact (List.cons.inj row_eq).1 ▸ found

/-! ## Joining -/

/-- The part with the operator behind it. -/
def text (part : LogicPart) : Bytes :=
  part.command ++ (part.operator.map Connective.between).getD []

/-- The parts with their operators between them. -/
def join (parts : List LogicPart) : Bytes := parts.flatMap text

/-- The part without the blanks around it. -/
def trimmed (part : LogicPart) : LogicPart := { part with command := Bytes.trim part.command }

end LogicPart

/-- Every part but the last has an operator behind it, and the last has none. -/
structure IsChained (parts : List LogicPart) : Prop where
  inner : ∀ part ∈ parts.dropLast, part.operator.isSome = true
  last : ∀ part ∈ parts.getLast?, part.operator = none

/-- A text that can be a part of a chain: a piece with no operator at top level. -/
structure IsLink (text : Bytes) : Prop where
  piece : IsPiece text
  noOperator : ∀ op : Connective, ¬ HasAtTop op.symbol text

instance (text : Bytes) : Decidable (IsLink text) :=
  decidable_of_iff (IsPiece text ∧ ¬ HasAtTop (ascii "&&") text ∧ ¬ HasAtTop (ascii "||") text)
    ⟨fun ⟨piece, both, either⟩ => ⟨piece, fun op => match op with
      | .both => both
      | .either => either⟩, fun h => ⟨h.piece, h.noOperator .both, h.noOperator .either⟩⟩

namespace IsChained

theorem singleton_iff {part : LogicPart} : IsChained [part] ↔ part.operator = none :=
  ⟨fun h => h.last part rfl, fun h => ⟨nofun, fun _ mem => Option.some.inj mem ▸ h⟩⟩

theorem cons_iff {part next : LogicPart} {parts : List LogicPart} :
    IsChained (part :: next :: parts) ↔
      part.operator.isSome = true ∧ IsChained (next :: parts) := by
  constructor
  · intro h
    have inner := h.inner
    rw [List.dropLast_cons_cons, List.forall_mem_cons] at inner
    exact ⟨inner.1, inner.2, fun p mem => h.last p (by rwa [List.getLast?_cons_cons])⟩
  · rintro ⟨here, rest⟩
    refine ⟨?_, fun p mem => rest.last p (by rwa [List.getLast?_cons_cons] at mem)⟩
    rw [List.dropLast_cons_cons, List.forall_mem_cons]
    exact ⟨here, rest.inner⟩

end IsChained

namespace LogicPart

/-- Behind a text without operators an operator cuts, unless it is read from the last byte of the
text on. -/
theorem raw_append_operator {d : Delimiters} {text : Bytes} (op : Connective) (rest : Bytes)
    (h : NoOperator (marks d text)) (top : (d.read text).atTopLevel = true)
    (apart : ∀ m ∈ (marks d text).getLast?, m.isTop op.byte = false) :
    raw (marks d (text ++ (op.symbol ++ rest))) =
      ⟨text, some op⟩ :: raw (marks (d.read text) rest) := by
  rw [marks_append_plain (by cases op <;> decide) (by cases op <;> decide) top, op.symbol_eq]
  generalize d.read text = e at top ⊢
  have here : (Mark.mk [op.byte] e e).isTop op.byte = true := by
    rw [Mark.isTop, top, beq_self_eq_true]
    rfl
  have found : connective? ⟨[op.byte], e, e⟩ ⟨[op.byte], e, e⟩ = some op :=
    connective?_eq_some_iff.2 ⟨here, rfl⟩
  have before : NoOperator (marks d text ++ [⟨[op.byte], e, e⟩]) := by
    refine h.concat fun m last => Option.eq_none_iff_forall_ne_some.2 fun op' found => ?_
    obtain ⟨early, second⟩ := connective?_eq_some_iff.1 found
    obtain rfl : op = op' := by cases op <;> cases op' <;> first | rfl | cases second
    exact absurd early (Bool.eq_false_iff.1 (apart m last))
  have steps : marks d text ++ ([op.byte, op.byte].map (fun c => Mark.mk [c] e e) ++ marks e rest) =
      marks d text ++ ⟨[op.byte], e, e⟩ :: ⟨[op.byte], e, e⟩ :: marks e rest := rfl
  rw [steps, raw_append_cons_cons before found, flatMap_taken_marks]

/-- Blanks behind a text make no operator. -/
theorem NoOperator.append_blank {d : Delimiters} {text blank : Bytes}
    (h : NoOperator (marks d text)) (hb : IsBlank blank) :
    NoOperator (marks d (text ++ blank)) := by
  rw [marks_append hb.head?_ne_openParen]
  refine List.isChain_append.2 ⟨h, noOperator_of_forall_mem fun m mem => ?_, fun m _ n first => ?_⟩
  · exact connective?_eq_none fun op => hb.not_isTop op.byte (by cases op <;> rfl) _ m mem
  · refine Option.eq_none_iff_forall_ne_some.2 fun op found => ?_
    obtain ⟨others, eq⟩ := List.head?_eq_some_iff.1 first
    obtain ⟨-, rest, split, -⟩ := marks_eq_cons eq
    have separator : isSeparator op.byte = true := by
      refine hb op.byte ?_
      rw [split, (connective?_eq_some_iff.1 found).2]
      exact List.mem_cons_self
    cases op <;> cases separator

end LogicPart

/-! ## Chains -/

/-- An operator between two commands, with what stands around it. -/
structure Joint where
  before : Bytes
  operator : Connective
  after : Bytes

namespace Joint

def text (j : Joint) : Bytes := j.before ++ (j.operator.symbol ++ j.after)

/-- The operator can stand behind the command: there are no more than blanks around it, and where
there are none before it the command does not end, at top level, in a byte of it. -/
structure Fits (command : Bytes) (j : Joint) : Prop where
  before : IsBlank j.before
  after : IsBlank j.after
  apart : j.before = [] → ¬ ∃ start, command = start ++ [j.operator.byte] ∧
    (Delimiters.read {} start).atTopLevel = true

/-- Between blanks every operator does. -/
def between (op : Connective) : Joint := ⟨[Ascii.space], op, [Ascii.space]⟩

theorem fits_between (command : Bytes) (op : Connective) : (between op).Fits command :=
  ⟨isBlank_space, isBlank_space, nofun⟩

end Joint

/-- Commands with an operator between each two. -/
inductive LogicChain
  | last (command : Bytes)
  | joined (command : Bytes) (joint : Joint) (rest : LogicChain)

namespace LogicChain

def text : LogicChain → Bytes
  | last command => command
  | joined command joint rest => command ++ (joint.text ++ rest.text)

def commands : LogicChain → List Bytes
  | last command => [command]
  | joined command _ rest => command :: rest.commands

/-- The commands as the parts of a statement, each with the operator behind it. -/
def parts : LogicChain → List LogicPart
  | last command => [⟨command, none⟩]
  | joined command joint rest => ⟨command, some joint.operator⟩ :: rest.parts

/-- Each command is a text that can be a part, and each operator can stand where it does. -/
def IsJoined : LogicChain → Prop
  | last command => IsLink command
  | joined command joint rest => IsLink command ∧ joint.Fits command ∧ rest.IsJoined

theorem IsJoined.isLink {chain : LogicChain} (h : chain.IsJoined) :
    ∀ part ∈ chain.parts, IsLink part.command := by
  induction chain with
  | last command => exact List.forall_mem_singleton.2 h
  | joined command joint rest ih => exact List.forall_mem_cons.2 ⟨h.1, ih h.2.2⟩

end LogicChain

namespace LogicPart

section

variable {blank command : Bytes} {d : Delimiters}

/-- Among blanks a command makes no operator. -/
theorem noOperator_of_isLink (link : IsLink command) (hb : IsBlank blank)
    (top : d.atTopLevel = true) : NoOperator (marks d (blank ++ command)) := by
  rw [marks_blank_append hb top]
  refine ((noOperator_marks_iff top).2 link.noOperator).append_left fun m mem => ?_
  exact connective?_eq_none fun op => hb.not_isTop op.byte (by cases op <;> rfl) d m mem

/-- Behind a command that it fits, an operator is not read a byte early. -/
theorem isTop_last_eq_false {j : Joint} (fits : j.Fits command) (link : IsLink command)
    (hb : IsBlank blank) (top : d.atTopLevel = true) :
    ∀ m ∈ (marks d (blank ++ command ++ j.before)).getLast?, m.isTop j.operator.byte = false := by
  intro m last
  obtain ⟨others, eq⟩ := List.getLast?_eq_some_iff.1 last
  refine Bool.eq_false_iff.2 fun early => ?_
  rw [Mark.isTop, Bool.and_eq_true, beq_iff_eq] at early
  have split := eq_of_marks_eq eq
  rw [early.1, List.flatMap_nil, List.append_nil] at split
  rcases j.before.eq_nil_or_concat with none | ⟨blanks, c, eq_concat⟩
  · -- the byte is the last of the command
    rw [none, List.append_nil] at split
    obtain ⟨start, c, rfl⟩ := (List.eq_nil_or_concat command).resolve_left link.piece.nonempty
    rw [List.concat_eq_append, ← List.append_assoc] at split
    obtain ⟨before, last⟩ := List.append_inj' split rfl
    refine fits.apart none ⟨start, by rw [List.concat_eq_append, last], ?_⟩
    rw [← Delimiters.atTopLevel_read top, ← read_blank_append hb top, before,
      ← before_of_marks_eq eq, early.2]
  · rw [eq_concat, List.concat_eq_append, ← List.append_assoc] at split
    obtain rfl : c = j.operator.byte := List.singleton_inj.1 (List.append_inj_right' split rfl)
    have separator := fits.before j.operator.byte (by simp [eq_concat])
    cases op : j.operator <;> rw [op] at separator <;> cases separator

end

/-- Behind blanks, as after an operator, what is joined is cut where it was. -/
theorem raw_text {chain : LogicChain} (h : chain.IsJoined) {blank : Bytes} (hb : IsBlank blank)
    {d : Delimiters} (top : d.atTopLevel = true) :
    (raw (marks d (blank ++ chain.text))).map trimmed = chain.parts := by
  induction chain generalizing blank d with
  | last command =>
    have trim_eq := h.piece.trim_eq hb isBlank_nil
    rw [List.append_nil] at trim_eq
    rw [LogicChain.text, raw_of_noOperator (noOperator_of_isLink h hb top), flatMap_taken_marks,
      List.map_singleton, trimmed, trim_eq]
    rfl
  | joined command joint rest ih =>
    obtain ⟨link, fits, others⟩ := h
    have ends : (d.read (blank ++ command ++ joint.before)).atTopLevel = true := by
      have ends : (d.read (blank ++ command)).atTopLevel = true := by
        rw [read_blank_append hb top]
        exact link.piece.atTopLevel top
      rw [Delimiters.read_append fits.before.head?_ne_openParen, ← List.append_nil joint.before,
        read_blank_append fits.before ends]
      exact ends
    have text_eq : blank ++ (LogicChain.joined command joint rest).text =
        blank ++ command ++ joint.before ++
          (joint.operator.symbol ++ (joint.after ++ rest.text)) := by
      simp [LogicChain.text, Joint.text]
    have quiet := (noOperator_of_isLink link hb top).append_blank fits.before
    rw [text_eq, raw_append_operator _ _ quiet ends (isTop_last_eq_false fits link hb top),
      List.map_cons, ih others fits.after ends, trimmed, link.piece.trim_eq hb fits.before]
    rfl

/-! ## Empty parts -/

/-- What a part comes from: a part done before, perhaps with the operator of an empty part behind
it, or a raw part with something in it. -/
theorem mem_push {done : List LogicPart} {part p : LogicPart} (h : p ∈ push done part) :
    (∃ q ∈ done, p.command = q.command ∧
        (p.operator = q.operator ∨ p.operator = part.operator)) ∨
      (p = part.trimmed ∧ Bytes.trim part.command ≠ []) := by
  unfold push at h
  dsimp only at h
  split at h
  next full =>
    rcases List.mem_cons.1 h with rfl | h
    · exact .inr ⟨rfl, by simpa using full⟩
    · exact .inl ⟨p, h, rfl, .inl rfl⟩
  next =>
    cases done with
    | nil => cases h
    | cons before earlier =>
      rcases List.mem_cons.1 h with rfl | h
      · exact .inl ⟨before, List.mem_cons_self, rfl, .inr rfl⟩
      · exact .inl ⟨p, List.mem_cons_of_mem _ h, rfl, .inl rfl⟩

theorem foldl_push_of_ne_nil {parts : List LogicPart} (done : List LogicPart)
    (full : ∀ part ∈ parts, Bytes.trim part.command ≠ []) :
    parts.foldl push done = (parts.map trimmed).reverse ++ done := by
  induction parts generalizing done with
  | nil => rfl
  | cons part parts ih =>
    obtain ⟨here, others⟩ := List.forall_mem_cons.1 full
    have pushed : push done part = part.trimmed :: done := if_pos (by simpa using here)
    rw [List.foldl_cons, pushed, ih _ others]
    simp

theorem mem_foldl_push {parts done : List LogicPart} {p : LogicPart}
    (h : p ∈ parts.foldl push done) :
    (∃ q ∈ done, p.command = q.command) ∨
      ∃ part ∈ parts, p.command = Bytes.trim part.command ∧ p.command ≠ [] := by
  induction parts generalizing done with
  | nil => exact .inl ⟨p, h, rfl⟩
  | cons part parts ih =>
    rcases ih h with ⟨q, mem, eq⟩ | ⟨part', mem, eq⟩
    · rcases mem_push mem with ⟨q', mem, eq', -⟩ | ⟨rfl, full⟩
      · exact .inl ⟨q', mem, eq.trans eq'⟩
      · exact .inr ⟨part, List.mem_cons_self, eq, eq ▸ full⟩
    · exact .inr ⟨part', List.mem_cons_of_mem _ mem, eq⟩

/-- Parts with an operator behind each leave no part without one. -/
theorem isSome_of_mem_foldl_push {parts done : List LogicPart}
    (h : ∀ part ∈ parts, part.operator.isSome = true) (hd : ∀ q ∈ done, q.operator.isSome = true) :
    ∀ p ∈ parts.foldl push done, p.operator.isSome = true := by
  induction parts generalizing done with
  | nil => exact hd
  | cons part parts ih =>
    obtain ⟨here, others⟩ := List.forall_mem_cons.1 h
    refine ih others fun p mem => ?_
    rcases mem_push mem with ⟨q, mem, -, eq | eq⟩ | ⟨rfl, -⟩
    · exact eq ▸ hd q mem
    · exact eq ▸ here
    · exact here

theorem isChained_raw (steps : List Mark) : IsChained (raw steps) ∧ raw steps ≠ [] := by
  fun_induction raw steps with
  | case1 => exact ⟨IsChained.singleton_iff.2 rfl, List.cons_ne_nil _ _⟩
  | case2 => exact ⟨IsChained.singleton_iff.2 rfl, List.cons_ne_nil _ _⟩
  | case3 m n rest op _ ih =>
    obtain ⟨next, others, eq⟩ := List.exists_cons_of_ne_nil ih.2
    rw [eq] at ih ⊢
    exact ⟨IsChained.cons_iff.2 ⟨rfl, ih.1⟩, List.cons_ne_nil _ _⟩
  | case4 m n rest _ nothing ih => exact absurd nothing ih.2
  | case5 m n rest _ first others eq ih =>
    rw [eq] at ih
    refine ⟨?_, List.cons_ne_nil _ _⟩
    cases others with
    | nil =>
      have last : first.operator = none := IsChained.singleton_iff.1 ih.1
      exact IsChained.singleton_iff.2 last
    | cons next others =>
      obtain ⟨joined, rest⟩ := IsChained.cons_iff.1 ih.1
      exact IsChained.cons_iff.2 ⟨joined, rest⟩

/-- The last part hands on no operator. -/
theorem isChained_reverse_push {done : List LogicPart} {part : LogicPart}
    (last : part.operator = none) (hd : ∀ q ∈ done, q.operator.isSome = true) :
    IsChained (push done part).reverse := by
  have ended {p : LogicPart} {others : List LogicPart} (none : p.operator = Option.none)
      (h : ∀ q ∈ others, q.operator.isSome = true) : IsChained (p :: others).reverse := by
    rw [List.reverse_cons]
    refine ⟨fun q mem => h q ?_, fun q mem => ?_⟩
    · rwa [List.dropLast_concat, List.mem_reverse] at mem
    · rw [List.getLast?_concat] at mem
      exact Option.some.inj mem ▸ none
  unfold push
  dsimp only
  split
  · exact ended last hd
  · cases done with
    | nil => exact ⟨nofun, nofun⟩
    | cons before earlier => exact ended last (List.forall_mem_cons.1 hd).2

end LogicPart

/-- **The operators of a chain** stand between its parts. -/
theorem isChained_logicParts (statement : Bytes) : IsChained (logicParts statement) := by
  obtain ⟨chained, some⟩ := LogicPart.isChained_raw (marks {} statement)
  obtain ⟨parts, last, eq⟩ := (List.eq_nil_or_concat _).resolve_left some
  rw [List.concat_eq_append] at eq
  rw [logicParts, eq, List.foldl_concat]
  rw [eq] at chained
  refine LogicPart.isChained_reverse_push (chained.last last (by rw [List.getLast?_concat]; rfl)) ?_
  refine LogicPart.isSome_of_mem_foldl_push (fun part mem => chained.inner part ?_)
    fun _ mem => absurd mem List.not_mem_nil
  rwa [List.dropLast_concat]

/-- **What operators join** is cut into just the commands again. -/
theorem logicParts_text {chain : LogicChain} (h : chain.IsJoined) :
    logicParts chain.text = chain.parts := by
  have cut : (LogicPart.raw (marks {} chain.text)).map LogicPart.trimmed = chain.parts :=
    LogicPart.raw_text h isBlank_nil rfl
  have full : ∀ raw ∈ LogicPart.raw (marks {} chain.text), Bytes.trim raw.command ≠ [] :=
    fun raw mem => (h.isLink _ (cut ▸ List.mem_map_of_mem mem)).piece.nonempty
  rw [logicParts, LogicPart.foldl_push_of_ne_nil [] full, cut, List.append_nil,
    List.reverse_reverse]

/-- Parts with their operators between blanks are a chain. -/
theorem IsChained.exists_chain {parts : List LogicPart} (chained : IsChained parts)
    (some : parts ≠ []) (links : ∀ part ∈ parts, IsLink part.command) :
    ∃ chain : LogicChain, chain.IsJoined ∧ chain.parts = parts ∧
      chain.text = LogicPart.join parts := by
  induction parts with
  | nil => exact absurd rfl some
  | cons part parts ih =>
    obtain ⟨link, others⟩ := List.forall_mem_cons.1 links
    obtain ⟨command, operator⟩ := part
    cases parts with
    | nil =>
      obtain rfl : operator = none := IsChained.singleton_iff.1 chained
      exact ⟨.last command, link, rfl, by simp [LogicChain.text, LogicPart.join, LogicPart.text]⟩
    | cons next parts =>
      obtain ⟨joined, rest⟩ := IsChained.cons_iff.1 chained
      obtain ⟨op, rfl⟩ := Option.isSome_iff_exists.1 joined
      obtain ⟨chain, isJoined, parts_eq, text_eq⟩ := ih rest (List.cons_ne_nil _ _) others
      refine ⟨.joined command (.between op) chain, ⟨link, Joint.fits_between command op, isJoined⟩,
        congrArg (_ :: ·) parts_eq, ?_⟩
      rw [LogicChain.text, text_eq]
      simp [LogicPart.join, LogicPart.text, Joint.text, Joint.between, Connective.between]

/-- Between blanks the operators of a chain join just its parts. -/
theorem logicParts_join {parts : List LogicPart} (chained : IsChained parts)
    (links : ∀ part ∈ parts, IsLink part.command) :
    logicParts (LogicPart.join parts) = parts := by
  cases parts with
  | nil => rfl
  | cons part parts =>
    obtain ⟨chain, isJoined, parts_eq, text_eq⟩ :=
      chained.exists_chain (List.cons_ne_nil _ _) links
    rw [← text_eq, logicParts_text isJoined, parts_eq]

/-- A part of a chain is a trimmed text with no operator at top level. -/
theorem command_of_mem_logicParts {statement : Bytes} {part : LogicPart}
    (h : part ∈ logicParts statement) :
    part.command ≠ [] ∧ Bytes.trim part.command = part.command ∧
      ∀ op : Connective, ¬ HasAtTop op.symbol part.command := by
  rw [logicParts, List.mem_reverse] at h
  obtain ⟨q, mem, -⟩ | ⟨raw, mem, eq, full⟩ := LogicPart.mem_foldl_push h
  · cases mem
  obtain ⟨rows, cut, commands, none⟩ := LogicPart.exists_rows_raw (rfl : marks {} statement = _)
  obtain ⟨row, mem, row_eq⟩ := List.mem_map.1 (commands ▸ List.mem_map_of_mem mem)
  obtain ⟨e, top, alone⟩ := cut.exists_marks_eq mem
  rw [row_eq] at alone
  refine ⟨full, by rw [eq, Bytes.trim_trim], fun op stands => ?_⟩
  rw [eq] at stands
  exact (LogicPart.noOperator_marks_iff top).1 (alone.symm ▸ none row mem) op stands.of_trim

/-- Such a text is one part. -/
theorem logicParts_eq_singleton {text : Bytes} (some : text ≠ []) (trimmed : Bytes.trim text = text)
    (none : ∀ op : Connective, ¬ HasAtTop op.symbol text) :
    logicParts text = [⟨text, Option.none⟩] := by
  have full : ∀ part ∈ [LogicPart.mk text Option.none], Bytes.trim part.command ≠ [] :=
    List.forall_mem_singleton.2 (by rwa [trimmed])
  rw [logicParts, LogicPart.raw_of_noOperator ((LogicPart.noOperator_marks_iff rfl).2 none),
    flatMap_taken_marks, LogicPart.foldl_push_of_ne_nil [] full]
  simp [LogicPart.trimmed, trimmed]

/-! ## Statements -/

theorem mem_trimmedPieces {raw : List Bytes} {piece : Bytes} :
    piece ∈ trimmedPieces raw ↔ (∃ text ∈ raw, Bytes.trim text = piece) ∧ piece ≠ [] := by
  simp [trimmedPieces]

/-- A statement is a trimmed text with no semicolon at top level. -/
theorem statement_of_mem_statements {line piece : Bytes} (h : piece ∈ statements line) :
    piece ≠ [] ∧ Bytes.trim piece = piece ∧ IsFreeOf Ascii.semicolon piece := by
  obtain ⟨⟨raw, mem, rfl⟩, some⟩ := mem_trimmedPieces.1 h
  exact ⟨some, Bytes.trim_trim raw,
    (isFreeOf_trim_iff rfl).2 (isFreeOf_of_mem_cutWhere rfl mem)⟩

/-- Such a text is one statement. -/
theorem statements_eq_singleton {text : Bytes} (some : text ≠ []) (trimmed : Bytes.trim text = text)
    (free : IsFreeOf Ascii.semicolon text) : statements text = [text] := by
  rw [statements, rawStatements, cutWhere_of_forall_mem fun m mem _ _ => free m mem,
    flatMap_taken_marks, trimmedPieces_cons (by rwa [trimmed]), trimmed]
  rfl

/-- **Cutting undoes joining, and cuts nowhere else.** Pieces that leave nothing open and have no
semicolon at top level are the statements of what they make when joined with semicolons, and parts
without an operator at top level are those of the chain that they make with their operators.
Whatever the text, and whatever it leaves open, a statement or a part of it is not empty, is trimmed
and is all that is found when it is cut again; each part but the last has its operator, and the last
none. -/
theorem splitting_laws :
    (∀ pieces : List Bytes,
      (∀ piece ∈ pieces, IsPiece piece ∧ IsFreeOf Ascii.semicolon piece) →
        statements (Bytes.join [Ascii.semicolon] pieces) = pieces) ∧
    (∀ parts : List LogicPart, IsChained parts → (∀ part ∈ parts, IsLink part.command) →
      logicParts (LogicPart.join parts) = parts) ∧
    (∀ line, ∀ piece ∈ statements line,
      piece ≠ [] ∧ Bytes.trim piece = piece ∧ statements piece = [piece]) ∧
    ∀ statement, IsChained (logicParts statement) ∧
      ∀ part ∈ logicParts statement, part.command ≠ [] ∧
        Bytes.trim part.command = part.command ∧
          logicParts part.command = [⟨part.command, none⟩] := by
  refine ⟨fun pieces h => ?_, fun parts chained links => logicParts_join chained links,
    fun line piece mem => ?_, fun statement => ⟨isChained_logicParts statement, ?_⟩⟩
  · exact statements_join (fun piece mem => (h piece mem).1) fun piece mem => (h piece mem).2
  · obtain ⟨some, trimmed, free⟩ := statement_of_mem_statements mem
    exact ⟨some, trimmed, statements_eq_singleton some trimmed free⟩
  · intro part mem
    obtain ⟨some, trimmed, none⟩ := command_of_mem_logicParts mem
    exact ⟨some, trimmed, logicParts_eq_singleton some trimmed none⟩

/-- Separators that are quoted, escaped, substituted or not written twice are no borders, and a
quote that is left open takes the rest of its line. -/
theorem splitting_laws_of_quoted :
    let pieces := [ascii "echo 'a;b'", ascii "echo \"$(ls; ls)\" \\;"]
    let parts : List LogicPart := [⟨ascii "echo 'a && b' &", some .both⟩,
      ⟨ascii "ls | wc", some .either⟩, ⟨ascii "echo `a || b`", none⟩]
    let line := ascii " ls ;; echo 'a ; b  "
    let piece := ascii "echo 'a ; b"
    let statement := ascii "|| ls && || echo \"a && b "
    let part : LogicPart := ⟨ascii "echo \"a && b", none⟩
    statements (Bytes.join [Ascii.semicolon] pieces) = pieces ∧
      logicParts (LogicPart.join parts) = parts ∧
      (piece ≠ [] ∧ Bytes.trim piece = piece ∧ statements piece = [piece]) ∧
      piece ∈ statements line ∧ IsChained (logicParts statement) ∧
      part ∈ logicParts statement ∧ logicParts part.command = [part] := by
  intro pieces parts line piece statement part
  have mem : piece ∈ statements line := by decide
  have mem' : part ∈ logicParts statement := by decide
  have link {text : Bytes} (h : IsPiece text) (h' : ¬ HasAtTop (ascii "&&") text)
      (h'' : ¬ HasAtTop (ascii "||") text) : IsLink text :=
    ⟨h, fun op => match op with
      | .both => h'
      | .either => h''⟩
  obtain ⟨joined, chained, cut, cut'⟩ := splitting_laws
  refine ⟨joined pieces (by decide), chained parts ⟨by decide, by decide⟩ ?_, cut line piece mem,
    mem, (cut' statement).1, mem', ((cut' statement).2 part mem').2.2⟩
  simp only [parts, List.forall_mem_cons]
  exact ⟨link (by decide) (by decide) (by decide), link (by decide) (by decide) (by decide),
    link (by decide) (by decide) (by decide), nofun⟩

end VirtualShell
