import Mathlib.Data.List.Infix
import VirtualShell.Proofs.Lexing.Joining

/-!
# The steps that read a piece

A text is read by steps, and cutting it takes the steps apart. What is cut out is read, alone, by
just the steps that read it in the text (`marks_eq_append`), from a state at top level, since a cut
is at top level and leaves everything as it is (`CutInto.exists_marks_eq`). Such a piece read from
the start is read alike, with or without the blanks at its ends. So what is not cut in the text is
not cut in the piece, and the other way round.

* `runs`: the steps of the pieces that `cutWhere` makes.
* `HasAtTop`: bytes that stand in a text at top level, said of the text alone; so it can be carried
  from a text to its pieces and back.
-/

namespace VirtualShell

/-! ## Part of a reading -/

/-- The first step of a reading: it takes one byte, or the two that open a substitution. -/
theorem marks_eq_cons {d : Delimiters} {text : Bytes} {m : Mark} {others : List Mark}
    (h : marks d text = m :: others) :
    m.before = d ∧ ∃ rest, text = m.taken ++ rest ∧ marks m.after rest = others ∧
      ((∃ c, m.taken = [c] ∧ m.after = d.feed c ∧ ¬ d.Opens c rest) ∨
        (m.taken = [Ascii.dollar, Ascii.openParen] ∧ m.after = d.enter ∧
          d.admitsSubstitution = true)) := by
  fun_cases marks d text with
  | case1 => cases h
  | case2 c =>
    obtain ⟨rfl, rfl⟩ := List.cons.inj h
    exact ⟨rfl, [], rfl, rfl, .inl ⟨c, rfl, rfl, Delimiters.not_opens_nil⟩⟩
  | case3 c o rest opens =>
    obtain ⟨rfl, rfl⟩ := List.cons.inj ((if_pos opens).symm.trans h)
    obtain ⟨rfl, rfl, admits⟩ := opens
    exact ⟨rfl, rest, rfl, rfl, .inr ⟨rfl, rfl, admits⟩⟩
  | case4 c o rest plain =>
    obtain ⟨rfl, rfl⟩ := List.cons.inj ((if_neg plain).symm.trans h)
    exact ⟨rfl, o :: rest, rfl, rfl, .inl ⟨c, rfl, rfl, mt Delimiters.opens_cons_iff.1 plain⟩⟩

/-- **A part of a reading** is the reading of that part of the text. -/
theorem marks_eq_append {d : Delimiters} {text : Bytes} {first others : List Mark}
    (h : marks d text = first ++ others) :
    marks d (first.flatMap Mark.taken) = first ∧
      marks (d.read (first.flatMap Mark.taken)) (others.flatMap Mark.taken) = others := by
  induction first generalizing d text with
  | nil =>
    obtain rfl : marks d text = others := h
    exact ⟨rfl, congrArg (marks d) (flatMap_taken_marks d text)⟩
  | cons m first ih =>
    rw [List.cons_append] at h
    obtain ⟨before, rest, -, behind, step⟩ := marks_eq_cons h
    obtain ⟨here, there⟩ := ih behind
    obtain ⟨taken, before', after⟩ := m
    obtain rfl : before' = d := before
    rw [List.flatMap_cons]
    rcases step with ⟨c, rfl, rfl, plain⟩ | ⟨rfl, rfl, admits⟩
    · -- what stands behind the byte in the part stands there in the text
      have plain : ¬ before'.Opens c (first.flatMap Mark.taken) := by
        rintro ⟨dollar, second, admits⟩
        refine plain ⟨dollar, ?_, admits⟩
        rw [← flatMap_taken_marks (before'.feed c) rest, behind, List.flatMap_append,
          List.head?_append, second]
        rfl
      rw [List.singleton_append, marks_cons plain, Delimiters.read_cons plain, here]
      exact ⟨rfl, there⟩
    · rw [List.cons_append, List.singleton_append, marks_enter admits, Delimiters.read_enter admits,
        here]
      exact ⟨rfl, there⟩

section

variable {d : Delimiters} {text : Bytes} {before behind : List Mark} {m : Mark}

/-- A step starts from the state behind the text before it. -/
theorem before_of_marks_eq (h : marks d text = before ++ m :: behind) :
    m.before = d.read (before.flatMap Mark.taken) :=
  (marks_eq_cons (marks_eq_append h).2).1

/-- The text of a reading, with that of one of its steps. -/
theorem eq_of_marks_eq (h : marks d text = before ++ m :: behind) :
    text = before.flatMap Mark.taken ++ (m.taken ++ behind.flatMap Mark.taken) := by
  rw [← flatMap_taken_marks d text, h, List.flatMap_append, List.flatMap_cons]

/-- The state behind a reading is that behind its last step. -/
theorem Delimiters.read_of_marks_concat (h : marks d text = before ++ [m]) :
    d.read text = m.after := by
  rw [Delimiters.read, h, List.getLast?_concat]
  rfl

/-- Without a `$(` at their border two texts are read one behind the other. -/
theorem Delimiters.read_append {after : Bytes} (border : after.head? ≠ some Ascii.openParen) :
    d.read (text ++ after) = (d.read text).read after := by
  rw [Delimiters.read, marks_append border, List.getLast?_append,
    Delimiters.read.eq_def (d.read text)]
  cases (marks (d.read text) after).getLast? <;> rfl

/-- A byte that cannot end a `$(` is read on its own. -/
theorem Delimiters.read_concat {c : UInt8} (h : c ≠ Ascii.openParen) :
    d.read (text ++ [c]) = (d.read text).feed c := by
  have border : [c].head? ≠ some Ascii.openParen := fun first => h (Option.some.inj first)
  exact Delimiters.read_of_marks_concat (marks_append border)

/-- A plain byte at top level is a step that leaves everything as it is. -/
theorem after_of_isTop {c : UInt8} {others : List Mark} (h : marks d text = m :: others)
    (top : m.isTop c = true) (plain : Delimiters.isPlain c = true) :
    m.after = d ∧ d.atTopLevel = true := by
  obtain ⟨rfl, rest, -, -, step⟩ := marks_eq_cons h
  rw [Mark.isTop, Bool.and_eq_true, beq_iff_eq] at top
  rcases step with ⟨b, taken, after, -⟩ | ⟨taken, -, -⟩
  · obtain rfl : b = c := List.singleton_inj.1 (taken.symm.trans top.1)
    exact ⟨after.trans (Delimiters.feed_eq_self_of_atTopLevel top.2 plain), top.2⟩
  · cases taken.symm.trans top.1

theorem atTopLevel_after_of_mem {c : UInt8} (mem : m ∈ marks d text) (top : m.isTop c = true)
    (plain : Delimiters.isPlain c = true) : m.after.atTopLevel = true := by
  obtain ⟨before, behind, eq⟩ := List.append_of_mem mem
  obtain ⟨same, top⟩ := after_of_isTop (marks_eq_append eq).2 top plain
  rw [same, top]

end

/-! ## Rows of steps -/

/-- The steps are these rows, with what is cut out between them; behind each cut is top level. -/
inductive CutInto : List Mark → List (List Mark) → Prop
  | whole (row : List Mark) : CutInto row [row]
  | cut (row start : List Mark) {rest : List Mark} {m : Mark} {rows : List (List Mark)} :
    m.after.atTopLevel = true → CutInto rest rows →
      CutInto (row ++ (start ++ m :: rest)) (row :: rows)

namespace CutInto

variable {steps row : List Mark} {rows : List (List Mark)}

theorem cons (h : CutInto steps (row :: rows)) (m : Mark) :
    CutInto (m :: steps) ((m :: row) :: rows) := by
  cases h with
  | whole => exact .whole _
  | cut _ start top rest => exact .cut (m :: row) start top rest

theorem exists_eq_cons (h : CutInto steps rows) : ∃ row others, rows = row :: others := by
  cases h with
  | whole => exact ⟨_, _, rfl⟩
  | cut => exact ⟨_, _, rfl⟩

theorem isPrefix (h : CutInto steps (row :: rows)) : row <+: steps := by
  cases h with
  | whole => exact List.prefix_rfl
  | cut => exact List.prefix_append _ _

/-- A row starts where the steps start or behind one that ends at top level. -/
theorem exists_eq_append (h : CutInto steps rows) (mem : row ∈ rows) :
    ∃ before behind, steps = before ++ (row ++ behind) ∧
      ∀ m ∈ before.getLast?, m.after.atTopLevel = true := by
  induction h with
  | whole row' =>
    obtain rfl := List.mem_singleton.1 mem
    exact ⟨[], [], by simp, by simp⟩
  | @cut first start rest m rows top _ ih =>
    rcases List.mem_cons.1 mem with rfl | mem
    · exact ⟨[], start ++ m :: rest, rfl, by simp⟩
    · obtain ⟨before, behind, rfl, ends⟩ := ih mem
      refine ⟨first ++ (start ++ m :: before), behind, by simp, ?_⟩
      rw [List.getLast?_append, List.getLast?_append, List.getLast?_cons]
      rintro _ ⟨⟩
      cases last : before.getLast? with
      | none => exact top
      | some last' => exact ends last' last

/-- **A row of the reading of a text** reads its own text, from a state at top level. -/
theorem exists_marks_eq {text : Bytes} (h : CutInto (marks {} text) rows) (mem : row ∈ rows) :
    ∃ e : Delimiters, e.atTopLevel = true ∧ marks e (row.flatMap Mark.taken) = row := by
  obtain ⟨before, behind, eq, ends⟩ := h.exists_eq_append mem
  obtain ⟨here, there⟩ := marks_eq_append eq
  refine ⟨_, ?_, (marks_eq_append there).1⟩
  rcases before.eq_nil_or_concat with rfl | ⟨others, last, rfl⟩
  · rfl
  · rw [List.concat_eq_append] at here ends ⊢
    rw [Delimiters.read_of_marks_concat here]
    exact ends last (by rw [List.getLast?_concat]; rfl)

end CutInto

/-! ## The rows of the raw pieces -/

section

variable {cuts : Option UInt8 → Mark → Option UInt8 → Bool}

/-- The steps of the pieces that `cutWhere` makes. -/
def runs (cuts : Option UInt8 → Mark → Option UInt8 → Bool) (previous : Option UInt8) :
    List Mark → List (List Mark)
  | [] => [[]]
  | m :: rest =>
    let others := runs cuts m.taken.getLast? rest
    if cuts previous m (byteBehind rest) then [] :: others
    else others.modifyHead (m :: ·)

variable (cuts) in
theorem exists_runs_eq_cons (previous : Option UInt8) (steps : List Mark) :
    ∃ first others, runs cuts previous steps = first :: others := by
  induction steps generalizing previous with
  | nil => exact ⟨[], [], rfl⟩
  | cons m rest ih =>
    obtain ⟨first, others, eq⟩ := ih m.taken.getLast?
    rw [runs, eq]
    split
    · exact ⟨[], _, rfl⟩
    · exact ⟨m :: first, others, rfl⟩

theorem cutWhere_eq_map_runs (previous : Option UInt8) (steps : List Mark) :
    cutWhere cuts previous steps =
      (runs cuts previous steps).map (List.flatMap Mark.taken) := by
  induction steps generalizing previous with
  | nil => rfl
  | cons m rest ih =>
    obtain ⟨first, others, eq⟩ := exists_runs_eq_cons cuts m.taken.getLast? rest
    rw [cutWhere, runs, ih, eq, byteBehind]
    split <;> rfl

theorem cutInto_runs {steps : List Mark}
    (ends : ∀ m ∈ steps, ∀ previous next, cuts previous m next = true → m.after.atTopLevel = true)
    (previous : Option UInt8) : CutInto steps (runs cuts previous steps) := by
  induction steps generalizing previous with
  | nil => exact .whole []
  | cons m rest ih =>
    obtain ⟨here, behind⟩ := List.forall_mem_cons.1 ends
    have others := ih behind m.taken.getLast?
    rw [runs]
    split
    next cut => exact .cut [] [] (here _ _ cut) others
    next =>
      obtain ⟨first, others', eq⟩ := exists_runs_eq_cons cuts m.taken.getLast? rest
      rw [eq] at others ⊢
      exact others.cons m

/-- A step that does not cut is in the run of a piece. -/
theorem exists_mem_runs {before behind : List Mark} {m : Mark} {previous : Option UInt8}
    (stays : cuts (byteBefore previous before) m (byteBehind behind) = false) :
    ∃ run ∈ runs cuts previous (before ++ m :: behind), m ∈ run := by
  induction before generalizing previous with
  | nil =>
    obtain ⟨first, others, eq⟩ := exists_runs_eq_cons cuts m.taken.getLast? behind
    rw [byteBefore_nil] at stays
    refine ⟨m :: first, ?_, List.mem_cons_self⟩
    rw [List.nil_append, runs, eq, stays, if_neg Bool.false_ne_true]
    exact List.mem_cons_self
  | cons b before ih =>
    rw [byteBefore_cons] at stays
    obtain ⟨run, mem, within⟩ := ih stays
    rw [List.cons_append, runs]
    split
    · exact ⟨run, List.mem_cons_of_mem _ mem, within⟩
    · obtain ⟨first, others, eq⟩ :=
        exists_runs_eq_cons cuts b.taken.getLast? (before ++ m :: behind)
      rw [eq] at mem ⊢
      rcases List.mem_cons.1 mem with rfl | mem
      · exact ⟨b :: run, List.mem_cons_self, List.mem_cons_of_mem _ within⟩
      · exact ⟨run, List.mem_cons_of_mem _ mem, within⟩

/-- Where the steps alone say what cuts, none is in a run that does. -/
theorem eq_false_of_mem_runs {p : Mark → Bool} {previous : Option UInt8} {steps run : List Mark}
    (h : run ∈ runs (fun _ m _ => p m) previous steps) : ∀ m ∈ run, p m = false := by
  induction steps generalizing previous run with
  | nil =>
    obtain rfl := List.mem_singleton.1 h
    simp
  | cons b rest ih =>
    obtain ⟨first, others, eq⟩ :=
      exists_runs_eq_cons (fun _ m _ => p m) b.taken.getLast? rest
    have within : ∀ run ∈ first :: others, ∀ m ∈ run, p m = false := fun run mem =>
      @ih b.taken.getLast? run (eq ▸ mem)
    obtain ⟨here, behind⟩ := List.forall_mem_cons.1 within
    rw [runs, eq] at h
    split at h
    next =>
      rcases List.mem_cons.1 h with rfl | h
      · simp
      · exact within run h
    next stays =>
      rcases List.mem_cons.1 h with rfl | h
      · exact List.forall_mem_cons.2 ⟨by simpa using stays, here⟩
      · exact behind run h

/-- What cuts is asked of each step in its place only. -/
theorem cutWhere_congr {cuts' : Option UInt8 → Mark → Option UInt8 → Bool} {steps : List Mark}
    {previous : Option UInt8}
    (same : ∀ before m behind, steps = before ++ m :: behind →
      cuts (byteBefore previous before) m (byteBehind behind) =
        cuts' (byteBefore previous before) m (byteBehind behind)) :
    cutWhere cuts previous steps = cutWhere cuts' previous steps := by
  induction steps generalizing previous with
  | nil => rfl
  | cons b rest ih =>
    have others : cutWhere cuts b.taken.getLast? rest = cutWhere cuts' b.taken.getLast? rest := by
      refine ih fun before m behind eq => ?_
      have there := same (b :: before) m behind (congrArg _ eq)
      rwa [byteBefore_cons] at there
    have here : cuts previous b (byteBehind rest) = cuts' previous b (byteBehind rest) :=
      same [] b rest rfl
    rw [cutWhere, cutWhere, others, ← byteBehind, here]

end

/-! ## At top level, in a text and in its pieces -/

/-- The bytes stand in the text, the first of them at top level. -/
def HasAtTop (bytes text : Bytes) : Prop :=
  ∃ before, before ++ bytes <+: text ∧ (Delimiters.read {} before).atTopLevel = true

instance (bytes text : Bytes) : Decidable (HasAtTop bytes text) :=
  decidable_of_iff (∃ before ∈ text.inits,
      before ++ bytes <+: text ∧ (Delimiters.read {} before).atTopLevel = true)
    ⟨fun ⟨before, _, h⟩ => ⟨before, h⟩, fun ⟨before, stands, top⟩ =>
      ⟨before, (List.mem_inits _ _).2 ((List.prefix_append before bytes).trans stands), stands,
        top⟩⟩

section

variable {e : Delimiters} {bytes text : Bytes}

/-- From one place at top level a text leads there if it does so from another. -/
theorem Delimiters.atTopLevel_read (top : e.atTopLevel = true) (text : Bytes) :
    (e.read text).atTopLevel = (Delimiters.read {} text).atTopLevel :=
  ((Alike.of_atTopLevel rfl top).read text).atTopLevel

theorem hasAtTop_of_marks_eq (top : e.atTopLevel = true) {before behind : List Mark} {m : Mark}
    (h : marks e text = before ++ m :: behind) (here : m.before.atTopLevel = true)
    (bytes_eq : bytes <+: m.taken ++ behind.flatMap Mark.taken) : HasAtTop bytes text := by
  refine ⟨before.flatMap Mark.taken, ?_, ?_⟩
  · rw [eq_of_marks_eq h]
    exact (List.prefix_append_right_inj _).2 bytes_eq
  · rw [← Delimiters.atTopLevel_read top, ← before_of_marks_eq h, here]

/-- What stands at top level is read there from a step of its own on. -/
theorem HasAtTop.exists_marks_eq (h : HasAtTop bytes text) (top : e.atTopLevel = true)
    (border : ∀ rest, (bytes ++ rest).head? ≠ some Ascii.openParen) :
    ∃ before behind, (e.read before).atTopLevel = true ∧
      marks e text = marks e before ++ marks (e.read before) (bytes ++ behind) := by
  obtain ⟨before, ⟨behind, rfl⟩, here⟩ := h
  refine ⟨before, behind, (Delimiters.atTopLevel_read top before).trans here, ?_⟩
  rw [List.append_assoc, marks_append (border behind)]

/-- Where trimming leaves it, it stood before. -/
theorem HasAtTop.of_trim (h : HasAtTop bytes (Bytes.trim text)) : HasAtTop bytes text := by
  obtain ⟨before, stands, top⟩ := h
  obtain ⟨blank, after, hb, -, eq⟩ := Bytes.exists_eq_blank_append_trim text
  refine ⟨blank ++ before, ?_, ?_⟩
  · rw [eq, List.append_assoc]
    exact (List.prefix_append_right_inj _).2 (stands.trans (List.prefix_append _ _))
  · rw [read_blank_append hb rfl, top]

/-- The blanks at the ends of a text are no bytes that could cut it. -/
theorem isFreeOf_trim_iff {c : UInt8} (visible : isSeparator c = false) :
    IsFreeOf c (Bytes.trim text) ↔ IsFreeOf c text := by
  obtain ⟨before, after, hb, ha, eq⟩ := Bytes.exists_eq_blank_append_trim text
  have whole : marks {} text = marks {} before ++
      (marks {} (Bytes.trim text) ++ marks (Delimiters.read {} (Bytes.trim text)) after) := by
    rw [← marks_append ha.head?_ne_openParen, ← marks_blank_append hb rfl, ← eq]
  rw [IsFreeOf, IsFreeOf, whole, List.forall_mem_append, List.forall_mem_append]
  exact ⟨fun free => ⟨hb.not_isTop c visible _, free, ha.not_isTop c visible _⟩, fun h => h.2.1⟩

/-- A byte that begins and ends no `$(` is free of a text just if it does not stand there. -/
theorem isFreeOf_iff_not_hasAtTop {c : UInt8} (noDollar : c ≠ Ascii.dollar)
    (noParen : c ≠ Ascii.openParen) : IsFreeOf c text ↔ ¬ HasAtTop [c] text := by
  constructor
  · intro free stands
    obtain ⟨before, behind, top, split⟩ := stands.exists_marks_eq (e := {}) rfl
      fun _ first => noParen (Option.some.inj first)
    have alone : ¬ (Delimiters.read {} before).Opens c behind := fun opens => noDollar opens.1
    rw [List.singleton_append, marks_cons alone] at split
    have clear := free _ (split ▸ List.mem_append_right _ List.mem_cons_self)
    rw [Mark.isTop, top] at clear
    simp at clear
  · intro clear m mem
    obtain ⟨before, behind, split⟩ := List.append_of_mem mem
    refine Bool.eq_false_iff.2 fun here => clear ?_
    rw [Mark.isTop, Bool.and_eq_true, beq_iff_eq] at here
    refine hasAtTop_of_marks_eq rfl split here.2 ?_
    rw [here.1]
    exact List.prefix_append _ _

/-- From wherever at top level a text is read, the same bytes in it are at top level. -/
theorem isFreeOf_iff (top : e.atTopLevel = true) {c : UInt8} :
    IsFreeOf c text ↔ ∀ m ∈ marks e text, m.isTop c = false :=
  ⟨fun free => free.isTop_eq_false top, (Delimiters.Alike.of_atTopLevel top rfl).isTop_eq_false⟩

/-- What is cut wherever the byte stands at top level does not have it there. -/
theorem isFreeOf_of_mem_cutWhere {c : UInt8} (plain : Delimiters.isPlain c = true) {raw : Bytes}
    (h : raw ∈ cutWhere (fun _ m _ => m.isTop c) none (marks {} text)) : IsFreeOf c raw := by
  rw [cutWhere_eq_map_runs] at h
  obtain ⟨run, mem, rfl⟩ := List.mem_map.1 h
  have cut : CutInto (marks {} text) (runs (fun _ m _ => m.isTop c) none (marks {} text)) :=
    cutInto_runs (fun m mem _ _ top => atTopLevel_after_of_mem mem top plain) none
  obtain ⟨e, top, alone⟩ := cut.exists_marks_eq mem
  exact (isFreeOf_iff top).2 (alone.symm ▸ eq_false_of_mem_runs mem)

end

end VirtualShell
