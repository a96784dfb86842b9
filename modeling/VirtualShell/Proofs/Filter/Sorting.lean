import Mathlib.Data.List.Destutter
import VirtualShell.Proofs.Filter.RunMerge
import VirtualShell.Proofs.Filter.Writing
import VirtualShell.Proofs.Number.Order

/-!
# Sorted lines

By their bytes all lines are in a strict order, so `sort` writes them in that order, and with `-u`
each of them once, which is what `uniq` makes of the sorted lines (`sort_permutes`).

With `-n` the number at the start of a line comes first. The comparison is always irreflexive and
transitive, but a NaN is tied with every number: it is a strict weak order of a list of lines just
when none of them starts with a NaN or there are no two lines that start with numbers
(`isStrictWeakOrderOn_numeric_iff`). Then no line stands behind one that it is less than
(`sort_numeric_inOrder`); `not_inOrder_of_nan` shows what a NaN between the lines does.
-/

namespace VirtualShell

open RunMerge

/-! ## Order by bytes -/

theorem lineLess_bytes {a b : Bytes} : lineLess false a b = true ↔ a < b := by
  simp [lineLess]

theorem lineLess_bytes_eq_false {a b : Bytes} : lineLess false a b = false ↔ b ≤ a := by
  rw [← Bool.not_eq_true, lineLess_bytes, List.not_lt]

theorem tied_bytes_iff {a b : Bytes} : Tied (lineLess false) a b ↔ a = b := by
  rw [Tied, lineLess_bytes_eq_false, lineLess_bytes_eq_false]
  refine ⟨fun h => List.le_antisymm h.2 h.1, ?_⟩
  rintro rfl
  exact ⟨List.le_refl a, List.le_refl a⟩

theorem isStrictWeakOrderOn_bytes (lines : List Bytes) :
    IsStrictWeakOrderOn (lineLess false) lines where
  irrefl a _ := lineLess_bytes_eq_false.2 (List.le_refl a)
  trans _ _ _ _ _ _ ab bc :=
    lineLess_bytes.2 (List.lt_trans (lineLess_bytes.1 ab) (lineLess_bytes.1 bc))
  tied_trans _ _ _ _ _ _ ab bc :=
    tied_bytes_iff.2 ((tied_bytes_iff.1 ab).trans (tied_bytes_iff.1 bc))

/-! ## Order by numbers -/

/-- The line starts with a NaN. -/
def StartsWithNan (line : Bytes) : Prop := ∃ negative, leadingNumber line = .nan negative

instance (line : Bytes) : Decidable (StartsWithNan line) :=
  inferInstanceAs (Decidable (∃ negative, leadingNumber line = .nan negative))

theorem place?_eq_none_iff {line : Bytes} :
    (leadingNumber line).place? = none ↔ StartsWithNan line := by
  rw [StartsWithNan]
  cases leadingNumber line with
  | finite => simp [Binary.place?]
  | infinity negative => cases negative <;> simp [Binary.place?]
  | nan => simp [Binary.place?]

/-- By number, lines are less as their numbers are, and as their bytes where these are the same. -/
theorem lineLess_numeric {a b : Bytes} :
    lineLess true a b = true ↔ ∃ p ∈ (leadingNumber a).place?, ∃ q ∈ (leadingNumber b).place?,
      p < q ∨ p = q ∧ a < b := by
  rw [lineLess, if_pos rfl]
  dsimp only
  split
  next same =>
    obtain ⟨p, left, right⟩ := Binary.eq_iff.1 same
    simp [Option.mem_def.1 left, Option.mem_def.1 right]
  next different =>
    rw [Binary.eq_iff] at different
    rw [Binary.lt_iff]
    constructor
    · rintro ⟨p, left, q, right, below⟩
      exact ⟨p, left, q, right, .inl below⟩
    · rintro ⟨p, left, q, right, below | ⟨rfl, -⟩⟩
      · exact ⟨p, left, q, right, below⟩
      · exact absurd ⟨p, left, right⟩ different

theorem lineLess_numeric_irrefl (a : Bytes) : lineLess true a a = false := by
  refine Bool.eq_false_iff.2 fun less => ?_
  obtain ⟨p, left, q, right, below⟩ := lineLess_numeric.1 less
  obtain rfl : p = q := Option.mem_unique left right
  rcases below with below | ⟨-, below⟩
  · exact lt_irrefl p below
  · exact List.lt_irrefl a below

theorem lineLess_numeric_trans {a b c : Bytes} (ab : lineLess true a b = true)
    (bc : lineLess true b c = true) : lineLess true a c = true := by
  obtain ⟨p, placeA, q, placeB, below⟩ := lineLess_numeric.1 ab
  obtain ⟨q', placeB', r, placeC, below'⟩ := lineLess_numeric.1 bc
  obtain rfl : q = q' := Option.mem_unique placeB placeB'
  refine lineLess_numeric.2 ⟨p, placeA, r, placeC, ?_⟩
  rcases below with below | ⟨rfl, below⟩
  · rcases below' with below' | ⟨rfl, -⟩
    · exact .inl (below.trans below')
    · exact .inl below
  · rcases below' with below' | ⟨rfl, below'⟩
    · exact .inl below'
    · exact .inr ⟨rfl, List.lt_trans below below'⟩

/-- Two lines are tied where they are the same or one of them starts with a NaN. -/
theorem tied_numeric_iff {a b : Bytes} :
    Tied (lineLess true) a b ↔ StartsWithNan a ∨ StartsWithNan b ∨ a = b := by
  rw [Tied, Bool.eq_false_iff, Bool.eq_false_iff, Ne, Ne, lineLess_numeric, lineLess_numeric,
    ← place?_eq_none_iff, ← place?_eq_none_iff]
  cases placeA : (leadingNumber a).place? with
  | none => simp
  | some p =>
    cases placeB : (leadingNumber b).place? with
    | none => simp
    | some q =>
      simp only [Option.mem_some_iff, exists_eq_left', reduceCtorEq, false_or]
      constructor
      · rintro ⟨notBelow, notAbove⟩
        push Not at notBelow notAbove
        obtain rfl : p = q := le_antisymm notAbove.1 notBelow.1
        exact List.le_antisymm (notAbove.2 rfl) (notBelow.2 rfl)
      · rintro rfl
        obtain rfl : p = q := Option.some.inj (placeA.symm.trans placeB)
        simp [List.lt_irrefl]

/-- No line starts with a NaN, or all those that do not are the same line. -/
def NansHarmless (lines : List Bytes) : Prop :=
  (∀ line ∈ lines, ¬ StartsWithNan line)
    ∨ ∀ a ∈ lines, ∀ b ∈ lines, ¬ StartsWithNan a → ¬ StartsWithNan b → a = b

/-- **A NaN spoils the order** of two lines that start with numbers, and nothing else does. -/
theorem isStrictWeakOrderOn_numeric_iff {lines : List Bytes} :
    IsStrictWeakOrderOn (lineLess true) lines ↔ NansHarmless lines := by
  constructor
  · intro order
    by_cases none : ∀ line ∈ lines, ¬ StartsWithNan line
    · exact .inl none
    · push Not at none
      obtain ⟨nan, mem, isNan⟩ := none
      refine .inr fun a ha b hb numberA numberB => ?_
      have tied := order.tied_trans a ha nan mem b hb (tied_numeric_iff.2 (.inr (.inl isNan)))
        (tied_numeric_iff.2 (.inl isNan))
      simpa [numberA, numberB] using tied_numeric_iff.1 tied
  · intro harmless
    refine ⟨fun a _ => lineLess_numeric_irrefl a, fun a _ b _ c _ => lineLess_numeric_trans,
      fun a ha b hb c hc ab bc => tied_numeric_iff.2 ?_⟩
    rw [tied_numeric_iff] at ab bc
    rcases harmless with none | same
    · simp only [none a ha, none b hb, none c hc, false_or] at ab bc ⊢
      exact ab.trans bc
    · by_cases nanA : StartsWithNan a
      · exact .inl nanA
      · by_cases nanC : StartsWithNan c
        · exact .inr (.inl nanC)
        · exact .inr (.inr (same a ha c hc nanA nanC))

/-! ## Repeats -/

theorem dropLike_eq_destutter {α : Type} {alike : α → α → Bool} {R : α → α → Prop}
    [DecidableRel R] (h : ∀ a b, alike a b = false ↔ R a b) (l : List α) :
    dropLike alike l = l.destutter R := by
  have all : ∀ (l : List α) (kept : α),
      kept :: dropLike.go alike kept l = l.destutter' R kept := by
    intro l
    induction l with
    | nil => exact fun _ => rfl
    | cons x l ih =>
      intro kept
      rw [dropLike.go, List.destutter'_cons]
      cases like : alike kept x with
      | true => rw [if_pos rfl, if_neg fun other => by simp [(h kept x).2 other] at like, ih]
      | false => rw [if_neg Bool.false_ne_true, if_pos ((h kept x).1 like), ih]
  cases l with
  | nil => rfl
  | cons x l => exact all l x

theorem exists_countRepeats_cons (line : Bytes) (rest : List Bytes) :
    ∃ n others, countRepeats (line :: rest) = (line, n) :: others := by
  rw [countRepeats]
  split
  · exact ⟨1, [], rfl⟩
  next next n others _ =>
    split
    · exact ⟨n + 1, others, rfl⟩
    · exact ⟨1, (next, n) :: others, rfl⟩

theorem collapse_cons_cons (line next : Bytes) (rest : List Bytes) :
    collapse (line :: next :: rest) =
      if line ≠ next then line :: collapse (next :: rest) else collapse (next :: rest) := by
  obtain ⟨n, others, counted⟩ := exists_countRepeats_cons next rest
  rw [collapse, collapse, countRepeats, counted]
  by_cases same : next = line <;> simp [same, Ne.symm]

theorem collapse_eq_destutter (lines : List Bytes) : collapse lines = lines.destutter (· ≠ ·) := by
  cases lines with
  | nil => rfl
  | cons line rest =>
    induction rest generalizing line with
    | nil => rfl
    | cons next rest ih =>
      rw [collapse_cons_cons, ih, List.destutter_cons_cons, List.destutter_cons']
      split
      · rfl
      next same => rw [not_not.1 same]

/-! ## The sorted lines -/

theorem sortLines_perm {options : SortOptions} (all : options.unique = false)
    (lines : List Bytes) : (sortLines options lines).Perm lines := by
  have perm := RunMerge.sort_perm (lineLess options.numeric) lines
  rw [sortLines, all, if_neg Bool.false_ne_true]
  split
  · exact (List.reverse_perm _).trans perm
  · exact perm

/-- What `-u` drops are repeats in the sorted lines. -/
theorem sortLines_unique_sublist (numeric reverse : Bool) (lines : List Bytes) :
    (sortLines { numeric, reverse, unique := true } lines).Sublist
      (sortLines { numeric, reverse } lines) := by
  simp only [sortLines, if_pos, if_neg Bool.false_ne_true]
  rw [dropLike_eq_destutter fun _ _ => Iff.rfl]
  exact List.destutter_sublist _ _

theorem mem_of_mem_sortLines {options : SortOptions} {lines : List Bytes} {line : Bytes}
    (mem : line ∈ sortLines options lines) : line ∈ lines := by
  obtain ⟨numeric, reverse, unique⟩ := options
  cases unique with
  | false => exact (sortLines_perm rfl lines).mem_iff.1 mem
  | true =>
    exact (sortLines_perm rfl lines).mem_iff.1 ((sortLines_unique_sublist _ _ _).subset mem)

/-- The order of bytes, or its reverse. -/
def ByteOrder (reverse : Bool) (a b : Bytes) : Prop := if reverse then b ≤ a else a ≤ b

instance (reverse : Bool) : Std.Antisymm (ByteOrder reverse) where
  antisymm a b ab ba := by
    cases reverse with
    | false => exact List.le_antisymm ab ba
    | true => exact List.le_antisymm ba ab

theorem pairwise_sortLines (reverse : Bool) (lines : List Bytes) :
    (sortLines { reverse } lines).Pairwise (ByteOrder reverse) := by
  have sorted := inOrder_sort (isStrictWeakOrderOn_bytes lines)
  have ordered : (RunMerge.sort (lineLess false) lines).Pairwise (ByteOrder false) :=
    sorted.imp lineLess_bytes_eq_false.1
  cases reverse with
  | false => exact ordered
  | true => exact List.pairwise_reverse.2 ordered

/-- Of the lines that are sorted by their bytes, `-u` and `uniq` drop the same. -/
theorem sortLines_unique (reverse : Bool) (lines : List Bytes) :
    sortLines { reverse, unique := true } lines = collapse (sortLines { reverse } lines) := by
  rw [collapse_eq_destutter]
  refine dropLike_eq_destutter (fun a b => ?_) _
  rw [Ne, ← tied_bytes_iff, Tied]
  cases lineLess false a b <;> cases lineLess false b a <;> simp

theorem sortLines_unique_eq_dedup (reverse : Bool) (lines : List Bytes) :
    sortLines { reverse, unique := true } lines = (sortLines { reverse } lines).dedup := by
  rw [sortLines_unique, collapse_eq_destutter]
  exact (pairwise_sortLines reverse lines).destutter_eq_dedup

theorem inOrder_sortLines_numeric {lines : List Bytes} (unique : Bool)
    (h : IsStrictWeakOrderOn (lineLess true) lines) :
    InOrder (lineLess true) (sortLines { numeric := true, unique } lines) := by
  have sorted : InOrder (lineLess true) (sortLines { numeric := true } lines) := inOrder_sort h
  cases unique with
  | false => exact sorted
  | true => exact sorted.sublist (sortLines_unique_sublist true false lines)

/-! ## The commands -/

namespace Builtin

/-- In the world as it is, the call sorts the lines of a text. -/
def Sorts (options : SortOptions) (text : Bytes) (c : Call) (w : World) : Prop :=
  ∃ flags, Flags.read (ascii "run") c.arguments = .ok flags
    ∧ options = { numeric := flags.has 'n', reverse := flags.has 'r', unique := flags.has 'u' }
    ∧ c.inputText flags.operands w = text

/-- In the world as it is, the call joins the lines of a text that are the same. -/
def Collapses (text : Bytes) (c : Call) (w : World) : Prop :=
  ∃ flags, Flags.read (ascii "c") c.arguments = .ok flags ∧ flags.has 'c' = false
    ∧ c.inputText flags.operands w = text

variable {options : SortOptions} {text : Bytes} {c : Call} {w : World}

theorem Sorts.out_sort (h : Sorts options text c w) :
    ((sort.invoke c).run w).out = Bytes.unlines (sortLines options (Bytes.lines text)) := by
  obtain ⟨flags, read, rfl, rfl⟩ := h
  rw [invoke_withFlags (b := sort) rfl read (by decide) (by decide), out_filterLines]

theorem Collapses.out_uniq (h : Collapses text c w) :
    ((uniq.invoke c).run w).out = Bytes.unlines (collapse (Bytes.lines text)) := by
  obtain ⟨flags, read, uncounted, rfl⟩ := h
  rw [invoke_withFlags (b := uniq) rfl read (by decide) (by decide), out_filterLines, uncounted]
  rfl

theorem Sorts.lines_out_sort (h : Sorts options text c w) :
    Bytes.lines ((sort.invoke c).run w).out = sortLines options (Bytes.lines text) := by
  rw [h.out_sort]
  exact Bytes.lines_unlines fun line mem =>
    Bytes.not_mem_of_mem_fields line (mem_of_mem_sortLines mem)

/-- **`sort` puts the lines in byte order**, or the reverse: all of them, or with `-u` each of them
once, which is what `uniq` writes of what `sort` writes. -/
theorem sort_permutes (text : Bytes) (reverse : Bool) :
    (∀ c w, Sorts { reverse } text c w → ∃ written : List Bytes,
      ((sort.invoke c).run w).out = Bytes.unlines written ∧ written.Perm (Bytes.lines text)
        ∧ written.Pairwise (ByteOrder reverse))
    ∧ (∀ c w, Sorts { reverse, unique := true } text c w → ∃ written : List Bytes,
      ((sort.invoke c).run w).out = Bytes.unlines written ∧ written.Nodup
        ∧ (∀ line, line ∈ written ↔ line ∈ Bytes.lines text)
        ∧ written.Pairwise (ByteOrder reverse))
    ∧ ∀ c w c₁ w₁ c₂ w₂, Sorts { reverse, unique := true } text c w →
      Sorts { reverse } text c₁ w₁ → Collapses ((sort.invoke c₁).run w₁).out c₂ w₂ →
        ((sort.invoke c).run w).out = ((uniq.invoke c₂).run w₂).out := by
  have perm : (sortLines { reverse } (Bytes.lines text)).Perm (Bytes.lines text) :=
    sortLines_perm rfl _
  have ordered := pairwise_sortLines reverse (Bytes.lines text)
  refine ⟨fun c w h => ⟨_, h.out_sort, perm, ordered⟩, fun c w h => ⟨_, h.out_sort, ?_⟩,
    fun c w c₁ w₁ c₂ w₂ unique all piped => ?_⟩
  · rw [sortLines_unique_eq_dedup]
    exact ⟨List.nodup_dedup _, fun line => List.mem_dedup.trans perm.mem_iff,
      ordered.sublist (List.dedup_sublist _)⟩
  · rw [unique.out_sort, piped.out_uniq, all.lines_out_sort, sortLines_unique]

/-- Lines that are there twice, an empty one and a missing newline at the end. -/
theorem sort_permutes_of_repeats :
    let text := ascii "b\n\na\nb"
    let call (words : List String) (input : Bytes) : Call :=
      { name := [], arguments := words.map ascii, input := some input }
    let w : World := { session := {}, system := { volume := { store := .memory ∅ } }, now := 0 }
    let sorted := ((sort.invoke (call ["-r"] text)).run w).out
    (∃ written : List Bytes, sorted = Bytes.unlines written
        ∧ written.Perm ([ascii "b", [], ascii "a", ascii "b"])
        ∧ written.Pairwise (ByteOrder true))
      ∧ (∃ written : List Bytes,
        ((sort.invoke (call ["-r", "-u"] text)).run w).out = Bytes.unlines written
          ∧ written.Nodup ∧ (∀ line, line ∈ written ↔ line ∈ [ascii "b", [], ascii "a", ascii "b"])
          ∧ written.Pairwise (ByteOrder true))
      ∧ ((sort.invoke (call ["-r", "-u"] text)).run w).out =
        ((uniq.invoke (call [] sorted)).run w).out := by
  intro text call w sorted
  have all : Sorts { reverse := true } text (call ["-r"] text) w :=
    ⟨{ letters := ascii "r" }, rfl, rfl, rfl⟩
  have once : Sorts { reverse := true, unique := true } text (call ["-r", "-u"] text) w :=
    ⟨{ letters := ascii "ru" }, rfl, rfl, rfl⟩
  obtain ⟨permutes, drops, same⟩ := sort_permutes text true
  exact ⟨permutes _ _ all, drops _ _ once,
    same _ _ _ _ _ w once all ⟨{}, rfl, rfl, rfl⟩⟩

/-- **`sort -n` puts the lines in order** when NaNs are harmless. Its comparison is irreflexive and
transitive in any case, and just then a strict weak order. -/
theorem sort_numeric_inOrder (lines : List Bytes) :
    (∀ a ∈ lines, lineLess true a a = false)
      ∧ (∀ a ∈ lines, ∀ b ∈ lines, ∀ c ∈ lines,
        lineLess true a b = true → lineLess true b c = true → lineLess true a c = true)
      ∧ (IsStrictWeakOrderOn (lineLess true) lines ↔ NansHarmless lines)
      ∧ (NansHarmless lines → ∀ unique text c w, Sorts { numeric := true, unique } text c w →
        Bytes.lines text = lines →
          InOrder (lineLess true) (Bytes.lines ((sort.invoke c).run w).out)) := by
  refine ⟨fun a _ => lineLess_numeric_irrefl a, fun a _ b _ c _ => lineLess_numeric_trans,
    isStrictWeakOrderOn_numeric_iff, fun harmless unique text c w h reads => ?_⟩
  rw [h.lines_out_sort, reads]
  exact inOrder_sortLines_numeric unique (isStrictWeakOrderOn_numeric_iff.2 harmless)

/-- Infinities, a line without a number and two lines with the same one. -/
theorem sort_numeric_inOrder_of_infinities :
    let text := ascii "inf\n2 b\n-inf\nx\n2 a\n"
    let call : Call := { name := [], arguments := [ascii "-nu"], input := some text }
    let w : World := { session := {}, system := { volume := { store := .memory ∅ } }, now := 0 }
    NansHarmless (Bytes.lines text)
      ∧ InOrder (lineLess true) (Bytes.lines ((sort.invoke call).run w).out) := by
  intro text call w
  have harmless : NansHarmless (Bytes.lines text) := by
    have none : ∀ line ∈ Bytes.lines text, ¬ StartsWithNan line := by decide
    exact .inl none
  have sorts : Sorts { numeric := true, unique := true } text call w :=
    ⟨{ letters := ascii "nu" }, rfl, rfl, rfl⟩
  exact ⟨harmless, (sort_numeric_inOrder _).2.2.2 harmless true text call w sorts rfl⟩

/-- Behind a NaN the line `1` is not compared with `2`, which it is less than. -/
theorem not_inOrder_of_nan :
    let text := ascii "0\n2\nnan\n1\n"
    let call : Call := { name := [], arguments := [ascii "-n"], input := some text }
    let w : World := { session := {}, system := { volume := { store := .memory ∅ } }, now := 0 }
    Sorts { numeric := true } text call w
      ∧ ¬ IsStrictWeakOrderOn (lineLess true) (Bytes.lines text)
      ∧ ¬ InOrder (lineLess true) (Bytes.lines ((sort.invoke call).run w).out) := by
  intro text call w
  have sorts : Sorts { numeric := true } text call w :=
    ⟨{ letters := ascii "n" }, rfl, rfl, rfl⟩
  have lines : Bytes.lines text = [ascii "0", ascii "2", ascii "nan", ascii "1"] := by decide
  -- `2` and `1` are never compared: each half is a run of its own, and the NaN heads the second
  have sorted : sortLines { numeric := true } (Bytes.lines text) = Bytes.lines text := by
    have two_zero : lineLess true (ascii "2") (ascii "0") = false := by decide
    have one_nan : lineLess true (ascii "1") (ascii "nan") = false := by decide
    have nan_zero : lineLess true (ascii "nan") (ascii "0") = false := by decide
    have nan_two : lineLess true (ascii "nan") (ascii "2") = false := by decide
    rw [lines]
    simp [sortLines, RunMerge.sort, sortHalf, RunMerge.runs, runLength, mergeAll, sortRun,
      RunMerge.insert, merge, *]
  refine ⟨sorts, ?_, ?_⟩
  · rw [isStrictWeakOrderOn_numeric_iff, lines]
    unfold NansHarmless
    decide
  · rw [sorts.lines_out_sort, sorted, lines]
    unfold InOrder
    decide

end Builtin

end VirtualShell
