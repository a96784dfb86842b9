import VirtualShell.Text.Bytes

/-!
# Lines and texts

Lines that hold no newline are found again in the text that they make (`lines_unlines`), and the
lines of a text make the text again, with a newline at its end (`unlines_lines`).
-/

namespace VirtualShell.Bytes

/-- The text with a newline at its end, which an empty text does without. -/
def terminated (text : Bytes) : Bytes :=
  if text = [] ∨ text.getLast? = some Ascii.newline then text else text ++ [Ascii.newline]

theorem unlines_cons (line : Bytes) (rest : List Bytes) :
    unlines (line :: rest) = line ++ Ascii.newline :: unlines rest := by
  rw [unlines, List.flatMap_cons, List.append_assoc]
  rfl

theorem unlines_append (first second : List Bytes) :
    unlines (first ++ second) = unlines first ++ unlines second := List.flatMap_append

/-- No piece holds the separator. -/
theorem not_mem_of_mem_fields {separator : UInt8} {text : Bytes} :
    ∀ piece ∈ fields separator text, separator ∉ piece := by
  fun_induction fields separator text with
  | case1 => simp
  | case2 rest ih =>
    intro piece mem
    rcases List.mem_cons.1 mem with rfl | mem
    · exact List.not_mem_nil
    · exact ih piece mem
  | case3 c rest other =>
    intro piece mem
    rw [List.mem_singleton.1 mem, List.mem_singleton]
    exact Ne.symm other
  | case4 c rest other first others cut ih =>
    rw [cut] at ih
    intro piece mem
    rcases List.mem_cons.1 mem with rfl | mem
    · exact List.not_mem_cons_of_ne_of_not_mem (Ne.symm other) (ih first List.mem_cons_self)
    · exact ih piece (List.mem_cons_of_mem _ mem)

/-- Lines are found again. -/
theorem lines_unlines {ls : List Bytes} (h : ∀ line ∈ ls, Ascii.newline ∉ line) :
    lines (unlines ls) = ls := by
  induction ls with
  | nil => rfl
  | cons line rest ih =>
    rw [unlines_cons, lines, fields_concat_separator (h line List.mem_cons_self), ← lines,
      ih fun line mem => h line (List.mem_cons_of_mem _ mem)]

theorem terminated_cons (c : UInt8) {text : Bytes} (h : text ≠ []) :
    terminated (c :: text) = c :: terminated text := by
  have last : (c :: text).getLast? = text.getLast? := List.getLast?_cons_of_ne_nil h
  simp only [terminated, last, h, List.cons_ne_nil, false_or]
  split <;> rfl

/-- The lines of a text make the text. -/
theorem unlines_lines (text : Bytes) : unlines (lines text) = terminated text := by
  rw [lines]
  fun_induction fields Ascii.newline text with
  | case1 => rfl
  | case2 rest ih =>
    rw [unlines_cons, ih, List.nil_append]
    cases rest with
    | nil => rfl
    | cons c rest => rw [terminated_cons _ (List.cons_ne_nil c rest)]
  | case3 c rest other none =>
    rw [fields_eq_nil_iff.1 none, terminated, if_neg (by simpa using other)]
    rfl
  | case4 c rest other first others cut ih =>
    have nonempty : rest ≠ [] := fun e => by rw [e] at cut; cases cut
    rw [cut, unlines_cons] at ih
    rw [terminated_cons c nonempty, ← ih, unlines_cons, List.cons_append]

end VirtualShell.Bytes
