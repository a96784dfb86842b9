/-!
# Sorting by runs

A stable merge sort that works in a fixed order: the list is halved, the first half taking the odd
element; each half is cut into runs of seven, every run is sorted by insertion, and neighbouring
runs are merged until one is left; then the halves are merged. The order of work shows only when
the comparison is not one of an order.

* `RunMerge.sort_perm`: the result is a permutation of the list, whatever the comparison.
-/

namespace VirtualShell.RunMerge

variable {α : Type}

/-! ## Insertion -/

/-- Puts an element into a sorted run: in front of all when it is less than the first, else behind
the last that it is not less than. -/
def insert (less : α → α → Bool) (x : α) (run : List α) : List α :=
  match run with
  | [] => [x]
  | first :: _ =>
    if less x first then x :: run
    else
      let greater := run.reverse.takeWhile (less x)
      run.take (run.length - greater.length) ++ x :: greater.reverse

/-- Sorts a run by inserting its elements from left to right. -/
def sortRun (less : α → α → Bool) (run : List α) : List α :=
  run.foldl (fun sorted x => insert less x sorted) []

/-! ## Merging -/

/-- Merges two runs; of elements that are not ordered, the one of the first run comes first. -/
def merge (less : α → α → Bool) : List α → List α → List α
  | [], second => second
  | first, [] => first
  | a :: first, b :: second =>
    if less b a then b :: merge less (a :: first) second
    else a :: merge less first (b :: second)

/-- Merges two runs from their ends, last elements first. -/
def mergeReversed (less : α → α → Bool) : List α → List α → List α
  | [], second => second
  | first, [] => first
  | a :: first, b :: second =>
    if less b a then a :: mergeReversed less first (b :: second)
    else b :: mergeReversed less (a :: first) second

/-- Merges two runs from their ends. -/
def mergeFromEnd (less : α → α → Bool) (first second : List α) : List α :=
  (mergeReversed less first.reverse second.reverse).reverse

/-- Merges neighbours; a run without a neighbour stays. -/
def mergePairs (less : α → α → Bool) : List (List α) → List (List α)
  | first :: second :: rest => merge less first second :: mergePairs less rest
  | rest => rest

theorem length_mergePairs_le (less : α → α → Bool) (runs : List (List α)) :
    (mergePairs less runs).length ≤ runs.length := by
  fun_induction mergePairs less runs with
  | case1 first second rest ih => simp only [List.length_cons]; omega
  | case2 => exact Nat.le_refl _

/-- Merges neighbours until one run is left. -/
def mergeAll (less : α → α → Bool) : List (List α) → List α
  | [] => []
  | [run] => run
  | first :: second :: rest => mergeAll less (merge less first second :: mergePairs less rest)
termination_by runs => runs.length
decreasing_by
  have := length_mergePairs_le less rest
  simp only [List.length_cons]
  omega

/-! ## The whole list -/

/-- The length of a run that is sorted by insertion. -/
def runLength : Nat := 7

/-- Cuts a list into runs. -/
def runs (l : List α) : List (List α) :=
  if l.isEmpty then [] else l.take runLength :: runs (l.drop runLength)
termination_by l.length
decreasing_by
  have : 0 < l.length := List.length_pos_iff.2 fun h => by simp_all
  rw [List.length_drop, runLength]
  omega

def sortHalf (less : α → α → Bool) (l : List α) : List α :=
  mergeAll less ((runs l).map (sortRun less))

/-- Sorts a list. -/
def sort (less : α → α → Bool) (l : List α) : List α :=
  let middle := (l.length + 1) / 2
  let first := sortHalf less (l.take middle)
  let second := sortHalf less (l.drop middle)
  if l.length % 2 = 0 then merge less first second else mergeFromEnd less first second

/-! ## Nothing is lost -/

/-- An element is put between two parts of a run: in front of all, or where it is less than what
stands behind it and not less than the last before it. -/
theorem exists_insert_eq (less : α → α → Bool) (x : α) (run : List α) :
    ∃ front behind, run = front ++ behind ∧ insert less x run = front ++ x :: behind
      ∧ (front = [] ∧ (∀ first ∈ behind.head?, less x first = true)
        ∨ (∀ y ∈ behind, less x y = true) ∧ ∀ last ∈ front.getLast?, less x last = false) := by
  cases run with
  | nil => exact ⟨[], [], rfl, rfl, .inl ⟨rfl, by simp⟩⟩
  | cons first rest =>
    rw [insert]
    split
    next less_first =>
      exact ⟨[], first :: rest, rfl, rfl, .inl ⟨rfl, by simpa using less_first⟩⟩
    next =>
      generalize first :: rest = run
      have cut : run.reverse.takeWhile (less x) ++ run.reverse.dropWhile (less x) = run.reverse :=
        List.takeWhile_append_dropWhile
      have back := congrArg List.reverse cut
      rw [List.reverse_append, List.reverse_reverse] at back
      refine ⟨(run.reverse.dropWhile (less x)).reverse, (run.reverse.takeWhile (less x)).reverse,
        back.symm, ?_, .inr ⟨fun y mem => ?_, fun last mem => ?_⟩⟩
      · dsimp only
        congr 1
        have size := congrArg List.length back
        rw [List.length_append, List.length_reverse] at size
        rw [← size, List.length_reverse, Nat.add_sub_cancel]
        conv => lhs; arg 2; rw [← back]
        rw [← List.length_reverse, List.take_left]
      · exact List.all_eq_true.1 List.all_takeWhile y (List.mem_reverse.1 mem)
      · rw [List.getLast?_reverse] at mem
        have stops := List.head?_dropWhile_not (less x) run.reverse
        rw [mem] at stops
        simpa using stops

theorem insert_perm (less : α → α → Bool) (x : α) (run : List α) :
    (insert less x run).Perm (x :: run) := by
  obtain ⟨front, behind, rfl, inserted, -⟩ := exists_insert_eq less x run
  exact inserted ▸ List.perm_middle

theorem sortRun_perm (less : α → α → Bool) (run : List α) : (sortRun less run).Perm run := by
  have all : ∀ (l sorted : List α),
      (l.foldl (fun sorted x => insert less x sorted) sorted).Perm (sorted ++ l) := by
    intro l
    induction l with
    | nil => intro sorted; simp
    | cons x l ih =>
      intro sorted
      refine (ih _).trans (((insert_perm less x sorted).append_right l).trans ?_)
      exact List.perm_middle.symm
  simpa [sortRun] using all run []

theorem merge_perm (less : α → α → Bool) (first second : List α) :
    (merge less first second).Perm (first ++ second) := by
  fun_induction merge less first second with
  | case1 => simp
  | case2 => simp
  | case3 a first b second h ih => exact (ih.cons b).trans List.perm_middle.symm
  | case4 a first b second h ih => exact ih.cons a

/-- From the ends two runs are merged as from the front, by the converse comparison. -/
theorem mergeReversed_eq_merge (less : α → α → Bool) (first second : List α) :
    mergeReversed less first second = merge (fun a b => less b a) second first := by
  fun_induction mergeReversed less first second with
  | case1 second => cases second <;> simp [merge]
  | case2 => simp [merge]
  | case3 a first b second h ih => rw [merge, if_pos h, ih]
  | case4 a first b second h ih => rw [merge, if_neg h, ih]

theorem mergeReversed_perm (less : α → α → Bool) (first second : List α) :
    (mergeReversed less first second).Perm (first ++ second) := by
  rw [mergeReversed_eq_merge]
  exact (merge_perm _ second first).trans List.perm_append_comm

theorem mergeFromEnd_perm (less : α → α → Bool) (first second : List α) :
    (mergeFromEnd less first second).Perm (first ++ second) :=
  (List.reverse_perm _).trans ((mergeReversed_perm less _ _).trans
    ((List.reverse_perm _).append (List.reverse_perm _)))

theorem flatten_mergePairs_perm (less : α → α → Bool) (runs : List (List α)) :
    (mergePairs less runs).flatten.Perm runs.flatten := by
  fun_induction mergePairs less runs with
  | case1 first second rest ih =>
    simpa using (merge_perm less first second).append ih
  | case2 => exact .refl _

theorem mergeAll_perm (less : α → α → Bool) (runs : List (List α)) :
    (mergeAll less runs).Perm runs.flatten := by
  fun_induction mergeAll less runs with
  | case1 => simp
  | case2 => simp
  | case3 first second rest ih =>
    refine ih.trans ?_
    simpa using (merge_perm less first second).append (flatten_mergePairs_perm less rest)

theorem flatten_runs (l : List α) : (runs l).flatten = l := by
  fun_induction runs l with
  | case1 l h => simpa using h.symm
  | case2 l h ih => simp [ih]

theorem sortHalf_perm (less : α → α → Bool) (l : List α) : (sortHalf less l).Perm l := by
  have each : ∀ runs : List (List α),
      ((runs.map (sortRun less)).flatten).Perm runs.flatten := by
    intro runs
    induction runs with
    | nil => simp
    | cons run runs ih => simpa using (sortRun_perm less run).append ih
  refine (mergeAll_perm less _).trans ((each _).trans ?_)
  rw [flatten_runs]

/-- **Sorting permutes**, whatever the comparison. -/
theorem sort_perm (less : α → α → Bool) (l : List α) : (sort less l).Perm l := by
  have halves := (sortHalf_perm less (l.take ((l.length + 1) / 2))).append
    (sortHalf_perm less (l.drop ((l.length + 1) / 2)))
  rw [List.take_append_drop] at halves
  simp only [sort]
  split
  · exact (merge_perm less _ _).trans halves
  · exact (mergeFromEnd_perm less _ _).trans halves

end VirtualShell.RunMerge
