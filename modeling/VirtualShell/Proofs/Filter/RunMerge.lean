import Mathlib.Data.List.Basic
import VirtualShell.Filter.RunMerge

/-!
# What sorting by runs sorts

The merge sort of `RunMerge` asks of its comparison that it is a strict weak order, and asks it of
no more elements than it is given (`IsStrictWeakOrderOn`): that is enough for no element of the
result to stand behind one that it is less than (`inOrder_sort`). Insertion, merging from the front
and merging from the end each keep the order, and every run of the whole is built of these.
-/

namespace VirtualShell.RunMerge

variable {α : Type} {less : α → α → Bool} {l l' : List α}

/-! ## Strict weak orders -/

/-- Neither of two elements is less than the other. -/
def Tied (less : α → α → Bool) (a b : α) : Prop := less a b = false ∧ less b a = false

/-- The comparison is a strict weak order of the elements of a list. -/
structure IsStrictWeakOrderOn (less : α → α → Bool) (l : List α) : Prop where
  irrefl : ∀ a ∈ l, less a a = false
  trans : ∀ a ∈ l, ∀ b ∈ l, ∀ c ∈ l, less a b = true → less b c = true → less a c = true
  tied_trans : ∀ a ∈ l, ∀ b ∈ l, ∀ c ∈ l, Tied less a b → Tied less b c → Tied less a c

/-- No element is less than one before it. -/
def InOrder (less : α → α → Bool) (l : List α) : Prop := l.Pairwise fun a b => less b a = false

theorem Tied.symm {a b : α} (h : Tied less a b) : Tied less b a := ⟨h.2, h.1⟩

namespace IsStrictWeakOrderOn

theorem mono (h : IsStrictWeakOrderOn less l) (sub : ∀ a ∈ l', a ∈ l) :
    IsStrictWeakOrderOn less l' where
  irrefl a ha := h.irrefl a (sub a ha)
  trans a ha b hb c hc := h.trans a (sub a ha) b (sub b hb) c (sub c hc)
  tied_trans a ha b hb c hc := h.tied_trans a (sub a ha) b (sub b hb) c (sub c hc)

theorem converse (h : IsStrictWeakOrderOn less l) :
    IsStrictWeakOrderOn (fun a b => less b a) l where
  irrefl := h.irrefl
  trans a ha b hb c hc ab bc := h.trans c hc b hb a ha bc ab
  tied_trans a ha b hb c hc ab bc := (h.tied_trans a ha b hb c hc ab.symm bc.symm).symm

theorem asymm (h : IsStrictWeakOrderOn less l) {a b : α} (ha : a ∈ l) (hb : b ∈ l)
    (ab : less a b = true) : less b a = false := by
  cases ba : less b a with
  | false => rfl
  | true => exact (h.trans a ha b hb a ha ab ba).symm.trans (h.irrefl a ha)

/-- Not being less is transitive. -/
theorem not_less_trans (h : IsStrictWeakOrderOn less l) {a b c : α} (ha : a ∈ l) (hb : b ∈ l)
    (hc : c ∈ l) (ba : less b a = false) (cb : less c b = false) : less c a = false := by
  cases ca : less c a with
  | false => rfl
  | true =>
    -- what is less than `a` and not less than `b` would set `b` apart from neither
    have bc : less b c = false := by
      cases bc : less b c with
      | false => rfl
      | true => exact (h.trans b hb c hc a ha bc ca).symm.trans ba
    have ab : less a b = false := by
      cases ab : less a b with
      | false => rfl
      | true => exact (h.trans c hc a ha b hb ca ab).symm.trans cb
    exact ca.symm.trans (h.tied_trans c hc b hb a ha ⟨cb, bc⟩ ⟨ba, ab⟩).1

end IsStrictWeakOrderOn

theorem inOrder_converse : InOrder (fun a b => less b a) l ↔ InOrder less l.reverse :=
  List.pairwise_reverse.symm

/-! ## Insertion -/

theorem inOrder_insert {x : α} (h : IsStrictWeakOrderOn less (x :: l)) (sorted : InOrder less l) :
    InOrder less (insert less x l) := by
  obtain ⟨front, behind, rfl, inserted, place⟩ := exists_insert_eq less x l
  obtain ⟨before, after, across⟩ := List.pairwise_append.1 sorted
  have left {y : α} (mem : y ∈ front) : y ∈ x :: (front ++ behind) := by simp [mem]
  have right {y : α} (mem : y ∈ behind) : y ∈ x :: (front ++ behind) := by simp [mem]
  have least : ∀ y ∈ behind, less y x = false := by
    rcases place with ⟨-, first⟩ | ⟨less_all, -⟩
    · cases behind with
      | nil => exact fun y mem => nomatch mem
      | cons z behind =>
        have not_less := h.asymm List.mem_cons_self (right List.mem_cons_self) (first z rfl)
        intro y mem
        rcases List.mem_cons.1 mem with rfl | later
        · exact not_less
        · exact h.not_less_trans List.mem_cons_self (right List.mem_cons_self) (right mem) not_less
            ((List.pairwise_cons.1 after).1 y later)
    · exact fun y mem => h.asymm List.mem_cons_self (right mem) (less_all y mem)
  have greatest : ∀ y ∈ front, less x y = false := by
    rcases place with ⟨rfl, -⟩ | ⟨-, last⟩
    · exact fun y mem => nomatch mem
    · rcases List.eq_nil_or_concat' front with rfl | ⟨others, z, rfl⟩
      · exact fun y mem => nomatch mem
      · have not_less := last z List.getLast?_concat
        have ends : z ∈ others ++ [z] := List.mem_concat_self
        intro y mem
        rcases List.mem_append.1 mem with earlier | same
        · exact h.not_less_trans (left mem) (left ends) List.mem_cons_self
            ((List.pairwise_append.1 before).2.2 y earlier z (List.mem_singleton_self z)) not_less
        · exact List.mem_singleton.1 same ▸ not_less
  rw [inserted]
  refine List.pairwise_append.2
    ⟨before, List.pairwise_cons.2 ⟨least, after⟩, fun y mem z mem' => ?_⟩
  rcases List.mem_cons.1 mem' with rfl | mem'
  · exact greatest y mem
  · exact across y mem z mem'

/-- A run that is sorted by insertion is in order. -/
theorem inOrder_sortRun (h : IsStrictWeakOrderOn less l) : InOrder less (sortRun less l) := by
  have all : ∀ (l sorted : List α), IsStrictWeakOrderOn less (sorted ++ l) → InOrder less sorted →
      InOrder less (l.foldl (fun sorted x => insert less x sorted) sorted) := by
    intro l
    induction l with
    | nil => exact fun _ _ sorted => sorted
    | cons x l ih =>
      intro done h sorted
      have perm := insert_perm less x done
      refine ih _ (h.mono fun a mem => ?_) (inOrder_insert (h.mono fun a mem => ?_) sorted)
      · simpa [perm.mem_iff, or_assoc, or_left_comm] using mem
      · rcases List.mem_cons.1 mem with rfl | mem <;> simp [*]
  exact all l [] h .nil

/-! ## Merging -/

theorem inOrder_merge (h : IsStrictWeakOrderOn less (l ++ l')) (first : InOrder less l)
    (second : InOrder less l') : InOrder less (merge less l l') := by
  fun_induction merge less l l' with
  | case1 => exact second
  | case2 => exact first
  | case3 a l b l' less_ba ih =>
    obtain ⟨least_b, second⟩ := List.pairwise_cons.1 second
    have least_a := (List.pairwise_cons.1 first).1
    have not_less := h.asymm (a := b) (b := a) (by simp) (by simp) less_ba
    refine List.pairwise_cons.2 ⟨fun y mem => ?_, ih (h.mono (by simp; grind)) first second⟩
    rcases List.mem_append.1 ((merge_perm less _ _).mem_iff.1 mem) with mem | mem
    · rcases List.mem_cons.1 mem with rfl | mem
      · exact not_less
      · exact h.not_less_trans (by simp) (by simp) (by simp [mem]) not_less (least_a y mem)
    · exact least_b y mem
  | case4 a l b l' not_less ih =>
    obtain ⟨least_a, first⟩ := List.pairwise_cons.1 first
    have least_b := (List.pairwise_cons.1 second).1
    rw [Bool.not_eq_true] at not_less
    refine List.pairwise_cons.2 ⟨fun y mem => ?_, ih (h.mono (by simp; grind)) first second⟩
    rcases List.mem_append.1 ((merge_perm less _ _).mem_iff.1 mem) with mem | mem
    · exact least_a y mem
    · rcases List.mem_cons.1 mem with rfl | mem
      · exact not_less
      · exact h.not_less_trans (by simp) (by simp) (by simp [mem]) not_less (least_b y mem)

theorem inOrder_mergeFromEnd (h : IsStrictWeakOrderOn less (l ++ l')) (first : InOrder less l)
    (second : InOrder less l') : InOrder less (mergeFromEnd less l l') := by
  rw [mergeFromEnd, mergeReversed_eq_merge, ← inOrder_converse]
  refine inOrder_merge (h.converse.mono fun a mem => ?_) ?_ ?_
  · simpa [or_comm] using mem
  · rwa [inOrder_converse, List.reverse_reverse]
  · rwa [inOrder_converse, List.reverse_reverse]

theorem inOrder_of_mem_mergePairs {runs : List (List α)}
    (h : IsStrictWeakOrderOn less runs.flatten) (sorted : ∀ run ∈ runs, InOrder less run) :
    ∀ run ∈ mergePairs less runs, InOrder less run := by
  fun_induction mergePairs less runs with
  | case1 first second rest ih =>
    intro run mem
    rcases List.mem_cons.1 mem with rfl | mem
    · exact inOrder_merge (h.mono (by simp; grind)) (sorted _ (by simp)) (sorted _ (by simp))
    · exact ih (h.mono (by simp; grind)) (fun run mem => sorted run (by simp [mem])) run mem
  | case2 => exact sorted

theorem inOrder_mergeAll {runs : List (List α)}
    (h : IsStrictWeakOrderOn less runs.flatten) (sorted : ∀ run ∈ runs, InOrder less run) :
    InOrder less (mergeAll less runs) := by
  fun_induction mergeAll less runs with
  | case1 => exact .nil
  | case2 run => exact sorted run (by simp)
  | case3 first second rest ih =>
    -- what is merged is one more step of merging neighbours
    refine ih (h.mono fun a mem => ?_) fun run mem => ?_
    · exact (flatten_mergePairs_perm less (first :: second :: rest)).mem_iff.1 mem
    · exact inOrder_of_mem_mergePairs h sorted run mem

/-! ## The whole list -/

theorem inOrder_sortHalf (h : IsStrictWeakOrderOn less l) : InOrder less (sortHalf less l) := by
  refine inOrder_mergeAll (h.mono fun a mem => ?_) fun run mem => ?_
  · obtain ⟨run, mem, there⟩ := List.mem_flatten.1 mem
    obtain ⟨part, cut, rfl⟩ := List.mem_map.1 mem
    rw [← flatten_runs l]
    exact List.mem_flatten.2 ⟨part, cut, (sortRun_perm less part).mem_iff.1 there⟩
  · obtain ⟨part, cut, rfl⟩ := List.mem_map.1 mem
    refine inOrder_sortRun (h.mono fun a there => ?_)
    rw [← flatten_runs l]
    exact List.mem_flatten.2 ⟨part, cut, there⟩

/-- **Sorting puts in order** whatever the comparison is a strict weak order of. -/
theorem inOrder_sort (h : IsStrictWeakOrderOn less l) : InOrder less (sort less l) := by
  have first := inOrder_sortHalf (h.mono fun a => List.mem_of_mem_take (i := (l.length + 1) / 2))
  have second := inOrder_sortHalf (h.mono fun a => List.mem_of_mem_drop (i := (l.length + 1) / 2))
  have halves : IsStrictWeakOrderOn less (sortHalf less (l.take ((l.length + 1) / 2))
      ++ sortHalf less (l.drop ((l.length + 1) / 2))) := by
    refine h.mono fun a mem => ?_
    rcases List.mem_append.1 mem with mem | mem
    · exact List.mem_of_mem_take ((sortHalf_perm less _).mem_iff.1 mem)
    · exact List.mem_of_mem_drop ((sortHalf_perm less _).mem_iff.1 mem)
  rw [sort]
  split
  · exact inOrder_merge halves first second
  · exact inOrder_mergeFromEnd halves first second

end VirtualShell.RunMerge
