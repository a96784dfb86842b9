import VirtualShell.Store.Batch

/-!
# What a batch does to every key

`find?_apply`: behind a batch a key holds the last record that the batch puts there, nothing if the
batch only erases it, and else what it held before. A map that forgets part of every record
(`ByteMap.map`) may be taken before or behind a batch (`map_apply`).
-/

namespace VirtualShell

namespace ByteMap

variable {β γ : Type}

theorem eq_of_entries {m n : ByteMap β} (h : m.entries = n.entries) : m = n := by
  cases m; cases n; cases h; rfl

/-! ## Finding -/

theorem contains_eq_true_iff {m : ByteMap β} {key : Bytes} :
    m.contains key = true ↔ ∃ value, m.find? key = some value := Option.isSome_iff_exists

theorem find?_eraseAll (m : ByteMap β) (erases : List Bytes) (key : Bytes) :
    (erases.foldl erase m).find? key = if key ∈ erases then none else m.find? key := by
  induction erases generalizing m with
  | nil => simp
  | cons k rest ih =>
    rw [List.foldl_cons, ih, find?_erase]
    by_cases hr : key ∈ rest
    · simp [hr]
    · by_cases hk : k = key
      · simp [hk]
      · simp [hr, hk, show key ≠ k from fun e => hk e.symm]

theorem find?_insertMany (m : ByteMap β) (entries : List (Bytes × β)) (key : Bytes) :
    (m.insertMany entries).find? key =
      ((entries.reverse.find? (fun e => e.1 == key)).map (·.2)).or (m.find? key) := by
  induction entries generalizing m with
  | nil => simp [insertMany]
  | cons e rest ih =>
    rw [insertMany, List.foldl_cons, ← insertMany, ih, find?_insert, List.reverse_cons,
      List.find?_append]
    cases rest.reverse.find? (fun e => e.1 == key) with
    | some later => simp
    | none => by_cases h : e.1 = key <;> simp [h]

/-- Where no two entries have the same key, each is found under its own. -/
theorem find?_ofList_eq_some_iff {entries : List (Bytes × β)} (apart : (entries.map (·.1)).Nodup)
    {key : Bytes} {value : β} :
    (ofList entries).find? key = some value ↔ (key, value) ∈ entries := by
  rw [ofList, find?_insertMany, find?_empty, Option.or_none]
  induction entries with
  | nil => simp
  | cons e rest ih =>
    obtain ⟨fresh, apart⟩ := List.nodup_cons.1 apart
    rw [List.reverse_cons, List.find?_append, Option.map_or, List.mem_cons, ← ih apart]
    by_cases same : e.1 = key
    · have none : rest.reverse.find? (fun e => e.1 == key) = none := by
        refine List.find?_eq_none.2 fun other mem is => fresh ?_
        exact List.mem_map.2 ⟨other, List.mem_reverse.1 mem, (beq_iff_eq.1 is).trans same.symm⟩
      subst same
      simp [none, Prod.ext_iff, eq_comm]
    · simp [same, Prod.ext_iff, Ne.symm same]

/-- Writing what a key holds already changes nothing. -/
theorem insert_of_find? {m : ByteMap β} {key : Bytes} {value : β} (h : m.find? key = some value) :
    m.insert key value = m := by
  refine eq_of_entries ?_
  have sorted := m.sorted
  have mem := mem_of_find? h
  simp only [insert]
  generalize m.entries = entries at sorted mem
  induction entries with
  | nil => exact absurd mem List.not_mem_nil
  | cons d rest ih =>
    obtain ⟨first, others⟩ := List.pairwise_cons.1 sorted
    rw [insertEntry]
    rcases List.mem_cons.1 mem with rfl | mem
    · simp [List.lt_irrefl]
    · have lt := first _ mem
      have nlt : ¬ key < d.1 := fun l => List.lt_irrefl _ (List.lt_trans l lt)
      have ne : key ≠ d.1 := fun e => List.lt_irrefl _ (e ▸ lt)
      rw [if_neg nlt, if_neg ne, ih others mem]

/-! ## Mapping the values -/

/-- Every value changed, under its key. -/
def map (f : β → γ) (m : ByteMap β) : ByteMap γ :=
  ⟨m.entries.map fun e => (e.1, f e.2), m.sorted.map _ fun _ _ h => h⟩

@[simp] theorem entries_map (f : β → γ) (m : ByteMap β) :
    (m.map f).entries = m.entries.map fun e => (e.1, f e.2) := rfl

theorem values_map (f : β → γ) (m : ByteMap β) : (m.map f).values = m.values.map f := by
  simp [values, Function.comp_def]

theorem find?_map (f : β → γ) (m : ByteMap β) (key : Bytes) :
    (m.map f).find? key = (m.find? key).map f := by
  simp only [find?, entries_map, List.find?_map, Option.map_map]
  rfl

theorem map_insert (f : β → γ) (m : ByteMap β) (key : Bytes) (value : β) :
    (m.insert key value).map f = (m.map f).insert key (f value) := by
  refine eq_of_entries ?_
  simp only [insert, entries_map]
  induction m.entries with
  | nil => rfl
  | cons d rest ih =>
    simp only [insertEntry, List.map_cons]
    split
    · rfl
    · split
      · rfl
      · rw [List.map_cons, ih]

theorem map_erase (f : β → γ) (m : ByteMap β) (key : Bytes) :
    (m.erase key).map f = (m.map f).erase key := by
  refine eq_of_entries ?_
  simp only [erase, filter, entries_map, List.filter_map]
  rfl

theorem map_eraseAll (f : β → γ) (m : ByteMap β) (erases : List Bytes) :
    (erases.foldl erase m).map f = erases.foldl erase (m.map f) := by
  induction erases generalizing m with
  | nil => rfl
  | cons key rest ih => rw [List.foldl_cons, List.foldl_cons, ih, map_erase]

theorem map_insertMany (f : β → γ) (m : ByteMap β) (entries : List (Bytes × β)) :
    (m.insertMany entries).map f = (m.map f).insertMany (entries.map fun e => (e.1, f e.2)) := by
  induction entries generalizing m with
  | nil => rfl
  | cons e rest ih =>
    simp only [insertMany, List.foldl_cons, List.map_cons] at ih ⊢
    rw [ih, map_insert]

/-! ## Values -/

theorem mem_values_iff {m : ByteMap β} {value : β} :
    value ∈ m.values ↔ ∃ key, m.find? key = some value := by
  simp only [values, List.mem_map]
  constructor
  · rintro ⟨e, he, rfl⟩
    exact ⟨e.1, find?_of_mem he⟩
  · rintro ⟨key, h⟩
    exact ⟨_, mem_of_find? h, rfl⟩

/-! ## Entries in order -/

theorem insertEntry_concat {l : List (Bytes × β)} {key : Bytes} (value : β)
    (h : ∀ e ∈ l, e.1 < key) : insertEntry key value l = l ++ [(key, value)] := by
  induction l with
  | nil => rfl
  | cons d rest ih =>
    obtain ⟨first, others⟩ := List.forall_mem_cons.1 h
    have nlt : ¬ key < d.1 := fun lt => List.lt_irrefl _ (List.lt_trans lt first)
    have ne : key ≠ d.1 := fun e => List.lt_irrefl _ (e ▸ first)
    rw [insertEntry, if_neg nlt, if_neg ne, ih others, List.cons_append]

/-- Entries that come in order behind those of a map. -/
theorem entries_insertMany {m : ByteMap β} {l : List (Bytes × β)}
    (h : (m.entries ++ l).Pairwise fun a b => a.1 < b.1) :
    (m.insertMany l).entries = m.entries ++ l := by
  induction l generalizing m with
  | nil => exact (List.append_nil _).symm
  | cons e rest ih =>
    have before : ∀ d ∈ m.entries, d.1 < e.1 := fun d mem =>
      (List.pairwise_append.1 h).2.2 d mem e List.mem_cons_self
    have entries : (m.insert e.1 e.2).entries = m.entries ++ [e] :=
      insertEntry_concat e.2 before
    rw [insertMany, List.foldl_cons, ← insertMany, ih, entries, List.append_assoc,
      List.singleton_append]
    rwa [entries, List.append_assoc, List.singleton_append]

/-- **Entries in order** are the entries of their map. -/
theorem entries_ofList {l : List (Bytes × β)} (h : l.Pairwise fun a b => a.1 < b.1) :
    (ofList l).entries = l := entries_insertMany (m := ∅) h

/-- What is in a map comes over what is in another. -/
theorem find?_insertMany_entries (m n : ByteMap β) (key : Bytes) :
    (m.insertMany n.entries).find? key = (n.find? key).or (m.find? key) := by
  have whole : ofList n.entries = n := eq_of_entries (entries_ofList n.sorted)
  have found := find?_insertMany ∅ n.entries key
  rw [← ofList, whole, find?_empty, Option.or_none] at found
  rw [find?_insertMany, found]

theorem mem_insertMany {m : ByteMap β} {l : List (Bytes × β)} {e : Bytes × β}
    (h : e ∈ (m.insertMany l).entries) : e ∈ m.entries ∨ e ∈ l := by
  induction l generalizing m with
  | nil => exact .inl h
  | cons d rest ih =>
    rcases ih h with mem | mem
    · rcases mem_insertEntry mem with rfl | mem
      · exact .inr List.mem_cons_self
      · exact .inl mem
    · exact .inr (List.mem_cons_of_mem _ mem)

theorem mem_ofList {l : List (Bytes × β)} {e : Bytes × β} (h : e ∈ (ofList l).entries) : e ∈ l :=
  (mem_insertMany h).resolve_left List.not_mem_nil

end ByteMap

namespace Batch

/-- The record that a list of records leaves at a path: of several the last. -/
def last? (puts : List Inode) (path : Bytes) : Option Inode :=
  puts.reverse.find? fun node => node.path == path

theorem last?_eq_some {puts : List Inode} {path : Bytes} {node : Inode}
    (h : last? puts path = some node) : node ∈ puts ∧ node.path = path :=
  ⟨List.mem_reverse.1 (List.mem_of_find?_eq_some h), by simpa using List.find?_some h⟩

theorem last?_eq_none {puts : List Inode} {path : Bytes} :
    last? puts path = none ↔ ∀ node ∈ puts, node.path ≠ path := by
  simp [last?]

theorem last?_isSome {puts : List Inode} {node : Inode} (h : node ∈ puts) :
    ∃ last, last? puts node.path = some last := by
  cases e : last? puts node.path with
  | none => exact absurd rfl (last?_eq_none.1 e node h)
  | some last => exact ⟨last, rfl⟩

/-- **A batch at a key**: the last record put there, nothing if it is only erased, else what was
there. -/
theorem find?_apply (b : Batch) (records : Records) (path : Bytes) :
    (b.apply records).find? path =
      (last? b.puts path).or (if path ∈ b.erases then none else records.find? path) := by
  rw [apply, ByteMap.find?_insertMany, ByteMap.find?_eraseAll, last?, ← List.map_reverse,
    List.find?_map]
  congr 1
  simp only [Option.map_map, Function.comp_def]
  exact Option.map_id'

/-- What is found behind a batch was put by it, or was there before and is not erased. -/
theorem put_or_kept_of_apply {b : Batch} {records : Records} {path : Bytes} {node : Inode}
    (found : (b.apply records).find? path = some node) :
    node ∈ b.puts ∧ node.path = path ∨ path ∉ b.erases ∧ records.find? path = some node := by
  rw [find?_apply] at found
  cases last : last? b.puts path with
  | some put =>
    rw [last, Option.some_or] at found
    cases found
    exact .inl (last?_eq_some last)
  | none =>
    rw [last, Option.none_or] at found
    split at found
    · cases found
    next kept => exact .inr ⟨kept, found⟩

theorem find?_apply_put (node : Inode) (records : Records) (path : Bytes) :
    ((Batch.put node).apply records).find? path =
      if node.path = path then some node else records.find? path := by
  rw [find?_apply]
  by_cases h : node.path = path <;> simp [put, last?, h]

/-- An empty batch changes nothing. -/
theorem apply_of_isEmpty {b : Batch} (h : b.isEmpty = true) (records : Records) :
    b.apply records = records := by
  obtain ⟨puts, erases⟩ : b.puts = [] ∧ b.erases = [] := by simpa [isEmpty] using h
  rw [apply, puts, erases]
  rfl

/-- A batch that only writes, taken record by record. -/
theorem apply_puts_cons (node : Inode) (puts : List Inode) (records : Records) :
    ({ puts := node :: puts } : Batch).apply records =
      ({ puts } : Batch).apply (records.insert node.path node) := rfl

/-- Every record changed. -/
def map (f : Inode → Inode) (b : Batch) : Batch := { b with puts := b.puts.map f }

/-- A change that keeps paths may be made before or behind a batch. -/
theorem map_apply {f : Inode → Inode} (hf : ∀ node, (f node).path = node.path) (b : Batch)
    (records : Records) : (b.apply records).map f = (b.map f).apply (records.map f) := by
  simp only [apply, map, ByteMap.map_insertMany, ByteMap.map_eraseAll, List.map_map,
    Function.comp_def, hf]

end Batch

end VirtualShell
