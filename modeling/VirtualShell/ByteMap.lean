import VirtualShell.Text.Bytes

/-!
# Maps from texts, in byte order

A finite map whose keys are texts and whose entries stand in strictly increasing byte order of
their keys. The order is part of the type, so that a listing, a scan from a lower bound and the
written form of a map need no sorting of their own.

* `find?_insert` and `find?_erase` say what writing and removing do to every key.
* `mem_keys_iff` ties the keys that are listed to the keys that are found.
* `scan` reads the entries at or after a key for as long as they start with it; `scan_eq_filter`: it
  misses none.
-/

namespace VirtualShell

/-- A map from texts; its entries are in strictly increasing byte order. -/
structure ByteMap (β : Type) where
  entries : List (Bytes × β)
  sorted : entries.Pairwise (fun a b => a.1 < b.1)

namespace ByteMap

variable {β : Type}

theorem lt_of_not_lt_of_ne {a b : Bytes} (h : ¬ a < b) (ne : a ≠ b) : b < a := by
  have le : b ≤ a := List.not_lt.1 h
  rcases List.le_iff_lt_or_eq.1 le with lt | eq
  · exact lt
  · exact absurd eq.symm ne

/-! ## Operations -/

def empty : ByteMap β := ⟨[], .nil⟩

instance : EmptyCollection (ByteMap β) := ⟨empty⟩
instance : Inhabited (ByteMap β) := ⟨empty⟩

/-- The value of the key. -/
def find? (m : ByteMap β) (key : Bytes) : Option β :=
  (m.entries.find? (fun e => e.1 == key)).map (·.2)

def contains (m : ByteMap β) (key : Bytes) : Bool := (m.find? key).isSome

def size (m : ByteMap β) : Nat := m.entries.length

def keys (m : ByteMap β) : List Bytes := m.entries.map (·.1)

def values (m : ByteMap β) : List β := m.entries.map (·.2)

/-- Puts an entry at its place in an ordered list, over an entry of the same key. -/
def insertEntry (key : Bytes) (value : β) : List (Bytes × β) → List (Bytes × β)
  | [] => [(key, value)]
  | e :: rest =>
    if key < e.1 then (key, value) :: e :: rest
    else if key = e.1 then (key, value) :: rest
    else e :: insertEntry key value rest

theorem mem_insertEntry {key : Bytes} {value : β} {l : List (Bytes × β)} {e : Bytes × β}
    (h : e ∈ insertEntry key value l) : e = (key, value) ∨ e ∈ l := by
  induction l with
  | nil => simpa [insertEntry] using h
  | cons d rest ih =>
    rw [insertEntry] at h
    split at h
    · simpa using h
    · split at h
      · rcases List.mem_cons.1 h with h | h
        · exact .inl h
        · exact .inr (List.mem_cons_of_mem _ h)
      · rcases List.mem_cons.1 h with h | h
        · exact .inr (h ▸ List.mem_cons_self ..)
        · exact (ih h).imp id (List.mem_cons_of_mem _)

theorem pairwise_insertEntry {key : Bytes} {value : β} {l : List (Bytes × β)}
    (h : l.Pairwise (fun a b => a.1 < b.1)) :
    (insertEntry key value l).Pairwise (fun a b => a.1 < b.1) := by
  induction l with
  | nil => exact List.pairwise_singleton _ _
  | cons d rest ih =>
    obtain ⟨first, others⟩ := List.pairwise_cons.1 h
    rw [insertEntry]
    split
    next lt =>
      refine List.pairwise_cons.2 ⟨fun e he => ?_, h⟩
      rcases List.mem_cons.1 he with rfl | he
      · exact lt
      · exact List.lt_trans lt (first e he)
    next nlt =>
      split
      next eq => exact List.pairwise_cons.2 ⟨fun e he => eq ▸ first e he, others⟩
      next ne =>
        refine List.pairwise_cons.2 ⟨fun e he => ?_, ih others⟩
        rcases mem_insertEntry he with rfl | he
        · exact lt_of_not_lt_of_ne nlt ne
        · exact first e he

/-- Writes the value under the key, over any earlier one. -/
def insert (m : ByteMap β) (key : Bytes) (value : β) : ByteMap β :=
  ⟨insertEntry key value m.entries, pairwise_insertEntry m.sorted⟩

/-- Keeps the entries that pass. -/
def filter (m : ByteMap β) (p : Bytes → β → Bool) : ByteMap β :=
  ⟨m.entries.filter (fun e => p e.1 e.2), m.sorted.filter _⟩

/-- Removes the key. -/
def erase (m : ByteMap β) (key : Bytes) : ByteMap β := m.filter (fun k _ => k != key)

/-- Writes the entries from left to right. -/
def insertMany (m : ByteMap β) (entries : List (Bytes × β)) : ByteMap β :=
  entries.foldl (fun m e => m.insert e.1 e.2) m

def ofList (entries : List (Bytes × β)) : ByteMap β := insertMany ∅ entries

/-- The entries whose keys are not below `start`. -/
def entriesFrom (m : ByteMap β) (start : Bytes) : List (Bytes × β) :=
  m.entries.dropWhile (fun e => decide (e.1 < start))

/-- The entries from `start` on, for as long as their keys start with it. -/
def scan (m : ByteMap β) (start : Bytes) : List (Bytes × β) :=
  (m.entriesFrom start).takeWhile (fun e => start.isPrefixOf e.1)

/-! ## What is found where -/

@[simp] theorem find?_empty (key : Bytes) : (∅ : ByteMap β).find? key = none := rfl

theorem find?_insertEntry (key k : Bytes) (value : β) (l : List (Bytes × β)) :
    ((insertEntry key value l).find? (fun e => e.1 == k)).map (·.2) =
      if key = k then some value else (l.find? (fun e => e.1 == k)).map (·.2) := by
  induction l with
  | nil => by_cases h : key = k <;> simp [insertEntry, h]
  | cons d rest ih =>
    rw [insertEntry]
    split
    · by_cases h : key = k <;> simp [List.find?_cons, h]
    · split
      next eq => subst eq; by_cases h : d.1 = k <;> simp [h]
      next ne =>
        by_cases h : d.1 = k
        · simp [h, show key ≠ k from fun e => ne (e.trans h.symm)]
        · simp [h, ih]

@[simp] theorem find?_insert (m : ByteMap β) (key k : Bytes) (value : β) :
    (m.insert key value).find? k = if key = k then some value else m.find? k :=
  find?_insertEntry key k value m.entries

@[simp] theorem find?_erase (m : ByteMap β) (key k : Bytes) :
    (m.erase key).find? k = if key = k then none else m.find? k := by
  simp only [find?, erase, filter]
  induction m.entries with
  | nil => simp
  | cons d rest ih =>
    by_cases h : d.1 = key
    · by_cases hk : key = k
      · simp_all
      · have hd : d.1 ≠ k := fun e => hk (h.symm.trans e)
        simp_all
    · by_cases hk : d.1 = k
      · have ne : key ≠ k := fun e => h (hk.trans e.symm)
        simp_all
      · simp_all

/-- An entry that is listed is the one that is found. -/
theorem find?_of_mem {m : ByteMap β} {key : Bytes} {value : β} (h : (key, value) ∈ m.entries) :
    m.find? key = some value := by
  obtain ⟨entries, sorted⟩ := m
  simp only [find?] at h ⊢
  induction entries with
  | nil => simp at h
  | cons d rest ih =>
    obtain ⟨first, others⟩ := List.pairwise_cons.1 sorted
    rcases List.mem_cons.1 h with rfl | h
    · simp
    · have ne : d.1 ≠ key := fun e => List.lt_irrefl _ (e ▸ first _ h)
      simp [ne, ih others h]

theorem mem_of_find? {m : ByteMap β} {key : Bytes} {value : β} (h : m.find? key = some value) :
    (key, value) ∈ m.entries := by
  simp only [find?, Option.map_eq_some_iff] at h
  obtain ⟨e, he, rfl⟩ := h
  have eq : e.1 = key := by simpa using List.find?_some he
  exact eq ▸ List.mem_of_find?_eq_some he

theorem mem_entries_iff {m : ByteMap β} {key : Bytes} {value : β} :
    (key, value) ∈ m.entries ↔ m.find? key = some value :=
  ⟨find?_of_mem, mem_of_find?⟩

theorem mem_keys_iff {m : ByteMap β} {key : Bytes} : key ∈ m.keys ↔ m.contains key = true := by
  simp only [keys, List.mem_map, contains, Option.isSome_iff_exists]
  constructor
  · rintro ⟨e, he, rfl⟩
    exact ⟨e.2, find?_of_mem he⟩
  · rintro ⟨v, hv⟩
    exact ⟨_, mem_of_find? hv, rfl⟩

theorem pairwise_keys (m : ByteMap β) : m.keys.Pairwise (· < ·) := List.pairwise_map.2 m.sorted

/-! ## Scans -/

/-- A text that starts with another is not below it. -/
theorem not_lt_of_isPrefixOf {start key : Bytes} (h : start.isPrefixOf key = true) :
    ¬ key < start := by
  intro lt
  induction start generalizing key with
  | nil => exact absurd lt (List.not_lt_nil _)
  | cons c start ih =>
    cases key with
    | nil => simp at h
    | cons d key =>
      simp only [List.isPrefixOf, Bool.and_eq_true, beq_iff_eq] at h
      obtain ⟨rfl, h⟩ := h
      rcases List.cons_lt_cons_iff.1 lt with lt | ⟨-, lt⟩
      · exact UInt8.lt_irrefl _ lt
      · exact ih h lt

/-- Between a text and one that starts with it, every text starts with it. -/
theorem isPrefixOf_of_between {start key later : Bytes} (le : ¬ key < start) (lt : key < later)
    (h : start.isPrefixOf later = true) : start.isPrefixOf key = true := by
  induction start generalizing key later with
  | nil => rfl
  | cons c start ih =>
    cases later with
    | nil => simp at h
    | cons e later =>
      simp only [List.isPrefixOf, Bool.and_eq_true, beq_iff_eq] at h
      obtain ⟨rfl, h⟩ := h
      cases key with
      | nil => exact absurd (List.nil_lt_cons _ _) le
      | cons d key =>
        rcases List.cons_lt_cons_iff.1 lt with lt | ⟨rfl, below⟩
        · exact absurd (List.cons_lt_cons_iff.2 (.inl lt)) le
        · have low : ¬ key < start := fun l => le (List.cons_lt_cons_iff.2 (.inr ⟨rfl, l⟩))
          simpa [List.isPrefixOf] using ih low below h

/-- In order and from the bound on, the entries that start with the text come first. -/
theorem takeWhile_isPrefixOf {start : Bytes} {l : List (Bytes × β)}
    (sorted : l.Pairwise (fun a b => a.1 < b.1)) (low : ∀ x ∈ l, ¬ x.1 < start) :
    l.takeWhile (fun x => start.isPrefixOf x.1) = l.filter (fun x => start.isPrefixOf x.1) := by
  induction l with
  | nil => rfl
  | cons x l ih =>
    obtain ⟨first, others⟩ := List.pairwise_cons.1 sorted
    have ih := ih others (fun y hy => low y (List.mem_cons_of_mem _ hy))
    cases pre : start.isPrefixOf x.1 with
    | true => simp [pre, ih]
    | false =>
      have none : ∀ y ∈ l, ¬ start.isPrefixOf y.1 = true := by
        intro y hy hp
        have := isPrefixOf_of_between (low x (List.mem_cons_self ..)) (first y hy) hp
        rw [pre] at this
        cases this
      rw [List.takeWhile_cons_of_neg (by simp [pre]), List.filter_cons_of_neg (by simp [pre]),
        List.filter_eq_nil_iff.2 none]

/-- **A scan misses nothing**: it lists the entries whose keys start with the text, in order. -/
theorem scan_eq_filter (m : ByteMap β) (start : Bytes) :
    m.scan start = m.entries.filter (fun e => start.isPrefixOf e.1) := by
  obtain ⟨entries, sorted⟩ := m
  simp only [scan, entriesFrom]
  induction entries with
  | nil => rfl
  | cons d rest ih =>
    obtain ⟨first, others⟩ := List.pairwise_cons.1 sorted
    by_cases lt : d.1 < start
    · have pre : start.isPrefixOf d.1 = false :=
        Bool.eq_false_iff.2 fun pre => not_lt_of_isPrefixOf pre lt
      rw [List.dropWhile_cons_of_pos (by simpa using lt), ih others]
      simp [pre]
    · rw [List.dropWhile_cons_of_neg (by simpa using lt)]
      refine takeWhile_isPrefixOf sorted (fun x hx => ?_)
      rcases List.mem_cons.1 hx with rfl | hx
      · exact lt
      · exact fun l => lt (List.lt_trans (first x hx) l)

theorem mem_scan_iff {m : ByteMap β} {start : Bytes} {e : Bytes × β} :
    e ∈ m.scan start ↔ e ∈ m.entries ∧ start.isPrefixOf e.1 = true := by
  rw [scan_eq_filter, List.mem_filter]

end ByteMap

end VirtualShell
