import VirtualShell.Host.Disk
import VirtualShell.Proofs.Store.Batch
import VirtualShell.Proofs.Text.Digits
import VirtualShell.Proofs.Tree.Canonical

/-!
# Replacing a file of the host

Which file a path names is settled by the path alone (`locate_eq_ok`): the disk only says whether
it can be walked. So the temporary file is another one than the file it stands in for
(`keyOf_temporaryName`), and replacing a file leaves either the new content, to be read under the
path (`read_of_replace`), or the file as it was (`fileAt_of_replace_error`), whichever call the host
fails at and however much it has written by then.

The exception is a path with a NUL in it. The host reads no path behind a NUL, so that both names
are of one file, which is emptied when it is written and removed when the host fails
(`fileAt_of_replace_trouble`).
-/

namespace VirtualShell.Disk

variable {disk : Disk} {path key content : Bytes}

/-! ## Where a path leads -/

/-- The components that a path comes to, the last of them first. -/
def stackOf (path : Bytes) : List Bytes :=
  (Path.components (Bytes.beforeNul path)).foldl Path.step (startOf (Bytes.beforeNul path))

/-- What a path names if it can be walked. -/
def keyOf (path : Bytes) : Bytes := Path.ofStack (stackOf path)

theorem properStack_startOf (path : Bytes) : Path.ProperStack (startOf path) := by
  unfold startOf
  split
  · exact .nil
  · have canonical : Path.resolve workingDirectory = workingDirectory := by decide
    exact (Path.proper_components canonical).reverse

theorem properStack_stackOf (path : Bytes) : Path.ProperStack (stackOf path) :=
  Path.properStack_foldl (properStack_startOf _) fun _ => Path.mem_components

theorem step_eq_ok {stack next : List Bytes} {part : Bytes}
    (h : disk.step stack part = .ok next) :
    disk.entries.find? (Path.ofStack stack) = some .directory ∧ next = Path.step stack part := by
  unfold step at h
  split at h
  · cases h
  · cases h
  next there =>
    refine ⟨there, ?_⟩
    unfold Path.step
    split at h
    next dot => cases h; rw [if_pos dot]
    next dot =>
      rw [if_neg dot]
      split at h
      next dots => cases h; rw [if_pos dots]
      next dots =>
        rw [if_neg dots]
        split at h
        · cases h
        · cases h; rfl

theorem foldlM_step_eq_ok {parts stack finish : List Bytes}
    (h : parts.foldlM disk.step stack = .ok finish) : finish = parts.foldl Path.step stack := by
  induction parts generalizing stack with
  | nil => cases h; rfl
  | cons part parts ih =>
    rw [List.foldlM_cons] at h
    cases first : disk.step stack part with
    | error fault => rw [first] at h; cases h
    | ok next =>
      rw [first] at h
      rw [List.foldl_cons, ← (step_eq_ok first).2]
      exact ih h

/-- **What a path names** does not depend on the disk. -/
theorem locate_eq_ok (h : disk.locate path = .ok key) : key = keyOf path := by
  unfold locate at h
  dsimp only at h
  split at h
  · cases h
  · split at h
    · cases h
    · cases walked : (Path.components (Bytes.beforeNul path)).foldlM disk.step
          (startOf (Bytes.beforeNul path)) with
      | error fault => rw [walked] at h; cases h
      | ok finish =>
        rw [walked] at h
        cases h
        rw [keyOf, stackOf, ← foldlM_step_eq_ok walked]

/-- A path that can be walked can be walked wherever the directories stand. -/
theorem locate_of_directories {disk' : Disk}
    (stand : ∀ key, disk.entries.find? key = some .directory →
      disk'.entries.find? key = some .directory)
    (h : disk.locate path = .ok key) : disk'.locate path = .ok key := by
  have steps : ∀ (parts stack : List Bytes) finish, parts.foldlM disk.step stack = .ok finish →
      parts.foldlM disk'.step stack = .ok finish := by
    intro parts
    induction parts with
    | nil => exact fun _ _ h => h
    | cons part parts ih =>
      intro stack finish h
      rw [List.foldlM_cons] at h ⊢
      cases first : disk.step stack part with
      | error fault => rw [first] at h; cases h
      | ok next =>
        have same : disk'.step stack part = .ok next := by
          have there := (step_eq_ok first).1
          unfold step at first ⊢
          rw [there] at first
          rw [stand _ there]
          exact first
        rw [first] at h
        rw [same]
        exact ih next finish h
  unfold locate at h ⊢
  dsimp only at h ⊢
  split
  next empty => rw [if_pos empty] at h; exact h
  next some =>
    rw [if_neg some] at h
    split
    next long => rw [if_pos long] at h; exact h
    next short =>
      rw [if_neg short] at h
      cases walked : (Path.components (Bytes.beforeNul path)).foldlM disk.step
          (startOf (Bytes.beforeNul path)) with
      | error fault => rw [walked] at h; cases h
      | ok finish =>
        rw [walked] at h
        rw [steps _ _ _ walked]
        exact h

/-- Behind its first NUL a path is not read. -/
theorem locate_congr {path' : Bytes} (h : Bytes.beforeNul path = Bytes.beforeNul path') :
    disk.locate path = disk.locate path' := by
  simp only [locate, h]

theorem namesNoFile_congr {path' : Bytes} (h : Bytes.beforeNul path = Bytes.beforeNul path') :
    namesNoFile path = namesNoFile path' := by
  simp only [namesNoFile, asksForDirectory, endsInDots, h]

/-! ## The temporary file -/

/-- What is added to the name of a file. -/
def temporarySuffix (process : Nat) : Bytes := ascii ".tmp." ++ decimal process

theorem temporaryName_eq (process : Nat) (path : Bytes) :
    temporaryName process path = path ++ temporarySuffix process := List.append_assoc ..

theorem length_temporarySuffix (process : Nat) : 5 ≤ (temporarySuffix process).length := by
  rw [temporarySuffix, List.length_append]
  exact Nat.le_add_right 5 _

theorem not_mem_temporarySuffix (process : Nat) {c : UInt8} (name : c ∉ ascii ".tmp.")
    (digit : isDigit c = false) : c ∉ temporarySuffix process := by
  intro mem
  rcases List.mem_append.1 mem with mem | mem
  · exact name mem
  · rw [isDigit_of_mem_decimal process c mem] at digit
    cases digit

/-- The text up to its last slash, and the name behind it. -/
theorem exists_last_name (path : Bytes) : ∃ above name, Ascii.slash ∉ name ∧
    ((path = name ∧ above = []) ∨ path = above ++ Ascii.slash :: name) := by
  induction path with
  | nil => exact ⟨[], [], by simp, .inl ⟨rfl, rfl⟩⟩
  | cons c path ih =>
    obtain ⟨above, name, free, ⟨rfl, rfl⟩ | rfl⟩ := ih
    · by_cases hc : c = Ascii.slash
      · exact ⟨[], path, free, .inr (by rw [hc]; rfl)⟩
      · exact ⟨[], c :: path, by simp [Ne.symm hc, free], .inl ⟨rfl, rfl⟩⟩
    · exact ⟨c :: above, name, free, .inr rfl⟩

/-- Components and one more name, or a longer one in its place, come to different ends. -/
theorem step_suffix_ne (stack : List Bytes) (name : Bytes) {suffix : Bytes}
    (long : 5 ≤ suffix.length) : Path.step stack (name ++ suffix) ≠
      (if name = [] then [] else [name]).foldl Path.step stack := by
  have longer : (name ++ suffix).length = name.length + suffix.length := List.length_append
  have pushed : Path.step stack (name ++ suffix) = (name ++ suffix) :: stack := by
    rw [Path.step, if_neg, if_neg]
    · intro e
      have := congrArg List.length e
      rw [longer, show (ascii "..").length = 2 from rfl] at this
      omega
    · intro e
      have := congrArg List.length e
      rw [longer, show (ascii ".").length = 1 from rfl] at this
      omega
  rw [pushed]
  intro e
  have lengths := congrArg List.length e
  rw [List.length_cons] at lengths
  by_cases empty : name = []
  · rw [if_pos empty, List.foldl_nil] at lengths
    omega
  · rw [if_neg empty, List.foldl_cons, List.foldl_nil] at e lengths
    unfold Path.step at e lengths
    split at e
    next dot => rw [if_pos dot] at lengths; omega
    next dot =>
      rw [if_neg dot] at lengths
      split at e
      next dots =>
        rw [if_pos dots, List.length_tail] at lengths
        omega
      · have := congrArg List.length (List.cons.inj e).1
        omega

/-- **The temporary file is another file**, whatever process writes it, unless a NUL cuts off what
is added to the name. -/
theorem keyOf_temporaryName (process : Nat) (h : 0 ∉ path) :
    keyOf (temporaryName process path) ≠ keyOf path := by
  rw [temporaryName_eq]
  have long := length_temporarySuffix process
  have noNul := not_mem_temporarySuffix process (c := 0) (by decide) (by decide)
  have noSlash := not_mem_temporarySuffix process (c := Ascii.slash) (by decide) (by decide)
  generalize temporarySuffix process = suffix at long noNul noSlash
  intro e
  have e := Path.ofStack_injective (properStack_stackOf _) (properStack_stackOf _) e
  have h' : 0 ∉ path ++ suffix := by simp [h, noNul]
  rw [stackOf, stackOf, Bytes.beforeNul_of_not_mem h, Bytes.beforeNul_of_not_mem h'] at e
  have free : ∀ name : Bytes, Ascii.slash ∉ name → Ascii.slash ∉ name ++ suffix := by
    intro name hn
    simp [hn, noSlash]
  have some : ∀ name : Bytes, name ++ suffix ≠ [] := by
    intro name nil
    have := congrArg List.length nil
    rw [List.length_append, List.length_nil] at this
    omega
  have absolute : startOf (path ++ suffix) = startOf path := by
    cases path with
    | nil =>
      -- a slash is all that makes a path absolute, and there is none in what is added
      obtain ⟨c, rest, rfl⟩ := List.exists_cons_of_ne_nil (some [])
      have ne : c ≠ Ascii.slash := fun e => noSlash (e ▸ List.mem_cons_self)
      simp [startOf, Path.isAbsolute, ne]
    | cons c path => rfl
  rw [absolute] at e
  obtain ⟨above, name, hn, ⟨rfl, -⟩ | rfl⟩ := exists_last_name path
  · rw [Path.components_of_no_slash (free _ hn), if_neg (some _),
      Path.components_of_no_slash hn] at e
    exact step_suffix_ne _ _ long e
  · rw [List.append_assoc, List.cons_append, Path.components_append_slash,
      Path.components_append_slash, List.foldl_append, List.foldl_append,
      Path.components_of_no_slash (free _ hn), if_neg (some _),
      Path.components_of_no_slash hn] at e
    exact step_suffix_ne _ _ long e

/-- **With a NUL in the path** they are one file. -/
theorem beforeNul_temporaryName (process : Nat) (h : 0 ∈ path) :
    Bytes.beforeNul (temporaryName process path) = Bytes.beforeNul path := by
  rw [temporaryName_eq]
  exact Bytes.beforeNul_append_of_mem h _

/-! ## Files -/

/-- The content of the file under a canonical path. -/
def fileAt (disk : Disk) (key : Bytes) : Option Bytes :=
  match disk.entries.find? key with
  | some (.file content) => some content
  | _ => none

theorem fileAt_eq_some_iff :
    disk.fileAt key = some content ↔ disk.entries.find? key = some (.file content) := by
  unfold fileAt
  cases disk.entries.find? key with
  | none => simp
  | some entry => cases entry <;> simp

/-- **What is read** is what the path names. -/
theorem read_eq_ok_iff :
    disk.read path = .ok content ↔ disk.locate path = .ok (keyOf path) ∧
      asksForDirectory path = false ∧ disk.fileAt (keyOf path) = some content := by
  rw [fileAt_eq_some_iff]
  unfold read status
  cases located : disk.locate path with
  | error fault => simp [bind, Except.bind]
  | ok key =>
    obtain rfl := locate_eq_ok located
    simp only [bind, Except.bind]
    cases disk.entries.find? (keyOf path) with
    | none => simp
    | some entry =>
      cases entry with
      | directory => simp
      | file found => cases asksForDirectory path <;> simp

theorem contains_of_read (h : disk.read path = .ok content) : disk.contains path = true := by
  unfold read at h
  unfold contains
  split at h <;> simp_all

/-- What stands in the way of writing hangs on the path up to its first NUL. -/
theorem writable_congr {path' : Bytes} (h : Bytes.beforeNul path = Bytes.beforeNul path') :
    disk.writable path = disk.writable path' := by
  simp only [writable, locate_congr h, namesNoFile_congr h]

theorem writable_eq_ok (h : disk.writable path = .ok key) :
    key = keyOf path ∧ disk.locate path = .ok key ∧ namesNoFile path = false ∧
      disk.entries.find? key ≠ some .directory := by
  unfold writable at h
  cases located : disk.locate path with
  | error fault =>
    rw [located] at h
    cases h
  | ok target =>
    obtain rfl := locate_eq_ok located
    rw [located] at h
    simp only [bind, Except.bind] at h
    split at h
    · cases h
    next names =>
      split at h
      · cases h
      next other =>
        cases h
        exact ⟨rfl, rfl, by simpa using names, other⟩

/-- Where no file could be put there is none to remove. -/
theorem remove_of_writable_error {fault : HostFault} (h : disk.writable path = .error fault) :
    disk.remove path = disk := by
  unfold writable at h
  unfold remove
  cases located : disk.locate path with
  | error => rfl
  | ok target =>
    rw [located] at h
    simp only [bind, Except.bind] at h
    dsimp only
    split
    next there =>
      rw [there] at h
      split at h
      next names => rw [if_pos names]
      · cases h
    · rfl

/-- Removing a file leaves the others. -/
theorem fileAt_remove (ne : key ≠ keyOf path) :
    (disk.remove path).fileAt key = disk.fileAt key := by
  unfold remove
  cases located : disk.locate path with
  | error => rfl
  | ok target =>
    obtain rfl := locate_eq_ok located
    dsimp only
    split
    · split
      · rfl
      · simp only [fileAt, ByteMap.find?_erase, if_neg (Ne.symm ne)]
    · rfl

/-- A file that could be written is removed. -/
theorem fileAt_remove_self (h : disk.writable path = .ok key) :
    (disk.remove path).fileAt key = none := by
  obtain ⟨-, located, names, other⟩ := writable_eq_ok h
  unfold remove
  rw [located]
  dsimp only
  split
  next there => simp [fileAt, names]
  next noFile =>
    unfold fileAt
    split
    next content there => exact absurd there (noFile content)
    · rfl

theorem find?_holding (place : Bytes) : (disk.holding key content).entries.find? place =
    if key = place then some (.file content) else disk.entries.find? place :=
  ByteMap.find?_insert ..

theorem fileAt_holding (ne : key ≠ keyOf path) :
    (disk.holding (keyOf path) content).fileAt key = disk.fileAt key := by
  simp only [fileAt, find?_holding, if_neg (Ne.symm ne)]

/-- What can be written still can when it has been. -/
theorem writable_holding (h : disk.writable path = .ok key) (content : Bytes) :
    (disk.holding key content).writable path = .ok key := by
  obtain ⟨-, located, names, other⟩ := writable_eq_ok h
  have located : (disk.holding key content).locate path = .ok key := by
    refine locate_of_directories (fun place dir => ?_) located
    have ne : key ≠ place := fun e => other (e ▸ dir)
    rw [find?_holding, if_neg ne, dir]
  simp [writable, located, names, find?_holding, bind, Except.bind]

/-- **All that writing a file can do**: it cannot be opened and nothing is written; the host fails
when it is open and it holds a part of the content; or it holds all of it. -/
theorem write_cases (disk : Disk) (trouble : Option Trouble) (path content : Bytes) :
    (∃ e, disk.write trouble path content = (disk, .error e) ∧
        (trouble = none → ∃ fault, disk.writable path = .error fault)) ∨
      disk.writable path = .ok (keyOf path) ∧
        ((∃ part e, part <+: content ∧ trouble ≠ none ∧
            disk.write trouble path content = (disk.holding (keyOf path) part, .error e)) ∨
          disk.write trouble path content = (disk.holding (keyOf path) content, .ok ())) := by
  unfold write
  cases writable : disk.writable path with
  | error fault => exact .inl ⟨_, rfl, fun _ => ⟨fault, rfl⟩⟩
  | ok target =>
    obtain ⟨rfl, -⟩ := writable_eq_ok writable
    dsimp only
    split
    · exact .inl ⟨_, rfl, nofun⟩
    · refine .inr ⟨rfl, ?_⟩
      split
      · exact .inl ⟨_, _, List.take_prefix _ _, nofun, rfl⟩
      · exact .inr rfl
    · exact .inr ⟨rfl, .inl ⟨_, _, List.prefix_refl _, nofun, rfl⟩⟩
    · exact .inr ⟨rfl, .inr rfl⟩

theorem rename_eq_ok {source target : Bytes} {moved : Disk}
    (h : disk.rename source target = .ok moved) :
    disk.locate target = .ok (keyOf target) ∧ asksForDirectory target = false ∧
      disk.entries.find? (keyOf target) ≠ some .directory ∧
      ∃ content, disk.fileAt (keyOf source) = some content ∧
        moved = ⟨(disk.entries.erase (keyOf source)).insert (keyOf target) (.file content)⟩ := by
  unfold rename at h
  cases from_ : disk.locate source with
  | error fault => rw [from_] at h; cases h
  | ok key =>
    obtain rfl := locate_eq_ok from_
    rw [from_] at h
    cases to_ : disk.locate target with
    | error fault => rw [to_] at h; cases h
    | ok place =>
      obtain rfl := locate_eq_ok to_
      rw [to_] at h
      simp only [bind, Except.bind] at h
      split at h
      · cases h
      · split at h
        next content there =>
          split at h
          · cases h
          next asks =>
            split at h
            · cases h
            next other =>
              cases h
              exact ⟨rfl, by simpa using asks, other, content, fileAt_eq_some_iff.2 there, rfl⟩
        · cases h

/-- A file can always be moved to where it is. -/
theorem rename_of_holding {target : Bytes} (same : Bytes.beforeNul path = Bytes.beforeNul target)
    (h : disk.writable path = .ok key) (content : Bytes) :
    ∃ moved, (disk.holding key content).rename path target = .ok moved := by
  obtain ⟨-, here, names, -⟩ := writable_eq_ok (writable_holding h content)
  have place : (disk.holding key content).locate target = .ok key := locate_congr same ▸ here
  rw [namesNoFile_congr same, namesNoFile, Bool.or_eq_false_iff] at names
  simp [rename, here, place, bind, Except.bind, names.1, names.2, find?_holding]

/-! ## Replacing -/

variable {process : Nat} {trouble : Option Trouble}

/-- **All that replacing a file can do**: the temporary file cannot be opened, or it is open and the
host fails, with a part of the content in it, or it cannot be moved into place, or it is moved. -/
theorem replace_cases (disk : Disk) (process : Nat) (trouble : Option Trouble)
    (path content : Bytes) :
    (∃ e, disk.replace process trouble path content =
          (disk.remove (temporaryName process path), .error e) ∧
        (trouble = none → ∃ fault, disk.writable (temporaryName process path) = .error fault)) ∨
      disk.writable (temporaryName process path) = .ok (keyOf (temporaryName process path)) ∧
        ((∃ part e, part <+: content ∧
            disk.replace process trouble path content =
              ((disk.holding (keyOf (temporaryName process path)) part).remove
                (temporaryName process path), .error e) ∧
            (trouble = none → ∃ fault,
              (disk.holding (keyOf (temporaryName process path)) part).rename
                (temporaryName process path) path = .error fault)) ∨
          ∃ moved, (disk.holding (keyOf (temporaryName process path)) content).rename
              (temporaryName process path) path = .ok moved ∧
            disk.replace process trouble path content = (moved, .ok ())) := by
  unfold replace
  dsimp only
  rcases disk.write_cases trouble (temporaryName process path) content with
    ⟨e, writes, blocked⟩ | ⟨writable, ⟨part, e, part_of, troubled, writes⟩ | writes⟩
  · rw [writes]
    exact .inl ⟨e, rfl, blocked⟩
  · rw [writes]
    exact .inr ⟨writable, .inl ⟨part, e, part_of, rfl, fun none => absurd none troubled⟩⟩
  · rw [writes]
    refine .inr ⟨writable, ?_⟩
    dsimp only
    split
    next fault fails =>
      refine .inl ⟨content, _, List.prefix_refl _, rfl, fun none => ⟨fault, ?_⟩⟩
      subst none
      exact fails
    next moved moves =>
      refine .inr ⟨moved, ?_, rfl⟩
      split at moves
      · cases moves
      · exact moves

/-- **A file that cannot be replaced** stays as it is, if the temporary file is another one, or the
host fails for nothing but what stands on the disk. -/
theorem fileAt_of_replace_error {e : HostError} (apart : 0 ∉ path ∨ trouble = none)
    (h : (disk.replace process trouble path content).2 = .error e) :
    (disk.replace process trouble path content).1.fileAt (keyOf path) =
      disk.fileAt (keyOf path) := by
  by_cases nul : 0 ∈ path
  · have free := apart.resolve_left (not_not_intro nul)
    have same := beforeNul_temporaryName process nul
    rcases disk.replace_cases process trouble path content with
      ⟨e, eq, blocked⟩ | ⟨writable, ⟨part, e, -, eq, stuck⟩ | ⟨moved, -, eq⟩⟩
    · obtain ⟨fault, writable⟩ := blocked free
      rw [eq, remove_of_writable_error writable]
    · -- the one file would only have to be moved to where it is
      obtain ⟨fault, stuck⟩ := stuck free
      obtain ⟨moved, moves⟩ := rename_of_holding same writable part
      cases stuck.symm.trans moves
    · rw [eq] at h
      cases h
  · have ne := (keyOf_temporaryName process nul).symm
    rcases disk.replace_cases process trouble path content with
      ⟨e, eq, -⟩ | ⟨-, ⟨part, e, -, eq, -⟩ | ⟨moved, -, eq⟩⟩
    · rw [eq, fileAt_remove ne]
    · rw [eq, fileAt_remove ne, fileAt_holding ne]
    · rw [eq] at h
      cases h

/-- **A file with a NUL in its path is lost** when it cannot be replaced though it could be
written. -/
theorem fileAt_of_replace_trouble {e : HostError} (nul : 0 ∈ path)
    (writable : disk.writable path = .ok key)
    (h : (disk.replace process trouble path content).2 = .error e) :
    (disk.replace process trouble path content).1.fileAt key = none := by
  have same := beforeNul_temporaryName process nul
  rw [← writable_congr same] at writable
  rcases disk.replace_cases process trouble path content with
    ⟨e, eq, -⟩ | ⟨there, ⟨part, e, -, eq, -⟩ | ⟨moved, -, eq⟩⟩
  · rw [eq]
    exact fileAt_remove_self writable
  · rw [writable] at there
    cases there
    rw [eq]
    exact fileAt_remove_self (writable_holding writable part)
  · rw [eq] at h
    cases h

/-- The host cannot flush what is the document itself. -/
example :
    let path := ascii "vfs.json" ++ [0]
    let disk := Disk.empty.place path (ascii "old")
    disk.fileAt (ascii "/work/vfs.json") = some (ascii "old") ∧
      (disk.replace 1 (some (.flushing .inputOutput)) path (ascii "new")).1.fileAt
        (ascii "/work/vfs.json") = none := by decide

/-- **A file that is replaced** is read with its new content. -/
theorem read_of_replace (h : (disk.replace process trouble path content).2 = .ok ()) :
    (disk.replace process trouble path content).1.read path = .ok content := by
  rcases disk.replace_cases process trouble path content with
    ⟨e, eq, -⟩ | ⟨writable, ⟨part, e, -, eq, -⟩ | ⟨moved, moves, eq⟩⟩
  · rw [eq] at h
    cases h
  · rw [eq] at h
    cases h
  · obtain ⟨located, asks, other, found, there, rfl⟩ := rename_eq_ok moves
    rw [fileAt_eq_some_iff, find?_holding, if_pos rfl] at there
    cases there
    rw [eq]
    refine read_eq_ok_iff.2 ⟨?_, asks, ?_⟩
    · refine locate_of_directories (fun key dir => ?_) located
      have ne : keyOf path ≠ key := fun e => other (e ▸ dir)
      have ne' : keyOf (temporaryName process path) ≠ key := by
        rintro rfl
        rw [find?_holding, if_pos rfl] at dir
        cases dir
      rw [ByteMap.find?_insert, if_neg ne, ByteMap.find?_erase, if_neg ne', dir]
    · rw [fileAt_eq_some_iff, ByteMap.find?_insert, if_pos rfl]

/-! ## Making directories -/

theorem fileAt_makeFrom (disk : Disk) (parts stack : List Bytes) (key : Bytes) :
    (disk.makeFrom stack parts).1.fileAt key = disk.fileAt key := by
  induction parts generalizing disk stack with
  | nil =>
    unfold makeFrom
    split <;> rfl
  | cons part parts ih =>
    unfold makeFrom
    split
    · rfl
    next stack _ =>
      dsimp only
      split
      · exact ih disk stack
      next missing =>
        rw [ih]
        have free : disk.entries.find? (Path.ofStack stack) = none := by
          simpa [ByteMap.contains] using missing
        by_cases e : Path.ofStack stack = key
        · simp [fileAt, ← e, free]
        · simp [fileAt, e]

/-- Making directories leaves every file. -/
theorem fileAt_makeDirectories (disk : Disk) (path key : Bytes) :
    (disk.makeDirectories path).1.fileAt key = disk.fileAt key := by
  unfold makeDirectories
  dsimp only
  split
  · rfl
  · split
    · rfl
    · exact disk.fileAt_makeFrom ..

/-! ## Directories that stand -/

/-- Every directory of the one disk is a directory of the other. -/
def Stands (disk disk' : Disk) : Prop :=
  ∀ key, disk.entries.find? key = some .directory → disk'.entries.find? key = some .directory

theorem Stands.trans {disk' disk'' : Disk} (h : disk.Stands disk') (h' : disk'.Stands disk'') :
    disk.Stands disk'' := fun key dir => h' key (h key dir)

theorem stands_makeFrom (disk : Disk) (parts stack : List Bytes) :
    disk.Stands (disk.makeFrom stack parts).1 := by
  induction parts generalizing disk stack with
  | nil =>
    unfold makeFrom
    split <;> exact fun _ dir => dir
  | cons part parts ih =>
    unfold makeFrom
    split
    · exact fun _ dir => dir
    next stack _ =>
      dsimp only
      split
      · exact ih disk stack
      next =>
        refine Stands.trans (fun key dir => ?_) (ih _ stack)
        rw [ByteMap.find?_insert]
        split
        · rfl
        · exact dir

theorem stands_makeDirectories (disk : Disk) (path : Bytes) :
    disk.Stands (disk.makeDirectories path).1 := by
  unfold makeDirectories
  dsimp only
  split
  · exact fun _ dir => dir
  · split
    · exact fun _ dir => dir
    · exact disk.stands_makeFrom _ _

theorem stands_holding (h : disk.writable path = .ok key) :
    disk.Stands (disk.holding key content) := by
  obtain ⟨-, -, -, other⟩ := writable_eq_ok h
  intro place dir
  have ne : key ≠ place := fun e => other (e ▸ dir)
  rw [find?_holding, if_neg ne, dir]

theorem stands_remove (disk : Disk) (path : Bytes) : disk.Stands (disk.remove path) := by
  unfold remove
  cases disk.locate path with
  | error => exact fun _ dir => dir
  | ok target =>
    dsimp only
    split
    next found =>
      split
      · exact fun _ dir => dir
      · intro key dir
        have ne : target ≠ key := by
          rintro rfl
          rw [found] at dir
          cases dir
        rw [ByteMap.find?_erase, if_neg ne, dir]
    · exact fun _ dir => dir

theorem stands_of_replace_error {e : HostError}
    (h : (disk.replace process trouble path content).2 = .error e) :
    disk.Stands (disk.replace process trouble path content).1 := by
  rcases disk.replace_cases process trouble path content with
    ⟨e, eq, -⟩ | ⟨writable, ⟨part, e, -, eq, -⟩ | ⟨moved, -, eq⟩⟩
  · rw [eq]
    exact disk.stands_remove _
  · rw [eq]
    exact (stands_holding writable).trans (stands_remove _ _)
  · rw [eq] at h
    cases h

/-- **A file is read again** where the directories stand and it has its content. -/
theorem read_of_stands {disk' : Disk} (stands : disk.Stands disk')
    (same : disk'.fileAt (keyOf path) = disk.fileAt (keyOf path))
    (h : disk.read path = .ok content) : disk'.read path = .ok content := by
  obtain ⟨located, asks, there⟩ := read_eq_ok_iff.1 h
  exact read_eq_ok_iff.2 ⟨locate_of_directories stands located, asks, same.trans there⟩

end VirtualShell.Disk
