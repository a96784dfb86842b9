import VirtualShell.Proofs.Json.Document
import VirtualShell.Proofs.Text.Base64
import VirtualShell.Proofs.Text.Scan
import VirtualShell.Proofs.Tree.Puts
import VirtualShell.Tree.Record

/-!
# Records read back

A record is written as a JSON object of plain values (`Inode.plain_toJson`), which can be written if
the path is UTF-8, whatever the content is (`Inode.writable_toJson`), and reading the object gives
the record (`Inode.ofJson_toJson`), if it is of the size of its content and its times are of
sixty-four bits (`Inode.Storable`). So it is read back from the text of the object too, in every
layout (`Inode.record_reads_back`).
-/

namespace VirtualShell

namespace Json

variable {fields : List (Bytes × Json)} {key : String} {j value : Json}

/-! ## Fields -/

theorem field?_ofFields :
    (ofFields fields).field? key = (fields.reverse.find? (·.1 == ascii key)).map (·.2) := by
  have found := ByteMap.find?_insertMany ∅ fields (ascii key)
  rwa [ByteMap.find?_empty, Option.or_none] at found

theorem field_of_field? (h : j.field? key = some value) : j.field key = .ok value := by
  rw [field, h]

theorem fieldOr_of_field? {α : Type} {default : α} {read : Json → Except Mismatch α}
    (h : j.field? key = some value) : j.fieldOr key default read = read value := by
  cases j with
  | object fields => rw [fieldOr, h]
  | _ => cases h

theorem fieldOr_ofFields {α : Type} {default : α} {read : Json → Except Mismatch α}
    (h : (ofFields fields).field? key = none) :
    (ofFields fields).fieldOr key default read = .ok default := by
  rw [ofFields] at h ⊢
  rw [fieldOr, h]

theorem plain_ofFields (h : ∀ f ∈ fields, Plain f.2) : Plain (ofFields fields) :=
  .object (ByteMap.ofList fields).sorted fun f mem => h f (ByteMap.mem_ofList mem)

theorem writable_ofFields (h : ∀ f ∈ fields, isValidUtf8 f.1 = true ∧ writable f.2 = true) :
    (ofFields fields).writable = true :=
  fieldsWritable_iff.2 fun f mem => h f (ByteMap.mem_ofList mem)

/-! ## Numbers -/

theorem asWhole_integer {overflow n : Int} (low : -0x8000000000000000 ≤ n)
    (high : n < 0x10000000000000000) : asWhole overflow (.integer n) = .ok n :=
  if_pos ⟨low, high⟩

theorem asUInt32_integer (n : UInt32) : asUInt32 (.integer n.toNat) = .ok n.toNat := by
  have small := n.toNat_lt
  have whole : asWhole (-0x8000000000000000) (.integer n.toNat) = .ok (n.toNat : Int) :=
    asWhole_integer (by omega) (by omega)
  have same : ((n.toNat : Int) % 0x100000000).toNat = n.toNat := by omega
  rw [asUInt32, whole]
  · exact congrArg Except.ok same
  · exact nofun

theorem asInt64_integer {t : Int} (low : -0x8000000000000000 ≤ t)
    (high : t < 0x8000000000000000) : asInt64 (.integer t) = .ok t := by
  have same : t.bmod 0x10000000000000000 = t := Int.bmod_eq_of_le low high
  rw [asInt64, asWhole_integer low (by omega)]
  exact congrArg Except.ok same

end Json

/-! ## Records -/

namespace Inode

/-- The keys of a record but for its content. -/
def headKeys : List Bytes :=
  [ascii "path", ascii "type", ascii "mode", ascii "uid", ascii "gid", ascii "size",
    ascii "ctime", ascii "mtime", ascii "atime"]

/-- The fields of a record but for its content. -/
def headFields (node : Inode) : List (Bytes × Json) := [
  (ascii "path", .string node.path),
  (ascii "type", .string node.kind.name),
  (ascii "mode", .integer node.mode.toNat),
  (ascii "uid", .integer node.uid.toNat),
  (ascii "gid", .integer node.gid.toNat),
  (ascii "size", .integer node.size.toUInt64.toNat),
  (ascii "ctime", .integer node.changed),
  (ascii "mtime", .integer node.modified),
  (ascii "atime", .integer node.accessed)]

theorem toJson_eq (node : Inode) :
    node.toJson = Json.ofFields (node.headFields ++ contentFields node.content?) := rfl

variable {node : Inode}

/-- Base 64 is ASCII, so it can be written. -/
theorem isValidUtf8_encode (content : Bytes) : isValidUtf8 (Base64.encode content) = true :=
  isValidUtf8_of_isAscii (isAscii_iff.2 fun _ => Base64.lt_of_mem_encode)

/-- What the content fields hold: a string that can be written, or `null`. -/
theorem contentFields_spec (content : Option Bytes) : ∀ f ∈ contentFields content,
    (f.1 = ascii "content" ∨ f.1 = ascii "encoding") ∧ Json.Plain f.2 ∧ f.2.writable = true := by
  have name : isValidUtf8 encodingName = true := isValidUtf8_of_isAscii (by decide)
  cases content with
  | none => exact List.forall_mem_singleton.2 ⟨.inl rfl, .null, rfl⟩
  | some content =>
    rw [contentFields]
    split
    next valid =>
      exact List.forall_mem_singleton.2 ⟨.inl rfl, .string _, Utf8.scan_eq_valid_iff.1 valid⟩
    next =>
      exact List.forall_mem_cons.2 ⟨⟨.inl rfl, .string _, isValidUtf8_encode content⟩,
        List.forall_mem_singleton.2 ⟨.inr rfl, .string _, name⟩⟩

/-- **Content is written as it is exactly where it is UTF-8.** The scan that decides it finds a
content valid when it is a row of shortest-form encodings of scalar values and nothing else, and it
never looks behind the end. What it finds valid is the string that is written, anything else is not,
and either way the strings are such as can be written. -/
theorem contentFields_laws (content : Bytes) :
    (Utf8.scan content = .valid ↔ ∃ scalars : List Nat, (∀ n ∈ scalars, isScalar n = true) ∧
      content = scalars.flatMap encodeScalar) ∧
    Utf8.scan content ≠ .overrun ∧
    ((ascii "content", .string content) ∈ contentFields (some content) ↔
      Utf8.scan content = .valid) ∧
    ∀ f ∈ contentFields (some content), f.2.writable = true := by
  have encoded : Utf8.scan content = .valid ↔ ∃ scalars : List Nat,
      (∀ n ∈ scalars, isScalar n = true) ∧ content = scalars.flatMap encodeScalar := by
    rw [Utf8.scan_eq_valid_iff, isValidUtf8, Option.isSome_iff_exists]
    exact exists_congr fun _ => decodeUtf8?_eq_some_iff
  refine ⟨encoded, Utf8.scan_ne_overrun content, ⟨fun plain => ?_, fun valid => ?_⟩,
    fun f mem => (contentFields_spec _ f mem).2.2⟩
  · by_contra invalid
    rw [contentFields, if_neg invalid, List.mem_cons, List.mem_singleton] at plain
    rcases plain with text | encoding
    · obtain ⟨-, same⟩ := Prod.mk.inj text
      exact invalid (Utf8.scan_eq_valid_iff.2 (Json.string.inj same ▸ isValidUtf8_encode content))
    · exact absurd (Prod.mk.inj encoding).1 (by decide)
  · rw [contentFields, if_pos valid]
    exact List.mem_singleton_self _

theorem natAbs_lt_of_isTimestamp {t : Int} (h : isTimestamp t) :
    t.natAbs < 0x10000000000000000 := by
  obtain ⟨low, high⟩ := h
  omega

/-- **The value of a record is plain**, so that it can be read back. -/
theorem plain_toJson (h : node.Timely) : Json.Plain node.toJson := by
  rw [toJson_eq]
  refine Json.plain_ofFields (List.forall_mem_append.2 ⟨?_, fun f mem =>
    (contentFields_spec _ f mem).2.1⟩)
  have number : ∀ n : Nat, n < 0x10000000000000000 → Json.Plain (.integer n) := fun n small =>
    .integer (by simpa using small)
  have word : ∀ n : UInt32, Json.Plain (.integer n.toNat) := fun n =>
    number _ (Nat.lt_trans n.toNat_lt (by decide))
  have time : ∀ t, isTimestamp t → Json.Plain (.integer t) := fun t ht =>
    .integer (natAbs_lt_of_isTimestamp ht)
  simp only [headFields, List.forall_mem_cons, List.not_mem_nil, false_imp_iff, implies_true,
    and_true]
  exact ⟨.string _, .string _, word _, word _, word _, number _ (UInt64.toNat_lt _),
    time _ h.changed, time _ h.modified, time _ h.accessed⟩

theorem isValidUtf8_key : ∀ key ∈ headKeys ++ [ascii "content", ascii "encoding"],
    isValidUtf8 key = true := by
  have ascii : (headKeys ++ [ascii "content", ascii "encoding"]).all isAscii = true := by decide
  exact fun key mem => isValidUtf8_of_isAscii (List.all_eq_true.1 ascii key mem)

theorem isValidUtf8_name (kind : InodeKind) : isValidUtf8 kind.name = true := by
  refine isValidUtf8_of_isAscii ?_
  cases kind <;> decide

/-- **The value of a record can be written** when the path is UTF-8. -/
theorem writable_toJson (h : isValidUtf8 node.path = true) : node.toJson.writable = true := by
  rw [toJson_eq]
  refine Json.writable_ofFields (List.forall_mem_append.2 ⟨fun f mem => ⟨?_, ?_⟩, fun f mem => ?_⟩)
  · exact isValidUtf8_key f.1 (List.mem_append_left _ (List.mem_map_of_mem (f := (·.1)) mem))
  · have number : ∀ n, (Json.integer n).writable = true := fun _ => rfl
    have values : ∀ f ∈ node.headFields, f.2.writable = true := by
      simp only [headFields, List.forall_mem_cons, List.not_mem_nil, false_imp_iff, implies_true,
        and_true, number]
      exact ⟨h, isValidUtf8_name node.kind⟩
    exact values f mem
  · obtain ⟨key, -, writable⟩ := contentFields_spec _ f mem
    refine ⟨isValidUtf8_key f.1 (List.mem_append_right _ ?_), writable⟩
    simpa using key

/-! ## Reading a record -/

theorem field?_toJson {key : String} (content : ascii key ≠ ascii "content")
    (encoding : ascii key ≠ ascii "encoding") : node.toJson.field? key =
      (node.headFields.reverse.find? (·.1 == ascii key)).map (·.2) := by
  have apart : (contentFields node.content?).reverse.find? (·.1 == ascii key) = none := by
    refine List.find?_eq_none.2 fun f mem same => ?_
    have same := (beq_iff_eq.1 same).symm
    rcases (contentFields_spec _ f (List.mem_reverse.1 mem)).1 with e | e
    · exact content (same.trans e)
    · exact encoding (same.trans e)
  rw [toJson_eq, Json.field?_ofFields, List.reverse_append, List.find?_append, apart,
    Option.none_or]

/-- Content is read back, from base 64 where it is no UTF-8. -/
theorem readContent_toJson (path : Bytes) :
    readContent node.toJson path = .ok node.content? := by
  have found : ∀ (fields : List (Bytes × Json)) (key : String) (value : Option Json),
      ((node.headFields ++ fields).reverse.find? (·.1 == ascii key)).map (·.2) = value →
        (Json.ofFields (node.headFields ++ fields)).field? key = value :=
    fun _ _ _ h => Json.field?_ofFields.trans h
  rw [toJson_eq]
  cases node.content? with
  | none =>
    have null := found [(ascii "content", .null)] "content" (some .null) rfl
    rw [readContent, contentFields, null]
    rfl
  | some content =>
    rw [contentFields]
    split
    next =>
      have text := found [(ascii "content", .string content)] "content"
        (some (.string content)) rfl
      have encoding := found [(ascii "content", .string content)] "encoding" none rfl
      simp only [readContent, text]
      rw [Json.fieldOr_ofFields encoding]
      rfl
    next =>
      have text := found [(ascii "content", .string (Base64.encode content)),
        (ascii "encoding", .string encodingName)] "content"
        (some (.string (Base64.encode content))) rfl
      have encoding := found [(ascii "content", .string (Base64.encode content)),
        (ascii "encoding", .string encodingName)] "encoding" (some (.string encodingName)) rfl
      have name : readField (Json.asString (.string encodingName)) = .ok encodingName := rfl
      simp only [readContent, text]
      rw [Json.fieldOr_of_field? encoding, name]
      simp only [bind, Except.bind, if_true, Base64.decode?_encode]
      rfl

/-- A field that is no content is read, with or without a default for it. -/
theorem fieldOr_toJson {α : Type} {read : Json → Except Json.Mismatch α} {value : Json} {a : α}
    (key : String) (default : α) (h : read value = .ok a)
    (content : ascii key ≠ ascii "content" := by decide)
    (encoding : ascii key ≠ ascii "encoding" := by decide)
    (found : (node.headFields.reverse.find? (·.1 == ascii key)).map (·.2) = some value := by rfl) :
    readField (node.toJson.fieldOr key default read) = .ok a := by
  rw [Json.fieldOr_of_field? ((field?_toJson content encoding).trans found), h]
  rfl

theorem field_toJson {text : Bytes} (key : String)
    (content : ascii key ≠ ascii "content" := by decide)
    (encoding : ascii key ≠ ascii "encoding" := by decide)
    (found : (node.headFields.reverse.find? (·.1 == ascii key)).map (·.2) =
      some (.string text) := by rfl) :
    readField (node.toJson.field key >>= Json.asString) = .ok text := by
  rw [Json.field_of_field? ((field?_toJson content encoding).trans found)]
  rfl

theorem asInt64_of_isTimestamp {t : Int} (h : isTimestamp t) :
    Json.asInt64 (.integer t) = .ok t := Json.asInt64_integer h.1 h.2

/-- **A record is read back.** -/
theorem ofJson_toJson (h : node.Storable) : ofJson node.toJson = .ok node := by
  have path : readField (node.toJson.field "path" >>= Json.asString) = .ok node.path :=
    field_toJson "path"
  have kind : readField (node.toJson.field "type" >>= Json.asString) = .ok node.kind.name :=
    field_toJson "type"
  have mode := fun usual => fieldOr_toJson "mode" usual (Json.asUInt32_integer node.mode)
  have uid := fieldOr_toJson "uid" 0 (Json.asUInt32_integer node.uid)
  have gid := fieldOr_toJson "gid" 0 (Json.asUInt32_integer node.gid)
  have changed := fieldOr_toJson "ctime" 0 (asInt64_of_isTimestamp h.changed)
  have modified := fieldOr_toJson "mtime" node.changed (asInt64_of_isTimestamp h.modified)
  have accessed := fieldOr_toJson "atime" node.modified (asInt64_of_isTimestamp h.accessed)
  have word : ∀ n : UInt32, n.toNat.toUInt32 = n := fun _ => UInt32.ofNat_toNat
  simp only [ofJson, path, kind]
  simp only [bind, Except.bind, pure, Except.pure, InodeKind.ofName?_name, mode, uid, gid, changed,
    modified, accessed, readContent_toJson, word]
  -- only the content of what is no directory is looked for, and the size is counted
  by_cases dir : node.kind = .directory
  · obtain ⟨none, size⟩ := h.directory (beq_iff_eq.2 dir)
    simp only [dir, if_true, Option.map_none, Option.getD_none]
    rw [← dir, ← none, ← size]
  · have size := h.content (beq_eq_false_iff_ne.2 dir)
    simp only [dir, if_false]
    rw [← size]

/-! ## Records in documents -/

/-- **The content of a record is written as UTF-8**, whatever its bytes are. -/
theorem isValidUtf8_of_content {text : Bytes}
    (h : node.toJson.field? "content" = some (.string text)) : isValidUtf8 text = true := by
  rw [toJson_eq, Json.field?_ofFields] at h
  obtain ⟨f, found, value⟩ := Option.map_eq_some_iff.1 h
  have key : f.1 = ascii "content" := by simpa using List.find?_some found
  rcases List.mem_append.1 (List.mem_reverse.1 (List.mem_of_find?_eq_some found)) with head | mem
  · have other : f.1 ∈ headKeys := List.mem_map_of_mem (f := (·.1)) head
    rw [key] at other
    exact absurd other (by decide)
  · obtain ⟨-, -, writable⟩ := contentFields_spec _ f mem
    rwa [value] at writable

/-- **Decoding undoes encoding.** A record with a path in UTF-8 and times of sixty-four bits is read
back from its JSON object, whatever its kind, content, mode and owners are, if it is a directory
without content and of size 0, or has the size of its content; the object can be written, since its
content is UTF-8, and is read back from its text in every layout. -/
theorem record_reads_back (path : isValidUtf8 node.path = true) (timely : node.Timely)
    (sized : node.Sized) :
    ofJson node.toJson = .ok node ∧ node.toJson.writable = true ∧
    (∀ text, node.toJson.field? "content" = some (.string text) → isValidUtf8 text = true) ∧
    ∀ layout, (Json.read? (Json.renderAt layout 0 node.toJson)).map ofJson = some (.ok node) := by
  have writable := writable_toJson path
  have back := ofJson_toJson ⟨timely, sized⟩
  refine ⟨back, writable, fun text => isValidUtf8_of_content, fun layout => ?_⟩
  have read : Json.read? (Json.renderAt layout 0 node.toJson ++ []) = some node.toJson :=
    Json.read?_renderAt (plain_toJson timely) writable (List.forall_mem_nil _)
  rw [List.append_nil] at read
  rw [read, Option.map_some, back]

/-- A file that is no text, at the ends of time. -/
theorem record_reads_back_at_bytes :
    let node : Inode := {
      path := ascii "/f"
      body := .file [0xFF, 0xFE, 0, 120]
      mode := 0o644
      changed := -0x8000000000000000
      modified := 0x7FFFFFFFFFFFFFFF }
    isValidUtf8 node.path = true ∧ node.Timely ∧ node.Sized ∧
      isValidUtf8 node.content = false ∧
      ofJson node.toJson = .ok node ∧
      (Json.read? node.toJson.render).map ofJson = some (.ok node) ∧
      (Json.read? node.toJson.renderIndented).map ofJson = some (.ok node) := by
  intro node
  have path : isValidUtf8 node.path = true := by decide
  have timely : node.Timely := ⟨by decide, by decide, by decide⟩
  have sized : node.Sized := ⟨nofun, fun _ => rfl⟩
  obtain ⟨back, -, -, texts⟩ := record_reads_back path timely sized
  exact ⟨path, timely, sized, by decide, back, texts .compact, texts .indented⟩

/-! ## What is read -/

/-- A number that is read as a time has sixty-four bits. -/
theorem isTimestamp_of_asInt64 {j : Json} {t : Int} (h : Json.asInt64 j = .ok t) :
    isTimestamp t := by
  obtain ⟨whole, -, e⟩ := Outcome.bind_eq_ok.1 h
  obtain rfl : whole.bmod 0x10000000000000000 = t := by simpa [pure, Except.pure] using e
  have low := Int.le_bmod (x := whole) (m := 0x10000000000000000) (by decide)
  have high := Int.bmod_lt (x := whole) (m := 0x10000000000000000) (by decide)
  constructor <;> omega

theorem isTimestamp_of_fieldOr {j : Json} {key : String} {usual t : Int} (hu : isTimestamp usual)
    (h : readField (j.fieldOr key usual Json.asInt64) = .ok t) : isTimestamp t := by
  cases read : j.fieldOr key usual Json.asInt64 with
  | error e =>
    rw [read] at h
    cases h
  | ok value =>
    rw [read] at h
    obtain rfl : value = t := Except.ok.inj h
    unfold Json.fieldOr at read
    split at read
    · split at read
      · exact isTimestamp_of_asInt64 read
      · cases read
        exact hu
    · cases read

/-- **A record that is read** has times of sixty-four bits and the size of its content. -/
theorem storable_of_ofJson {j : Json} {node : Inode} (h : ofJson j = .ok node) :
    node.Storable := by
  unfold ofJson at h
  obtain ⟨path, -, h⟩ := Outcome.bind_eq_ok.1 h
  obtain ⟨kindName, -, h⟩ := Outcome.bind_eq_ok.1 h
  cases known : InodeKind.ofName? kindName with
  | none =>
    rw [known] at h
    cases h
  | some kind =>
    rw [known] at h
    obtain ⟨kind, -, h⟩ := Outcome.bind_eq_ok.1 h
    obtain ⟨mode, -, h⟩ := Outcome.bind_eq_ok.1 h
    obtain ⟨uid, -, h⟩ := Outcome.bind_eq_ok.1 h
    obtain ⟨gid, -, h⟩ := Outcome.bind_eq_ok.1 h
    obtain ⟨changed, hc, h⟩ := Outcome.bind_eq_ok.1 h
    obtain ⟨modified, hm, h⟩ := Outcome.bind_eq_ok.1 h
    obtain ⟨accessed, ha, h⟩ := Outcome.bind_eq_ok.1 h
    have changed := isTimestamp_of_fieldOr (by decide) hc
    have modified := isTimestamp_of_fieldOr changed hm
    have accessed := isTimestamp_of_fieldOr modified ha
    split at h
    next dir =>
      obtain ⟨content, none, h⟩ := Outcome.bind_eq_ok.1 h
      cases none
      cases h
      exact ⟨⟨changed, modified, accessed⟩, fun _ => ⟨rfl, rfl⟩, fun _ => rfl⟩
    next other =>
      obtain ⟨content, -, h⟩ := Outcome.bind_eq_ok.1 h
      cases h
      exact ⟨⟨changed, modified, accessed⟩, fun dir => absurd (beq_iff_eq.1 dir) other,
        fun _ => rfl⟩

end Inode

end VirtualShell
