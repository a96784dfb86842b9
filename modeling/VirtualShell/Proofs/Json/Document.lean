import VirtualShell.Proofs.Json.Value
import VirtualShell.Proofs.Text.Utf8

/-!
# Documents read back

A value that is written, in whatever layout, is read back as it was (`Plain.reads`), if its numbers
are whole numbers of sixty-four bits and the fields of its objects are in order (`Plain`). With
every string in UTF-8 the written text is UTF-8 (`Plain.isValidUtf8`), and the reader of documents
accepts it (`read?_renderAt`).
-/

namespace VirtualShell.Json

variable {layout : Layout}

/-- Values without points and exponents, of sixty-four bits, with the fields of every object in
order. -/
inductive Plain : Json → Prop
  | null : Plain null
  | bool (value : Bool) : Plain (bool value)
  | integer {n : Int} : n.natAbs < 0x10000000000000000 → Plain (integer n)
  | string (s : Bytes) : Plain (string s)
  | array {items : List Json} : (∀ j ∈ items, Plain j) → Plain (array items)
  | object {fields : List (Bytes × Json)} : fields.Pairwise (fun a b => a.1 < b.1) →
      (∀ f ∈ fields, Plain f.2) → Plain (object fields)

/-- **A written value is read back.** -/
theorem Plain.reads {j : Json} (h : Plain j) (level : Nat) : Reads (renderAt layout level j) j := by
  induction h generalizing level with
  | null => exact reads_null
  | bool value => exact reads_bool level value
  | integer bounded => exact reads_integer bounded
  | string s => exact reads_string s
  | array _ ih => exact reads_array fun j mem => ih j mem (level + 1)
  | object sorted _ ih => exact reads_object sorted fun f mem => ih f mem (level + 1)

/-! ## UTF-8 -/

theorem isValidUtf8_blank {space : Bytes}
    (blank : ∀ c ∈ space, c = Ascii.newline ∨ c = Ascii.space) : isValidUtf8 space = true := by
  refine isValidUtf8_of_isAscii (isAscii_iff.2 fun c mem => ?_)
  rcases blank c mem with rfl | rfl <;> decide

theorem isValidUtf8_lineBreak (layout : Layout) (level : Nat) :
    isValidUtf8 (layout.lineBreak level) = true :=
  isValidUtf8_blank (layout.blank_lineBreak level)

theorem isValidUtf8_signedDecimal (n : Int) : isValidUtf8 (signedDecimal n) = true := by
  have digits := isValidUtf8_of_isAscii (isAscii_iff.2 fun c mem =>
    isDigit_lt (isDigit_of_mem_decimal n.natAbs c mem))
  unfold signedDecimal
  split
  · exact isValidUtf8_cons (by decide) digits
  · exact digits

theorem isAscii_escapeByte {c : UInt8} (h : c < 0x80) : isAscii (escapeByte c) = true := by
  have digit : ∀ d < 0x10, digitByte d < 0x80 := by decide
  unfold escapeByte
  -- the seven bytes with an escape of one letter
  iterate 7
    split
    · rfl
  split
  next control =>
    have small : c.toNat < 0x20 := UInt8.lt_iff_toNat_lt.1 control
    have text : isAscii (ascii "\\u00") = true := rfl
    have digits : isAscii [digitByte (c.toNat / 16), digitByte (c.toNat % 16)] = true := by
      simp [isAscii, digit _ (show c.toNat / 16 < 0x10 by omega),
        digit _ (show c.toNat % 16 < 0x10 by omega)]
    rw [isAscii, List.all_append, ← isAscii, ← isAscii, text, digits]
    rfl
  · simp [isAscii, h]

theorem escapeByte_of_not_lt {c : UInt8} (h : ¬ c < 0x80) : escapeByte c = [c] := by
  have ne : ∀ d, d < 0x80 → c ≠ d := by
    rintro d low rfl
    exact h low
  have control : ¬ c < 0x20 := fun l => h (UInt8.lt_trans l (by decide))
  rw [escapeByte, if_neg (ne _ (by decide)), if_neg (ne _ (by decide)), if_neg (ne _ (by decide)),
    if_neg (ne _ (by decide)), if_neg (ne _ (by decide)), if_neg (ne _ (by decide)),
    if_neg (ne _ (by decide)), if_neg control]

theorem isValidUtf8_renderString {s : Bytes} (h : isValidUtf8 s = true) :
    isValidUtf8 (renderString s) = true := by
  have body := isValidUtf8_flatMap h (fun _ => isAscii_escapeByte) fun _ => escapeByte_of_not_lt
  exact isValidUtf8_cons (by decide) (isValidUtf8_append body (by decide))

theorem isValidUtf8_keyText {key : Bytes} (h : isValidUtf8 key = true) :
    isValidUtf8 (layout.keyText key) = true :=
  isValidUtf8_append (isValidUtf8_renderString h)
    (isValidUtf8_cons (by decide) (isValidUtf8_blank layout.blank_gap))

theorem isValidUtf8_itemsAt {level : Nat} {items : List Json}
    (h : ∀ j ∈ items, isValidUtf8 (renderAt layout level j) = true) :
    isValidUtf8 (itemsAt layout level items) = true := by
  induction items with
  | nil => rfl
  | cons j items ih =>
    obtain ⟨first, others⟩ := List.forall_mem_cons.1 h
    have item := isValidUtf8_append (isValidUtf8_lineBreak layout level) first
    cases items with
    | nil => rwa [itemsAt]
    | cons k items =>
      rw [itemsAt]
      · exact isValidUtf8_append item (isValidUtf8_cons (by decide) (ih others))
      · exact List.cons_ne_nil _ _

theorem isValidUtf8_fieldsAt {level : Nat} {fields : List (Bytes × Json)}
    (h : ∀ f ∈ fields, isValidUtf8 f.1 = true ∧ isValidUtf8 (renderAt layout level f.2) = true) :
    isValidUtf8 (fieldsAt layout level fields) = true := by
  induction fields with
  | nil => rfl
  | cons field fields ih =>
    obtain ⟨key, j⟩ := field
    obtain ⟨⟨name, value⟩, others⟩ := List.forall_mem_cons.1 h
    have text : isValidUtf8 (layout.lineBreak level ++ layout.keyText key ++
        renderAt layout level j) = true :=
      isValidUtf8_append (isValidUtf8_append (isValidUtf8_lineBreak layout level)
        (isValidUtf8_keyText name)) value
    cases fields with
    | nil => rwa [fieldsAt]
    | cons next fields =>
      rw [fieldsAt]
      · exact isValidUtf8_append text (isValidUtf8_cons (by decide) (ih others))
      · exact List.cons_ne_nil _ _

theorem itemsWritable_iff {items : List Json} :
    itemsWritable items = true ↔ ∀ j ∈ items, writable j = true := by
  induction items with
  | nil => simp [itemsWritable]
  | cons j items ih => simp [itemsWritable, ih]

theorem fieldsWritable_iff {fields : List (Bytes × Json)} :
    fieldsWritable fields = true ↔
      ∀ f ∈ fields, isValidUtf8 f.1 = true ∧ writable f.2 = true := by
  induction fields with
  | nil => simp [fieldsWritable]
  | cons field fields ih => simp [fieldsWritable, ih]

/-- A body between brackets, on lines of its own. -/
theorem isValidUtf8_enclosed {level : Nat} {opens closes : UInt8} {body : Bytes}
    (ho : opens < 0x80) (hc : closes < 0x80) (h : isValidUtf8 body = true) :
    isValidUtf8 (opens :: (body ++ layout.lineBreak level ++ [closes])) = true := by
  have behind := isValidUtf8_append h (isValidUtf8_lineBreak layout level)
  exact isValidUtf8_cons ho (isValidUtf8_append behind (isValidUtf8_cons hc rfl))

/-- **The text of what can be written** is UTF-8. -/
theorem Plain.isValidUtf8 {j : Json} (h : Plain j) (w : j.writable = true) (level : Nat) :
    isValidUtf8 (renderAt layout level j) = true := by
  induction h generalizing level with
  | null => rfl
  | bool value => cases value <;> rfl
  | integer _ => exact isValidUtf8_signedDecimal _
  | string s => exact isValidUtf8_renderString w
  | @array items _ ih =>
    cases items with
    | nil => rfl
    | cons j items =>
      refine isValidUtf8_enclosed (by decide) (by decide) (isValidUtf8_itemsAt fun k mem => ?_)
      exact ih k mem (itemsWritable_iff.1 w k mem) (level + 1)
  | @object fields _ _ ih =>
    cases fields with
    | nil => rfl
    | cons field fields =>
      refine isValidUtf8_enclosed (by decide) (by decide) (isValidUtf8_fieldsAt fun f mem => ?_)
      obtain ⟨name, value⟩ := fieldsWritable_iff.1 w f mem
      exact ⟨name, ih f mem value (level + 1)⟩

theorem dropByteOrderMark_of_begins {text : Bytes} (h : Begins text) (rest : Bytes) :
    dropByteOrderMark (text ++ rest) = text ++ rest := by
  obtain ⟨c, others, rfl, low⟩ := h.ascii
  have ne : (0xEF == c) = false := by
    refine beq_false_of_ne ?_
    rintro rfl
    exact absurd low (by decide)
  rw [dropByteOrderMark, List.cons_append, List.isPrefixOf, ne, Bool.false_and, if_neg nofun]

/-- **A document is read back**: the text of a value that can be written is one, in every layout and
with white space behind it or none. -/
theorem read?_renderAt {j : Json} (h : Plain j) (w : j.writable = true) {space : Bytes}
    (blank : ∀ c ∈ space, c = Ascii.newline ∨ c = Ascii.space) :
    read? (renderAt layout 0 j ++ space) = some j := by
  have valid : VirtualShell.isValidUtf8 (renderAt layout 0 j ++ space) = true :=
    isValidUtf8_append (h.isValidUtf8 w 0) (isValidUtf8_blank blank)
  have nothing : Ends [] := nofun
  have ends := ends_blank blank nothing
  rw [List.append_nil] at ends
  have reads : Reads (renderAt layout 0 j) j := h.reads 0
  have value := reads ((renderAt layout 0 j ++ space).length + 1) space
    (by rw [List.length_append]; omega) ends
  have skipped : skipSpace space = [] := by
    have := skipSpace_blank blank []
    rwa [List.append_nil] at this
  unfold read?
  rw [if_neg (by simp [valid]), dropByteOrderMark_of_begins (begins_renderAt 0 j),
    (begins_renderAt 0 j).solid]
  dsimp only
  rw [value]
  simp only [skipped, List.isEmpty_nil, if_true]

theorem read?_renderIndented {j : Json} (h : Plain j) (w : j.writable = true) :
    read? (j.renderIndented ++ [Ascii.newline]) = some j :=
  read?_renderAt h w (List.forall_mem_singleton.2 (.inl rfl))

end VirtualShell.Json
