import VirtualShell.Proofs.Json.Scalar
import VirtualShell.Proofs.Store.Batch

/-!
# Values read back

How the reader of values takes what is written in a layout, one lemma for each kind of value: the
scalars, arrays of values that are read back (`reads_array`), and objects of such values whose
fields stand in order (`reads_object`).

The text of a value is its own measure of the fuel that reading it takes (`Reads`).
-/

namespace VirtualShell.Json

variable {layout : Layout}

/-! ## White space -/

theorem skipSpace_blank {space : Bytes} (blank : ∀ c ∈ space, c = Ascii.newline ∨ c = Ascii.space)
    (text : Bytes) : skipSpace (space ++ text) = skipSpace text :=
  List.dropWhile_append_of_pos fun c mem => by
    rcases blank c mem with rfl | rfl <;> rfl

theorem skipSpace_lineBreak (level : Nat) (text : Bytes) :
    skipSpace (layout.lineBreak level ++ text) = skipSpace text :=
  skipSpace_blank (layout.blank_lineBreak level) text

theorem skipSpace_of_not_space {c : UInt8} (h : isJsonSpace c = false) (rest : Bytes) :
    skipSpace (c :: rest) = c :: rest :=
  List.dropWhile_cons_of_neg (by simp [h])

theorem signedDecimal_eq_cons (n : Int) :
    ∃ c rest, signedDecimal n = c :: rest ∧ (c = Ascii.minus ∨ isDigit c = true) := by
  unfold signedDecimal
  split
  · exact ⟨_, _, rfl, .inl rfl⟩
  · obtain ⟨c, rest, digits, -⟩ := decimal_eq_cons n.natAbs
    exact ⟨c, rest, digits, .inr (isDigit_of_mem_decimal n.natAbs c (by simp [digits]))⟩

/-- How a written value begins: with no space, and in ASCII. -/
structure Begins (text : Bytes) : Prop where
  solid : ∀ rest, skipSpace (text ++ rest) = text ++ rest
  ascii : ∃ c rest, text = c :: rest ∧ c < 0x80

theorem begins_cons {c : UInt8} (space : isJsonSpace c = false) (low : c < 0x80) (rest : Bytes) :
    Begins (c :: rest) :=
  ⟨fun _ => skipSpace_of_not_space space _, c, rest, rfl, low⟩

theorem begins_signedDecimal (n : Int) (rest : Bytes) : Begins (signedDecimal n ++ rest) := by
  obtain ⟨c, others, first, kind⟩ := signedDecimal_eq_cons n
  rw [first, List.cons_append]
  rcases kind with rfl | digit
  · exact begins_cons rfl (by decide) _
  · refine begins_cons ?_ (isDigit_lt digit) _
    have ne : ∀ d, isDigit d = false → (c == d) = false := fun d nondigit =>
      beq_false_of_ne (isDigit_ne digit nondigit)
    rw [isJsonSpace, ne Ascii.space rfl, ne Ascii.tab rfl, ne Ascii.newline rfl,
      ne Ascii.carriageReturn rfl]
    rfl

/-- Every written value begins so. -/
theorem begins_renderAt (level : Nat) (j : Json) : Begins (renderAt layout level j) := by
  cases j with
  | null => exact begins_cons rfl (by decide) _
  | bool value => cases value <;> exact begins_cons rfl (by decide) _
  | integer n =>
    have := begins_signedDecimal n []
    rwa [List.append_nil] at this
  | decimal significand exponent =>
    have := begins_signedDecimal significand (ascii "e" ++ signedDecimal exponent)
    rwa [← List.append_assoc] at this
  | string s => exact begins_cons rfl (by decide) _
  | array items => cases items <;> exact begins_cons rfl (by decide) _
  | object fields => cases fields <;> exact begins_cons rfl (by decide) _

/-! ## Values without others inside -/

/-- From the text the value is read, whatever a document goes on with behind it. -/
def Reads (text : Bytes) (j : Json) : Prop :=
  ∀ fuel rest, text.length ≤ fuel → Ends rest → readValueWithin fuel (text ++ rest) = some (j, rest)

/-- A value takes some text, so there is fuel for one step. -/
theorem reads_intro {text : Bytes} {j : Json} (ne : text ≠ [])
    (h : ∀ fuel rest, text.length ≤ fuel + 1 → Ends rest →
      readValueWithin (fuel + 1) (text ++ rest) = some (j, rest)) : Reads text j := by
  intro fuel rest len ends
  cases fuel with
  | zero => exact absurd (List.length_eq_zero_iff.1 (Nat.le_zero.1 len)) ne
  | succ fuel => exact h fuel rest len ends

theorem reads_null : Reads (ascii "null") null :=
  reads_intro (by decide) fun _ _ _ _ => rfl

theorem reads_bool (level : Nat) (value : Bool) :
    Reads (renderAt layout level (bool value)) (bool value) := by
  cases value <;> exact reads_intro (List.cons_ne_nil _ _) fun _ _ _ _ => rfl

theorem reads_string (s : Bytes) : Reads (renderString s) (string s) := by
  refine reads_intro (List.cons_ne_nil _ _) fun fuel rest _ _ => ?_
  rw [renderString, List.cons_append, List.append_assoc, List.singleton_append, readValueWithin,
    if_pos rfl, readString?_renderString]
  rfl

theorem reads_integer {n : Int} (h : n.natAbs < 0x10000000000000000) :
    Reads (signedDecimal n) (integer n) := by
  obtain ⟨c, others, first, kind⟩ := signedDecimal_eq_cons n
  refine reads_intro (by simp [first]) fun fuel rest _ ends => ?_
  have read := readNumber?_signedDecimal h ends
  rw [first, List.cons_append] at read ⊢
  rw [readValueWithin, ← read]
  rcases kind with rfl | digit
  · rfl
  · have ne : ∀ d, isDigit d = false → c ≠ d := fun d => isDigit_ne digit
    rw [if_neg (ne _ rfl), if_neg (ne _ rfl), if_neg (ne _ rfl), if_pos (by simp [digit])]

/-! ## Arrays -/

section
variable {fuel : Nat} {text rest : Bytes}

/-- No item begins with a closing bracket. -/
theorem readItemsWithin_closeBracket :
    readItemsWithin fuel (Ascii.closeBracket :: rest) = none := by
  cases fuel with
  | zero => rfl
  | succ fuel => cases fuel <;> rfl

theorem readValueWithin_of_items {items : List Json}
    (read : readItemsWithin fuel (skipSpace text) = some (items, rest)) :
    readValueWithin (fuel + 1) (Ascii.openBracket :: text) = some (array items, rest) := by
  rw [readValueWithin, if_neg (by decide), if_pos rfl]
  split
  next others closes =>
    have none : readItemsWithin fuel (skipSpace text) = none :=
      closes ▸ readItemsWithin_closeBracket
    rw [none] at read
    cases read
  next => rw [read]; rfl

theorem readItemsWithin_last {j : Json} {behind : Bytes}
    (value : readValueWithin fuel text = some (j, behind))
    (closes : skipSpace behind = Ascii.closeBracket :: rest) :
    readItemsWithin (fuel + 1) text = some ([j], rest) := by
  rw [readItemsWithin, value]
  simp only [Option.bind_eq_bind, Option.bind_some, closes]
  rfl

theorem readItemsWithin_more {j : Json} {items : List Json} {behind : Bytes}
    (value : readValueWithin fuel text = some (j, Ascii.comma :: behind))
    (more : readItemsWithin fuel (skipSpace behind) = some (items, rest)) :
    readItemsWithin (fuel + 1) text = some (j :: items, rest) := by
  rw [readItemsWithin, value]
  change (readItemsWithin fuel (skipSpace behind) >>= fun r => some (j :: r.1, r.2)) = _
  rw [more]
  rfl

end

/-- The bracket that closes an array or object, on a line of its own. -/
theorem ends_closing {c : UInt8} (closes : c = Ascii.closeBracket ∨ c = Ascii.closeBrace)
    (level : Nat) (rest : Bytes) : Ends (layout.lineBreak level ++ c :: rest) := by
  refine ends_blank (layout.blank_lineBreak level) ?_
  rintro d ⟨⟩
  exact .inr (closes.imp_right .inl)

/-- **The items of an array** are read up to the bracket that closes it. -/
theorem readItemsWithin_itemsAt {level outer fuel : Nat} {items : List Json} {rest : Bytes}
    (ne : items ≠ []) (h : ∀ j ∈ items, Reads (renderAt layout level j) j)
    (len : (itemsAt layout level items).length < fuel) :
    readItemsWithin fuel (skipSpace (itemsAt layout level items ++
      (layout.lineBreak outer ++ Ascii.closeBracket :: rest))) = some (items, rest) := by
  induction items generalizing fuel with
  | nil => exact absurd rfl ne
  | cons j items ih =>
    obtain ⟨first, others⟩ := List.forall_mem_cons.1 h
    obtain ⟨fuel, rfl⟩ := Nat.exists_eq_succ_of_ne_zero (Nat.ne_of_gt (Nat.zero_lt_of_lt len))
    cases items with
    | nil =>
      simp only [itemsAt, List.length_append] at len
      rw [itemsAt, List.append_assoc, skipSpace_lineBreak, (begins_renderAt level j).solid]
      refine readItemsWithin_last (first fuel _ (by omega) (ends_closing (.inl rfl) _ _)) ?_
      exact skipSpace_lineBreak outer _
    | cons k items =>
      simp only [itemsAt, List.length_append, List.length_cons] at len
      rw [itemsAt, List.append_assoc, List.append_assoc, skipSpace_lineBreak,
        (begins_renderAt level j).solid]
      · exact readItemsWithin_more (first fuel _ (by omega) (ends_comma _))
          (ih (List.cons_ne_nil _ _) others (by omega))
      · exact List.cons_ne_nil _ _

theorem reads_array {level : Nat} {items : List Json}
    (h : ∀ j ∈ items, Reads (renderAt layout (level + 1) j) j) :
    Reads (renderAt layout level (array items)) (array items) := by
  cases items with
  | nil => exact reads_intro (List.cons_ne_nil _ _) fun _ _ _ _ => rfl
  | cons j items =>
    refine reads_intro (List.cons_ne_nil _ _) fun fuel rest len _ => ?_
    simp only [renderAt, List.length_cons, List.length_append] at len
    rw [renderAt, List.cons_append, List.append_assoc, List.append_assoc, List.singleton_append]
    · exact readValueWithin_of_items
        (readItemsWithin_itemsAt (List.cons_ne_nil _ _) h (by omega))
    · exact List.cons_ne_nil _ _

/-! ## Objects -/

section
variable {fuel : Nat} {text rest : Bytes}

/-- No field begins with a closing brace. -/
theorem readFieldsWithin_closeBrace :
    readFieldsWithin fuel (Ascii.closeBrace :: rest) = none := by
  cases fuel <;> rfl

theorem readValueWithin_of_fields {fields : List (Bytes × Json)}
    (read : readFieldsWithin fuel (skipSpace text) = some (fields, rest)) :
    readValueWithin (fuel + 1) (Ascii.openBrace :: text) = some (ofFields fields, rest) := by
  rw [readValueWithin, if_neg (by decide), if_neg (by decide), if_pos rfl]
  split
  next others closes =>
    have none : readFieldsWithin fuel (skipSpace text) = none :=
      closes ▸ readFieldsWithin_closeBrace
    rw [none] at read
    cases read
  next => rw [read]; rfl

theorem keyText_append (key text : Bytes) : layout.keyText key ++ text = Ascii.doubleQuote ::
    (key.flatMap escapeByte ++ Ascii.doubleQuote :: Ascii.colon :: (layout.gap ++ text)) := by
  simp only [Layout.keyText, renderString, List.cons_append, List.append_assoc]
  rfl

/-- Behind the key and the colon comes the value. -/
theorem readFieldsWithin_keyText (key : Bytes) :
    readFieldsWithin (fuel + 1) (layout.keyText key ++ text) =
      (readValueWithin fuel (skipSpace text)).bind fun value =>
        match skipSpace value.2 with
        | Ascii.comma :: rest =>
          (readFieldsWithin fuel (skipSpace rest)).bind fun more =>
            some ((key, value.1) :: more.1, more.2)
        | Ascii.closeBrace :: rest => some ([(key, value.1)], rest)
        | _ => none := by
  rw [keyText_append]
  change (readString? _).bind _ = _
  rw [readString?_renderString, ← skipSpace_blank layout.blank_gap text]
  rfl

theorem readFieldsWithin_last {key behind : Bytes} {j : Json}
    (value : readValueWithin fuel (skipSpace text) = some (j, behind))
    (closes : skipSpace behind = Ascii.closeBrace :: rest) :
    readFieldsWithin (fuel + 1) (layout.keyText key ++ text) = some ([(key, j)], rest) := by
  rw [readFieldsWithin_keyText, value, Option.bind_some, closes]
  rfl

theorem readFieldsWithin_more {key behind : Bytes} {j : Json} {fields : List (Bytes × Json)}
    (value : readValueWithin fuel (skipSpace text) = some (j, Ascii.comma :: behind))
    (more : readFieldsWithin fuel (skipSpace behind) = some (fields, rest)) :
    readFieldsWithin (fuel + 1) (layout.keyText key ++ text) = some ((key, j) :: fields, rest) := by
  rw [readFieldsWithin_keyText, value, Option.bind_some]
  change (readFieldsWithin fuel (skipSpace behind)).bind _ = _
  rw [more]
  rfl

end

theorem begins_keyText (key : Bytes) : Begins (layout.keyText key) :=
  begins_cons rfl (by decide) _

/-- **The fields of an object** are read up to the brace that closes it. -/
theorem readFieldsWithin_fieldsAt {level outer fuel : Nat} {fields : List (Bytes × Json)}
    {rest : Bytes} (ne : fields ≠ []) (h : ∀ f ∈ fields, Reads (renderAt layout level f.2) f.2)
    (len : (fieldsAt layout level fields).length < fuel) :
    readFieldsWithin fuel (skipSpace (fieldsAt layout level fields ++
      (layout.lineBreak outer ++ Ascii.closeBrace :: rest))) = some (fields, rest) := by
  induction fields generalizing fuel with
  | nil => exact absurd rfl ne
  | cons field fields ih =>
    obtain ⟨key, j⟩ := field
    obtain ⟨first, others⟩ := List.forall_mem_cons.1 h
    obtain ⟨fuel, rfl⟩ := Nat.exists_eq_succ_of_ne_zero (Nat.ne_of_gt (Nat.zero_lt_of_lt len))
    have value : ∀ fuel rest, (renderAt layout level j).length ≤ fuel → Ends rest →
        readValueWithin fuel (skipSpace (renderAt layout level j ++ rest)) = some (j, rest) := by
      intro fuel rest
      rw [(begins_renderAt level j).solid]
      exact first fuel rest
    cases fields with
    | nil =>
      simp only [fieldsAt, List.length_append] at len
      rw [fieldsAt, List.append_assoc, List.append_assoc, skipSpace_lineBreak,
        (begins_keyText key).solid]
      refine readFieldsWithin_last (value fuel _ (by omega) (ends_closing (.inr rfl) _ _)) ?_
      exact skipSpace_lineBreak outer _
    | cons next fields =>
      simp only [fieldsAt, List.length_append, List.length_cons] at len
      rw [fieldsAt, List.append_assoc, List.append_assoc, List.append_assoc, skipSpace_lineBreak,
        (begins_keyText key).solid]
      · exact readFieldsWithin_more (value fuel _ (by omega) (ends_comma _))
          (ih (List.cons_ne_nil _ _) others (by omega))
      · exact List.cons_ne_nil _ _

theorem reads_object {level : Nat} {fields : List (Bytes × Json)}
    (sorted : fields.Pairwise fun a b => a.1 < b.1)
    (h : ∀ f ∈ fields, Reads (renderAt layout (level + 1) f.2) f.2) :
    Reads (renderAt layout level (object fields)) (object fields) := by
  cases fields with
  | nil => exact reads_intro (List.cons_ne_nil _ _) fun _ _ _ _ => rfl
  | cons field fields =>
    refine reads_intro (List.cons_ne_nil _ _) fun fuel rest len _ => ?_
    simp only [renderAt, List.length_cons, List.length_append] at len
    have same : ofFields (field :: fields) = object (field :: fields) := by
      rw [ofFields, ByteMap.entries_ofList sorted]
    rw [renderAt, List.cons_append, List.append_assoc, List.append_assoc, List.singleton_append]
    · exact same ▸ readValueWithin_of_fields
        (readFieldsWithin_fieldsAt (List.cons_ne_nil _ _) h (by omega))
    · exact List.cons_ne_nil _ _

end VirtualShell.Json
