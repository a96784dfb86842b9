import VirtualShell.Text.Utf8

/-!
# What is UTF-8

A text is UTF-8 when it is a row of ASCII bytes and of groups of other bytes that each decode to
one number, whatever follows (`isValidUtf8_iff`). So texts that are UTF-8 may be joined
(`isValidUtf8_append`), and ASCII bytes may be exchanged for other ASCII text
(`isValidUtf8_flatMap`).
-/

namespace VirtualShell

/-- Bytes outside ASCII that decode to one number in front of every text. -/
structure IsGroup (group : Bytes) : Prop where
  high : ∀ c ∈ group, ¬ c < 0x80
  decodes : ∃ n, ∀ rest, decodeUtf8? (group ++ rest) = (decodeUtf8? rest).map (n :: ·)

/-- A row of ASCII bytes and groups. -/
inductive Encoded : Bytes → Prop
  | nil : Encoded []
  | ascii {c : UInt8} {rest : Bytes} : c < 0x80 → Encoded rest → Encoded (c :: rest)
  | group {group rest : Bytes} : IsGroup group → Encoded rest → Encoded (group ++ rest)

theorem decodeUtf8?_cons_of_lt {c : UInt8} (h : c < 0x80) (rest : Bytes) :
    decodeUtf8? (c :: rest) = (decodeUtf8? rest).map (c.toNat :: ·) := by
  rw [decodeUtf8?.eq_def (c :: rest)]
  exact if_pos h

theorem not_lt_of_isContinuation {c : UInt8} (h : isContinuation c = true) : ¬ c < 0x80 := by
  simp only [isContinuation, Bool.and_eq_true, decide_eq_true_eq] at h
  exact UInt8.not_lt.2 h.1

/-! ## Reading a group -/

section
variable {a b c d : UInt8} {n : Nat}

theorem decodeTwo?_eq_some (h : decodeTwo? a b = some n) :
    ∀ x ∈ [b], isContinuation x = true := by
  simp only [decodeTwo?, Option.ite_none_right_eq_some, Bool.and_eq_true] at h
  simp [h]

theorem decodeThree?_eq_some (h : decodeThree? a b c = some n) :
    ∀ x ∈ [b, c], isContinuation x = true := by
  simp only [decodeThree?, Option.ite_none_right_eq_some, Bool.and_eq_true] at h
  simp [h]

theorem decodeFour?_eq_some (h : decodeFour? a b c d = some n) :
    ∀ x ∈ [b, c, d], isContinuation x = true := by
  simp only [decodeFour?, Option.ite_none_right_eq_some, Bool.and_eq_true] at h
  simp [h]

/-- A first byte and continuation bytes that give a number, in front of what is a row. -/
theorem Encoded.of_read {others rest : Bytes} {number : Option Nat} (first : ¬ a < 0x80)
    (continued : ∀ n, number = some n → ∀ x ∈ others, isContinuation x = true)
    (decodes : ∀ rest, decodeUtf8? (a :: others ++ rest) =
      (do return (← number) :: (← decodeUtf8? rest)))
    (row : (decodeUtf8? rest).isSome = true → Encoded rest)
    (h : (do return (← number) :: (← decodeUtf8? rest) : Option (List Nat)).isSome = true) :
    Encoded (a :: others ++ rest) := by
  rw [← decodes] at h
  cases number with
  | none =>
    rw [decodes] at h
    cases h
  | some n =>
    have high : ∀ x ∈ a :: others, ¬ x < 0x80 := List.forall_mem_cons.2
      ⟨first, fun x mem => not_lt_of_isContinuation (continued n rfl x mem)⟩
    have decodes : ∀ rest, decodeUtf8? (a :: others ++ rest) =
        (decodeUtf8? rest).map (n :: ·) := by
      intro rest
      rw [decodes]
      cases decodeUtf8? rest <;> rfl
    rw [decodes, Option.isSome_map] at h
    exact .group ⟨high, n, decodes⟩ (row h)

end

/-! ## Texts -/

/-- The cases are those of the reader: an ASCII byte, a group of two, three or four bytes, and the
ways in which it fails. -/
theorem encoded_of_isSome {text : Bytes} : (decodeUtf8? text).isSome = true → Encoded text := by
  fun_induction decodeUtf8? text with
  | case1 => exact fun _ => .nil
  | case2 a rest low ih =>
    intro h
    rw [Option.isSome_map] at h
    exact .ascii low (ih h)
  | case4 a h1 h2 h3 b rest ih =>
    refine Encoded.of_read h1 (fun _ => decodeTwo?_eq_some) (fun rest => ?_) ih
    simp [decodeUtf8?, h1, h2, h3]
  | case6 a h1 h2 h3 h4 b c rest ih =>
    refine Encoded.of_read h1 (fun _ => decodeThree?_eq_some) (fun rest => ?_) ih
    simp [decodeUtf8?, h1, h2, h3, h4]
  | case8 a h1 h2 h3 h4 h5 b c d rest ih =>
    refine Encoded.of_read h1 (fun _ => decodeFour?_eq_some) (fun rest => ?_) ih
    simp [decodeUtf8?, h1, h2, h3, h4, h5]
  | case3 | case5 | case7 | case9 | case10 => exact nofun

/-- **A text is UTF-8** when it is a row of ASCII bytes and groups. -/
theorem isValidUtf8_iff {text : Bytes} : isValidUtf8 text = true ↔ Encoded text := by
  refine ⟨encoded_of_isSome, fun h => ?_⟩
  rw [isValidUtf8]
  induction h with
  | nil => rfl
  | ascii low _ ih => rwa [decodeUtf8?_cons_of_lt low, Option.isSome_map]
  | group isGroup _ ih =>
    obtain ⟨-, n, decodes⟩ := isGroup
    rwa [decodes, Option.isSome_map]

theorem Encoded.append {text more : Bytes} (h : Encoded text) (hm : Encoded more) :
    Encoded (text ++ more) := by
  induction h with
  | nil => exact hm
  | ascii low _ ih => exact .ascii low ih
  | group isGroup _ ih =>
    rw [List.append_assoc]
    exact .group isGroup ih

/-- Texts that are UTF-8 may be joined. -/
theorem isValidUtf8_append {text more : Bytes} (h : isValidUtf8 text = true)
    (hm : isValidUtf8 more = true) : isValidUtf8 (text ++ more) = true :=
  isValidUtf8_iff.2 ((isValidUtf8_iff.1 h).append (isValidUtf8_iff.1 hm))

theorem isValidUtf8_cons {c : UInt8} {rest : Bytes} (h : c < 0x80)
    (hr : isValidUtf8 rest = true) : isValidUtf8 (c :: rest) = true :=
  isValidUtf8_iff.2 (.ascii h (isValidUtf8_iff.1 hr))

/-- Nothing but ASCII bytes. -/
def isAscii (text : Bytes) : Bool := text.all (· < 0x80)

theorem isAscii_iff {text : Bytes} : isAscii text = true ↔ ∀ c ∈ text, c < 0x80 := by
  simp [isAscii]

theorem encoded_of_isAscii {text : Bytes} (h : isAscii text = true) : Encoded text := by
  rw [isAscii_iff] at h
  induction text with
  | nil => exact .nil
  | cons c text ih =>
    obtain ⟨first, others⟩ := List.forall_mem_cons.1 h
    exact .ascii first (ih others)

/-- ASCII text is UTF-8. -/
theorem isValidUtf8_of_isAscii {text : Bytes} (h : isAscii text = true) :
    isValidUtf8 text = true := isValidUtf8_iff.2 (encoded_of_isAscii h)

/-- **ASCII bytes may be exchanged for ASCII text** wherever they stand in UTF-8. -/
theorem isValidUtf8_flatMap {f : UInt8 → Bytes} {text : Bytes} (h : isValidUtf8 text = true)
    (low : ∀ c, c < 0x80 → isAscii (f c) = true) (high : ∀ c, ¬ c < 0x80 → f c = [c]) :
    isValidUtf8 (text.flatMap f) = true := by
  rw [isValidUtf8_iff] at h ⊢
  induction h with
  | nil => exact .nil
  | ascii ascii _ ih =>
    rw [List.flatMap_cons]
    exact (encoded_of_isAscii (low _ ascii)).append ih
  | @group group rest isGroup _ ih =>
    have same : group.flatMap f = group := by
      have alone : group.map f = group.map fun c => [c] :=
        List.map_congr_left fun c mem => high c (isGroup.high c mem)
      rw [List.flatMap_def, alone, ← List.flatMap_def, List.flatMap_singleton']
    rw [List.flatMap_append, same]
    exact .group isGroup ih

end VirtualShell
