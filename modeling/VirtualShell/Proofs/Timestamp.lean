import Mathlib.Data.List.Forall2
import VirtualShell.Proofs.Calendar
import VirtualShell.Proofs.Text.Digits

/-!
# Written times

A time stands for a moment of the calendar (`Moment.IsAt`), and a moment has one text of the form
`YYYY-MM-DD HH:MM:SS.mmm` (`Moment.text`). From the year 1000 to the year 9999 a time from 1970 on
is written as the text of its moment, and so is a whole second before 1970. Of the other times
before 1970 both the seconds and the milliseconds are cut off toward zero: the text has a minus sign
behind the dot and is that of no moment, and in one second these texts can be out of order
(`Timestamp.render_denotes`).

* The fields have fixed widths, so the texts are in the order of the values of their fields, the
  first counting most (`Timestamp.written_lt`).
-/

namespace VirtualShell

/-- A moment in universal time, to the millisecond. -/
structure Moment where
  date : Date
  hour : Nat
  minute : Nat
  second : Nat
  milli : Nat

namespace Moment

/-- The moment is so many milliseconds after the start of 1970, or before it. -/
structure IsAt (millis : Int) (m : Moment) : Prop where
  hour_lt : m.hour < 24
  minute_lt : m.minute < 60
  second_lt : m.second < 60
  milli_lt : m.milli < 1000
  isDay : ∃ days : Int, m.date.IsDay days ∧
    millis = (((days * 24 + m.hour) * 60 + m.minute) * 60 + m.second) * 1000 + m.milli

/-- `YYYY-MM-DD HH:MM:SS.mmm`. -/
def text (m : Moment) : Bytes :=
  inPlaces 4 m.date.year.toNat ++ ascii "-" ++ inPlaces 2 m.date.month ++ ascii "-"
    ++ inPlaces 2 m.date.day ++ ascii " " ++ inPlaces 2 m.hour ++ ascii ":" ++ inPlaces 2 m.minute
    ++ ascii ":" ++ inPlaces 2 m.second ++ ascii "." ++ inPlaces 3 m.milli

/-- The moment of a time. -/
def ofMillis (millis : Int) : Moment where
  date := Date.ofDays (millis / 86400000)
  hour := (millis / 3600000 % 24).toNat
  minute := (millis / 60000 % 60).toNat
  second := (millis / 1000 % 60).toNat
  milli := (millis % 1000).toNat

theorem isAt_ofMillis (millis : Int) : (ofMillis millis).IsAt millis where
  hour_lt := by simp only [ofMillis]; omega
  minute_lt := by simp only [ofMillis]; omega
  second_lt := by simp only [ofMillis]; omega
  milli_lt := by simp only [ofMillis]; omega
  isDay := ⟨millis / 86400000, Date.isDay_iff.2 rfl, by simp only [ofMillis]; omega⟩

theorem IsAt.date_eq {millis : Int} {m : Moment} (h : m.IsAt millis) :
    m.date = Date.ofDays (millis / 86400000) := by
  obtain ⟨days, isDay, sum⟩ := h.isDay
  have := h.hour_lt
  have := h.minute_lt
  have := h.second_lt
  have := h.milli_lt
  rw [show millis / 86400000 = days by omega]
  exact Date.isDay_iff.1 isDay

end Moment

namespace Timestamp

/-- The text is that of the moment of a time. -/
def Denotes (text : Bytes) (millis : Int) : Prop := ∃ m : Moment, m.IsAt millis ∧ text = m.text

/-- The time is in a year of four digits. -/
def FourDigitYear (millis : Int) : Prop :=
  ∃ m : Moment, m.IsAt millis ∧ 1000 ≤ m.date.year ∧ m.date.year ≤ 9999

theorem fourDigitYear_iff {millis : Int} : FourDigitYear millis ↔
    1000 ≤ (Date.ofDays (millis / 86400000)).year ∧
      (Date.ofDays (millis / 86400000)).year ≤ 9999 := by
  constructor
  · rintro ⟨m, isAt, years⟩
    exact isAt.date_eq ▸ years
  · exact fun years => ⟨_, Moment.isAt_ofMillis millis, years⟩

/-! ## Fields of fixed widths -/

/-- Numbers in fields, each with its width and with the mark behind it. -/
def written : List (Nat × Bytes) → List Nat → Bytes
  | field :: fields, n :: values => inPlaces field.1 n ++ (field.2 ++ written fields values)
  | _, _ => []

/-- **Written numbers are in order**, the first field counting most. -/
theorem written_lt {fields : List (Nat × Bytes)} {values later : List Nat}
    (fits : List.Forall₂ (fun field n => n < Nat.pow 10 field.1) fields later)
    (length : values.length = later.length) (h : values < later) :
    written fields values < written fields later := by
  induction fits generalizing values with
  | nil => exact absurd h (List.not_lt_nil _)
  | cons fit _ ih =>
    obtain ⟨n, values, rfl⟩ := List.exists_cons_of_length_eq_add_one length
    apply append_lt_append (by rw [length_inPlaces, length_inPlaces])
    obtain less | ⟨rfl, less⟩ := List.cons_lt_cons_iff.1 h
    · exact .inl (inPlaces_lt less fit)
    · exact .inr ⟨rfl, append_lt_append rfl (.inr ⟨rfl, ih (Nat.succ.inj length) less⟩)⟩

/-- The fields of a text down to the second. -/
def fields : List (Nat × Bytes) :=
  [(4, ascii "-"), (2, ascii "-"), (2, ascii " "), (2, ascii ":"), (2, ascii ":"), (2, ascii ".")]

/-- The values of the fields. -/
def values (date : Date) (hour minute second : Nat) : List Nat :=
  [date.year.toNat, date.month, date.day, hour, minute, second]

theorem length_written (date : Date) (hour minute second : Nat) :
    (written fields (values date hour minute second)).length = 20 := by
  simp only [fields, values, written, List.length_append, length_inPlaces]
  rfl

theorem text_eq (m : Moment) :
    m.text = written fields (values m.date m.hour m.minute m.second) ++ inPlaces 3 m.milli := by
  simp only [Moment.text, fields, values, written, List.append_assoc, List.append_nil]

/-! ## Down to the second -/

/-- The text of a second, with the dot behind it. -/
def stamp (seconds : Int) : Bytes :=
  written fields (values (Date.ofDays (seconds / 86400)) (hour seconds) (minute seconds)
    (second seconds))

theorem stamp_lt {s t : Int} (h : s < t) (pos : 0 ≤ (Date.ofDays (s / 86400)).year)
    (four : (Date.ofDays (t / 86400)).year ≤ 9999) : stamp s < stamp t := by
  have valid := Date.isValid_ofDays (t / 86400)
  have month := valid.month_le
  have day := valid.day_le_thirtyOne
  refine written_lt ?_ rfl ?_
  · simp only [fields, values, List.forall₂_cons, hour, minute, second, Nat.pow_eq]
    refine ⟨?_, ?_, ?_, ?_, ?_, ?_, .nil⟩ <;> omega
  · obtain before | same : s / 86400 < t / 86400 ∨ s / 86400 = t / 86400 := by omega
    · have order := Date.before_ofDays before
      simp only [Date.Before] at order
      simp only [values, List.cons_lt_cons_iff]
      omega
    · rw [same]
      have hours (x : Int) : x % 86400 = x % 86400 / 3600 * 3600 + x % 3600 := by omega
      have minutes (x : Int) : x % 3600 = x % 3600 / 60 * 60 + x % 60 := by omega
      have := hours s
      have := hours t
      have := minutes s
      have := minutes t
      simp only [values, List.cons_lt_cons_iff, hour, minute, second, true_and, Nat.lt_irrefl,
        false_or, List.not_lt_nil, and_false, or_false]
      omega

/-- Three places of which the sign takes none. -/
theorem threePlaces_of_nonneg {n : Int} (h : 0 ≤ n) (lt : n < 1000) :
    threePlaces n = inPlaces 3 n.toNat := by
  rw [threePlaces, if_neg (Int.not_lt.2 h), show n.natAbs = n.toNat by omega]
  exact padLeft_decimal (by decide) (show n.toNat < 1000 by omega)

theorem render_eq {millis : Int} (low : 1000 ≤ (Date.ofDays (seconds millis / 86400)).year)
    (high : (Date.ofDays (seconds millis / 86400)).year ≤ 9999) :
    render millis = stamp (seconds millis) ++ threePlaces (millis.tmod 1000) := by
  have year : signedDecimal (Date.ofDays (seconds millis / 86400)).year =
      inPlaces 4 (Date.ofDays (seconds millis / 86400)).year.toNat := by
    have least : 1000 ≤ (Date.ofDays (seconds millis / 86400)).year.toNat := by omega
    have most : (Date.ofDays (seconds millis / 86400)).year.toNat < 10000 := by omega
    rw [signedDecimal, if_neg (by omega), ← decimal_eq_inPlaces (by decide) least most]
    congr 1
    omega
  have two {n : Nat} (h : n < 100) : twoDigits Ascii.zero n = inPlaces 2 n :=
    padLeft_decimal (by decide) h
  have valid := Date.isValid_ofDays (seconds millis / 86400)
  have month := valid.month_le
  have day := valid.day_le_thirtyOne
  unfold render
  simp only
  rw [year, two (by omega), two (by omega), two (n := hour _) (by unfold hour; omega),
    two (n := minute _) (by unfold minute; omega), two (n := second _) (by unfold second; omega)]
  simp only [stamp, fields, values, written, List.append_assoc, List.append_nil]

/-! ## The second and the rest -/

/-- The second of a time and the rest, cut off toward zero; they are those of its moment from 1970
on and for whole seconds, and else the second after with a negative rest. -/
theorem seconds_cases (millis : Int) :
    ((0 ≤ millis ∨ 1000 ∣ millis) ∧ seconds millis = millis / 1000 ∧
      millis.tmod 1000 = millis % 1000) ∨
    ((millis < 0 ∧ ¬ 1000 ∣ millis) ∧ seconds millis = millis / 1000 + 1 ∧
      millis.tmod 1000 = millis % 1000 - 1000) := by
  unfold seconds
  rw [Int.tdiv_eq_ediv, Int.tmod_eq_emod]
  by_cases whole : 0 ≤ millis ∨ 1000 ∣ millis
  · exact .inl ⟨whole, by simp [whole], by simp [whole]⟩
  · refine .inr ⟨by omega, ?_, ?_⟩ <;> simp [whole]

theorem FourDigitYear.year_seconds {millis : Int} (h : FourDigitYear millis) :
    1000 ≤ (Date.ofDays (seconds millis / 86400)).year ∧
      (Date.ofDays (seconds millis / 86400)).year ≤ 9999 := by
  obtain ⟨low, high⟩ := fourDigitYear_iff.1 h
  obtain ⟨-, second, -⟩ | ⟨⟨before, -⟩, second, -⟩ := seconds_cases millis
  · rw [show seconds millis / 86400 = millis / 86400000 by omega]
    exact ⟨low, high⟩
  · have low' : millis / 86400000 ≤ seconds millis / 86400 := by omega
    have high' : seconds millis / 86400 ≤ 0 := by omega
    exact ⟨Int.le_trans low (Date.year_ofDays_le low'),
      Int.le_trans (Date.year_ofDays_le high') (by decide)⟩

theorem FourDigitYear.render_eq {millis : Int} (h : FourDigitYear millis) :
    render millis = stamp (seconds millis) ++ threePlaces (millis.tmod 1000) :=
  Timestamp.render_eq h.year_seconds.1 h.year_seconds.2

/-- The text of the moment of a time. -/
theorem text_ofMillis (millis : Int) :
    (Moment.ofMillis millis).text =
      stamp (millis / 1000) ++ inPlaces 3 (millis % 1000).toNat := by
  have day : millis / 1000 / 86400 = millis / 86400000 := by omega
  have hours : millis / 1000 % 86400 / 3600 = millis / 3600000 % 24 := by omega
  have minutes : millis / 1000 % 3600 / 60 = millis / 60000 % 60 := by omega
  rw [text_eq, stamp, day, hour, hours, minute, minutes, second]
  rfl

theorem minus_lt_of_isDigit {c : UInt8} (h : isDigit c = true) : Ascii.minus < c := by
  simp only [isDigit, Bool.and_eq_true, decide_eq_true_eq] at h
  exact UInt8.lt_of_lt_of_le (by decide) h.1

/-- The minus sign is less than a digit. -/
theorem threePlaces_lt {m n : Int} (h : m < n) (nonneg : 0 ≤ n) (lt : n < 1000) :
    threePlaces m < threePlaces n := by
  rw [threePlaces_of_nonneg nonneg lt]
  by_cases sign : m < 0
  · obtain ⟨c, digits, text⟩ := List.exists_cons_of_length_eq_add_one (length_inPlaces 3 n.toNat)
    have digit := isDigit_of_mem_inPlaces c (text ▸ List.mem_cons_self)
    rw [threePlaces, if_pos sign, text, List.cons_lt_cons_iff]
    exact .inl (minus_lt_of_isDigit digit)
  · rw [threePlaces_of_nonneg (by omega) (by omega)]
    exact inPlaces_lt (by omega) (show n.toNat < 1000 by omega)

/-! ## Written times -/

theorem denotes_render {millis : Int} (h : FourDigitYear millis)
    (whole : 0 ≤ millis ∨ 1000 ∣ millis) : Denotes (render millis) millis := by
  obtain ⟨-, second, rest⟩ | ⟨⟨before, broken⟩, -⟩ := seconds_cases millis
  · refine ⟨_, Moment.isAt_ofMillis millis, ?_⟩
    rw [h.render_eq, second, rest, text_ofMillis, threePlaces_of_nonneg (by omega) (by omega)]
  · omega

/-- The minus sign stands where the texts of moments have a digit. -/
theorem render_ne_text {millis : Int} (h : FourDigitYear millis) (before : millis < 0)
    (broken : ¬ 1000 ∣ millis) (m : Moment) : render millis ≠ m.text := by
  intro same
  obtain ⟨whole, -⟩ | ⟨-, -, rest⟩ := seconds_cases millis
  · omega
  rw [h.render_eq, text_eq, rest, threePlaces, if_pos (by omega)] at same
  have sign := (List.append_inj same ((length_written ..).trans (length_written ..).symm)).2
  have digit := isDigit_of_mem_inPlaces Ascii.minus (sign ▸ List.mem_cons_self)
  exact absurd digit (by decide)

/-- Of two times the later one has the greater text, but for two that are cut off to one second. -/
theorem render_lt_render {millis later : Int} (h : FourDigitYear millis) (h' : FourDigitYear later)
    (less : millis < later)
    (kinds : (0 ≤ millis ∨ 1000 ∣ millis) ∨ (0 ≤ later ∨ 1000 ∣ later) ∨
      seconds millis ≠ seconds later) : render millis < render later := by
  rw [h.render_eq, h'.render_eq]
  apply append_lt_append ((length_written ..).trans (length_written ..).symm)
  have first := seconds_cases millis
  have last := seconds_cases later
  obtain before | same : seconds millis < seconds later ∨ seconds millis = seconds later := by
    omega
  · exact .inl (stamp_lt before (by have := h.year_seconds; omega) h'.year_seconds.2)
  · exact .inr ⟨by rw [same], threePlaces_lt (by omega) (by omega) (by omega)⟩

/-- **Written times**: in the years of four digits a time from 1970 on, and a whole second before,
is written as its moment; any other time before 1970 as no moment at all. Of two times the later one
has the greater text, but for two of the latter kind that are cut off to one second. -/
theorem render_denotes {millis : Int} (h : FourDigitYear millis) :
    (0 ≤ millis ∨ 1000 ∣ millis → Denotes (render millis) millis) ∧
    (millis < 0 ∧ ¬ 1000 ∣ millis → ∀ m : Moment, render millis ≠ m.text) ∧
    ∀ later, FourDigitYear later → millis < later →
      (0 ≤ millis ∨ 1000 ∣ millis) ∨ (0 ≤ later ∨ 1000 ∣ later) ∨
        seconds millis ≠ seconds later →
      render millis < render later :=
  ⟨denotes_render h, fun broken => render_ne_text h broken.1 broken.2,
    fun _ h' less kinds => render_lt_render h h' less kinds⟩

/-- A whole second before 1970, and the last millisecond of it. -/
theorem render_denotes_whole :
    FourDigitYear (-1000) ∧ FourDigitYear (-1) ∧ Denotes (render (-1000)) (-1000) ∧
      render (-1000) < render (-1) := by
  have whole : FourDigitYear (-1000) := fourDigitYear_iff.2 (by decide)
  have last : FourDigitYear (-1) := fourDigitYear_iff.2 (by decide)
  obtain ⟨denotes, -, order⟩ := render_denotes whole
  exact ⟨whole, last, denotes (by decide), order (-1) last (by decide) (by decide)⟩

/-- The last milliseconds of 1969 are written as no moments, and the last of them comes first. -/
theorem not_denotes_render :
    FourDigitYear (-2) ∧ FourDigitYear (-1) ∧ ¬ Denotes (render (-1)) (-1) ∧
      ¬ render (-2) < render (-1) := by
  have last : FourDigitYear (-1) := fourDigitYear_iff.2 (by decide)
  refine ⟨fourDigitYear_iff.2 (by decide), last, ?_, by decide +kernel⟩
  rintro ⟨m, -, same⟩
  exact render_ne_text last (by decide) (by decide) m same

end Timestamp

end VirtualShell
