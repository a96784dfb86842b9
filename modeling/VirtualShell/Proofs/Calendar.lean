import Mathlib.Logic.Function.Iterate
import VirtualShell.Calendar

/-!
# The Gregorian calendar

The rules are those of `Date.next`, the day after a day: months have the lengths they have and
every fourth year is a leap year, of the centuries every fourth. From the first of January 1970 they
lead to every day (`Date.IsDay`), and the date that is computed of a count of days is the one that
the rules lead to (`Date.isDay_iff`), before 1970 as well. One day on is one day on
(`Date.ofDays_succ`); all else is by induction on the days.

* The computation counts years from March, in eras of 400 years. The year of a day is found by a
  division that is not exact; it grows with the day and is right on the first and on the last day of
  each year, so it is right on all of them (`Date.yearOfEra_spec`).
-/

namespace VirtualShell.Date

/-! ## The rules -/

def isLeap (year : Int) : Bool := year % 4 = 0 && (year % 100 ≠ 0 || year % 400 = 0)

/-- The days of a month, in a leap year or not. -/
def daysInMonth (leap : Bool) (month : Nat) : Nat :=
  if month = 2 then if leap then 29 else 28
  else if month = 4 ∨ month = 6 ∨ month = 9 ∨ month = 11 then 30
  else 31

/-- The last day of the month of a date. -/
def lastOfMonth (d : Date) : Nat := daysInMonth (isLeap d.year) d.month

/-- A day that there is. -/
structure IsValid (d : Date) : Prop where
  month_pos : 1 ≤ d.month
  month_le : d.month ≤ 12
  day_pos : 1 ≤ d.day
  day_le : d.day ≤ d.lastOfMonth

theorem IsValid.day_le_thirtyOne {d : Date} (h : d.IsValid) : d.day ≤ 31 := by
  refine Nat.le_trans h.day_le ?_
  unfold lastOfMonth daysInMonth
  split
  · split <;> decide
  · split <;> decide

/-- The day after. -/
def next (d : Date) : Date :=
  if d.day < d.lastOfMonth then { d with day := d.day + 1 }
  else if d.month < 12 then { d with month := d.month + 1, day := 1 }
  else ⟨d.year + 1, 1, 1⟩

/-- The first of January 1970. -/
def epoch : Date := ⟨1970, 1, 1⟩

/-- The date is the day so many days after the first of January 1970, or before it. -/
def IsDay (days : Int) (d : Date) : Prop :=
  d.IsValid ∧ next^[days.toNat] epoch = next^[(-days).toNat] d

/-- The order of days. -/
def Before (a b : Date) : Prop :=
  a.year < b.year ∨ a.year = b.year ∧ (a.month < b.month ∨ a.month = b.month ∧ a.day < b.day)

theorem before_next {d : Date} : d.Before d.next := by
  unfold next
  split
  · exact .inr ⟨rfl, .inr ⟨rfl, Nat.lt_succ_self _⟩⟩
  split
  · exact .inr ⟨rfl, .inl (Nat.lt_succ_self _)⟩
  · exact .inl (Int.lt_succ _)

theorem Before.trans {a b c : Date} (h : a.Before b) (h' : b.Before c) : a.Before c := by
  unfold Before at *
  omega

theorem daysInMonth_pos (leap : Bool) (month : Nat) : 1 ≤ daysInMonth leap month := by
  unfold daysInMonth
  split
  · cases leap <;> decide
  · split <;> decide

/-- All that the day after can be: the next of the month, or the first of the next month, or the
first of the next year. -/
theorem IsValid.next_cases {d : Date} (h : d.IsValid) :
    (d.day < d.lastOfMonth ∧ d.next = ⟨d.year, d.month, d.day + 1⟩) ∨
    (d.day = d.lastOfMonth ∧ d.month < 12 ∧ d.next = ⟨d.year, d.month + 1, 1⟩) ∨
    (d.day = d.lastOfMonth ∧ d.month = 12 ∧ d.next = ⟨d.year + 1, 1, 1⟩) := by
  unfold Date.next
  split
  next within => exact .inl ⟨within, rfl⟩
  next beyond =>
    have last : d.day = d.lastOfMonth := Nat.le_antisymm h.day_le (Nat.not_lt.1 beyond)
    split
    next within => exact .inr (.inl ⟨last, within, rfl⟩)
    next beyond =>
      exact .inr (.inr ⟨last, Nat.le_antisymm h.month_le (Nat.not_lt.1 beyond), rfl⟩)

theorem IsValid.next {d : Date} (h : d.IsValid) : d.next.IsValid := by
  obtain ⟨within, e⟩ | ⟨-, within, e⟩ | ⟨-, -, e⟩ := h.next_cases <;> rw [e]
  · exact ⟨h.month_pos, h.month_le, Nat.le_add_left 1 _, within⟩
  · exact ⟨Nat.le_add_left 1 _, within, Nat.le_refl 1, daysInMonth_pos _ _⟩
  · exact ⟨Nat.le_refl 1, (by decide : 1 ≤ 12), Nat.le_refl 1, daysInMonth_pos _ _⟩

theorem eq_of_fields {a b : Date} (year : a.year = b.year) (month : a.month = b.month)
    (day : a.day = b.day) : a = b := by
  cases a
  cases b
  exact congr (congr (congrArg mk year) month) day

/-- No two days have the same day after them. -/
theorem IsValid.eq_of_next_eq {a b : Date} (ha : a.IsValid) (hb : b.IsValid)
    (h : a.next = b.next) : a = b := by
  have firstA := ha.day_pos
  have firstB := hb.day_pos
  have monthA := ha.month_pos
  have monthB := hb.month_pos
  have last : a.year = b.year → a.month = b.month → a.lastOfMonth = b.lastOfMonth := by
    intro year month
    rw [lastOfMonth, lastOfMonth, year, month]
  obtain ⟨-, ea⟩ | ⟨la, -, ea⟩ | ⟨la, ma, ea⟩ := ha.next_cases <;>
    obtain ⟨-, eb⟩ | ⟨lb, -, eb⟩ | ⟨lb, mb, eb⟩ := hb.next_cases <;>
    rw [ea, eb, Date.mk.injEq] at h <;> obtain ⟨year, month, day⟩ := h
  -- Days of different kinds are followed by different days.
  all_goals try omega
  · exact eq_of_fields year month (Nat.succ.inj day)
  · have month := Nat.succ.inj month
    exact eq_of_fields year month (by rw [la, lb, last year month])
  · have year := (Int.add_left_inj 1).1 year
    have month := ma.trans mb.symm
    exact eq_of_fields year month (by rw [la, lb, last year month])

/-! ## Years that start in March -/

/-- The days of an era before a year. -/
def daysBeforeYear (y : Nat) : Nat := 365 * y + y / 4 - y / 100 + y / 400

/-- The year of a day of an era, by divisions. -/
def yearOfEra (day : Nat) : Nat := (day - day / 1460 + day / 36524 - day / 146096) / 365

theorem yearOfEra_le_succ (day : Nat) : yearOfEra day ≤ yearOfEra (day + 1) := by
  unfold yearOfEra
  apply Nat.div_le_div_right
  omega

theorem yearOfEra_mono {m n : Nat} (h : m ≤ n) : yearOfEra m ≤ yearOfEra n := by
  induction h with
  | refl => exact Nat.le_refl _
  | step _ ih => exact Nat.le_trans ih (yearOfEra_le_succ _)

theorem yearOfEra_first : ∀ y < 400, yearOfEra (daysBeforeYear y) = y := by decide +kernel

theorem yearOfEra_last : ∀ y < 400, yearOfEra (daysBeforeYear (y + 1) - 1) = y := by
  decide +kernel

/-- **The divisions find the year**: they find it on its first and on its last day, and they never
go back. -/
theorem yearOfEra_spec {day : Nat} (h : day < 146097) :
    yearOfEra day < 400 ∧ daysBeforeYear (yearOfEra day) ≤ day ∧
      day < daysBeforeYear (yearOfEra day + 1) := by
  have small : yearOfEra day < 400 := by
    have le := yearOfEra_mono (show day ≤ daysBeforeYear 400 - 1 by
      rw [show daysBeforeYear 400 = 146097 from rfl]; omega)
    rw [yearOfEra_last 399 (by decide)] at le
    omega
  refine ⟨small, ?_, ?_⟩
  · by_contra before
    have back := yearOfEra_mono (show day ≤ daysBeforeYear (yearOfEra day) - 1 by omega)
    cases e : yearOfEra day with
    | zero => exact before (e ▸ Nat.zero_le day)
    | succ y =>
      rw [e, yearOfEra_last y (by omega)] at back
      omega
  · by_contra behind
    have next : yearOfEra day + 1 < 400 := by
      by_contra last
      rw [show yearOfEra day + 1 = 400 by omega] at behind
      exact behind h
    have on := yearOfEra_mono (Nat.not_lt.1 behind)
    rw [yearOfEra_first _ next] at on
    omega

/-- No other year has the day. -/
theorem yearOfEra_eq {day y : Nat} (h : y < 400) (low : daysBeforeYear y ≤ day)
    (high : day < daysBeforeYear (y + 1)) : yearOfEra day = y := by
  have first := yearOfEra_mono low
  have last := yearOfEra_mono (Nat.le_sub_one_of_lt high)
  rw [yearOfEra_first y h] at first
  rw [yearOfEra_last y h] at last
  exact Nat.le_antisymm last first

/-- The length of a year that starts in March and ends in the February of the next year. -/
def lengthFromMarch (year : Int) : Nat := if isLeap (year + 1) then 366 else 365

theorem isLeap_add (year era : Int) : isLeap (year + era * 400) = isLeap year := by
  have fourth : (year + era * 400) % 4 = year % 4 := by omega
  have century : (year + era * 400) % 100 = year % 100 := by omega
  rw [isLeap, fourth, century, Int.add_mul_emod_self_right]
  rfl

theorem length_of_era : ∀ y < 400,
    daysBeforeYear y + lengthFromMarch y = daysBeforeYear (y + 1) := by decide +kernel

/-! ## Days of a year that starts in March -/

/-- The month of a day. -/
def monthOfDay (day : Nat) : Nat :=
  let fromMarch := (5 * day + 2) / 153
  if fromMarch < 10 then fromMarch + 3 else fromMarch - 9

/-- The day in its month. -/
def dayOfMonth (day : Nat) : Nat := day - daysBeforeMonth ((5 * day + 2) / 153) + 1

/-- The date of a day; January and February are in the next year. -/
def ofMarch (year : Int) (day : Nat) : Date where
  year := year + if monthOfDay day ≤ 2 then 1 else 0
  month := monthOfDay day
  day := dayOfMonth day

theorem valid_table : ∀ leap, ∀ day < if leap then 366 else 365,
    1 ≤ monthOfDay day ∧ monthOfDay day ≤ 12 ∧ 1 ≤ dayOfMonth day ∧
      dayOfMonth day ≤ daysInMonth leap (monthOfDay day) := by decide +kernel

/-- The leap year that counts is that of January and February, so that of the year to come. -/
theorem daysInMonth_isLeap (year : Int) (month : Nat) :
    daysInMonth (isLeap (year + if month ≤ 2 then 1 else 0)) month =
      daysInMonth (isLeap (year + 1)) month := by
  unfold daysInMonth
  split
  next second => rw [second, if_pos (Nat.le_refl 2)]
  next => rfl

theorem lastOfMonth_ofMarch (year : Int) (day : Nat) :
    (ofMarch year day).lastOfMonth = daysInMonth (isLeap (year + 1)) (monthOfDay day) :=
  daysInMonth_isLeap year _

theorem next_ofMarch (year : Int) (day : Nat) :
    (ofMarch year day).next =
      if dayOfMonth day < daysInMonth (isLeap (year + 1)) (monthOfDay day) then
        ⟨(ofMarch year day).year, monthOfDay day, dayOfMonth day + 1⟩
      else if monthOfDay day < 12 then ⟨(ofMarch year day).year, monthOfDay day + 1, 1⟩
      else ⟨(ofMarch year day).year + 1, 1, 1⟩ := by
  rw [next, lastOfMonth_ofMarch]
  rfl

/-- Every day but the last is followed by the next of its month or by the first of the month to
come; the years change after December. -/
theorem step_table : ∀ leap, ∀ day < (if leap then 366 else 365) - 1,
    (dayOfMonth day < daysInMonth leap (monthOfDay day) ∧
      monthOfDay (day + 1) = monthOfDay day ∧ dayOfMonth (day + 1) = dayOfMonth day + 1) ∨
    (¬ dayOfMonth day < daysInMonth leap (monthOfDay day) ∧ dayOfMonth (day + 1) = 1 ∧
      (monthOfDay day < 12 ∧ monthOfDay (day + 1) = monthOfDay day + 1 ∧
          (monthOfDay day ≤ 2 ↔ monthOfDay (day + 1) ≤ 2) ∨
        monthOfDay day = 12 ∧ monthOfDay (day + 1) = 1)) := by decide +kernel

/-- The day after a day that is not the last. -/
theorem next_ofMarch_of_lt {year : Int} {day : Nat} (h : day + 1 < lengthFromMarch year) :
    (ofMarch year day).next = ofMarch year (day + 1) := by
  rw [next_ofMarch]
  obtain ⟨within, month, on⟩ | ⟨beyond, first, ⟨within, month, same⟩ | ⟨last, month⟩⟩ :=
    step_table (isLeap (year + 1)) day (Nat.lt_sub_of_add_lt h)
  · rw [if_pos within]
    exact eq_of_fields (by simp only [ofMarch, month]) month.symm on.symm
  · rw [if_neg beyond, if_pos within]
    exact eq_of_fields (by simp only [ofMarch, same]) month.symm first.symm
  · rw [if_neg beyond, if_neg (by omega)]
    exact eq_of_fields (by simp [ofMarch, month, last]) month.symm first.symm

theorem last_table : ∀ leap, ∀ day, day + 1 = (if leap then 366 else 365) →
    monthOfDay day = 2 ∧ dayOfMonth day = daysInMonth leap 2 := by
  intro leap day h
  obtain rfl := Nat.eq_sub_of_add_eq h
  revert leap
  decide

/-- The last day of February is followed by the first of March. -/
theorem next_ofMarch_last {year : Int} {day : Nat} (h : day + 1 = lengthFromMarch year) :
    (ofMarch year day).next = ofMarch (year + 1) 0 := by
  obtain ⟨second, last⟩ := last_table (isLeap (year + 1)) day h
  rw [next_ofMarch, if_neg (by rw [second, last]; exact Nat.lt_irrefl _), if_pos (by omega)]
  refine eq_of_fields ?_ (congrArg Nat.succ second) rfl
  rw [ofMarch, second]
  exact (Int.add_zero _).symm

/-! ## The days one after the other -/

/-- The count of days of a day of an era; day 0 of era 0 is the first of March of year 0. -/
theorem ofDays_eq {days : Int} (era : Int) {y day : Nat} (hy : y < 400)
    (hd : day < lengthFromMarch y)
    (h : days + 719468 = era * 146097 + (daysBeforeYear y + day : Nat)) :
    ofDays days = ofMarch (y + era * 400) day := by
  have high : daysBeforeYear y + day < daysBeforeYear (y + 1) := by
    rw [← length_of_era y hy]
    omega
  have bound : daysBeforeYear (y + 1) ≤ 146097 := by
    unfold daysBeforeYear
    omega
  have eraOf : (days + 719468) / 146097 = era := by omega
  have dayOfEra : ((days + 719468) % 146097).toNat = daysBeforeYear y + day := by omega
  have year := yearOfEra_eq hy (Nat.le_add_right _ day) high
  unfold ofDays
  simp only
  rw [eraOf, dayOfEra]
  unfold yearOfEra at year
  rw [year]
  have dayOfYear : daysBeforeYear y + day - (365 * y + y / 4 - y / 100) = day := by
    unfold daysBeforeYear
    omega
  rw [dayOfYear]
  exact eq_of_fields (by simp only [ofMarch, monthOfDay]; rfl) rfl rfl

/-- Every count of days is of a day of a year of an era. -/
theorem exists_dayOfYear (days : Int) : ∃ (era : Int) (y day : Nat), y < 400 ∧
    day < lengthFromMarch y ∧ days + 719468 = era * 146097 + (daysBeforeYear y + day : Nat) := by
  let dayOfEra := ((days + 719468) % 146097).toNat
  obtain ⟨small, low, high⟩ := yearOfEra_spec (show dayOfEra < 146097 by omega)
  refine ⟨(days + 719468) / 146097, yearOfEra dayOfEra,
    dayOfEra - daysBeforeYear (yearOfEra dayOfEra), small, ?_, ?_⟩
  · rw [← length_of_era _ small] at high
    omega
  · rw [Nat.add_sub_cancel' low]
    omega

theorem lengthFromMarch_add (year era : Int) :
    lengthFromMarch (year + era * 400) = lengthFromMarch year := by
  rw [lengthFromMarch, lengthFromMarch, Int.add_right_comm, isLeap_add]

/-- **One day on is one day on.** -/
theorem ofDays_succ (days : Int) : ofDays (days + 1) = (ofDays days).next := by
  obtain ⟨era, y, day, hy, hd, h⟩ := exists_dayOfYear days
  rw [ofDays_eq era hy hd h]
  have length := lengthFromMarch_add y era
  obtain within | last : day + 1 < lengthFromMarch y ∨ day + 1 = lengthFromMarch y := by omega
  · rw [next_ofMarch_of_lt (length ▸ within)]
    exact ofDays_eq era hy within (by omega)
  rw [next_ofMarch_last (length ▸ last)]
  have whole := length_of_era y hy
  obtain more | rfl : y + 1 < 400 ∨ y = 399 := by omega
  · have first : 0 < lengthFromMarch (y + 1 : Nat) := by
      unfold lengthFromMarch
      split <;> decide
    rw [ofDays_eq era more first (by omega)]
    congr 1
    omega
  · -- The era ends with the year.
    have era_length : daysBeforeYear (399 + 1) = 146097 := rfl
    have first : daysBeforeYear 0 + 0 = 0 := rfl
    have zero : 0 < lengthFromMarch (0 : Nat) := by decide
    rw [ofDays_eq (era + 1) (by decide : 0 < 400) zero (by omega)]
    congr 1
    omega

theorem ofDays_zero : ofDays 0 = epoch := by decide

theorem isValid_ofDays (days : Int) : (ofDays days).IsValid := by
  obtain ⟨era, y, day, hy, hd, h⟩ := exists_dayOfYear days
  rw [ofDays_eq era hy hd h]
  rw [← lengthFromMarch_add y era] at hd
  obtain ⟨month_pos, month_le, day_pos, day_le⟩ := valid_table _ day hd
  exact ⟨month_pos, month_le, day_pos, by rw [lastOfMonth_ofMarch]; exact day_le⟩

/-- So many days on is so many days on. -/
theorem iterate_next_ofDays (n : Nat) (days : Int) :
    next^[n] (ofDays days) = ofDays (days + n) := by
  induction n with
  | zero => rw [Function.iterate_zero_apply, Int.natCast_zero, Int.add_zero]
  | succ n ih => rw [Function.iterate_succ_apply', ih, ← ofDays_succ, Int.add_assoc]; rfl

theorem IsValid.eq_of_iterate_next_eq {n : Nat} {a b : Date} (ha : a.IsValid) (hb : b.IsValid)
    (h : Date.next^[n] a = Date.next^[n] b) : a = b := by
  induction n generalizing a b with
  | zero => exact h
  | succ n ih => exact ha.eq_of_next_eq hb (ih ha.next hb.next h)

/-- **The date that is computed is the one the rules lead to**, on either side of 1970. -/
theorem isDay_iff {days : Int} {d : Date} : IsDay days d ↔ d = ofDays days := by
  have on : next^[days.toNat] epoch = next^[(-days).toNat] (ofDays days) := by
    rw [← ofDays_zero, iterate_next_ofDays, iterate_next_ofDays]
    congr 1
    omega
  constructor
  · rintro ⟨valid, h⟩
    exact valid.eq_of_iterate_next_eq (isValid_ofDays days) (h.symm.trans on)
  · rintro rfl
    exact ⟨isValid_ofDays days, on⟩

/-- A later day comes after. -/
theorem before_ofDays {m n : Int} (h : m < n) : (ofDays m).Before (ofDays n) := by
  obtain ⟨k, rfl⟩ := Int.le.dest (Int.add_one_le_of_lt h)
  induction k with
  | zero => exact (Int.add_zero (m + 1)).symm ▸ ofDays_succ m ▸ before_next
  | succ k ih =>
    have before := ih (by omega)
    rw [Int.natCast_succ, ← Int.add_assoc, ofDays_succ]
    exact before.trans before_next

theorem year_ofDays_le {m n : Int} (h : m ≤ n) : (ofDays m).year ≤ (ofDays n).year := by
  obtain rfl | less := Int.le_iff_eq_or_lt.1 h
  · exact Int.le_refl _
  · obtain before | ⟨same, -⟩ := before_ofDays less
    · exact Int.le_of_lt before
    · exact Int.le_of_eq same

end VirtualShell.Date
