import VirtualShell.Text.Bytes

/-!
# Dates and times of day

Milliseconds since the start of 1970 in universal time, and their written forms: the ISO-like
`Timestamp.render` and the short form of a listing, `Timestamp.renderShort`, which shows the time of
day for the last half year and the year for anything else.

* `Date.ofDays` is the Gregorian calendar by eras of 400 years that start in March, so that the leap
  day comes last in its year.
-/

namespace VirtualShell

/-- A day of the Gregorian calendar; months and days count from one. -/
structure Date where
  year : Int
  month : Nat
  day : Nat
  deriving DecidableEq

namespace Date

/-- The days from the first of March to the first of the month that is so many months later. -/
def daysBeforeMonth (m : Nat) : Nat := (153 * m + 2) / 5

/-- The date so many days after the first of January 1970. -/
def ofDays (days : Int) : Date :=
  -- day 0 of era 0 is the first of March of year 0
  let shifted := days + 719468
  let era := shifted / 146097
  let dayOfEra := (shifted % 146097).toNat
  let yearOfEra :=
    (dayOfEra - dayOfEra / 1460 + dayOfEra / 36524 - dayOfEra / 146096) / 365
  let dayOfYear := dayOfEra - (365 * yearOfEra + yearOfEra / 4 - yearOfEra / 100)
  let fromMarch := (5 * dayOfYear + 2) / 153
  let month := if fromMarch < 10 then fromMarch + 3 else fromMarch - 9
  { year := yearOfEra + era * 400 + (if month ≤ 2 then 1 else 0)
    month
    day := dayOfYear - daysBeforeMonth fromMarch + 1 }

/-- The three letters of a month. -/
def monthName (m : Nat) : Bytes :=
  ([ascii "Jan", ascii "Feb", ascii "Mar", ascii "Apr", ascii "May", ascii "Jun", ascii "Jul",
    ascii "Aug", ascii "Sep", ascii "Oct", ascii "Nov", ascii "Dec"][m - 1]?).getD []

end Date

namespace Timestamp

/-- The seconds of a count of milliseconds, cut off toward zero. -/
def seconds (millis : Int) : Int := millis.tdiv 1000

/-- At least two digits, filled up with the byte. -/
def twoDigits (fill : UInt8) (n : Nat) : Bytes := Bytes.padLeft 2 fill (decimal n)

def hour (seconds : Int) : Nat := (seconds % 86400 / 3600).toNat
def minute (seconds : Int) : Nat := (seconds % 3600 / 60).toNat
def second (seconds : Int) : Nat := (seconds % 60).toNat

/-- Three places of a signed number, the sign taking one of them. -/
def threePlaces (n : Int) : Bytes :=
  if n < 0 then Ascii.minus :: Bytes.padLeft 2 Ascii.zero (decimal n.natAbs)
  else Bytes.padLeft 3 Ascii.zero (decimal n.natAbs)

/-- `YYYY-MM-DD HH:MM:SS.mmm`, the milliseconds being the remainder toward zero. -/
def render (millis : Int) : Bytes :=
  let s := seconds millis
  let date := Date.ofDays (s / 86400)
  let two := twoDigits Ascii.zero
  signedDecimal date.year ++ ascii "-" ++ two date.month ++ ascii "-" ++ two date.day
    ++ ascii " " ++ two (hour s) ++ ascii ":" ++ two (minute s) ++ ascii ":" ++ two (second s)
    ++ ascii "." ++ threePlaces (millis.tmod 1000)

/-- Half a year of thirty-day months, in seconds. -/
def halfYear : Int := 6 * 30 * 24 * 60 * 60

/-- `Mon dd HH:MM` within the last half year, else `Mon dd  YYYY`. -/
def renderShort (now millis : Int) : Bytes :=
  let s := seconds millis
  let n := seconds now
  let date := Date.ofDays (s / 86400)
  let day := Date.monthName date.month ++ ascii " " ++ twoDigits Ascii.space date.day
  if n - s > halfYear ∨ s > n then day ++ ascii "  " ++ signedDecimal date.year
  else
    day ++ ascii " " ++ twoDigits Ascii.zero (hour s) ++ ascii ":"
      ++ twoDigits Ascii.zero (minute s)

end Timestamp

end VirtualShell
