import Timetable.Instant.Basic

/-!
# The calendar

Days, counted from 1970-01-01, as years, months and days of the proleptic Gregorian calendar, and
instants as a date with a time of day.

* `Date.dayNumber` counts the days of the years before, then the days of the months before;
* `Date.ofDayNumber` finds the year by an estimate that is off by one at most, then walks the
  months;
* `weekday` numbers Sunday 1 and Saturday 7.
-/

namespace Timetable

def isLeap (year : Int) : Bool :=
  year % 4 == 0 && (year % 100 != 0 || year % 400 == 0)

def monthLengths (year : Int) : List Nat :=
  [31, if isLeap year then 29 else 28, 31, 30, 31, 30, 31, 31, 30, 31, 30, 31]

/-- The days of a month, numbered from 1; none outside 1 to 12. -/
def daysInMonth (year : Int) (month : Nat) : Nat :=
  if month = 0 then 0 else (monthLengths year).getD (month - 1) 0

/-- Leap years before `year`, up to a constant. -/
def leapsBefore (year : Int) : Int := (year - 1) / 4 - (year - 1) / 100 + (year - 1) / 400

/-- The day number of the first of January. -/
def yearStart (year : Int) : Int := 365 * (year - 1970) + leapsBefore year - 477

/-- The year that holds a day. -/
def yearOfDay (day : Int) : Int :=
  let guess := 1970 + 400 * day / 146097
  if day < yearStart guess then guess - 1
  else if yearStart (guess + 1) ≤ day then guess + 1
  else guess

theorem yearStart_succ (year : Int) :
    yearStart (year + 1) = yearStart year + if isLeap year then 366 else 365 := by
  simp only [yearStart, leapsBefore, isLeap]
  by_cases h4 : year % 4 = 0 <;> by_cases h100 : year % 100 = 0 <;>
    by_cases h400 : year % 400 = 0 <;> simp [h4, h100, h400] <;> omega

/-- Leap years lie evenly: 97 in 400 years, never three behind and never two ahead. -/
theorem leapsBefore_bounds (year : Int) :
    97 * (year - 1) - 879 ≤ 400 * leapsBefore year ∧ 400 * leapsBefore year ≤ 97 * (year - 1) + 588 := by
  simp only [leapsBefore]
  generalize year - 1 = y
  have h := Int.emod_add_mul_ediv y 400
  have h0 := Int.emod_nonneg y (by decide : (400 : Int) ≠ 0)
  have h1 := Int.emod_lt_of_pos y (by decide : (0 : Int) < 400)
  generalize y / 400 = q at *
  generalize y % 400 = r at *
  have h4 : y / 4 = 100 * q + r / 4 := by omega
  have h100 : y / 100 = 4 * q + r / 100 := by omega
  rw [h4, h100]
  omega

theorem yearStart_yearOfDay_le (day : Int) : yearStart (yearOfDay day) ≤ day := by
  simp only [yearOfDay]
  split
  · have h := leapsBefore_bounds (1970 + 400 * day / 146097 - 1)
    simp only [yearStart] at *; omega
  · split
    · assumption
    · omega

theorem lt_yearStart_yearOfDay_succ (day : Int) : day < yearStart (yearOfDay day + 1) := by
  simp only [yearOfDay]
  split
  · simpa using by assumption
  · split
    · have h := leapsBefore_bounds (1970 + 400 * day / 146097 + 1 + 1)
      simp only [yearStart] at *; omega
    · omega

structure Date where
  year : Int
  month : Nat
  day : Nat
deriving DecidableEq, Repr, Inhabited

namespace Date

/-- Whether the calendar has this date. -/
def Valid (d : Date) : Prop :=
  1 ≤ d.month ∧ d.month ≤ 12 ∧ 1 ≤ d.day ∧ d.day ≤ daysInMonth d.year d.month

instance (d : Date) : Decidable d.Valid := inferInstanceAs (Decidable (_ ∧ _))

/-- Days of the first `n` of some months. -/
def daysOfFirst : Nat → List Nat → Nat
  | n + 1, length :: lengths => length + daysOfFirst n lengths
  | _, _ => 0

/-- Days from 1970-01-01. -/
def dayNumber (d : Date) : Int :=
  yearStart d.year + daysOfFirst (d.month - 1) (monthLengths d.year) + d.day - 1

/-- The month, numbered from `month`, and the day of it that lie `rest` days after its first. -/
def walkMonths : List Nat → Nat → Nat → Nat × Nat
  | [], month, rest => (month, rest + 1)
  | length :: lengths, month, rest =>
    if rest < length then (month, rest + 1) else walkMonths lengths (month + 1) (rest - length)

def ofDayNumber (day : Int) : Date :=
  let year := yearOfDay day
  let (month, dayOfMonth) := walkMonths (monthLengths year) 1 (day - yearStart year).toNat
  ⟨year, month, dayOfMonth⟩

end Date

/-- The day of the week of a day number, Sunday first: 1 to 7. -/
def weekday (day : Int) : Nat := ((day + 4) % 7).toNat + 1

/-- A date with a time of day. -/
structure Civil where
  date : Date
  hour : Nat
  minute : Nat
  second : Nat
  /-- Nanoseconds into the second, from 10⁹ on in the leap second behind it. -/
  nano : Fin 2000000000
deriving DecidableEq, Repr, Inhabited

namespace Civil

/-- Seconds from midnight. -/
def ofDay (c : Civil) : Nat := (c.hour * 60 + c.minute) * 60 + c.second

def instant (c : Civil) : Instant := ⟨c.date.dayNumber * Instant.secondsPerDay + c.ofDay, c.nano⟩

end Civil

namespace Instant

def dayNumber (t : Instant) : Int := t.second / secondsPerDay

def civil (t : Instant) : Civil :=
  let seconds := t.timeOfDay.toNat
  { date := Date.ofDayNumber t.dayNumber
    hour := seconds / 3600
    minute := seconds / 60 % 60
    second := seconds % 60
    nano := t.nano }

end Instant

example : (Civil.mk ⟨-262143, 1, 1⟩ 0 0 0 0).instant = Instant.first := by decide
example : (Civil.mk ⟨262142, 12, 31⟩ 23 59 59 999999999).instant = Instant.last := by decide
example : Date.ofDayNumber 19782 = ⟨2024, 2, 29⟩ := by decide
example : Date.ofDayNumber (-1) = ⟨1969, 12, 31⟩ := by decide
example : weekday 0 = 5 := by decide

end Timetable
