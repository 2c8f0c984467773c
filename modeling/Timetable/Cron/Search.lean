import Timetable.Cron.Expression
import Timetable.Error
import Timetable.Instant.Civil

/-!
# Occurrences of a cron pattern

The search for the next occurrence walks years, months, days, hours, minutes and seconds in nested
loops. It starts *fresh*: as long as every unit looked at so far had its first choice at the unit of
the start, the next smaller unit begins there too; otherwise it begins at its least value. Freshness
says nothing about the year: in a later year than that of the start the first choice is
fresh as well.

`Pattern.Matches` is the view beside the search: which dates and times belong to a pattern.
-/

namespace Timetable.Cron.Pattern

/-- Whether every unit of a date and time has one of the values of the pattern. -/
def Matches (p : Pattern) (c : Civil) : Prop :=
  c.second ∈ p.seconds ∧ c.minute ∈ p.minutes ∧ c.hour ∈ p.hours ∧ c.date.day ∈ p.days ∧
    c.date.month ∈ p.months ∧ weekday c.date.dayNumber ∈ p.weekdays ∧
    (∃ year ∈ p.years, c.date.year = year) ∧ c.date.Valid ∧ c.nano.val = 0

/-- The first result over some values, of which only the first is searched fresh. -/
def firstOf {α : Type} (search : Bool → Nat → Option α) : Bool → List Nat → Option α
  | _, [] => none
  | fresh, n :: ns =>
    match search fresh n with
    | some r => some r
    | none => firstOf search false ns

/-- Searches the values from a bound on, fresh at the bound itself. -/
def searchFrom {α : Type} (search : Bool → Nat → Option α) (values : List Nat) (bound : Nat)
    (fresh : Bool) : Option α :=
  firstOf search (fresh && values.contains bound) (values.filter (bound ≤ ·))

def inMinute (p : Pattern) (i : Civil) (date : Date) (hour minute : Nat) (fresh : Bool) : Option Civil :=
  let bound := if fresh then i.second else 0
  (p.seconds.find? (bound ≤ ·)).map fun second => ⟨date, hour, minute, second, Instant.nanosInto 0⟩

def inHour (p : Pattern) (i : Civil) (date : Date) (hour : Nat) (fresh : Bool) : Option Civil :=
  searchFrom (fun fresh minute => p.inMinute i date hour minute fresh) p.minutes
    (if fresh then i.minute else 0) fresh

def inDay (p : Pattern) (i : Civil) (date : Date) (fresh : Bool) : Option Civil :=
  if p.weekdays.contains (weekday date.dayNumber) then
    searchFrom (fun fresh hour => p.inHour i date hour fresh) p.hours
      (if fresh then i.hour else 0) fresh
  else none

/-- The days of a month from a bound on, or its last day if the month is shorter. -/
def inMonth (p : Pattern) (i : Civil) (year month : Nat) (fresh : Bool) : Option Civil :=
  let bound := if fresh then i.date.day else 1
  let last := daysInMonth year month
  firstOf (fun fresh day => p.inDay i ⟨year, month, day⟩ fresh) (fresh && p.days.contains bound)
    (p.days.filter fun day => min bound last ≤ day && day ≤ last)

def inYear (p : Pattern) (i : Civil) (year : Nat) (fresh : Bool) : Option Civil :=
  searchFrom (fun fresh month => p.inMonth i year month fresh) p.months
    (if fresh then i.date.month else 1) fresh

/-- The first occurrence found from a date and time on. -/
def search (p : Pattern) (i : Civil) : Option Civil :=
  if i.date.year < 0 then none
  else firstOf (fun fresh year => p.inYear i year fresh) true
    (p.years.filter fun year => i.date.year ≤ year)

/-- The next occurrence after an instant. The search starts a second later, which the calendar has to reach. -/
def nextAfter (p : Pattern) (t : Instant) : Except ScheduleError (Option Instant) :=
  match t.add? Instant.nanosPerSecond with
  | some start => .ok ((p.search start.civil).map Civil.instant)
  | none => .error .outOfRange

/-- The next `count` occurrences after an instant, each searched from the one before. -/
def occurrences (p : Pattern) : Nat → Instant → Except ScheduleError (List Instant)
  | 0, _ => .ok []
  | count + 1, t => do
    match ← p.nextAfter t with
    | some next => return next :: (← p.occurrences count next)
    | none => return []

example : (hourly.nextAfter (Instant.ofMillis 1704103350500)).toOption =
    some (some (Instant.ofMillis 1704106800000)) := by decide +kernel
example : (({ Pattern.yearly with days := [30], months := [2] }).nextAfter ⟨0, 0⟩).toOption =
    some none := by decide +kernel

end Timetable.Cron.Pattern
