/-!
# Fields of a cron expression

The seven units that an expression constrains, each with its range and the names of its values.
Weekdays count from Sunday, which is 1.
-/

namespace Timetable.Cron

/-- One unit of time: its least and greatest value, the names of values, and whether `?` stands for
all of them. -/
structure Field where
  low : Nat
  high : Nat
  names : List (String × Nat) := []
  questionMark : Bool := false

namespace Field

def seconds : Field := { low := 0, high := 59 }

def minutes : Field := { low := 0, high := 59 }

def hours : Field := { low := 0, high := 23 }

def days : Field := { low := 1, high := 31, questionMark := true }

def months : Field where
  low := 1
  high := 12
  names := [("jan", 1), ("january", 1), ("feb", 2), ("february", 2), ("mar", 3), ("march", 3),
    ("apr", 4), ("april", 4), ("may", 5), ("jun", 6), ("june", 6), ("jul", 7), ("july", 7),
    ("aug", 8), ("august", 8), ("sep", 9), ("september", 9), ("oct", 10), ("october", 10),
    ("nov", 11), ("november", 11), ("dec", 12), ("december", 12)]

def weekdays : Field where
  low := 1
  high := 7
  names := [("sun", 1), ("sunday", 1), ("mon", 2), ("monday", 2), ("tue", 3), ("tues", 3),
    ("tuesday", 3), ("wed", 4), ("wednesday", 4), ("thu", 5), ("thurs", 5), ("thursday", 5),
    ("fri", 6), ("friday", 6), ("sat", 7), ("saturday", 7)]
  questionMark := true

def years : Field := { low := 1970, high := 2100 }

/-- Every value of the unit, ascending. -/
def all (f : Field) : List Nat := List.range' f.low (f.high + 1 - f.low)

theorem mem_all {f : Field} {n : Nat} (h : f.low ≤ f.high) : n ∈ f.all ↔ f.low ≤ n ∧ n ≤ f.high := by
  simp only [all, List.mem_range'_1]
  omega

/-- The value of a name, in any case. -/
def ofName? (f : Field) (name : List Char) : Option Nat :=
  (f.names.find? (·.1.toList == name.map Char.toLower)).map (·.2)

def valid? (f : Field) (n : Nat) : Option Nat := if f.low ≤ n ∧ n ≤ f.high then some n else none

/-- The values from `a` to `b`, both in range and in order. -/
def range? (f : Field) (a b : Nat) : Option (List Nat) := do
  let a ← f.valid? a
  let b ← f.valid? b
  if a ≤ b then some (List.range' a (b + 1 - a)) else none

end Field

end Timetable.Cron
