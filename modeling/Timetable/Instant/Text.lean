import Timetable.Instant.Civil
import Timetable.Text.Basic
import Timetable.Text.Digits

/-!
# Written instants

An instant is written in UTC as `2024-01-01T10:02:30.500Z`: the year with four digits, with a sign
if it lies outside 0 to 9999, and the fraction with none, three, six or nine digits, the fewest
that are exact. In a leap second it shows a sixtieth second.

Reading is more generous. Blanks may stand before every number and sign, months and the units of
the time may have one digit, a blank may stand for the `T`, the fraction may have any number of
digits (nine count), and the offset may be `Z`, `UTC` or hours and minutes with or without a
colon. A sixtieth second is a leap second behind the second before it.
-/

namespace Timetable.Instant

open Text

/-! ## Writing -/

def yearText (year : Int) : List Char :=
  if year < 0 then '-' :: padded 4 year.natAbs
  else if year ≤ 9999 then padded 4 year.natAbs
  else '+' :: padded 4 year.natAbs

def fractionText (nano : Nat) : List Char :=
  if nano = 0 then []
  else if nano % 1000000 = 0 then '.' :: padded 3 (nano / 1000000)
  else if nano % 1000 = 0 then '.' :: padded 6 (nano / 1000)
  else '.' :: padded 9 nano

def dateText (d : Date) : List Char :=
  yearText d.year ++ '-' :: padded 2 d.month ++ '-' :: padded 2 d.day

/-- The time of day; a leap second has a number of its own. -/
def timeText (c : Civil) : List Char :=
  padded 2 c.hour ++ ':' :: padded 2 c.minute ++
    ':' :: padded 2 (c.second + c.nano.val / 1000000000) ++ fractionText (c.nano.val % 1000000000)

def chars (t : Instant) : List Char :=
  dateText t.civil.date ++ 'T' :: timeText t.civil ++ ['Z']

def text (t : Instant) : String := String.ofList t.chars

/-! ## Reading -/

/-- Drops one given character behind blanks. -/
def skipMark (mark : Char) (cs : List Char) : Option (List Char) :=
  match trimStart cs with
  | c :: rest => if c = mark then some rest else none
  | [] => none

def readYear (cs : List Char) : Option (Int × List Char) :=
  match trimStart cs with
  | '-' :: rest => do
    let (n, rest) ← readNat rest.length rest
    some (-(n : Int), rest)
  | '+' :: rest => do
    let (n, rest) ← readNat rest.length rest
    some ((n : Int), rest)
  | rest => do
    let (n, rest) ← readNat 4 rest
    some ((n : Int), rest)

/-- A number of one or two digits behind blanks. -/
def readPair (cs : List Char) : Option (Nat × List Char) := readNat 2 (trimStart cs)

def readDate (cs : List Char) : Option (Date × List Char) := do
  let (year, cs) ← readYear cs
  let cs ← skipMark '-' cs
  let (month, cs) ← readPair cs
  let cs ← skipMark '-' cs
  let (day, cs) ← readPair cs
  if (Date.mk year month day).Valid then some (⟨year, month, day⟩, cs) else none

/-- Nanoseconds behind a point: the first nine digits count. -/
def readFraction : List Char → Option (Nat × List Char)
  | '.' :: cs =>
    match spanDigits 9 cs with
    | ([], _) => none
    | (ds, rest) => some (ofDigits ds * Nat.pow 10 (9 - ds.length), rest.dropWhile Char.isDigit)
  | cs => some (0, cs)

/-- A second of the minute and nanoseconds into it; the sixtieth is a leap second. -/
def leapAware (second nano : Nat) : Nat × Fin 2000000000 :=
  if second = 60 then (59, nanosInto (1000000000 + nano)) else (second, nanosInto nano)

def readTime (date : Date) (cs : List Char) : Option (Civil × List Char) := do
  let (hour, cs) ← readPair cs
  let cs ← skipMark ':' cs
  let (minute, cs) ← readPair cs
  let cs ← skipMark ':' cs
  let (second, cs) ← readPair cs
  let (nano, cs) ← readFraction cs
  if hour < 24 ∧ minute < 60 ∧ second ≤ 60 then
    let (second, nano) := leapAware second nano
    some (⟨date, hour, minute, second, nano⟩, cs)
  else none

/-- Two digits, no more and no fewer. -/
def readTwo : List Char → Option (Nat × List Char)
  | a :: b :: rest => if a.isDigit && b.isDigit then some (ofDigits [a, b], rest) else none
  | _ => none

def readSign : List Char → Option (Int × List Char)
  | '+' :: rest => some (1, rest)
  | '-' :: rest => some (-1, rest)
  | '\u2212' :: rest => some (-1, rest)
  | _ => none

/-- The seconds that local time is ahead of UTC. -/
def readOffset (cs : List Char) : Option (Int × List Char) :=
  match cs with
  | 'Z' :: rest => some (0, rest)
  | 'z' :: rest => some (0, rest)
  | _ =>
    if (cs.take 3).map Char.toUpper = ['U', 'T', 'C'] then some (0, cs.drop 3)
    else do
      let (sign, cs) ← readSign cs
      let (hours, cs) ← readTwo cs
      let (minutes, cs) ← readTwo (cs.dropWhile fun c => c == ':' || isBlank c)
      if hours < 24 ∧ minutes < 60 then some (sign * (hours * 3600 + minutes * 60 : Nat), cs)
      else none

def readMiddle : List Char → Option (List Char)
  | 'T' :: rest => some rest
  | 't' :: rest => some rest
  | ' ' :: rest => some rest
  | _ => none

def ofChars? (cs : List Char) : Option Instant := do
  let (date, cs) ← readDate cs
  let cs ← readMiddle cs
  let (civil, cs) ← readTime date cs
  let (offset, cs) ← readOffset (trimStart cs)
  let t : Instant := ⟨civil.instant.second - offset, civil.nano⟩
  if trimStart cs = [] ∧ civil.instant.Representable ∧ t.Representable then some t else none

def ofText? (s : String) : Option Instant := ofChars? s.toList

example : (ofMillis 1704103350500).chars = "2024-01-01T10:02:30.500Z".toList := by decide
example : (Civil.mk ⟨10136, 2, 16⟩ 4 15 0 1).instant.chars = "+10136-02-16T04:15:00.000000001Z".toList := by
  decide
example : ofChars? "2024-01-01 12:02:30.5+02:00".toList = some (ofMillis 1704103350500) := by decide
example : (ofChars? "2024-01-01T10:02:60.5+00:30".toList).map chars =
    some "2024-01-01T09:32:60.500Z".toList := by decide +kernel
example : ofChars? "2024-02-30T00:00:00Z".toList = none := by decide
example : ofChars? "2024-01-01T00:00:00".toList = none := by decide
example : ofChars? "2024-01-01T00:00:00.Z".toList = none := by decide

end Timetable.Instant
