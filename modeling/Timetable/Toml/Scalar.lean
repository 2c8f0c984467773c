import Timetable.Instant.Civil
import Timetable.Settings.Value
import Timetable.Toml.Text

/-!
# Numbers, truth values and times in TOML

Numbers may have an underscore between two digits. Times are kept as their text, with nine digits behind
the point at most. Each reader gives the value at the front of a text, and what follows it.
-/

namespace Timetable.Toml

open Text

/-! ## Numbers -/

/-- Digits of a kind, of which two may have an underscore between them. -/
def spanGrouped (isDigit : Char → Bool) : List Char → List Char × List Char
  | '_' :: d :: rest =>
    if isDigit d then
      let (ds, rest) := spanGrouped isDigit rest
      (d :: ds, rest)
    else ([], '_' :: d :: rest)
  | d :: rest =>
    if isDigit d then
      let (ds, rest) := spanGrouped isDigit rest
      (d :: ds, rest)
    else ([], d :: rest)
  | [] => ([], [])

/-- At least one digit of a kind. -/
def readGrouped? (isDigit : Char → Bool) (cs : List Char) : Option (List Char × List Char) :=
  match cs.head?.any isDigit, spanGrouped isDigit cs with
  | true, p => some p
  | false, _ => none

def isDigitOf (base : Nat) (c : Char) : Bool := (hexValue? c).any (· < base)

def int? (n : Int) : Option Setting :=
  if -9223372036854775808 ≤ n ∧ n < 9223372036854775808 then some (.int n) else none

/-- A number in a base, from behind the mark of the base. -/
def readBased? (base : Nat) (cs : List Char) : Option (Setting × List Char) := do
  let (ds, rest) ← readGrouped? (isDigitOf base) cs
  let n := ds.foldl (fun n d => n * base + (hexValue? d).getD 0) 0
  return (← int? n, rest)

def readSign : List Char → Bool × List Char
  | '-' :: rest => (true, rest)
  | '+' :: rest => (false, rest)
  | cs => (false, cs)

/-- The digits of a whole number, which has no zero in front of others. -/
def readWhole? : List Char → Option (List Char × List Char)
  | '0' :: rest => some (['0'], rest)
  | cs => readGrouped? Char.isDigit cs

def readInteger? : List Char → Option (Setting × List Char)
  | '0' :: 'x' :: rest => readBased? 16 rest
  | '0' :: 'o' :: rest => readBased? 8 rest
  | '0' :: 'b' :: rest => readBased? 2 rest
  | cs => do
    let (negative, cs) := readSign cs
    let (ds, rest) ← readWhole? cs
    let n : Int := ofDigits ds
    return (← int? (if negative then -n else n), rest)

/-- Digits behind a point, where there is one. -/
def readFraction? : List Char → Option (Option (List Char) × List Char)
  | '.' :: rest => (readGrouped? Char.isDigit rest).map fun p => (some p.1, p.2)
  | cs => some (none, cs)

/-- The power of ten behind its mark, where there is one. -/
def readPower? : List Char → Option (Option Int × List Char)
  | mark :: rest =>
    if mark == 'e' || mark == 'E' then do
      let (negative, cs) := readSign rest
      let (ds, rest) ← readGrouped? Char.isDigit cs
      let n : Int := ofDigits ds
      return (some (if negative then -n else n), rest)
    else some (none, mark :: rest)
  | [] => some (none, [])

def readSpecial? : List Char → Option (ExtendedFraction × List Char)
  | 'i' :: 'n' :: 'f' :: rest => some (.infinite false, rest)
  | 'n' :: 'a' :: 'n' :: rest => some (.notANumber, rest)
  | _ => none

/-- A number with a point or a power of ten, which is not too large; or one of the special ones. -/
def readFloat? (cs : List Char) : Option (Setting × List Char) :=
  let (negative, cs) := readSign cs
  match readSpecial? cs with
  | some (x, rest) => some (.real (if negative then x.negate else x), rest)
  | none => do
    let (whole, cs) ← readWhole? cs
    let (fraction, cs) ← readFraction? cs
    let (power, rest) ← readPower? cs
    if fraction = none ∧ power = none then none
    let behind := fraction.getD []
    let x := ExtendedFraction.ofDecimal negative (ofDigits (whole ++ behind))
      (power.getD 0 - behind.length)
    if x = .infinite false then none
    return (.real x, rest)

/-! ## Times -/

/-- So many digits, of a number within bounds. -/
def readField? (count low high : Nat) (cs : List Char) : Option (List Char × List Char) :=
  let ds := cs.take count
  let n := ofDigits ds
  if ds.length = count ∧ ds.all Char.isDigit ∧ low ≤ n ∧ n ≤ high then some (ds, cs.drop count)
  else none

def skip? (mark : Char) : List Char → Option (List Char)
  | c :: rest => if c == mark then some rest else none
  | [] => none

def readDate? (cs : List Char) : Option (List Char × List Char) := do
  let (year, cs) ← readField? 4 0 9999 cs
  let (month, cs) ← readField? 2 1 12 (← skip? '-' cs)
  let (day, rest) ← readField? 2 1 (daysInMonth (ofDigits year) (ofDigits month)) (← skip? '-' cs)
  return (year ++ '-' :: month ++ '-' :: day, rest)

/-- The text of the digits behind the point of a second. -/
def secondFraction (ds : List Char) : List Char :=
  match ((ds.take 9).reverse.dropWhile (· == '0')).reverse with
  | [] => []
  | ds => '.' :: ds

def readTime? (cs : List Char) : Option (List Char × List Char) := do
  let (hour, cs) ← readField? 2 0 23 cs
  let (minute, cs) ← readField? 2 0 59 (← skip? ':' cs)
  let (second, cs) ← readField? 2 0 60 (← skip? ':' cs)
  let time := hour ++ ':' :: minute ++ ':' :: second
  match cs with
  | '.' :: d :: rest =>
    if d.isDigit then
      let ds := (d :: rest).takeWhile Char.isDigit
      return (time ++ secondFraction ds, (d :: rest).drop ds.length)
    else return (time, cs)
  | _ => return (time, cs)

def readOffset? : List Char → Option (List Char × List Char)
  | sign :: rest =>
    if sign == 'Z' || sign == 'z' then some (['Z'], rest)
    else if sign == '+' || sign == '-' then do
      let (hour, cs) ← readField? 2 0 23 rest
      let (minute, rest) ← readField? 2 0 59 (← skip? ':' cs)
      let sign := if ofDigits (hour ++ minute) = 0 then '+' else sign
      return (sign :: hour ++ ':' :: minute, rest)
    else none
  | [] => none

/-- The time of a day behind its mark. -/
def readTimeOfDay? : List Char → Option (List Char × List Char)
  | mark :: rest =>
    if mark == 'T' || mark == 't' || mark == ' ' then do
      let (time, cs) ← readTime? rest
      let (offset, rest) := (readOffset? cs).getD ([], cs)
      return ('T' :: time ++ offset, rest)
    else none
  | [] => none

/-- A day with or without a time, or a time alone. -/
def readMoment? (cs : List Char) : Option (Setting × List Char) :=
  let moment := match readDate? cs with
    | some (date, rest) =>
      let (time, rest) := (readTimeOfDay? rest).getD ([], rest)
      some (date ++ time, rest)
    | none => readTime? cs
  moment.map fun p => (.text (String.ofList p.1), p.2)

/-! ## Any of them -/

def readNumber? (cs : List Char) : Option (Setting × List Char) :=
  readMoment? cs <|> readFloat? cs <|> readInteger? cs

def readScalar? : List Char → Option (Setting × List Char)
  | 't' :: 'r' :: 'u' :: 'e' :: rest => some (.bool true, rest)
  | 'f' :: 'a' :: 'l' :: 's' :: 'e' :: rest => some (.bool false, rest)
  | cs => readNumber? cs

example : (readScalar? "1_000".toList).bind (·.1.text?) = some "1000" := by decide +kernel
example : (readScalar? "0xdead_beef".toList).bind (·.1.text?) = some "3735928559" := by decide +kernel
example : (readScalar? "1_0.5e-1#".toList).map (·.2) = some ['#'] := by decide +kernel
example : (readScalar? "-inf".toList).bind (·.1.text?) = some "-inf" := by decide +kernel
example : (readScalar? "2024-02-29 07:32:00.10-00:00".toList).bind (·.1.text?) =
    some "2024-02-29T07:32:00.1+00:00" := by decide +kernel
example : (readScalar? "2024-02-29 # x".toList).bind (·.1.text?) = some "2024-02-29" := by
  decide +kernel
example : (readScalar? "07:32:00".toList).bind (·.1.text?) = some "07:32:00" := by decide +kernel

end Timetable.Toml
