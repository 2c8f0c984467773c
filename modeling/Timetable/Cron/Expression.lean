import Timetable.Cron.Field
import Timetable.Text.Digits

/-!
# Cron expressions

An expression has a field for each of second, minute, hour, day, month and weekday, and may have one
for the year, or is one of five words for a common pattern. A field is a list of items between
commas: `*`, a number, a range, a name, a range of names, and any but a lone name may have a step
behind a slash. Blanks may stand around numbers, names and fields, and need not stand between
fields.

`Cron.Pattern` is what an expression means: the values of each unit, ascending.
-/

namespace Timetable.Cron

open Text

/-! ## Meaning of items -/

/-- A set of values of one unit. -/
inductive Span where
  | all
  | one (n : Nat)
  | range (a b : Nat)
  | named (a b : List Char)
deriving DecidableEq

inductive Item where
  | span (s : Span)
  | name (word : List Char)
  | stepped (s : Span) (step : Nat)
deriving DecidableEq

/-- Every `step`-th value of a list, from its first on. -/
def everyNth (step : Nat) (ns : List Nat) : List Nat :=
  (ns.zipIdx.filter (·.2 % step == 0)).map (·.1)

namespace Field

def ofSpan? (f : Field) : Span → Option (List Nat)
  | .all => some f.all
  | .one n => (f.valid? n).map ([·])
  | .range a b => f.range? a b
  | .named a b => do f.range? (← f.ofName? a) (← f.ofName? b)

/-- The values of an item. A single number with a step stands for the range from it on. -/
def ofItem? (f : Field) : Item → Option (List Nat)
  | .span s => f.ofSpan? s
  | .name word => (f.ofName? word).map ([·])
  | .stepped _ 0 => none
  | .stepped (.one n) step => (f.range? n f.high).map (everyNth step)
  | .stepped s step => (f.ofSpan? s).map (everyNth step)

/-- The values of a list of items, ascending. -/
def ofItems? (f : Field) (items : List Item) : Option (List Nat) := do
  let sets ← items.mapM f.ofItem?
  some (f.all.filter fun n => sets.any (·.contains n))

end Field

/-! ## Reading items -/

def skipBlanks (cs : List Char) : List Char :=
  cs.dropWhile fun c => c == ' ' || c == '\t' || c == '\r' || c == '\n'

def number? (cs : List Char) : Option (Nat × List Char) := do
  let cs := skipBlanks cs
  let (n, rest) ← readNat cs.length cs
  if n < 4294967296 then some (n, skipBlanks rest) else none

def name? (cs : List Char) : Option (List Char × List Char) :=
  match (skipBlanks cs).span Char.isAlpha with
  | ([], _) => none
  | (word, rest) => some (word, skipBlanks rest)

def mark? (mark : Char) : List Char → Option (List Char)
  | c :: rest => if c = mark then some rest else none
  | [] => none

def range? (cs : List Char) : Option (Span × List Char) := do
  let (a, cs) ← number? cs
  let (b, cs) ← number? (← mark? '-' cs)
  some (.range a b, cs)

def one? (cs : List Char) : Option (Span × List Char) := do
  let (n, cs) ← number? cs
  some (.one n, cs)

def named? (cs : List Char) : Option (Span × List Char) := do
  let (a, cs) ← name? cs
  let (b, cs) ← name? (← mark? '-' cs)
  some (.named a b, cs)

def all? (mark : Char) (cs : List Char) : Option (Span × List Char) := do
  some (.all, ← mark? mark cs)

/-- The first kind of span that fits. -/
def span? (f : Field) (cs : List Char) : Option (Span × List Char) :=
  (if f.questionMark then all? '?' cs else none) <|> all? '*' cs <|> range? cs <|> one? cs <|> named? cs

def stepped? (f : Field) (cs : List Char) : Option (Item × List Char) := do
  let (s, cs) ← span? f cs
  let (step, cs) ← number? (← mark? '/' cs)
  some (.stepped s step, cs)

/-- The first kind of item that fits. -/
def item? (f : Field) (cs : List Char) : Option (Item × List Char) :=
  stepped? f cs <|>
    (do let (s, cs) ← span? f cs; some (.span s, cs)) <|>
    (do let (word, cs) ← name? cs; some (.name word, cs))

/-- The items behind commas; a comma without an item is left where it is. -/
def moreItems (f : Field) : Nat → List Char → List Item × List Char
  | 0, cs => ([], cs)
  | steps + 1, cs =>
    match (do item? f (← mark? ',' cs)) with
    | some (item, rest) =>
      let (items, rest) := moreItems f steps rest
      (item :: items, rest)
    | none => ([], cs)

/-- The values of the field at the front of a text, and what follows it. -/
def field? (f : Field) (cs : List Char) : Option (List Nat × List Char) := do
  let (item, cs) ← item? f (skipBlanks cs)
  let (items, cs) := moreItems f cs.length cs
  some (← f.ofItems? (item :: items), skipBlanks cs)

/-! ## Patterns -/

/-- The values that each unit of an occurrence may have, ascending. -/
structure Pattern where
  seconds : List Nat := Field.seconds.all
  minutes : List Nat := Field.minutes.all
  hours : List Nat := Field.hours.all
  days : List Nat := Field.days.all
  months : List Nat := Field.months.all
  weekdays : List Nat := Field.weekdays.all
  years : List Nat := Field.years.all
deriving DecidableEq

namespace Pattern

def hourly : Pattern := { seconds := [0], minutes := [0] }

def daily : Pattern := { hourly with hours := [0] }

def weekly : Pattern := { daily with weekdays := [1] }

def monthly : Pattern := { daily with days := [1] }

def yearly : Pattern := { monthly with months := [1] }

def words : List (String × Pattern) :=
  [("@yearly", yearly), ("@monthly", monthly), ("@weekly", weekly), ("@daily", daily),
    ("@hourly", hourly)]

/-- One of the five words, between blanks. -/
def ofWord? (cs : List Char) : Option Pattern :=
  (words.find? fun w => w.1.toList.isPrefixOf (skipBlanks cs) &&
    skipBlanks ((skipBlanks cs).drop w.1.length) == []).map (·.2)

def ofFields? (cs : List Char) : Option Pattern := do
  let (seconds, cs) ← field? .seconds cs
  let (minutes, cs) ← field? .minutes cs
  let (hours, cs) ← field? .hours cs
  let (days, cs) ← field? .days cs
  let (months, cs) ← field? .months cs
  let (weekdays, cs) ← field? .weekdays cs
  let (years, cs) := (field? .years cs).getD (Field.years.all, cs)
  if cs = [] then some { seconds, minutes, hours, days, months, weekdays, years } else none

def ofChars? (cs : List Char) : Option Pattern := ofWord? cs <|> ofFields? cs

end Pattern

example : Pattern.ofChars? "******".toList = some {} := by decide +kernel
example : (Pattern.ofChars? "0 0/20 9-17/4 ? jan,MARCH mon-fri".toList).map
    (fun p => (p.minutes, p.hours, p.months, p.weekdays)) =
    some ([0, 20, 40], [9, 13, 17], [1, 3], [2, 3, 4, 5, 6]) := by decide +kernel
example : Pattern.ofChars? "@hourly *".toList = none := by decide +kernel
example : Pattern.ofChars? "0 0 0 1, * *".toList = none := by decide +kernel

end Timetable.Cron
