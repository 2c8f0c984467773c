/-!
# Punycode

How a label of a domain name is written with letters, digits and hyphens alone. Its plain characters
come first, up to the last hyphen. What follows are numbers, each of which says where the next
character goes and which one it is, in digits of which the weight adapts to the numbers before.
-/

namespace Timetable.Web.Punycode

def digitValue? (c : Char) : Option Nat :=
  if c.isDigit then some (c.toNat - 22)
  else if c.isAlpha then some (c.toLower.toNat - 97)
  else none

/-- Below this value a digit ends its number. -/
def threshold (place bias : Nat) : Nat := min 26 (max 1 (place - bias))

def settle (delta place : Nat) : Nat :=
  if 455 < delta then settle (delta / 35) (place + 36) else place + 36 * delta / (delta + 38)

/-- The bias after a number, with the count of characters there are then. -/
def adapt (delta count : Nat) (isFirst : Bool) : Nat :=
  let delta := if isFirst then delta / 700 else delta / 2
  settle (delta + delta / count) 0

structure Decoding where
  label : List Char
  code : Nat := 128
  /-- Where the last character went. -/
  start : Nat := 0
  bias : Nat := 72
  /-- What the digits of the open number come to, counted from `start`. -/
  sum : Nat := 0
  weight : Nat := 1
  place : Nat := 36

namespace Decoding

/-- Puts in the character that a number stands for. -/
def insert? (d : Decoding) (sum : Nat) : Option Decoding :=
  let count := d.label.length + 1
  let code := d.code + sum / count
  let start := sum % count
  if code.isValidChar then
    some
      { label := d.label.take start ++ Char.ofNat code :: d.label.drop start
        code
        start := start + 1
        bias := adapt (sum - d.start) count (d.start = 0)
        sum := start + 1 }
  else none

def next? (d : Decoding) (c : Char) : Option Decoding := do
  let digit ← digitValue? c
  let sum := d.sum + digit * d.weight
  let limit := threshold d.place d.bias
  if digit < limit then d.insert? sum
  else some { d with sum, weight := d.weight * (36 - limit), place := d.place + 36 }

end Decoding

/-- The plain characters of a label and the digits behind them. A hyphen behind no character is no
mark between the two. -/
def split (cs : List Char) : List Char × List Char :=
  let digits := (cs.reverse.takeWhile (· != '-')).reverse
  let plain := (cs.take (cs.length - digits.length)).dropLast
  (plain, if plain = [] then cs else digits)

def decode? (cs : List Char) : Option (List Char) := do
  let (plain, digits) := split cs
  let d ← digits.foldlM Decoding.next? { label := plain }
  if d.place = 36 then some d.label else none

example : (decode? "mnchen-3ya".toList) = some "münchen".toList := by decide +kernel
example : (decode? "fsqu00a".toList) = some "例子".toList := by decide +kernel
example : decode? "a".toList = some "\u0080".toList := by decide +kernel
example : decode? "zz".toList = none := by decide +kernel

end Timetable.Web.Punycode
