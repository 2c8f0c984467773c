import Timetable.Json.Value

/-!
# Numerals

A numeral without fraction and exponent that fits 64 bits, signed or unsigned, is an integer. Every
other one, and `-0`, is a number with a fraction. Of its digits those count that fit 64 bits; the
whole digits after them only move the point.

Who keeps the digits of a number, but not how they were written, writes it with all of them in their places
(`Numeral.inPlace`).
-/

namespace Timetable.Json

open Text

def wordLimit : Nat := 18446744073709551616

/-- Appends digits to a number while it fits 64 bits; also the count of those in excess. -/
def appendDigits (n : Nat) : List Char → Nat × Nat
  | [] => (n, 0)
  | d :: ds =>
    let next := n * 10 + (d.toNat - 48)
    if next < wordLimit then appendDigits next ds else (n, ds.length + 1)

/-- The parts of a numeral: sign, whole digits, digits behind the point and power of ten. -/
structure Numeral where
  negative : Bool
  whole : List Char
  fraction : Option (List Char)
  power : Option Int
deriving DecidableEq

namespace Numeral

/-- The value of a numeral; none if it is too large for any number. -/
def value? (n : Numeral) : Option Json :=
  let (head, excess) := appendDigits 0 n.whole
  match n.fraction, n.power with
  | none, none =>
    if excess = 0 ∧ ¬ n.negative then some (.int head)
    else if excess = 0 ∧ 0 < head ∧ head ≤ 9223372036854775808 then some (.int (-head))
    else (Decimal.ofNumeral? n.negative head excess).map .real
  | fraction, power =>
    let ds := fraction.getD []
    let (digits, unused) := appendDigits head ds
    let scale : Int := excess - (ds.length - unused : Nat) + power.getD 0
    (Decimal.ofNumeral? n.negative digits scale).map .real

/-! ## Writing -/

def fractionChars (n : Numeral) : List Char := n.fraction.elim [] ('.' :: ·)

def powerChars (n : Numeral) : List Char := n.power.elim [] fun p => 'e' :: signed p

/-- A numeral as it is written, part by part. -/
def chars (n : Numeral) : List Char :=
  (if n.negative then ['-'] else []) ++ (n.whole ++ (n.fractionChars ++ n.powerChars))

/-- All digits of a decimal in their places. There are as many behind the point as the printed decimal has, less its
power of ten, and zero has no sign. -/
def inPlace (d : Decimal) : Numeral :=
  let ds := digits d.digits
  let place : Int := ds.length + d.exponent
  if d.digits = 0 then ⟨false, ['0'], some ['0'], none⟩
  else if 0 ≤ d.exponent then
    ⟨d.negative, ds ++ List.replicate d.exponent.toNat '0', if place ≤ 16 then some ['0'] else none, none⟩
  else if 0 < place then ⟨d.negative, ds.take place.toNat, some (ds.drop place.toNat), none⟩
  else ⟨d.negative, ['0'], some (List.replicate (-place).toNat '0' ++ ds), none⟩

example : (inPlace ⟨false, 1, 17⟩).chars = "100000000000000000".toList := by decide +kernel
example : (inPlace ⟨true, 15, -8⟩).chars = "-0.00000015".toList := by decide +kernel
example : (inPlace ⟨false, 12, 1⟩).chars = "120.0".toList := by decide +kernel
example : (inPlace ⟨true, 0, 0⟩).chars = "0.0".toList := by decide +kernel

end Numeral

/-! ## Reading -/

/-- The digits at the front and what follows them; none if there are none. -/
def readDigits? (cs : List Char) : Option (List Char × List Char) :=
  match spanDigits cs.length cs with
  | ([], _) => none
  | (ds, rest) => some (ds, rest)

def readSign (cs : List Char) : Bool × List Char :=
  match cs with
  | '-' :: rest => (true, rest)
  | _ => (false, cs)

/-- One zero, or digits that do not start with a zero. -/
def readWhole? (cs : List Char) : Option (List Char × List Char) :=
  match cs with
  | '0' :: d :: rest => if d.isDigit then none else some (['0'], d :: rest)
  | _ => readDigits? cs

def readFraction? (cs : List Char) : Option (Option (List Char) × List Char) :=
  match cs with
  | '.' :: rest => (readDigits? rest).map fun (ds, rest) => (some ds, rest)
  | _ => some (none, cs)

/-- A power of ten behind its mark. -/
def readExponent? (cs : List Char) : Option (Option Int × List Char) :=
  match cs with
  | '-' :: rest => (readDigits? rest).map fun (ds, rest) => (some (-(ofDigits ds : Int)), rest)
  | '+' :: rest => (readDigits? rest).map fun (ds, rest) => (some (ofDigits ds : Int), rest)
  | _ => (readDigits? cs).map fun (ds, rest) => (some (ofDigits ds : Int), rest)

def readPower? (cs : List Char) : Option (Option Int × List Char) :=
  match cs with
  | 'e' :: rest => readExponent? rest
  | 'E' :: rest => readExponent? rest
  | _ => some (none, cs)

/-- The numeral at the front of a text and what follows it. -/
def readNumeral? (cs : List Char) : Option (Numeral × List Char) := do
  let (negative, cs) := readSign cs
  let (whole, cs) ← readWhole? cs
  let (fraction, cs) ← readFraction? cs
  let (power, cs) ← readPower? cs
  some (⟨negative, whole, fraction, power⟩, cs)

/-- The number at the front of a text and what follows it. One that is too large stays unread. -/
def readNumber? (cs : List Char) : Option (Json × List Char) := do
  let (numeral, rest) ← readNumeral? cs
  some (numeral.value?.getD .unread, rest)

example : readNumber? "-12,".toList = some (.int (-12), [',']) := by decide +kernel
example : readNumber? "05".toList = none := by decide +kernel
example : readNumber? "5.".toList = none := by decide +kernel
example : readNumber? "18446744073709551615".toList = some (.int 18446744073709551615, []) := by decide +kernel
example : readNumber? "1.50".toList = some (.real ⟨false, 15, -1⟩, []) := by decide +kernel
example : readNumber? "-0".toList = some (.real ⟨true, 0, 0⟩, []) := by decide +kernel

end Timetable.Json
