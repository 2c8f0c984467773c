import Timetable.Decimal.Nearest
import Timetable.Text.Digits

/-!
# Shortest decimals

A number with a fraction is written with the fewest decimal digits that tell it from every other
53-bit fraction, and of those with the digits nearest to it.

* `Decimal.ofBinary` finds these digits by testing the two neighbours on ever finer decimal grids;
* `Decimal.chars` writes them: positional from 10⁻⁵ to 10¹⁶, with an exponent outside, and
  always with a point or an exponent.
-/

namespace Timetable

/-- `digits · 10 ^ exponent`, with a sign that zero has too. -/
structure Decimal where
  negative : Bool
  digits : Nat
  exponent : Int
deriving DecidableEq, Inhabited, Repr

namespace Decimal

/-- The power of ten just above a quotient. -/
def magnitude (num den : Nat) : Int :=
  let guess : Int := ((Text.digits num).length : Int) - (Text.digits den).length
  if num * Nat.pow 10 (-guess).toNat < den * Nat.pow 10 guess.toNat then guess else guess + 1

/-- Whether `4 · num / den` lies in the interval of a fraction, in quarters of its last place. -/
def reads (f : BinaryFraction) (num den : Nat) : Bool :=
  let low := if f.mantissa = 0x10000000000000 ∧ -1074 < f.exponent then 4 * f.mantissa - 1 else 4 * f.mantissa - 2
  let high := 4 * f.mantissa + 2
  let (n, d) := BinaryFraction.shiftQuotient (4 * num) den (-f.exponent)
  if f.mantissa % 2 = 0 then low * d ≤ n && n ≤ high * d else low * d < n && n < high * d

/-- The grid point with `count` digits nearest to a fraction, of those that read back. -/
def gridPoint? (f : BinaryFraction) (mag : Int) (count : Nat) : Option (Nat × Int) :=
  let (num, den) := f.quotient
  let e := mag - count
  let (n, d) := (num * Nat.pow 10 (-e).toNat, den * Nat.pow 10 e.toNat)
  let point (k : Nat) := reads f (k * Nat.pow 10 e.toNat) (Nat.pow 10 (-e).toNat)
  let down := n / d
  let nearer := roundDiv n d
  let farther := if nearer = down then down + 1 else down
  if point nearer then some (nearer, e) else if point farther then some (farther, e) else none

/-- Without zeros at the end. -/
def strip : Nat → Nat → Int → Nat × Int
  | 0, n, e => (n, e)
  | fuel + 1, n, e => if n % 10 = 0 then strip fuel (n / 10) (e + 1) else (n, e)

def ofBinary (negative : Bool) (f : BinaryFraction) : Decimal :=
  if f.mantissa = 0 then ⟨negative, 0, 0⟩
  else
    let mag := magnitude f.quotient.1 f.quotient.2
    match (List.range' 1 17).findSome? (gridPoint? f mag) with
    | some (n, e) => let (n, e) := strip 17 n e; ⟨negative, n, e⟩
    | none => ⟨negative, 0, 0⟩

/-- The number that a decimal numeral stands for; none if it is too large. -/
def ofNumeral? (negative : Bool) (digits : Nat) (power : Int) : Option Decimal :=
  (BinaryFraction.scaled? digits power).map (ofBinary negative)

/-- A count of thousandths as a number with a fraction: the count and the quotient are rounded. -/
def thousandths (n : Int) : Decimal :=
  let f := do (← BinaryFraction.ofNat? n.natAbs).div? (← BinaryFraction.ofNat? 1000)
  ofBinary (n < 0) (f.getD .zero)

/-- A whole number held with a fraction. -/
def ofInt (n : Int) : Decimal := ofBinary (n < 0) ((BinaryFraction.ofNat? n.natAbs).getD .zero)

/-! ## Writing -/

/-- The text of a decimal without its sign. -/
def magnitudeChars (d : Decimal) : List Char :=
  let ds := Text.digits d.digits
  let place : Int := ds.length + d.exponent
  if d.digits = 0 then "0.0".toList
  else if 0 ≤ d.exponent ∧ place ≤ 16 then
    ds ++ List.replicate d.exponent.toNat '0' ++ ".0".toList
  else if 0 < place ∧ place ≤ 16 then
    ds.take place.toNat ++ '.' :: ds.drop place.toNat
  else if -5 < place ∧ place ≤ 0 then
    "0.".toList ++ List.replicate (-place).toNat '0' ++ ds
  else
    ds.take 1 ++ (if ds.length = 1 then [] else '.' :: ds.drop 1) ++ 'e' :: Text.signed (place - 1)

def chars (d : Decimal) : List Char :=
  if d.negative then '-' :: d.magnitudeChars else d.magnitudeChars

def text (d : Decimal) : String := String.ofList d.chars

example : (thousandths 1233).chars = "1.233".toList := by decide +kernel
example : (thousandths (-251697628799998)).chars = "-251697628799.998".toList := by decide +kernel
example : (ofNumeral? false 15 (-1)).map chars = some "1.5".toList := by decide +kernel
example : (ofNumeral? true 0 3).map chars = some "-0.0".toList := by decide +kernel
example : (ofNumeral? false 1 3).map chars = some "1000.0".toList := by decide +kernel
example : (ofNumeral? false 5 (-324)).map chars = some "5e-324".toList := by decide +kernel
example : (ofNumeral? false 3 (-1)).map chars = some "0.3".toList := by decide +kernel
example : (ofNumeral? false 17976931348623157 292).map chars = some "1.7976931348623157e308".toList := by
  decide +kernel

end Decimal

end Timetable
