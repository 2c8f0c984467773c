import Timetable.Decimal.Shortest
import Timetable.Text.Basic

/-!
# Decimals without exponent, and fractions with infinities

`Decimal.plainText` is a decimal with all digits in their places.

An `ExtendedFraction` is a 53-bit fraction with a sign, an infinity for what is too large, or no number at all.

* `ExtendedFraction.ofDecimal` is nearest to a decimal, a half going to the even neighbour;
* `ExtendedFraction.ofText?` reads a numeral or one of the words for the others;
* `ExtendedFraction.word` is the unsigned 64-bit word nearest to it.
-/

namespace Timetable

namespace Decimal

/-- All digits in their places, without a point behind a whole number. -/
def plainText (d : Decimal) : String :=
  let ds := Text.digits d.digits
  let places := (-d.exponent).toNat
  let ds := List.replicate (places + 1 - ds.length) '0' ++ ds ++ List.replicate d.exponent.toNat '0'
  let whole := ds.take (ds.length - places)
  let fraction := ds.drop (ds.length - places)
  String.ofList ((if d.negative then ['-'] else []) ++ whole ++
    (if fraction = [] then [] else '.' :: fraction))

example : plainText ⟨true, 15, -1⟩ = "-1.5" := by decide +kernel
example : plainText ⟨false, 1, 5⟩ = "100000" := by decide +kernel
example : plainText ⟨true, 5, -2⟩ = "-0.05" := by decide +kernel
example : plainText ⟨true, 0, 0⟩ = "-0" := by decide +kernel

end Decimal

inductive ExtendedFraction where
  | finite (negative : Bool) (f : BinaryFraction)
  | infinite (negative : Bool)
  | notANumber
deriving DecidableEq

namespace ExtendedFraction

/-- The fraction nearest to `digits · 10 ^ power`. Beyond 400 places there is nothing but zero and
infinity. -/
def ofDecimal (negative : Bool) (digits : Nat) (power : Int) : ExtendedFraction :=
  let place : Int := (Text.digits digits).length + power
  if digits = 0 ∨ place < -400 then .finite negative .zero
  else if 400 < place then .infinite negative
  else
    match BinaryFraction.nearest? (digits * Nat.pow 10 power.toNat) (Nat.pow 10 (-power).toNat) with
    | some f => .finite negative f
    | none => .infinite negative

def negate : ExtendedFraction → ExtendedFraction
  | finite negative f => .finite (!negative) f
  | infinite negative => .infinite (!negative)
  | notANumber => .notANumber

/-! ## Reading -/

/-- A sign that may be missing; whether it is a minus. -/
def readSign : List Char → Bool × List Char
  | '-' :: rest => (true, rest)
  | '+' :: rest => (false, rest)
  | cs => (false, cs)

/-- The power of ten behind a mark, or nothing. -/
def readPower? : List Char → Option Int
  | [] => some 0
  | mark :: rest =>
    let (negative, ds) := readSign rest
    if (mark == 'e' || mark == 'E') && ds ≠ [] && ds.all Char.isDigit then
      some (if negative then -(Text.ofDigits ds : Int) else Text.ofDigits ds)
    else none

/-- Digits before and behind a point, at least one, and a power of ten. -/
def readNumeral? (negative : Bool) (cs : List Char) : Option ExtendedFraction := do
  let whole := cs.takeWhile Char.isDigit
  let (fraction, rest) := match cs.drop whole.length with
    | '.' :: rest => (rest.takeWhile Char.isDigit, rest.dropWhile Char.isDigit)
    | rest => ([], rest)
  if whole ++ fraction = [] then none
  let power ← readPower? rest
  some (ofDecimal negative (Text.ofDigits (whole ++ fraction)) (power - fraction.length))

def ofText? (cs : List Char) : Option ExtendedFraction :=
  let (negative, cs) := readSign cs
  let word := cs.map Char.toLower
  if word = "inf".toList ∨ word = "infinity".toList then some (.infinite negative)
  else if word = "nan".toList then some .notANumber
  else readNumeral? negative cs

/-! ## Writing -/

def text : ExtendedFraction → String
  | finite negative f => (Decimal.ofBinary negative f).plainText
  | infinite negative => if negative then "-inf" else "inf"
  | notANumber => "NaN"

def greatestWord : Nat := 18446744073709551615

/-- The nearest word, a half going up; what is no number counts as zero. -/
def word : ExtendedFraction → Nat
  | finite false f =>
    let (num, den) := f.quotient
    min ((2 * num + den) / (2 * den)) greatestWord
  | infinite false => greatestWord
  | _ => 0

example : (ofText? "-.5e1".toList).map text = some "-5" := by decide +kernel
example : (ofText? "216.98694123313734".toList).map text = some "216.98694123313734" := by
  decide +kernel
example : (ofText? "1e400".toList).map text = some "inf" := by decide +kernel
example : (ofText? "+Infinity".toList).map text = some "inf" := by decide +kernel
example : (ofText? "-nan".toList).map text = some "NaN" := by decide +kernel
example : (ofText? "1.".toList).map text = some "1" := by decide +kernel
example : (ofText? ".".toList) = none := by decide +kernel
example : (ofText? "2.5".toList).map word = some 3 := by decide +kernel

end ExtendedFraction

end Timetable
