/-!
# Nearest binary fractions

Numbers with a fraction are held with 53 binary digits: a fraction is `mantissa · 2 ^ exponent` with a
mantissa below 2⁵³ and an exponent from -1074 to 971.

* `BinaryFraction.nearest?` rounds a quotient, a half to the even neighbour, and refuses what is
  too large;
* `BinaryFraction.scaled?` is the value of a decimal numeral: the digits and the power of ten are
  rounded first, then their product or quotient.
-/

namespace Timetable

structure BinaryFraction where
  mantissa : Nat
  exponent : Int
deriving DecidableEq, Inhabited

/-- A quotient rounded to the nearest whole number, a half to the even neighbour. -/
def roundDiv (num den : Nat) : Nat :=
  let q := num / den
  let r := 2 * (num % den)
  if r < den ∨ (r = den ∧ q % 2 = 0) then q else q + 1

namespace BinaryFraction

def zero : BinaryFraction := ⟨0, -1074⟩

/-- Multiplies a quotient by a power of two. -/
def shiftQuotient (num den : Nat) (shift : Int) : Nat × Nat :=
  if 0 ≤ shift then (num * Nat.pow 2 shift.toNat, den) else (num, den * Nat.pow 2 (-shift).toNat)

/-- The exponent at which a quotient has 53 binary digits, or the least one. -/
def exponentOf (num den : Nat) : Int :=
  let guess : Int := (num.log2 : Int) - den.log2 - 52
  let (n, d) := shiftQuotient num den (-guess)
  max (-1074) (if n < d * 0x10000000000000 then guess - 1 else guess)

/-- The nearest fraction to a quotient; none if that needs a larger exponent. -/
def nearest? (num den : Nat) : Option BinaryFraction :=
  if num = 0 then some zero
  else
    let e := exponentOf num den
    let (n, d) := shiftQuotient num den (-e)
    let m := roundDiv n d
    let (m, e) := if m = 0x20000000000000 then (0x10000000000000, e + 1) else (m, e)
    if e ≤ 971 then some ⟨m, e⟩ else none

/-- Numerator and denominator. -/
def quotient (f : BinaryFraction) : Nat × Nat := shiftQuotient f.mantissa 1 f.exponent

def ofNat? (n : Nat) : Option BinaryFraction := nearest? n 1

def mul? (a b : BinaryFraction) : Option BinaryFraction :=
  nearest? (a.quotient.1 * b.quotient.1) (a.quotient.2 * b.quotient.2)

def div? (a b : BinaryFraction) : Option BinaryFraction :=
  nearest? (a.quotient.1 * b.quotient.2) (a.quotient.2 * b.quotient.1)

/-- Divides by 10³⁰⁸ until the power that is left has a fraction of its own; three times leave
nothing of any 64-bit number. -/
def scaleDown : Nat → BinaryFraction → Nat → Option BinaryFraction
  | 0, _, _ => some zero
  | rounds + 1, f, power => do
    if power ≤ 308 then f.div? (← ofNat? (Nat.pow 10 power))
    else scaleDown rounds (← f.div? (← ofNat? (Nat.pow 10 308))) (power - 308)

/-- The value of `digits · 10 ^ power`. -/
def scaled? (digits : Nat) (power : Int) : Option BinaryFraction := do
  let f ← ofNat? digits
  if digits = 0 then some zero
  else if power < 0 then scaleDown 3 f power.natAbs
  else if power ≤ 308 then f.mul? (← ofNat? (Nat.pow 10 power.toNat))
  else none

example : nearest? 1 10 = some ⟨7205759403792794, -56⟩ := by decide
example : nearest? 3 2 = some ⟨6755399441055744, -52⟩ := by decide
example : nearest? (Nat.pow 2 1024) 1 = none := by decide +kernel

end BinaryFraction

end Timetable
