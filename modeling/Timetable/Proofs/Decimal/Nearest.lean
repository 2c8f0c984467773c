import Mathlib.Algebra.Order.Field.Basic
import Mathlib.Algebra.Order.Field.Power
import Mathlib.Data.Rat.Cast.Order
import Mathlib.Tactic.FieldSimp
import Mathlib.Tactic.GCongr
import Mathlib.Tactic.Linarith
import Mathlib.Tactic.Positivity
import Mathlib.Tactic.Ring
import Timetable.Decimal.Nearest

/-!
# How far a nearest fraction lies

`BinaryFraction.nearest?` gives a fraction within its bounds (`inRange_of_nearest?`), half a unit of the last place
away at most (`value_of_nearest?`), and gives one for everything below the first number that would be rounded to
2 ^ 1024 (`nearest?_isSome`).
-/

namespace Timetable

theorem roundDiv_le (num : Nat) {den : Nat} (h : 0 < den) :
    2 * (den * roundDiv num den) ≤ 2 * num + den := by
  have parts := Nat.div_add_mod num den
  unfold roundDiv
  dsimp only
  split
  · omega
  · next up =>
    have half : den ≤ 2 * (num % den) := by omega
    rw [Nat.mul_add]
    omega

theorem le_roundDiv (num : Nat) {den : Nat} (h : 0 < den) :
    2 * num ≤ 2 * (den * roundDiv num den) + den := by
  have parts := Nat.div_add_mod num den
  have rest := Nat.mod_lt num h
  unfold roundDiv
  dsimp only
  split
  · omega
  · rw [Nat.mul_add]
    omega

/-- What is below a whole number is not rounded beyond it. -/
theorem roundDiv_le_of_lt {num den n : Nat} (h : num < n * den) : roundDiv num den ≤ n := by
  have below : num / den < n := Nat.div_lt_of_lt_mul (Nat.mul_comm n den ▸ h)
  unfold roundDiv
  dsimp only
  split <;> omega

namespace BinaryFraction

/-- The number that a fraction stands for. -/
def value (f : BinaryFraction) : ℚ := f.mantissa * 2 ^ f.exponent

/-- The bounds of mantissas and exponents. -/
structure InRange (f : BinaryFraction) : Prop where
  mantissa : f.mantissa < 0x20000000000000
  low : -1074 ≤ f.exponent
  high : f.exponent ≤ 971

theorem inRange_zero : zero.InRange := ⟨by decide, by decide, by decide⟩

/-! ## Shifts -/

theorem shiftQuotient_pos (num : Nat) {den : Nat} (h : 0 < den) (shift : Int) :
    0 < (shiftQuotient num den shift).2 := by
  unfold shiftQuotient
  split
  · exact h
  · exact Nat.mul_pos h (Nat.pow_pos (by decide))

theorem value_shiftQuotient (num den : Nat) (shift : Int) :
    ((shiftQuotient num den shift).1 : ℚ) / (shiftQuotient num den shift).2 =
      num / den * 2 ^ shift := by
  unfold shiftQuotient
  split
  · next h =>
    obtain ⟨n, rfl⟩ := Int.eq_ofNat_of_zero_le h
    simp only [Int.toNat_natCast, Nat.pow_eq, Nat.cast_mul, Nat.cast_pow, Nat.cast_ofNat,
      zpow_natCast]
    ring
  · next h =>
    obtain ⟨n, hn⟩ := Int.eq_ofNat_of_zero_le (by omega : 0 ≤ -shift)
    obtain rfl : shift = -(n : Int) := by omega
    simp only [neg_neg, Int.toNat_natCast, Nat.pow_eq, Nat.cast_mul, Nat.cast_pow, Nat.cast_ofNat,
      zpow_neg, zpow_natCast]
    ring

theorem value_quotient (f : BinaryFraction) :
    (f.quotient.1 : ℚ) / f.quotient.2 = f.value := by
  rw [quotient, value_shiftQuotient, value]
  simp

theorem quotient_pos (f : BinaryFraction) : 0 < f.quotient.2 := shiftQuotient_pos _ (by decide) _

/-! ## Exponents -/

section

variable {num den : Nat}

theorem zpow_log2_le (h : 0 < num) : (2 : ℚ) ^ (num.log2 : ℤ) ≤ num := by
  have := Nat.log2_self_le (Nat.pos_iff_ne_zero.mp h)
  rw [zpow_natCast]
  exact_mod_cast this

theorem lt_zpow_log2 (num : Nat) : (num : ℚ) < 2 ^ ((num.log2 : ℤ) + 1) := by
  have := Nat.lt_log2_self (n := num)
  rw [← Nat.cast_succ, zpow_natCast]
  exact_mod_cast this

/-- The quotient has 53 digits at its exponent, or fewer at the least one. -/
theorem exponentOf_spec (hn : 0 < num) (hd : 0 < den) :
    (num : ℚ) / den < 2 ^ (exponentOf num den + 53) ∧
      (exponentOf num den = -1074 ∨ (2 : ℚ) ^ (exponentOf num den + 52) ≤ num / den) := by
  have hdq : (0 : ℚ) < den := by exact_mod_cast hd
  have high : (num : ℚ) / den < 2 ^ ((num.log2 : ℤ) - den.log2 + 1) := by
    rw [div_lt_iff₀ hdq]
    calc (num : ℚ) < 2 ^ ((num.log2 : ℤ) + 1) := lt_zpow_log2 num
      _ = 2 ^ ((num.log2 : ℤ) - den.log2 + 1) * 2 ^ (den.log2 : ℤ) := by
        rw [← zpow_add₀ two_ne_zero]
        congr 1
        ring
      _ ≤ 2 ^ ((num.log2 : ℤ) - den.log2 + 1) * den := by
        gcongr
        exact zpow_log2_le hd
  have low : (2 : ℚ) ^ ((num.log2 : ℤ) - den.log2 - 1) ≤ num / den := by
    rw [le_div_iff₀ hdq]
    calc (2 : ℚ) ^ ((num.log2 : ℤ) - den.log2 - 1) * den
        ≤ 2 ^ ((num.log2 : ℤ) - den.log2 - 1) * 2 ^ ((den.log2 : ℤ) + 1) := by
          gcongr
          exact (lt_zpow_log2 den).le
      _ = 2 ^ (num.log2 : ℤ) := by
        rw [← zpow_add₀ two_ne_zero]
        congr 1
        ring
      _ ≤ num := zpow_log2_le hn
  unfold exponentOf
  dsimp only
  generalize hguess : (num.log2 : ℤ) - den.log2 - 52 = guess
  have hg : (num.log2 : ℤ) - den.log2 = guess + 52 := by omega
  rw [hg] at high low
  have shifted := value_shiftQuotient num den (-guess)
  have pos : (0 : ℚ) < (shiftQuotient num den (-guess)).2 := by
    exact_mod_cast shiftQuotient_pos num hd (-guess)
  -- the comparison tells on which side of a power of two the quotient lies
  have side : (shiftQuotient num den (-guess)).1 < (shiftQuotient num den (-guess)).2 * 0x10000000000000 ↔
      (num : ℚ) / den < 2 ^ (guess + 52) := by
    rw [← Nat.cast_lt (α := ℚ), Nat.cast_mul, ← div_lt_iff₀' pos, shifted, zpow_neg,
      zpow_add₀ two_ne_zero, ← div_eq_mul_inv, div_lt_iff₀' (by positivity)]
    norm_num
  have base {e : ℤ} (he : (2 : ℚ) ^ (e + 52) ≤ num / den) (he' : (num : ℚ) / den < 2 ^ (e + 53)) :
      (num : ℚ) / den < 2 ^ (max (-1074) e + 53) ∧
        (max (-1074) e = -1074 ∨ (2 : ℚ) ^ (max (-1074) e + 52) ≤ num / den) := by
    refine ⟨lt_of_lt_of_le he' (zpow_le_zpow_right₀ one_le_two (by omega)), ?_⟩
    rcases Int.le_total e (-1074) with h | h
    · exact .inl (Int.max_eq_left h)
    · rw [Int.max_eq_right h]
      exact .inr he
  split
  · next h =>
    refine base ?_ ?_
    · rwa [show guess - 1 + 52 = guess + 52 - 1 by ring]
    · rw [show guess - 1 + 53 = guess + 52 by ring]
      exact side.mp h
  · next h => exact base (le_of_not_gt (mt side.mpr h)) (by rwa [show guess + 53 = guess + 52 + 1 by ring])

theorem le_exponentOf (num den : Nat) : -1074 ≤ exponentOf num den := Int.le_max_left _ _

/-! ## Rounding -/

/-- The mantissa before a carry: 53 digits or one unit more, half a unit away at most. -/
theorem roundDiv_spec (hn : 0 < num) (hd : 0 < den) {n d : Nat}
    (h : shiftQuotient num den (-exponentOf num den) = (n, d)) :
    roundDiv n d ≤ 0x20000000000000 ∧
      (roundDiv n d : ℚ) * 2 ^ exponentOf num den ≤ num / den + 2 ^ (exponentOf num den - 1) ∧
      (num : ℚ) / den ≤ roundDiv n d * 2 ^ exponentOf num den + 2 ^ (exponentOf num den - 1) := by
  have hd' : 0 < d := by simpa [h] using shiftQuotient_pos num hd (-exponentOf num den)
  have pos : (0 : ℚ) < d := by exact_mod_cast hd'
  have unit : (0 : ℚ) < 2 ^ exponentOf num den := by positivity
  have shifted : (n : ℚ) / d = num / den * 2 ^ (-exponentOf num den) := by
    simpa [h] using value_shiftQuotient num den (-exponentOf num den)
  have quotient : (num : ℚ) / den = n / d * 2 ^ exponentOf num den := by
    rw [shifted, mul_assoc, ← zpow_add₀ two_ne_zero]
    simp
  have half : (2 : ℚ) ^ (exponentOf num den - 1) = 1 / 2 * 2 ^ exponentOf num den := by
    rw [zpow_sub_one₀ two_ne_zero]
    ring
  have above : (roundDiv n d : ℚ) ≤ n / d + 1 / 2 := by
    have := roundDiv_le n hd'
    rw [← Nat.cast_le (α := ℚ)] at this
    push_cast at this
    rw [← sub_le_iff_le_add, le_div_iff₀ pos]
    linarith
  have below : (n : ℚ) / d ≤ roundDiv n d + 1 / 2 := by
    have := le_roundDiv n hd'
    rw [← Nat.cast_le (α := ℚ)] at this
    push_cast at this
    rw [div_le_iff₀ pos]
    linarith
  refine ⟨?_, ?_, ?_⟩
  · have small := (exponentOf_spec hn hd).1
    rw [quotient, zpow_add₀ two_ne_zero, mul_comm, mul_lt_mul_iff_right₀ unit, div_lt_iff₀ pos] at small
    norm_num at small
    exact roundDiv_le_of_lt (by exact_mod_cast small)
  · rw [quotient, half, ← add_mul]
    exact mul_le_mul_of_nonneg_right above unit.le
  · rw [quotient, half, ← add_mul]
    exact mul_le_mul_of_nonneg_right below unit.le

/-- A mantissa of one unit more carries into the exponent, which is bounded. -/
theorem nearest?_eq (hn : num ≠ 0) {n d : Nat}
    (h : shiftQuotient num den (-exponentOf num den) = (n, d)) :
    ∃ m e, (if roundDiv n d = 0x20000000000000 then
        ((0x10000000000000, exponentOf num den + 1) : Nat × Int)
      else (roundDiv n d, exponentOf num den)) = (m, e) ∧
      nearest? num den = if e ≤ 971 then some ⟨m, e⟩ else none := by
  unfold nearest?
  rw [if_neg hn]
  extract_lets e
  rw [show shiftQuotient num den (-e) = (n, d) from h]
  dsimp -zeta only
  extract_lets m
  -- the choice between two pairs is kept closed, since its condition is costly to look into
  generalize (if m = 0x20000000000000 then ((0x10000000000000, e + 1) : Nat × Int) else (m, e)) = p
  obtain ⟨m', e'⟩ := p
  exact ⟨m', e', rfl, rfl⟩

/-- The nearest fraction lies within its bounds, half a unit of the last place away at most. -/
theorem nearest?_spec {f : BinaryFraction} (hn : 0 < num) (hd : 0 < den)
    (h : nearest? num den = some f) :
    f.InRange ∧ f.value ≤ num / den + 2 ^ (exponentOf num den - 1) ∧
      num / den ≤ f.value + 2 ^ (exponentOf num den - 1) := by
  rcases hq : shiftQuotient num den (-exponentOf num den) with ⟨n, d⟩
  obtain ⟨most, high, low⟩ := roundDiv_spec hn hd hq
  have least := le_exponentOf num den
  obtain ⟨m, e, made, result⟩ := nearest?_eq (Nat.pos_iff_ne_zero.mp hn) hq
  rw [result, Option.ite_none_right_eq_some, Option.some.injEq] at h
  obtain ⟨bound, rfl⟩ := h
  have same : value ⟨m, e⟩ = (roundDiv n d : ℚ) * 2 ^ exponentOf num den ∧
      m < 0x20000000000000 ∧ exponentOf num den ≤ e := by
    by_cases carry : roundDiv n d = 0x20000000000000
    · rw [if_pos carry, Prod.mk.injEq] at made
      obtain ⟨rfl, rfl⟩ := made
      refine ⟨?_, by norm_num, Int.le_add_one (Int.le_refl _)⟩
      rw [value, carry, zpow_add_one₀ two_ne_zero]
      push_cast
      ring
    · rw [if_neg carry, Prod.mk.injEq] at made
      obtain ⟨rfl, rfl⟩ := made
      exact ⟨rfl, Nat.lt_of_le_of_ne most carry, Int.le_refl _⟩
  rw [same.1]
  exact ⟨⟨same.2.1, Int.le_trans least same.2.2, bound⟩, high, low⟩

/-- The value below which a quotient is not rounded to 2 ^ 1024. -/
def limit : ℚ := (2 ^ 53 - 1 / 2) * 2 ^ (971 : ℤ)

/-- Only what would be rounded to 2 ^ 1024 is too large. -/
theorem nearest?_isSome (hd : 0 < den) (h : (num : ℚ) / den < limit) :
    ∃ f, nearest? num den = some f := by
  rcases Nat.eq_zero_or_pos num with rfl | hn
  · exact ⟨zero, rfl⟩
  rcases hq : shiftQuotient num den (-exponentOf num den) with ⟨n, d⟩
  obtain ⟨m, e, made, result⟩ := nearest?_eq (Nat.pos_iff_ne_zero.mp hn) hq
  suffices bound : e ≤ 971 from ⟨⟨m, e⟩, by rw [result, if_pos bound]⟩
  have high := (roundDiv_spec hn hd hq).2.1
  have large := (exponentOf_spec hn hd).2
  have unit : (0 : ℚ) < 2 ^ (971 : ℤ) := by positivity
  rw [limit] at h
  generalize (num : ℚ) / den = x at *
  generalize exponentOf num den = e₀ at *
  have most : e₀ ≤ 971 := by
    by_contra! beyond
    have large := large.resolve_left (by omega)
    have step : (2 : ℚ) ^ 53 * 2 ^ (971 : ℤ) ≤ 2 ^ (e₀ + 52) := by
      rw [← zpow_natCast, ← zpow_add₀ two_ne_zero]
      exact zpow_le_zpow_right₀ one_le_two (by norm_num; omega)
    generalize (2 : ℚ) ^ (971 : ℤ) = u at *
    linarith
  by_cases carry : roundDiv n d = 0x20000000000000
  · rw [if_pos carry, Prod.mk.injEq] at made
    have ne : e₀ ≠ 971 := by
      rintro rfl
      rw [carry, zpow_sub_one₀ two_ne_zero] at high
      push_cast at high
      generalize (2 : ℚ) ^ (971 : ℤ) = u at *
      linarith
    omega
  · rw [if_neg carry, Prod.mk.injEq] at made
    omega

end

end BinaryFraction

end Timetable
