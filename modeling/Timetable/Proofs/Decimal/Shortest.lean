import Timetable.Decimal.Shortest
import Timetable.Proofs.Decimal.Scaled

/-!
# Shortest decimals stand for numbers

The decimal that is written for a fraction has at most 17 digits and lies below the limit of all fractions, and it is
not the one numeral there whose value gets lost. So what is written is read as a number again.
-/

namespace Timetable

theorem Text.length_digits {n : Nat} (h : 0 < n) :
    10 ^ ((digits n).length - 1) ≤ n ∧ n < 10 ^ (digits n).length := by
  induction n using Nat.strongRecOn with
  | ind n ih =>
    rw [digits, Nat.toDigits_eq_if (by decide)]
    split
    · next small =>
      simp
      omega
    · next large =>
      obtain ⟨low, high⟩ := ih (n / 10) (by omega) (by omega)
      rw [digits] at low high
      rw [List.length_append, List.length_singleton, Nat.add_sub_cancel, pow_succ]
      have pos : (Nat.toDigits 10 (n / 10)).length ≠ 0 := by
        rw [ne_eq, List.length_eq_zero_iff]
        exact Nat.toDigits_ne_nil
      obtain ⟨k, hk⟩ := Nat.exists_eq_succ_of_ne_zero pos
      rw [hk, Nat.succ_sub_one] at low
      rw [hk] at high ⊢
      rw [Nat.succ_eq_add_one, pow_succ] at high ⊢
      omega

theorem div_le_roundDiv (num den : Nat) : num / den ≤ roundDiv num den := by
  unfold roundDiv
  dsimp only
  split <;> omega

namespace Decimal

open BinaryFraction

variable {num den count n : Nat} {mag e : Int} {f : BinaryFraction}

/-- A quotient on a grid of powers of ten. -/
theorem value_scale (num den : Nat) (e : Int) :
    ((num * Nat.pow 10 (-e).toNat : Nat) : ℚ) / (den * Nat.pow 10 e.toNat : Nat) = num / den * 10 ^ (-e) := by
  rcases Int.le_total 0 e with h | h
  · obtain ⟨k, rfl⟩ := Int.eq_ofNat_of_zero_le h
    rw [Int.toNat_natCast, show (-(k : Int)).toNat = 0 by omega, zpow_neg, zpow_natCast, Nat.pow_eq, Nat.pow_eq]
    push_cast
    ring
  · obtain ⟨k, hk⟩ := Int.eq_ofNat_of_zero_le (by omega : 0 ≤ -e)
    rw [hk, Int.toNat_natCast, show e.toNat = 0 by omega, zpow_natCast, Nat.pow_eq, Nat.pow_eq]
    push_cast
    ring

theorem lt_pow_magnitude (hn : 0 < num) (hd : 0 < den) : (num : ℚ) / den < 10 ^ magnitude num den := by
  have den_pos : (0 : ℚ) < den := by exact_mod_cast hd
  unfold magnitude
  dsimp only
  generalize hguess : ((Text.digits num).length : Int) - (Text.digits den).length = guess
  split
  · next below =>
    have pos : 0 < den * Nat.pow 10 guess.toNat := Nat.mul_pos hd (Nat.pow_pos (by decide))
    have quotient := value_scale num den guess
    have less : ((num * Nat.pow 10 (-guess).toNat : Nat) : ℚ) / (den * Nat.pow 10 guess.toNat : Nat) < 1 := by
      rw [div_lt_one (by exact_mod_cast pos)]
      exact_mod_cast below
    rw [quotient, zpow_neg, ← div_eq_mul_inv, div_lt_one (by positivity)] at less
    exact less
  · have num_lt : (num : ℚ) < 10 ^ ((Text.digits num).length : Int) := by
      rw [zpow_natCast]
      exact_mod_cast (Text.length_digits hn).2
    have le_den : (10 : ℚ) ^ (((Text.digits den).length : Int) - 1) ≤ den := by
      have some : 0 < (Text.digits den).length := List.length_pos_iff.mpr (Text.digits_ne_nil den)
      have low := (Text.length_digits hd).1
      rw [show ((Text.digits den).length : Int) - 1 = ((Text.digits den).length - 1 : Nat) by omega, zpow_natCast]
      exact_mod_cast low
    rw [div_lt_iff₀ den_pos]
    calc (num : ℚ) < 10 ^ ((Text.digits num).length : Int) := num_lt
      _ = 10 ^ (guess + 1) * 10 ^ (((Text.digits den).length : Int) - 1) := by
        rw [← zpow_add₀ (by norm_num)]
        congr 1
        omega
      _ ≤ 10 ^ (guess + 1) * den := mul_le_mul_of_nonneg_left le_den (by positivity)

/-- What is read as a fraction lies half a unit of the last place above it at most, and less if the mantissa is odd. -/
theorem le_of_reads (hd : 0 < den) (h : reads f num den = true) :
    (num : ℚ) / den ≤ (f.mantissa + 1 / 2) * 2 ^ f.exponent ∧
      (f.mantissa % 2 ≠ 0 → (num : ℚ) / den < (f.mantissa + 1 / 2) * 2 ^ f.exponent) := by
  have shifted := value_shiftQuotient (4 * num) den (-f.exponent)
  have pos := shiftQuotient_pos (4 * num) hd (-f.exponent)
  unfold reads at h
  generalize (if f.mantissa = 0x10000000000000 ∧ -1074 < f.exponent then 4 * f.mantissa - 1 else 4 * f.mantissa - 2) = low at h
  generalize shiftQuotient (4 * num) den (-f.exponent) = p at *
  obtain ⟨n, d⟩ := p
  dsimp only at *
  have d_pos : (0 : ℚ) < d := by exact_mod_cast pos
  have unit : (0 : ℚ) < 2 ^ f.exponent := by positivity
  have quotient : (num : ℚ) / den = n / d / 4 * 2 ^ f.exponent := by
    rw [shifted, zpow_neg]
    push_cast
    field_simp
  rw [quotient]
  split at h
  · next even =>
    refine ⟨?_, fun odd => absurd even odd⟩
    rw [Bool.and_eq_true, decide_eq_true_eq, decide_eq_true_eq] at h
    have high : (n : ℚ) ≤ (4 * f.mantissa + 2) * d := by exact_mod_cast h.2
    rw [← div_le_iff₀ d_pos] at high
    exact mul_le_mul_of_nonneg_right (by linarith) unit.le
  · rw [Bool.and_eq_true, decide_eq_true_eq, decide_eq_true_eq] at h
    have high : (n : ℚ) < (4 * f.mantissa + 2) * d := by exact_mod_cast h.2
    rw [← div_lt_iff₀ d_pos] at high
    have less := mul_lt_mul_of_pos_right (show (n : ℚ) / d / 4 < f.mantissa + 1 / 2 by linarith) unit
    exact ⟨less.le, fun _ => less⟩

/-- A numeral that stands for a number: few digits, below the limit, and not the numeral whose value gets lost. -/
structure Readable (digits : Nat) (exponent : Int) : Prop where
  few : digits ≤ 10 ^ 17
  below : (digits : ℚ) * 10 ^ exponent < limit
  known : ¬ (exponent = 292 ∧ digits = 17976931348623158)

theorem half_unit_le_limit (range : f.InRange) :
    ((f.mantissa : ℚ) + 1 / 2) * 2 ^ f.exponent ≤ limit ∧
      (f.mantissa % 2 = 0 → ((f.mantissa : ℚ) + 1 / 2) * 2 ^ f.exponent < limit) := by
  have half : (0 : ℚ) ≤ f.mantissa + 1 / 2 := by positivity
  have unit : (2 : ℚ) ^ f.exponent ≤ 2 ^ (971 : ℤ) := zpow_le_zpow_right₀ one_le_two range.high
  have pos : (0 : ℚ) < 2 ^ (971 : ℤ) := zpow_pos two_pos 971
  have product : ((f.mantissa : ℚ) + 1 / 2) * 2 ^ f.exponent ≤ (f.mantissa + 1 / 2) * 2 ^ (971 : ℤ) :=
    mul_le_mul_of_nonneg_left unit half
  have mantissa := range.mantissa
  rw [limit]
  generalize (2 : ℚ) ^ (971 : ℤ) = u at *
  refine ⟨product.trans (mul_le_mul_of_nonneg_right ?_ pos.le), fun even => ?_⟩
  · have most : (f.mantissa : ℚ) ≤ 9007199254740991 := by exact_mod_cast (by omega : f.mantissa ≤ 9007199254740991)
    norm_num
    linarith
  · refine lt_of_le_of_lt product (mul_lt_mul_of_pos_right ?_ pos)
    have most : (f.mantissa : ℚ) ≤ 9007199254740990 := by exact_mod_cast (by omega : f.mantissa ≤ 9007199254740990)
    norm_num
    linarith

/-- The unit of the largest fractions, in powers that are easily computed. -/
theorem unit_eq : (2 : ℚ) ^ (971 : ℤ) = (2 ^ 250) ^ 3 * 2 ^ 221 := by
  rw [← pow_mul, ← pow_add]
  rfl

theorem pow_292_eq : (10 : ℚ) ^ (292 : ℤ) = (10 ^ 73) ^ 4 := by
  rw [← pow_mul]
  rfl

theorem value_le_last (range : f.InRange) : f.value ≤ 9007199254740991 * 2 ^ (971 : ℤ) := by
  have unit : (2 : ℚ) ^ f.exponent ≤ 2 ^ (971 : ℤ) := zpow_le_zpow_right₀ one_le_two range.high
  have mantissa := range.mantissa
  have most : (f.mantissa : ℚ) ≤ 9007199254740991 := by exact_mod_cast (by omega : f.mantissa ≤ 9007199254740991)
  exact mul_le_mul most unit (by positivity) (by norm_num)

/-- Only the last fraction lies as high as the numeral before the lost one. -/
theorem eq_last_of_le (range : f.InRange) (h : (17976931348623157 : ℚ) * 10 ^ (292 : ℤ) ≤ f.value) :
    f = ⟨9007199254740991, 971⟩ := by
  obtain ⟨m, e⟩ := f
  have mantissa : m < 0x20000000000000 := range.mantissa
  have high : e ≤ 971 := range.high
  have beyond : (9007199254740990 : ℚ) * 2 ^ (971 : ℤ) < 17976931348623157 * 10 ^ (292 : ℤ) := by
    rw [unit_eq, pow_292_eq]
    norm_num
  have large : (9007199254740990 : ℚ) * 2 ^ (971 : ℤ) < m * 2 ^ e := lt_of_lt_of_le beyond h
  have last : e = 971 := by
    by_contra ne
    have half : (2 : ℚ) ^ e ≤ 2 ^ (970 : ℤ) := zpow_le_zpow_right₀ one_le_two (by omega)
    have twice : (2 : ℚ) ^ (971 : ℤ) = 2 ^ (970 : ℤ) * 2 := zpow_add_one₀ two_ne_zero 970
    have pos : (0 : ℚ) < 2 ^ (970 : ℤ) := zpow_pos two_pos 970
    have most : (m : ℚ) ≤ 9007199254740991 := by exact_mod_cast (by omega : m ≤ 9007199254740991)
    have product : (m : ℚ) * 2 ^ e ≤ 9007199254740991 * 2 ^ (970 : ℤ) :=
      mul_le_mul most half (by positivity) (by norm_num)
    have less := large.trans_le product
    rw [twice] at less
    generalize (2 : ℚ) ^ (970 : ℤ) = u at less pos
    linarith only [less, pos]
  subst last
  have least : (9007199254740990 : ℚ) < m := lt_of_mul_lt_mul_right large (by positivity)
  have least : 9007199254740990 < m := by exact_mod_cast least
  obtain rfl : m = 9007199254740991 := by omega
  rfl

theorem lt_limit_of_reads {k : Nat} (range : f.InRange)
    (h : reads f (k * Nat.pow 10 e.toNat) (Nat.pow 10 (-e).toNat) = true) : (k : ℚ) * 10 ^ e < limit := by
  obtain ⟨le, lt⟩ := le_of_reads (Nat.pow_pos (by decide)) h
  obtain ⟨limit_le, limit_lt⟩ := half_unit_le_limit range
  have point := value_scale k 1 (-e)
  rw [neg_neg, one_mul, Nat.cast_one, div_one] at point
  by_cases even : f.mantissa % 2 = 0
  · exact point ▸ lt_of_le_of_lt le (limit_lt even)
  · exact point ▸ lt_of_lt_of_le (lt even) limit_le

section

variable {a b : Nat} (value : f.value = a / b * 10 ^ e) (pos : 0 < b)
include value pos

/-- No fraction is rounded up to the numeral whose value gets lost. -/
theorem roundDiv_le_last (range : f.InRange) (last : e = 292) : roundDiv a b ≤ 17976931348623157 := by
  have b_pos : (0 : ℚ) < b := by exact_mod_cast pos
  have high := value_le_last range
  have edge : (9007199254740991 : ℚ) * 2 ^ (971 : ℤ) < (17976931348623157 + 1 / 2) * 10 ^ (292 : ℤ) := by
    rw [unit_eq, pow_292_eq]
    norm_num
  have tens : (0 : ℚ) < 10 ^ (292 : ℤ) := zpow_pos (by norm_num) 292
  have below := high.trans_lt edge
  rw [value, last, mul_lt_mul_iff_left₀ tens, div_lt_iff₀ b_pos] at below
  have rounded := roundDiv_le a pos
  have below : 2 * a < 35953862697246315 * b := by
    have : (2 : ℚ) * a < 35953862697246315 * b := by linarith
    exact_mod_cast this
  have product : b * (2 * roundDiv a b) < b * (2 * 17976931348623158) := by
    have : b * (2 * roundDiv a b) = 2 * (b * roundDiv a b) := Nat.mul_left_comm ..
    omega
  have := Nat.lt_of_mul_lt_mul_left product
  omega

/-- The fraction beyond the numeral before it is the last one, which that numeral reads as. -/
theorem reads_last (range : f.InRange) (last : e = 292) (reached : 17976931348623157 ≤ a / b) :
    reads f (17976931348623157 * Nat.pow 10 e.toNat) (Nat.pow 10 (-e).toNat) = true := by
  have b_pos : (0 : ℚ) < b := by exact_mod_cast pos
  have whole : 17976931348623157 * b ≤ a := (Nat.le_div_iff_mul_le pos).mp reached
  have quotient : (17976931348623157 : ℚ) ≤ a / b := by
    rw [le_div_iff₀ b_pos]
    exact_mod_cast whole
  have tens : (0 : ℚ) ≤ 10 ^ (292 : ℤ) := (zpow_pos (by norm_num) 292).le
  subst last
  obtain rfl := eq_last_of_le range (value ▸ mul_le_mul_of_nonneg_right quotient tens)
  decide +kernel

end

/-- A grid point with at most 17 digits is not rounded beyond them. -/
theorem readable_of_gridPoint? (range : f.InRange) (below : f.value < 10 ^ mag) (few : count ≤ 17)
    (h : gridPoint? f mag count = some (n, e)) : Readable n e := by
  unfold gridPoint? at h
  have quotient := value_quotient f
  have pos := quotient_pos f
  generalize f.quotient = p at h quotient pos
  obtain ⟨num, den⟩ := p
  dsimp only at h quotient pos
  generalize he : mag - (count : Int) = grid at h
  have scaled := value_scale num den grid
  rw [quotient] at scaled
  have den_pos : 0 < den * Nat.pow 10 grid.toNat := Nat.mul_pos pos (Nat.pow_pos (by decide))
  generalize num * Nat.pow 10 (-grid).toNat = a at h scaled
  generalize den * Nat.pow 10 grid.toNat = b at h scaled den_pos
  have b_pos : (0 : ℚ) < b := by exact_mod_cast den_pos
  have tens : (0 : ℚ) < 10 ^ grid := zpow_pos (by norm_num) grid
  have value : f.value = a / b * 10 ^ grid := by
    rw [scaled, zpow_neg]
    field_simp
  have digits : a < 10 ^ count * b := by
    have grid_eq : (10 : ℚ) ^ mag = 10 ^ count * 10 ^ grid := by
      rw [← zpow_natCast, ← zpow_add₀ (by norm_num)]
      congr 1
      omega
    rw [value, grid_eq, mul_lt_mul_iff_left₀ tens, div_lt_iff₀ b_pos] at below
    exact_mod_cast below
  have most : 10 ^ count ≤ 10 ^ 17 := Nat.pow_le_pow_right (by decide) few
  have nearer_le := roundDiv_le_of_lt digits
  have down_lt : a / b < 10 ^ count := Nat.div_lt_of_lt_mul (Nat.mul_comm _ b ▸ digits)
  split at h
  · next nearer =>
    obtain ⟨rfl, rfl⟩ : roundDiv a b = n ∧ grid = e := by simpa using h
    refine ⟨nearer_le.trans most, lt_limit_of_reads range nearer, fun ⟨last, lost⟩ => ?_⟩
    have := roundDiv_le_last value den_pos range last
    omega
  · next nearer =>
    have farther_le : (if roundDiv a b = a / b then a / b + 1 else a / b) ≤ 10 ^ count := by
      split <;> omega
    -- the farther one is the lost numeral only if the nearer one is the numeral before it, but that reads back
    have farther_ne (last : grid = 292) : (if roundDiv a b = a / b then a / b + 1 else a / b) ≠ 17976931348623158 := by
      have nearer_known := roundDiv_le_last value den_pos range last
      split
      · next down =>
        intro lost
        have reached : a / b = 17976931348623157 := by omega
        exact nearer (down ▸ reached ▸ reads_last value den_pos range last reached.ge)
      · next up =>
        have := div_le_roundDiv a b
        omega
    generalize (if roundDiv a b = a / b then a / b + 1 else a / b) = k at h farther_le farther_ne
    split at h
    · next farther =>
      obtain ⟨rfl, rfl⟩ : k = n ∧ grid = e := by simpa using h
      exact ⟨farther_le.trans most, lt_limit_of_reads range farther, fun ⟨last, lost⟩ => farther_ne last lost⟩
    · exact nomatch h

theorem readable_zero (e : Int) : Readable 0 e where
  few := by decide
  below := by
    rw [Nat.cast_zero, zero_mul, limit]
    positivity
  known := fun ⟨_, h⟩ => by cases h

/-- A zero at the end may be left out. -/
theorem Readable.div_ten (h : Readable n e) (zero : n % 10 = 0) : Readable (n / 10) (e + 1) where
  few := (Nat.div_le_self n 10).trans h.few
  below := by
    have whole : n / 10 * 10 = n := Nat.div_mul_cancel (Nat.dvd_of_mod_eq_zero zero)
    have same : ((n / 10 : Nat) : ℚ) * 10 ^ (e + 1) = n * 10 ^ e := by
      conv_rhs => rw [← whole]
      rw [zpow_add_one₀ (by norm_num)]
      push_cast
      ring
    rw [same]
    exact h.below
  known := by
    have few := h.few
    omega

/-- Zeros at the end may be written out. -/
theorem Readable.mul_pow (h : Readable n e) {k : Nat} (few : n * 10 ^ k ≤ 10 ^ 17) : Readable (n * 10 ^ k) (e - k) where
  few := few
  below := by
    have same : ((n * 10 ^ k : Nat) : ℚ) * 10 ^ (e - k) = n * 10 ^ e := by
      rw [zpow_sub₀ (by norm_num), zpow_natCast]
      push_cast
      field_simp
    rw [same]
    exact h.below
  known := by
    rintro ⟨he, hn⟩
    cases k with
    | zero => exact h.known ⟨by omega, by omega⟩
    | succ k =>
      rw [pow_succ, ← Nat.mul_assoc] at hn
      omega

theorem Readable.strip (fuel : Nat) (h : Readable n e) : Readable (strip fuel n e).1 (strip fuel n e).2 := by
  induction fuel generalizing n e with
  | zero => exact h
  | succ fuel ih =>
    rw [Decimal.strip]
    split
    · next zero => exact ih (h.div_ten zero)
    · exact h

/-- What a fraction is written as stands for a number. -/
theorem readable_ofBinary (negative : Bool) (range : f.InRange) :
    Readable (ofBinary negative f).digits (ofBinary negative f).exponent := by
  unfold ofBinary
  split
  · exact readable_zero 0
  · next ne =>
    have num_pos : 0 < f.quotient.1 := by
      have mantissa : 0 < f.mantissa := Nat.pos_of_ne_zero ne
      unfold quotient shiftQuotient
      split
      · exact Nat.mul_pos mantissa (Nat.pow_pos (by decide))
      · exact mantissa
    have below := lt_pow_magnitude num_pos f.quotient_pos
    rw [value_quotient] at below
    dsimp only
    cases found : (List.range' 1 17).findSome? (gridPoint? f (magnitude f.quotient.1 f.quotient.2)) with
    | none => exact readable_zero 0
    | some point =>
      obtain ⟨count, mem, found⟩ := List.exists_of_findSome?_eq_some found
      rw [List.mem_range'_1] at mem
      exact (readable_of_gridPoint? range below (by omega) found).strip 17

end Decimal

end Timetable
