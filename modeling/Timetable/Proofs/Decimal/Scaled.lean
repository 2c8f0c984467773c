import Timetable.Proofs.Decimal.Nearest

/-!
# Which decimal numerals stand for a number

`BinaryFraction.scaled?` rounds the digits of a numeral and its power of ten before it multiplies or divides them, so
its result may lie beyond what the nearest fraction would be. For numerals of at most 17 digits it still gives a
fraction within its bounds whenever the numeral lies below the limit of all fractions (`scaled?_isSome`). There is one
exception at the very end, 17976931348623158 · 10 ^ 292.
-/

namespace Timetable.BinaryFraction

variable {f g : BinaryFraction} {num den n : Nat}

theorem value_nonneg (f : BinaryFraction) : 0 ≤ f.value := by
  unfold value
  positivity

/-! ## Relative errors -/

/-- A quotient is rounded up by one part in 2 ^ 53, or by less than one. -/
theorem value_le_of_nearest? (hn : 0 < num) (hd : 0 < den) (h : nearest? num den = some f) :
    f.value ≤ num / den * (1 + 1 / 2 ^ 53) + 1 := by
  have high := (nearest?_spec hn hd h).2.1
  have nonneg : (0 : ℚ) ≤ num / den := by positivity
  rcases (exponentOf_spec hn hd).2 with least | large
  · have small : (2 : ℚ) ^ (exponentOf num den - 1) ≤ 1 := by
      rw [least]
      exact zpow_le_one_of_nonpos₀ one_le_two (by norm_num)
    linarith
  · have unit : (2 : ℚ) ^ (exponentOf num den - 1) * 2 ^ 53 = 2 ^ (exponentOf num den + 52) := by
      rw [← zpow_natCast, ← zpow_add₀ two_ne_zero]
      congr 1
      push_cast
      ring
    linarith

/-- A positive whole number is rounded by one part in 2 ^ 53 at most. -/
theorem value_ofNat? (hn : 0 < n) (h : ofNat? n = some f) :
    f.InRange ∧ n * (1 - 1 / 2 ^ 53) ≤ f.value ∧ f.value ≤ n * (1 + 1 / 2 ^ 53) := by
  obtain ⟨range, high, low⟩ := nearest?_spec hn one_pos h
  obtain ⟨above, large⟩ := exponentOf_spec hn one_pos
  rw [Nat.cast_one, div_one] at *
  have one : (1 : ℚ) ≤ n := by exact_mod_cast hn
  have normal : exponentOf n 1 ≠ -1074 := by
    intro least
    rw [least] at above
    have : (2 : ℚ) ^ (-1074 + 53 : ℤ) ≤ 1 := zpow_le_one_of_nonpos₀ one_le_two (by norm_num)
    linarith
  have unit : (2 : ℚ) ^ (exponentOf n 1 - 1) * 2 ^ 53 = 2 ^ (exponentOf n 1 + 52) := by
    rw [← zpow_natCast, ← zpow_add₀ two_ne_zero]
    congr 1
    push_cast
    ring
  have large := large.resolve_left normal
  refine ⟨range, ?_, ?_⟩ <;> linarith

/-- Up to 54 binary digits a whole number is rounded by one at most. -/
theorem value_ofNat?_le (hn : 0 < n) (small : n < 2 ^ 54) (h : ofNat? n = some f) :
    f.value ≤ n + 1 := by
  have high := (nearest?_spec hn one_pos h).2.1
  have large := (exponentOf_spec hn one_pos).2
  rw [Nat.cast_one, div_one] at *
  have few : exponentOf n 1 < 2 := by
    rcases large with least | large
    · omega
    · have bound : (n : ℚ) < 2 ^ (54 : ℤ) := by exact_mod_cast small
      have := (zpow_lt_zpow_iff_right₀ (one_lt_two (α := ℚ))).mp (lt_of_le_of_lt large bound)
      omega
  have unit : (2 : ℚ) ^ (exponentOf n 1 - 1) ≤ 1 := zpow_le_one_of_nonpos₀ one_le_two (by omega)
  linarith

/-! ## The limit -/

theorem limit_eq : limit = (2 ^ 53 - 1 / 2) * ((2 ^ 250) ^ 3 * 2 ^ 221) := by
  rw [limit, ← pow_mul, ← pow_add]
  rfl

theorem pow_308_lt_limit : (10 : ℚ) ^ 308 * (1 + 1 / 1000) < limit := by
  rw [limit_eq, show (10 : ℚ) ^ 308 = (10 ^ 77) ^ 4 by rw [← pow_mul]]
  norm_num

theorem limit_lt_pow_309 : limit < 10 ^ 309 := by
  rw [limit_eq, show (10 : ℚ) ^ 309 = (10 ^ 103) ^ 3 by rw [← pow_mul]]
  norm_num

theorem lt_of_mul_pow_293 {n : Nat} (h : (n : ℚ) * 10 ^ 293 < limit) : n ≤ 1797693134862315 := by
  by_contra! large
  have large : (1797693134862316 : ℚ) ≤ n := by exact_mod_cast large
  have split : (10 : ℚ) ^ 293 = (10 ^ 73) ^ 4 * 10 := by rw [← pow_mul, ← pow_succ]
  have beyond : limit < 1797693134862316 * 10 ^ 293 := by
    rw [limit_eq, split]
    norm_num
  have least := mul_le_mul_of_nonneg_right large (by positivity : (0 : ℚ) ≤ 10 ^ 293)
  exact absurd (h.trans beyond) (not_lt.mpr least)

theorem lt_of_mul_pow_292 {n : Nat} (h : (n : ℚ) * 10 ^ 292 < limit) : n ≤ 17976931348623158 := by
  by_contra! large
  have large : (17976931348623159 : ℚ) ≤ n := by exact_mod_cast large
  have split : (10 : ℚ) ^ 292 = (10 ^ 73) ^ 4 := by rw [← pow_mul]
  have beyond : limit < 17976931348623159 * 10 ^ 292 := by
    rw [limit_eq, split]
    norm_num
  have least := mul_le_mul_of_nonneg_right large (by positivity : (0 : ℚ) ≤ 10 ^ 292)
  exact absurd (h.trans beyond) (not_lt.mpr least)

/-! ## Products and quotients -/

/-- A quotient below the limit has a nearest fraction, which is hardly larger. -/
theorem nearest?_total (hd : 0 < den) (h : (num : ℚ) / den < limit) :
    ∃ f, nearest? num den = some f ∧ f.InRange ∧ f.value ≤ num / den * (1 + 1 / 2 ^ 53) + 1 := by
  obtain ⟨f, hf⟩ := nearest?_isSome hd h
  refine ⟨f, hf, ?_⟩
  rcases Nat.eq_zero_or_pos num with rfl | hn
  · obtain rfl : zero = f := Option.some.inj hf
    refine ⟨inRange_zero, ?_⟩
    simp [value, zero]
  · exact ⟨(nearest?_spec hn hd hf).1, value_le_of_nearest? hn hd hf⟩

theorem mul?_total (h : f.value * g.value < limit) : ∃ p, f.mul? g = some p ∧ p.InRange := by
  have product : ((f.quotient.1 * g.quotient.1 : Nat) : ℚ) / (f.quotient.2 * g.quotient.2 : Nat) = f.value * g.value := by
    rw [← value_quotient f, ← value_quotient g, div_mul_div_comm]
    push_cast
    rfl
  obtain ⟨p, hp, range, _⟩ := nearest?_total (Nat.mul_pos f.quotient_pos g.quotient_pos) (product ▸ h)
  exact ⟨p, hp, range⟩

theorem quotient_pos_of_value_pos (pos : 0 < g.value) : 0 < g.quotient.1 := by
  have den : (0 : ℚ) < g.quotient.2 := by exact_mod_cast g.quotient_pos
  rw [← value_quotient g] at pos
  exact_mod_cast (div_pos_iff_of_pos_right den).mp pos

theorem div?_total (pos : 0 < g.value) (h : f.value / g.value < limit) :
    ∃ q, f.div? g = some q ∧ q.InRange ∧ q.value ≤ f.value / g.value * (1 + 1 / 2 ^ 53) + 1 := by
  have num : 0 < g.quotient.1 := quotient_pos_of_value_pos pos
  have quotient : ((f.quotient.1 * g.quotient.2 : Nat) : ℚ) / (f.quotient.2 * g.quotient.1 : Nat) = f.value / g.value := by
    rw [← value_quotient f, ← value_quotient g, div_div_div_eq]
    push_cast
    rfl
  rw [← quotient] at h ⊢
  exact nearest?_total (Nat.mul_pos f.quotient_pos num) h

/-- Whatever is found lies within the bounds. -/
theorem nearest?_inRange (hd : 0 < den) (h : nearest? num den = some f) : f.InRange := by
  rcases Nat.eq_zero_or_pos num with rfl | hn
  · obtain rfl : zero = f := Option.some.inj h
    exact inRange_zero
  · exact (nearest?_spec hn hd h).1

theorem mul?_inRange {p : BinaryFraction} (h : f.mul? g = some p) : p.InRange :=
  nearest?_inRange (Nat.mul_pos f.quotient_pos g.quotient_pos) h

theorem div?_inRange {q : BinaryFraction} (pos : 0 < g.value) (h : f.div? g = some q) : q.InRange :=
  nearest?_inRange (Nat.mul_pos f.quotient_pos (quotient_pos_of_value_pos pos)) h

/-! ## Numerals -/

theorem value_ofNat?_pow (p : Nat) (h : ofNat? (Nat.pow 10 p) = some g) :
    10 ^ p * (1 - 1 / 2 ^ 53) ≤ g.value ∧ g.value ≤ 10 ^ p * (1 + 1 / 2 ^ 53) := by
  have spec := (value_ofNat? (Nat.pow_pos (by decide : 0 < 10)) h).2
  push_cast at spec
  exact spec

theorem lt_limit_of_le {x : ℚ} (h : x ≤ 10 ^ 308 * (1 + 1 / 1000)) : x < limit := lt_of_le_of_lt h pow_308_lt_limit

theorem ofNat?_pow_isSome {p : Nat} (h : p ≤ 308) : ∃ g, ofNat? (Nat.pow 10 p) = some g := by
  refine nearest?_isSome one_pos (lt_limit_of_le ?_)
  have most : (10 : ℚ) ^ p ≤ 10 ^ 308 := pow_le_pow_right₀ (by norm_num) h
  have pos : (0 : ℚ) < 10 ^ 308 := by positivity
  rw [Nat.pow_eq]
  push_cast
  rw [div_one]
  generalize (10 : ℚ) ^ 308 = u at *
  linarith

theorem lt_limit_of_le_pow_20 {x : ℚ} (h : x ≤ 10 ^ 20) : x < limit := by
  refine lt_limit_of_le (h.trans ?_)
  have small : (10 : ℚ) ^ 20 ≤ 10 ^ 308 := pow_le_pow_right₀ (by norm_num) (by decide)
  have pos : (0 : ℚ) < 10 ^ 308 := by positivity
  generalize (10 : ℚ) ^ 308 = u at *
  linarith

/-- Dividing by a power of ten: whatever that is rounded to, it is at least one half. -/
theorem div?_pow_total {p : Nat} (hp : p ≤ 308) (h : f.value ≤ 3 * 10 ^ 19) :
    ∃ g, ofNat? (Nat.pow 10 p) = some g ∧ ∃ q, f.div? g = some q ∧ q.InRange ∧ q.value ≤ 3 * f.value + 1 := by
  obtain ⟨g, hg⟩ := ofNat?_pow_isSome hp
  have one : (1 : ℚ) ≤ 10 ^ p := one_le_pow₀ (by norm_num)
  have low : (1 : ℚ) / 2 ≤ g.value := by
    have := (value_ofNat?_pow p hg).1
    linarith
  have quotient : f.value / g.value ≤ 2 * f.value := by
    rw [div_le_iff₀ (by linarith)]
    have := mul_le_mul_of_nonneg_left low f.value_nonneg
    linarith
  have most : f.value / g.value ≤ 10 ^ 20 := by linarith
  obtain ⟨q, hq, range, le⟩ := div?_total (by linarith) (lt_limit_of_le_pow_20 most)
  refine ⟨g, hg, q, hq, range, le.trans ?_⟩
  have := f.value_nonneg
  linarith

theorem scaleDown_total (rounds power : Nat) (h : (f.value + 1) * 4 ^ rounds ≤ 10 ^ 20) :
    ∃ q, scaleDown rounds f power = some q ∧ q.InRange := by
  induction rounds generalizing f power with
  | zero => exact ⟨zero, rfl, inRange_zero⟩
  | succ rounds ih =>
    have one : (1 : ℚ) ≤ 4 ^ rounds := one_le_pow₀ (by norm_num)
    have nonneg := f.value_nonneg
    rw [pow_succ] at h
    have small : f.value ≤ 3 * 10 ^ 19 := by nlinarith
    rw [scaleDown]
    split
    · next few =>
      obtain ⟨g, hg, q, hq, range, _⟩ := div?_pow_total few small
      rw [hg]
      exact ⟨q, hq, range⟩
    · obtain ⟨g, hg, q, hq, _, le⟩ := div?_pow_total le_rfl small
      have rest : (q.value + 1) * 4 ^ rounds ≤ 10 ^ 20 := by
        refine le_trans ?_ h
        rw [mul_comm ((4 : ℚ) ^ rounds), ← mul_assoc]
        exact mul_le_mul_of_nonneg_right (by linarith) (by linarith)
      obtain ⟨r, hr, range⟩ := ih (power - 308) rest
      exact ⟨r, Option.bind_eq_some_iff.mpr ⟨g, hg, Option.bind_eq_some_iff.mpr ⟨q, hq, hr⟩⟩, range⟩

/-- A product of at most 17 digits with a power of ten stays below the limit when both are rounded. -/
theorem mul_lt_limit {digits p : Nat} (pos : 0 < digits) (few : digits ≤ 10 ^ 17)
    (below : (digits : ℚ) * 10 ^ p < limit) (ne : ¬ (p = 292 ∧ digits = 17976931348623158))
    (hf : ofNat? digits = some f) (hg : ofNat? (Nat.pow 10 p) = some g) : f.value * g.value < limit := by
  obtain ⟨_, _, fHigh⟩ := value_ofNat? pos hf
  have gHigh := (value_ofNat?_pow p hg).2
  have fNonneg := f.value_nonneg
  have gNonneg := g.value_nonneg
  have product : f.value * g.value ≤ digits * 10 ^ p * (1 + 1 / 2 ^ 53) ^ 2 :=
    calc f.value * g.value ≤ digits * (1 + 1 / 2 ^ 53) * (10 ^ p * (1 + 1 / 2 ^ 53)) :=
          mul_le_mul fHigh gHigh gNonneg (by positivity)
      _ = digits * 10 ^ p * (1 + 1 / 2 ^ 53) ^ 2 := by ring
  rcases Nat.lt_trichotomy p 292 with small | last | large
  · -- the errors do not matter
    refine lt_limit_of_le (product.trans ?_)
    have most : (digits : ℚ) * 10 ^ p ≤ 10 ^ 308 := by
      have few : (digits : ℚ) ≤ 10 ^ 17 := by exact_mod_cast few
      calc (digits : ℚ) * 10 ^ p ≤ 10 ^ 17 * 10 ^ 291 :=
            mul_le_mul few (pow_le_pow_right₀ (by norm_num) (by omega)) (by positivity) (by positivity)
        _ = 10 ^ 308 := by rw [← pow_add]
    exact mul_le_mul most (by norm_num) (by positivity) (by positivity)
  · -- the digits are rounded by one at most, and the rounded power is known
    have digits_le : digits ≤ 17976931348623157 := by
      have := lt_of_mul_pow_292 (last ▸ below)
      omega
    have f_le : f.value ≤ 17976931348623157 := by
      rcases Nat.lt_or_eq_of_le digits_le with lt | rfl
      · have le := value_ofNat?_le pos (by omega) hf
        have : (digits : ℚ) + 1 ≤ 17976931348623157 := by exact_mod_cast lt
        linarith
      · have known : ofNat? 17976931348623157 = some ⟨8988465674311578, 1⟩ := by decide
        obtain rfl := Option.some.inj (known.symm.trans hf)
        norm_num [value]
    have known : ∀ p, p = 292 → ofNat? (Nat.pow 10 p) = some ⟨4512985939662074, 918⟩ := by
      rintro _ rfl
      decide +kernel
    obtain rfl := Option.some.inj ((known p last).symm.trans hg)
    have unit : (2 : ℚ) ^ (918 : ℤ) = (2 ^ 250) ^ 3 * 2 ^ 168 := by
      rw [← pow_mul, ← pow_add]
      rfl
    refine lt_of_le_of_lt (mul_le_mul_of_nonneg_right f_le gNonneg) ?_
    rw [value, unit, limit_eq]
    norm_num
  · -- the product is a multiple of 10 ^ 293, and no digit is lost
    obtain ⟨k, rfl⟩ : ∃ k, p = k + 293 := ⟨p - 293, by omega⟩
    have whole : (digits : ℚ) * 10 ^ (k + 293) = (digits * 10 ^ k : Nat) * 10 ^ 293 := by
      rw [pow_add]
      push_cast
      ring
    rw [whole] at below product
    have most : ((digits * 10 ^ k : Nat) : ℚ) ≤ 1797693134862315 := by exact_mod_cast lt_of_mul_pow_293 below
    have split : (10 : ℚ) ^ 293 = (10 ^ 73) ^ 4 * 10 := by rw [← pow_mul, ← pow_succ]
    refine lt_of_le_of_lt product ?_
    refine lt_of_le_of_lt (mul_le_mul_of_nonneg_right (mul_le_mul_of_nonneg_right most (by positivity)) (by positivity)) ?_
    rw [limit_eq, split]
    norm_num

/-- A numeral below the limit stands for a fraction. -/
theorem scaled?_isSome {digits : Nat} {power : Int} (few : digits ≤ 10 ^ 17)
    (below : (digits : ℚ) * 10 ^ power < limit) (ne : ¬ (power = 292 ∧ digits = 17976931348623158)) :
    ∃ f, scaled? digits power = some f ∧ f.InRange := by
  have few' : (digits : ℚ) ≤ 10 ^ 17 := by exact_mod_cast few
  have small : (digits : ℚ) / (1 : ℕ) < limit := lt_limit_of_le_pow_20 (by
    rw [Nat.cast_one, div_one]
    linarith)
  obtain ⟨f, hf, range, le⟩ := nearest?_total one_pos small
  rw [Nat.cast_one, div_one] at le
  have hf : ofNat? digits = some f := hf
  unfold scaled?
  simp only [hf, Option.bind_eq_bind, Option.bind_some]
  split_ifs with none negative positive
  · exact ⟨zero, rfl, inRange_zero⟩
  · refine scaleDown_total 3 _ ?_
    linarith
  · obtain ⟨p, rfl⟩ := Int.eq_ofNat_of_zero_le (Int.not_lt.mp negative)
    rw [zpow_natCast] at below
    have known : ¬ (p = 292 ∧ digits = 17976931348623158) := fun ⟨hp, hd⟩ => ne ⟨congrArg Nat.cast hp, hd⟩
    obtain ⟨g, hg⟩ := ofNat?_pow_isSome (p := p) (by omega)
    rw [Int.toNat_natCast, hg]
    exact mul?_total (mul_lt_limit (Nat.pos_of_ne_zero none) few below known hf hg)
  · obtain ⟨p, rfl⟩ := Int.eq_ofNat_of_zero_le (Int.not_lt.mp negative)
    rw [zpow_natCast] at below
    have one : (1 : ℚ) ≤ digits := by exact_mod_cast Nat.pos_of_ne_zero none
    have large : (10 : ℚ) ^ 309 ≤ 10 ^ p := pow_le_pow_right₀ (by norm_num) (by omega)
    have beyond : (10 : ℚ) ^ 309 ≤ digits * 10 ^ p := large.trans (le_mul_of_one_le_left (by positivity) one)
    exact absurd (below.trans limit_lt_pow_309) (not_lt.mpr beyond)

/-- Whatever a numeral stands for lies within the bounds. -/
theorem scaleDown_inRange {rounds power : Nat} {q : BinaryFraction} (h : scaleDown rounds f power = some q) :
    q.InRange := by
  have pos {p : Nat} {g : BinaryFraction} (hg : ofNat? (Nat.pow 10 p) = some g) : 0 < g.value :=
    lt_of_lt_of_le (by positivity) (value_ofNat?_pow p hg).1
  induction rounds generalizing f power with
  | zero =>
    obtain rfl : zero = q := Option.some.inj h
    exact inRange_zero
  | succ rounds ih =>
    rw [scaleDown] at h
    split at h
    · obtain ⟨g, hg, h⟩ := Option.bind_eq_some_iff.mp h
      exact div?_inRange (pos hg) h
    · obtain ⟨g, -, h⟩ := Option.bind_eq_some_iff.mp h
      obtain ⟨_, -, h⟩ := Option.bind_eq_some_iff.mp h
      exact ih h

theorem scaled?_inRange {digits : Nat} {power : Int} (h : scaled? digits power = some f) : f.InRange := by
  unfold scaled? at h
  obtain ⟨g, -, h⟩ := Option.bind_eq_some_iff.mp h
  split_ifs at h
  · obtain rfl : zero = f := Option.some.inj h
    exact inRange_zero
  · exact scaleDown_inRange h
  · obtain ⟨_, -, h⟩ := Option.bind_eq_some_iff.mp h
    exact mul?_inRange h

end Timetable.BinaryFraction
