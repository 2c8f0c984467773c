import Mathlib.Tactic.SplitIfs
import Timetable.Json.Numeral

/-!
# Written numbers are read back

A numeral that is written part by part is read back as these parts, up to a comma or a closing bracket. Integers and
decimals are written as such numerals, decimals also with all digits in their places. An integer that fits 64 bits is
read back as it is, and no other text is read as that integer.
-/

namespace Timetable

namespace Text

theorem head_digits {n : Nat} (h : n ≠ 0) : (digits n).head? ≠ some '0' := by
  induction n using Nat.strongRecOn with
  | ind n ih =>
    rw [digits, Nat.toDigits_eq_if (by decide)]
    split
    · next small =>
      have nonzero : ∀ m < 10, m ≠ 0 → Nat.digitChar m ≠ '0' := by decide
      simpa using nonzero n small h
    · next large =>
      have ih := ih (n / 10) (by omega) (by omega)
      rw [digits] at ih
      cases hd : Nat.toDigits 10 (n / 10) with
      | nil => exact absurd hd Nat.toDigits_ne_nil
      | cons c cs => simpa [hd] using ih

theorem exists_digits_eq_cons (n : Nat) : ∃ d ds, digits n = d :: ds ∧ d.isDigit := by
  cases h : digits n with
  | nil => exact absurd h (digits_ne_nil n)
  | cons d ds => exact ⟨d, ds, rfl, isDigit_of_mem_digits (h ▸ List.mem_cons_self)⟩

end Text

namespace Json

open Text

/-- A number may end before this: a comma, a closing bracket or brace, or nothing. -/
def Follows (rest : List Char) : Prop := ∀ c, rest.head? = some c → c ∈ [',', ']', '\x7d']

theorem follows_nil : Follows [] := fun _ h => by cases h

theorem follows_cons {c : Char} (rest : List Char) (h : c ∈ [',', ']', '\x7d']) :
    Follows (c :: rest) := by
  rintro _ ⟨⟩
  exact h

/-! ## Numerals -/

namespace Numeral

/-- Digits where they belong, and no zeros before them. -/
structure Valid (n : Numeral) : Prop where
  digits : ∀ c ∈ n.whole, c.isDigit
  nonempty : n.whole ≠ []
  noZero : n.whole.head? = some '0' → n.whole = ['0']
  fraction : ∀ ds, n.fraction = some ds → ds ≠ [] ∧ ∀ c ∈ ds, c.isDigit

end Numeral

theorem readDigits?_append {ds rest : List Char} (hd : ∀ c ∈ ds, c.isDigit) (hn : ds ≠ [])
    (hr : ∀ c, rest.head? = some c → ¬ c.isDigit) : readDigits? (ds ++ rest) = some (ds, rest) := by
  unfold readDigits?
  rw [spanDigits_append hd (by simp) (.inr hr)]
  cases ds with
  | nil => exact absurd rfl hn
  | cons d ds => rfl

theorem readWhole?_append {ds rest : List Char} (hd : ∀ c ∈ ds, c.isDigit) (hn : ds ≠ [])
    (hz : ds.head? = some '0' → ds = ['0']) (hr : ∀ c, rest.head? = some c → ¬ c.isDigit) :
    readWhole? (ds ++ rest) = some (ds, rest) := by
  cases ds with
  | nil => exact absurd rfl hn
  | cons d ds =>
    by_cases h0 : d = '0'
    · subst h0
      obtain rfl : ds = [] := by simpa using hz rfl
      cases rest with
      | nil => rfl
      | cons c rest => simp [readWhole?, hr c rfl]
    · rw [← readDigits?_append hd hn hr]
      unfold readWhole?
      split
      · next h => exact absurd (List.cons.inj h).1 h0
      · rfl

theorem readFraction?_append {n : Numeral} (h : n.Valid) {rest : List Char}
    (hr : ∀ c, rest.head? = some c → ¬ c.isDigit ∧ c ≠ '.') :
    readFraction? (n.fractionChars ++ rest) = some (n.fraction, rest) := by
  cases hf : n.fraction with
  | none =>
    simp only [Numeral.fractionChars, hf, Option.elim_none, List.nil_append]
    unfold readFraction?
    split
    · next rest' => exact absurd rfl (hr '.' rfl).2
    · rfl
  | some ds =>
    obtain ⟨hn, hd⟩ := h.fraction ds hf
    simp only [Numeral.fractionChars, hf, Option.elim_some, List.cons_append, readFraction?]
    rw [readDigits?_append hd hn fun c hc => (hr c hc).1]
    rfl

theorem readExponent?_signed (p : Int) {rest : List Char}
    (hr : ∀ c, rest.head? = some c → ¬ c.isDigit) :
    readExponent? (signed p ++ rest) = some (some p, rest) := by
  have read (m : Nat) : readDigits? (digits m ++ rest) = some (digits m, rest) :=
    readDigits?_append (fun c => isDigit_of_mem_digits) (digits_ne_nil m) hr
  cases p with
  | ofNat m =>
    have read := read m
    have value := ofDigits_digits m
    obtain ⟨d, ds, hd, digit⟩ := exists_digits_eq_cons m
    rw [hd] at read value
    rw [signed, hd]
    unfold readExponent?
    split
    · next h =>
      cases h
      simp at digit
    · next h =>
      cases h
      simp at digit
    · rw [read, Option.map_some]
      show some (some (ofDigits (d :: ds) : Int), rest) = _
      rw [value]
      rfl
  | negSucc m =>
    simp only [signed, List.cons_append, readExponent?, read, Option.map_some, ofDigits_digits]
    rfl

theorem readPower?_append (n : Numeral) {rest : List Char}
    (hr : ∀ c, rest.head? = some c → ¬ c.isDigit ∧ c ≠ 'e' ∧ c ≠ 'E') :
    readPower? (n.powerChars ++ rest) = some (n.power, rest) := by
  cases hp : n.power with
  | none =>
    simp only [Numeral.powerChars, hp, Option.elim_none, List.nil_append]
    unfold readPower?
    split
    · exact absurd rfl (hr 'e' rfl).2.1
    · exact absurd rfl (hr 'E' rfl).2.2
    · rfl
  | some p =>
    simp only [Numeral.powerChars, hp, Option.elim_some, List.cons_append, readPower?]
    exact readExponent?_signed p fun c hc => (hr c hc).1

theorem readSign_append {negative : Bool} {cs : List Char} (h : cs.head? ≠ some '-') :
    readSign ((if negative then ['-'] else []) ++ cs) = (negative, cs) := by
  cases negative with
  | true => rfl
  | false =>
    unfold readSign
    split
    · next h' => simp_all
    · rfl

/-- A numeral that is written part by part is read as these parts. -/
theorem readNumeral?_chars {n : Numeral} (h : n.Valid) {rest : List Char} (hr : Follows rest) :
    readNumeral? (n.chars ++ rest) = some (n, rest) := by
  have ends : ∀ c, rest.head? = some c → ¬ c.isDigit ∧ c ≠ '.' ∧ c ≠ 'e' ∧ c ≠ 'E' := by
    intro c hc
    have mem := hr c hc
    simp only [List.mem_cons, List.not_mem_nil, or_false] at mem
    rcases mem with rfl | rfl | rfl <;> decide
  have power : ∀ c, (n.powerChars ++ rest).head? = some c → ¬ c.isDigit ∧ c ≠ '.' := by
    cases hp : n.power with
    | none =>
      simp only [Numeral.powerChars, hp, Option.elim_none, List.nil_append]
      exact fun c hc => ⟨(ends c hc).1, (ends c hc).2.1⟩
    | some p =>
      simp only [Numeral.powerChars, hp, Option.elim_some]
      rintro _ ⟨⟩
      decide
  have fraction : ∀ c, (n.fractionChars ++ (n.powerChars ++ rest)).head? = some c →
      ¬ c.isDigit := by
    cases hf : n.fraction with
    | none =>
      simp only [Numeral.fractionChars, hf, Option.elim_none, List.nil_append]
      exact fun c hc => (power c hc).1
    | some ds =>
      simp only [Numeral.fractionChars, hf, Option.elim_some]
      rintro _ ⟨⟩
      decide
  have first : (n.whole ++ (n.fractionChars ++ (n.powerChars ++ rest))).head? ≠ some '-' := by
    cases hw : n.whole with
    | nil => exact absurd hw h.nonempty
    | cons d ds =>
      rintro ⟨⟩
      have digit := h.digits '-' (hw ▸ List.mem_cons_self)
      simp at digit
  rw [Numeral.chars, List.append_assoc, List.append_assoc, List.append_assoc]
  simp only [readNumeral?, readSign_append first, Option.bind_eq_bind,
    readWhole?_append h.digits h.nonempty h.noZero fraction, Option.bind_some,
    readFraction?_append h power, readPower?_append n fun c hc => ⟨(ends c hc).1, (ends c hc).2.2⟩]

theorem readNumber?_chars {n : Numeral} (h : n.Valid) {rest : List Char} (hr : Follows rest) :
    readNumber? (n.chars ++ rest) = some (n.value?.getD .unread, rest) := by
  simp [readNumber?, readNumeral?_chars h hr]

/-! ## Integers -/

def ofInt (n : Int) : Numeral := ⟨decide (n < 0), digits n.natAbs, none, none⟩

theorem chars_ofInt (n : Int) : (ofInt n).chars = signed n := by
  cases n with
  | ofNat n => simp [ofInt, Numeral.chars, Numeral.fractionChars, Numeral.powerChars, signed]
  | negSucc n =>
    simp [ofInt, Numeral.chars, Numeral.fractionChars, Numeral.powerChars, signed, Int.negSucc_lt_zero]

theorem valid_ofInt (n : Int) : (ofInt n).Valid where
  digits _ := isDigit_of_mem_digits
  nonempty := digits_ne_nil _
  noZero h := by
    by_cases hn : n.natAbs = 0
    · simp [ofInt, hn, digits]
    · exact absurd h (head_digits hn)
  fraction _ h := by cases h

theorem mono_ofDigitChars (ds : List Char) (n : Nat) : n ≤ Nat.ofDigitChars 10 ds n := by
  induction ds generalizing n with
  | nil => simp
  | cons d ds ih =>
    rw [Nat.ofDigitChars_cons]
    exact Nat.le_trans (by omega) (ih _)

theorem appendDigits_of_lt {ds : List Char} {n : Nat} (h : Nat.ofDigitChars 10 ds n < wordLimit) :
    appendDigits n ds = (Nat.ofDigitChars 10 ds n, 0) := by
  induction ds generalizing n with
  | nil => simp [appendDigits]
  | cons d ds ih =>
    rw [Nat.ofDigitChars_cons, Nat.mul_comm] at *
    have next : n * 10 + (d.toNat - 48) < wordLimit := Nat.lt_of_le_of_lt (mono_ofDigitChars ds _) h
    simp only [appendDigits, next, if_true]
    exact ih h

/-- Digits of which none is in excess give the whole number. -/
theorem appendDigits_exact {ds : List Char} {n : Nat} (h : (appendDigits n ds).2 = 0) :
    (appendDigits n ds).1 = Nat.ofDigitChars 10 ds n := by
  induction ds generalizing n with
  | nil => simp [appendDigits]
  | cons d ds ih =>
    rw [Nat.ofDigitChars_cons, Nat.mul_comm]
    simp only [appendDigits] at h ⊢
    split at h
    · next next => simpa [next] using ih h
    · simp at h

theorem value?_plain (negative : Bool) (whole : List Char) :
    (Numeral.mk negative whole none none).value? =
      if (appendDigits 0 whole).2 = 0 ∧ ¬ negative then some (.int (appendDigits 0 whole).1)
      else if (appendDigits 0 whole).2 = 0 ∧ 0 < (appendDigits 0 whole).1 ∧
          (appendDigits 0 whole).1 ≤ 9223372036854775808 then
        some (.int (-(appendDigits 0 whole).1))
      else
        (Decimal.ofNumeral? negative (appendDigits 0 whole).1 (appendDigits 0 whole).2).map .real :=
  rfl

theorem value?_ofInt {n : Int} (low : -9223372036854775808 ≤ n) (high : n < wordLimit) :
    (ofInt n).value? = some (.int n) := by
  have small : n.natAbs < wordLimit := by simp only [wordLimit] at *; omega
  have read : appendDigits 0 (digits n.natAbs) = (n.natAbs, 0) := by
    have value : Nat.ofDigitChars 10 (digits n.natAbs) 0 = n.natAbs := ofDigits_digits _
    rw [appendDigits_of_lt (by rw [value]; exact small), value]
  rw [ofInt, value?_plain, read]
  by_cases hn : n < 0
  · have within : 0 < n.natAbs ∧ n.natAbs ≤ 9223372036854775808 := by omega
    have value : (-n.natAbs : Int) = n := by omega
    rw [if_neg (by simp [hn]), if_pos ⟨rfl, within⟩, value]
  · have value : (n.natAbs : Int) = n := by omega
    rw [if_pos (by simp [hn]), value]

/-- What is read as an integer was written as that integer. -/
theorem eq_of_value?_ofInt {m n : Int} (h : (ofInt n).value? = some (.int m)) : m = n := by
  have value : Nat.ofDigitChars 10 (digits n.natAbs) 0 = n.natAbs := ofDigits_digits _
  have exact := @appendDigits_exact (digits n.natAbs) 0
  rw [value] at exact
  rw [ofInt, value?_plain] at h
  split_ifs at h with hpos hneg
  · rw [exact hpos.1, Option.some.injEq, int.injEq] at h
    simp only [decide_eq_true_eq] at hpos
    omega
  · rw [exact hneg.1, Option.some.injEq, int.injEq] at h
    simp only [hneg.1, decide_eq_true_eq, true_and, Decidable.not_not] at hpos
    omega
  · simp at h

/-! ## Decimals -/

/-- The numeral as which a decimal is written. -/
def ofDecimal (d : Decimal) : Numeral :=
  let ds := digits d.digits
  let place : Int := ds.length + d.exponent
  if d.digits = 0 then ⟨d.negative, ['0'], some ['0'], none⟩
  else if 0 ≤ d.exponent ∧ place ≤ 16 then
    ⟨d.negative, ds ++ List.replicate d.exponent.toNat '0', some ['0'], none⟩
  else if 0 < place ∧ place ≤ 16 then
    ⟨d.negative, ds.take place.toNat, some (ds.drop place.toNat), none⟩
  else if -5 < place ∧ place ≤ 0 then
    ⟨d.negative, ['0'], some (List.replicate (-place).toNat '0' ++ ds), none⟩
  else
    ⟨d.negative, ds.take 1, if ds.length = 1 then none else some (ds.drop 1), some (place - 1)⟩

theorem chars_ofDecimal (d : Decimal) : (ofDecimal d).chars = d.chars := by
  have sign (n : Numeral) (hn : n.negative = d.negative)
      (h : n.whole ++ (n.fractionChars ++ n.powerChars) = d.magnitudeChars) : n.chars = d.chars := by
    rw [Numeral.chars, Decimal.chars, hn, h]
    cases d.negative <;> rfl
  unfold ofDecimal
  dsimp only
  split_ifs with h₀ h₁ h₂ h₃ h₄ <;> refine sign _ rfl ?_ <;> unfold Decimal.magnitudeChars <;>
    dsimp only
  · rw [if_pos h₀]
    rfl
  · rw [if_neg h₀, if_pos h₁]
    simp [Numeral.fractionChars, Numeral.powerChars]
  · rw [if_neg h₀, if_neg h₁, if_pos h₂]
    simp [Numeral.fractionChars, Numeral.powerChars]
  · rw [if_neg h₀, if_neg h₁, if_neg h₂, if_pos h₃]
    simp [Numeral.fractionChars, Numeral.powerChars]
  · rw [if_neg h₀, if_neg h₁, if_neg h₂, if_neg h₃, if_pos h₄]
    simp [Numeral.fractionChars, Numeral.powerChars]
  · rw [if_neg h₀, if_neg h₁, if_neg h₂, if_neg h₃, if_neg h₄]
    simp [Numeral.fractionChars, Numeral.powerChars]

/-! ## Digits of decimals -/

theorem isDigit_of_mem_zeros {n : Nat} {c : Char} (mem : c ∈ List.replicate n '0') : c.isDigit := by
  rw [List.eq_of_mem_replicate mem]
  decide

theorem isDigit_of_mem_zero {c : Char} (mem : c ∈ ['0']) : c.isDigit := isDigit_of_mem_zeros (n := 1) mem

namespace Numeral

variable {n : Numeral} {d : Decimal}

/-- A zero before the point. -/
theorem valid_of_zero {negative : Bool} {ds : List Char} {power : Option Int} (nonempty : ds ≠ [])
    (digits : ∀ c ∈ ds, c.isDigit) : (Numeral.mk negative ['0'] (some ds) power).Valid where
  digits _ := isDigit_of_mem_zero
  nonempty := List.cons_ne_nil _ _
  noZero _ := rfl
  fraction := by
    rintro _ ⟨⟩
    exact ⟨nonempty, digits⟩

/-- Digits before the point that begin with those of a number. -/
theorem valid_of_head (head : n.whole.head? = (Text.digits d.digits).head?) (nonzero : d.digits ≠ 0)
    (digits : ∀ c ∈ n.whole, c.isDigit) (fraction : ∀ ds, n.fraction = some ds → ds ≠ [] ∧ ∀ c ∈ ds, c.isDigit) :
    n.Valid where
  digits := digits
  nonempty := by
    intro none
    rw [none, List.head?_nil, eq_comm, List.head?_eq_none_iff] at head
    exact digits_ne_nil d.digits head
  noZero zero := absurd (head ▸ zero) (head_digits nonzero)
  fraction := fraction

/-- A number without digits behind the point, or with a zero there. -/
theorem valid_of_whole (nonzero : d.digits ≠ 0) (negative : Bool) (zeros : Nat) {fraction : Option (List Char)}
    (plain : fraction = none ∨ fraction = some ['0']) :
    (Numeral.mk negative (Text.digits d.digits ++ List.replicate zeros '0') fraction none).Valid := by
  refine valid_of_head (d := d) ?_ nonzero ?_ ?_
  · obtain ⟨c, cs, hds, _⟩ := exists_digits_eq_cons d.digits
    simp [hds]
  · exact fun c mem => (List.mem_append.mp mem).elim isDigit_of_mem_digits isDigit_of_mem_zeros
  · rintro ds rfl
    obtain rfl : ds = ['0'] := by simpa using plain
    exact ⟨List.cons_ne_nil _ _, fun _ => isDigit_of_mem_zero⟩

/-- The digits of a number with a point between them. -/
theorem valid_of_split (nonzero : d.digits ≠ 0) (negative : Bool) {place : Nat} {power : Option Int} (first : 0 < place)
    (last : place < (Text.digits d.digits).length) :
    (Numeral.mk negative ((Text.digits d.digits).take place) (some ((Text.digits d.digits).drop place)) power).Valid := by
  refine valid_of_head (d := d) (List.head?_take.trans (if_neg (Nat.ne_of_gt first))) nonzero ?_ ?_
  · exact fun c mem => isDigit_of_mem_digits (List.mem_of_mem_take mem)
  · rintro _ ⟨⟩
    refine ⟨?_, fun c mem => isDigit_of_mem_digits (List.mem_of_mem_drop mem)⟩
    simpa only [ne_eq, List.drop_eq_nil_iff, Nat.not_le] using last

/-- Zeros behind the point before the digits of a number. -/
theorem valid_of_small (negative : Bool) (zeros : Nat) :
    (Numeral.mk negative ['0'] (some (List.replicate zeros '0' ++ Text.digits d.digits)) none).Valid :=
  valid_of_zero (List.append_ne_nil_of_right_ne_nil _ (digits_ne_nil _)) fun _ mem =>
    (List.mem_append.mp mem).elim isDigit_of_mem_zeros isDigit_of_mem_digits

end Numeral

theorem valid_ofDecimal (d : Decimal) : (ofDecimal d).Valid := by
  obtain ⟨c, cs, hds, _⟩ := exists_digits_eq_cons d.digits
  unfold ofDecimal
  dsimp only
  split_ifs with h₀ h₁ h₂ h₃ h₄
  · exact Numeral.valid_of_zero (List.cons_ne_nil _ _) fun _ => isDigit_of_mem_zero
  · exact Numeral.valid_of_whole h₀ d.negative _ (.inr rfl)
  · exact Numeral.valid_of_split h₀ d.negative (by omega) (by omega)
  · exact Numeral.valid_of_small d.negative _
  · refine Numeral.valid_of_head (d := d) (List.head?_take.trans (if_neg (by simp))) h₀ ?_ nofun
    exact fun c mem => isDigit_of_mem_digits (List.mem_of_mem_take mem)
  · refine Numeral.valid_of_split h₀ d.negative Nat.one_pos ?_
    simp only [hds, List.length_cons, Nat.add_eq_right, List.length_eq_zero_iff] at h₄ ⊢
    exact Nat.succ_lt_succ (List.length_pos_iff.mpr h₄)

theorem valid_inPlace (d : Decimal) : (Numeral.inPlace d).Valid := by
  unfold Numeral.inPlace
  dsimp only
  split_ifs with h₀ h₁ h₂ h₃
  · exact Numeral.valid_of_zero (List.cons_ne_nil _ _) fun _ => isDigit_of_mem_zero
  · exact Numeral.valid_of_whole h₀ d.negative _ (.inr rfl)
  · exact Numeral.valid_of_whole h₀ d.negative _ (.inl rfl)
  · exact Numeral.valid_of_split h₀ d.negative (by omega) (by omega)
  · exact Numeral.valid_of_small d.negative _

end Json

end Timetable
