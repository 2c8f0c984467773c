import Mathlib.Data.Nat.Digits.Defs
import Timetable.Instant.Text
import Timetable.Proofs.Instant.Civil

/-!
# Written instants are read back

Each reader takes what the writer of its part has put in front of a text, and leaves what follows: years
(`readYear_yearText`), dates (`readDate_dateText`), fractions of a second (`readFraction_fractionText`) and times of day
(`readTime_timeText`). So an instant of the calendar is read as it was written (`ofText?_text`), also in a leap second if
that is the last of its minute. No text stands for any other (`legible_iff`).
-/

namespace Timetable

namespace Text

theorem isDigit_of_mem_padded {width n : Nat} {c : Char} (h : c ∈ padded width n) : c.isDigit := by
  rcases List.mem_append.mp h with zero | digit
  · rw [List.eq_of_mem_replicate zero]
    decide
  · exact isDigit_of_mem_digits digit

theorem length_digits_le {width n : Nat} (pos : 0 < width) (h : n < 10 ^ width) : (digits n).length ≤ width :=
  Nat.toDigits_length 10 n width pos h

theorem length_padded {width n : Nat} (pos : 0 < width) (h : n < 10 ^ width) : (padded width n).length = width := by
  have := length_digits_le pos h
  rw [padded, List.length_append, List.length_replicate]
  omega

theorem exists_padded_eq_cons (width n : Nat) : ∃ c cs, padded width n = c :: cs ∧ c.isDigit := by
  cases h : padded width n with
  | nil =>
    rw [padded, List.append_eq_nil_iff] at h
    exact absurd h.2 (digits_ne_nil n)
  | cons c cs => exact ⟨c, cs, rfl, isDigit_of_mem_padded (h ▸ List.mem_cons_self)⟩

/-- A padded number is read up to the next character that is no digit, or up to the limit. -/
theorem readNat_padded {limit width n : Nat} {rest : List Char} (fits : (padded width n).length ≤ limit)
    (ends : (padded width n).length = limit ∨ ∀ c, rest.head? = some c → ¬ c.isDigit) :
    readNat limit (padded width n ++ rest) = some (n, rest) := by
  have value := ofDigits_padded width n
  obtain ⟨c, cs, hc, _⟩ := exists_padded_eq_cons width n
  rw [readNat, spanDigits_append (fun c => isDigit_of_mem_padded) fits ends]
  rw [hc] at value ⊢
  exact congrArg (fun m => some (m, rest)) value

theorem not_isBlank_of_isDigit {c : Char} (h : c.isDigit) : isBlank c = false := by
  have zero : '0'.val.toNat = 48 := rfl
  have nine : '9'.val.toNat = 57 := rfl
  simp only [Char.isDigit, Bool.and_eq_true, decide_eq_true_eq, ge_iff_le, UInt32.le_iff_toNat_le] at h
  simp only [isBlank, Bool.or_eq_false_iff, Bool.and_eq_false_iff, decide_eq_false_iff_not, beq_eq_false_iff_ne, ne_eq,
    UInt32.le_iff_toNat_le, ← UInt32.toNat_inj, UInt32.reduceToNat]
  omega

theorem trimStart_padded (width n : Nat) (rest : List Char) :
    trimStart (padded width n ++ rest) = padded width n ++ rest := by
  obtain ⟨c, cs, hc, digit⟩ := exists_padded_eq_cons width n
  rw [hc, List.cons_append, trimStart, List.dropWhile_cons, not_isBlank_of_isDigit digit]
  rfl

variable {limit : Nat} {cs ds rest : List Char}

/-- What is spanned are digits, and no more than the limit. -/
theorem spanDigits_spec (read : spanDigits limit cs = (ds, rest)) : (∀ c ∈ ds, c.isDigit) ∧ ds.length ≤ limit := by
  induction limit generalizing cs ds with
  | zero =>
    cases read
    exact ⟨nofun, Nat.le_refl 0⟩
  | succ limit ih =>
    cases cs with
    | nil =>
      cases read
      exact ⟨nofun, Nat.zero_le _⟩
    | cons c cs =>
      rw [spanDigits] at read
      split at read
      · next digit =>
        cases read
        obtain ⟨digits, few⟩ := ih rfl
        exact ⟨List.forall_mem_cons.mpr ⟨digit, digits⟩, Nat.succ_le_succ few⟩
      · cases read
        exact ⟨nofun, Nat.zero_le _⟩

theorem ofDigitChars_lt (h : ∀ c ∈ ds, c.isDigit) (n : Nat) :
    Nat.ofDigitChars 10 ds n < (n + 1) * 10 ^ ds.length := by
  induction ds generalizing n with
  | nil => simp
  | cons d ds ih =>
    obtain ⟨digit, digits⟩ := List.forall_mem_cons.mp h
    have small : d.toNat - '0'.toNat < 10 := by
      simp only [Char.isDigit, Bool.and_eq_true, decide_eq_true_eq, ge_iff_le, UInt32.le_iff_toNat_le] at digit
      have : d.toNat ≤ 57 := digit.2
      have : '0'.toNat = 48 := rfl
      omega
    rw [Nat.ofDigitChars_cons]
    refine Nat.lt_of_lt_of_le (ih digits _) ?_
    rw [List.length_cons, Nat.pow_succ', ← Nat.mul_assoc]
    exact Nat.mul_le_mul_right _ (by omega)

theorem ofDigits_lt (h : ∀ c ∈ ds, c.isDigit) : ofDigits ds < 10 ^ ds.length := by
  have bound := ofDigitChars_lt h 0
  rwa [Nat.zero_add, Nat.one_mul] at bound

end Text

namespace Instant

open Text

/-- A text that goes on with a mark, so that digits before it end there. -/
theorem not_isDigit_of_head {c : Char} {rest : List Char} (h : ¬ c.isDigit) :
    ∀ d, (c :: rest).head? = some d → ¬ d.isDigit := by
  rintro _ ⟨⟩
  exact h

theorem skipMark_cons {mark : Char} (h : isBlank mark = false) (rest : List Char) :
    skipMark mark (mark :: rest) = some rest := by
  simp [skipMark, trimStart, h]

theorem readPair_padded {n : Nat} (h : n < 100) (rest : List Char) :
    readPair (padded 2 n ++ rest) = some (n, rest) := by
  have two : (padded 2 n).length = 2 := length_padded (by decide) h
  rw [readPair, trimStart_padded, readNat_padded (by omega) (.inl two)]

/-! ## Dates -/

theorem readYear_yearText (year : Int) {rest : List Char} (ends : ∀ c, rest.head? = some c → ¬ c.isDigit) :
    readYear (yearText year ++ rest) = some (year, rest) := by
  have read : readNat (padded 4 year.natAbs ++ rest).length (padded 4 year.natAbs ++ rest) =
      some (year.natAbs, rest) := readNat_padded (by simp) (.inr ends)
  unfold yearText
  split
  · next negative =>
    have value : -|year| = year := by rw [abs_of_neg negative, neg_neg]
    simp [readYear, trimStart, show isBlank '-' = false from rfl, read, value, -List.length_append]
  · have value : (year.natAbs : Int) = year := by omega
    split
    · have four : (padded 4 year.natAbs).length = 4 := length_padded (by decide) (by omega)
      have read : readNat 4 (padded 4 year.natAbs ++ rest) = some (year.natAbs, rest) :=
        readNat_padded (by omega) (.inl four)
      obtain ⟨c, cs, hc, digit⟩ := exists_padded_eq_cons 4 year.natAbs
      rw [readYear, trimStart_padded]
      rw [hc, List.cons_append] at read ⊢
      split
      · next h =>
        rw [(List.cons.inj h).1] at digit
        cases digit
      · next h =>
        rw [(List.cons.inj h).1] at digit
        cases digit
      · simp [read, value]
    · simp [readYear, trimStart, show isBlank '+' = false from rfl, read, value, -List.length_append]

theorem lt_of_valid {d : Date} (h : d.Valid) : d.month < 100 ∧ d.day < 100 := by
  obtain ⟨low, high, _, day⟩ := h
  have lengths : ∀ leap : Bool, ∀ n < 12,
      [31, if leap then 29 else 28, 31, 30, 31, 30, 31, 31, 30, 31, 30, 31].getD n 0 ≤ 31 := by decide
  have few := lengths (isLeap d.year) (d.month - 1) (by omega)
  rw [Date.daysInMonth_eq low, monthLengths] at day
  omega

theorem readDate_dateText {d : Date} (h : d.Valid) (rest : List Char) :
    readDate (dateText d ++ rest) = some (d, rest) := by
  obtain ⟨month, day⟩ := lt_of_valid h
  have minus : isBlank '-' = false := rfl
  simp only [dateText, List.append_assoc, List.cons_append, readDate]
  rw [readYear_yearText d.year (not_isDigit_of_head (by decide))]
  simp only [Option.bind_eq_bind, Option.bind_some, skipMark_cons minus, readPair_padded month, readPair_padded day,
    h, if_true]

/-! ## Times of day -/

theorem readFraction_fractionText {nano : Nat} (h : nano < 1000000000) (rest : List Char) :
    readFraction (fractionText nano ++ 'Z' :: rest) = some (nano, 'Z' :: rest) := by
  have digits {width n : Nat} (pos : 0 < width) (nine : width ≤ 9) (fits : n < 10 ^ width)
      (same : n * 10 ^ (9 - width) = nano) :
      readFraction ('.' :: padded width n ++ 'Z' :: rest) = some (nano, 'Z' :: rest) := by
    have length := length_padded pos fits
    have span : spanDigits 9 (padded width n ++ 'Z' :: rest) = (padded width n, 'Z' :: rest) :=
      spanDigits_append (fun c => isDigit_of_mem_padded) (by omega) (.inr (not_isDigit_of_head (by decide)))
    have value := ofDigits_padded width n
    obtain ⟨c, cs, hc, _⟩ := exists_padded_eq_cons width n
    rw [hc] at span value length
    rw [hc, List.cons_append, readFraction, span]
    simp only [value, length, Nat.pow_eq, same]
    rfl
  unfold fractionText
  split_ifs with zero thousand million
  · subst zero
    rfl
  · exact digits (by decide) (by decide) (by omega) (by omega)
  · exact digits (by decide) (by decide) (by omega) (by omega)
  · exact digits (by decide) (by decide) (by omega) (by omega)

theorem readTime_timeText {c : Civil} (hour : c.hour < 24) (minute : c.minute < 60) (second : c.second < 60)
    (ends : 1000000000 ≤ c.nano.val → c.second = 59) (rest : List Char) :
    readTime c.date (timeText c ++ 'Z' :: rest) = some (c, 'Z' :: rest) := by
  have colon : isBlank ':' = false := rfl
  have bound := c.nano.isLt
  have part : c.nano.val % 1000000000 < 1000000000 := Nat.mod_lt _ (by decide)
  have again : leapAware (c.second + c.nano.val / 1000000000) (c.nano.val % 1000000000) = (c.second, c.nano) := by
    unfold leapAware
    split
    · next leap =>
      have last : c.second = 59 := by omega
      have same : nanosInto (1000000000 + c.nano.val % 1000000000) = c.nano := Fin.ext (by rw [val_nanosInto]; omega)
      rw [same, last]
    · next ordinary =>
      have whole : c.second + c.nano.val / 1000000000 = c.second := by omega
      have same : nanosInto (c.nano.val % 1000000000) = c.nano := Fin.ext (by rw [val_nanosInto]; omega)
      rw [same, whole]
  simp only [timeText, List.append_assoc, List.cons_append, readTime]
  rw [readPair_padded (by omega)]
  simp only [Option.bind_eq_bind, Option.bind_some, skipMark_cons colon]
  rw [readPair_padded (by omega)]
  simp only [Option.bind_some, skipMark_cons colon]
  rw [readPair_padded (by omega)]
  simp only [Option.bind_some, readFraction_fractionText part]
  rw [if_pos ⟨hour, minute, by omega⟩, again]

/-! ## Instants -/

/-- A leap second is the last of a minute. -/
def EndsMinute (t : Instant) : Prop := t.InLeapSecond → t.second % 60 = 59

instance (t : Instant) : Decidable t.EndsMinute := inferInstanceAs (Decidable (_ → _))

/-- An instant of the calendar is read as it was written. -/
theorem ofText?_text {t : Instant} (rep : t.Representable) (minute : t.EndsMinute) :
    ofText? t.text = some t := by
  have valid : t.civil.date.Valid := Date.valid_ofDayNumber _
  have bounds := t.timeOfDay_bounds
  have time : readTime t.civil.date (timeText t.civil ++ ['Z']) = some (t.civil, ['Z']) := by
    unfold EndsMinute InLeapSecond at minute
    unfold timeOfDay secondsPerDay at bounds
    refine readTime_timeText ?_ ?_ ?_ (fun leap => ?_) [] <;>
      simp only [civil, timeOfDay, secondsPerDay] at * <;> omega
  have same := t.instant_civil
  rw [ofText?, text, String.toList_ofList, chars, List.append_assoc, List.cons_append, ofChars?,
    readDate_dateText valid]
  have offset : readOffset (trimStart ['Z']) = some (0, []) := rfl
  have read : (⟨t.civil.instant.second - 0, t.civil.nano⟩ : Instant) = t := by
    rw [same, Int.sub_zero]
    rfl
  simp only [Option.bind_eq_bind, Option.bind_some, readMiddle, time, offset, read]
  rw [if_pos ⟨rfl, same.symm ▸ rep, rep⟩]

/-! ## What can be read -/

variable {cs rest : List Char} {t : Instant}

theorem readFraction_lt {nano : Nat} (read : readFraction cs = some (nano, rest)) : nano < 1000000000 := by
  unfold readFraction at read
  split at read
  · split at read
    · cases read
    · next span =>
      cases read
      obtain ⟨digits, few⟩ := spanDigits_spec span
      calc ofDigits _ * Nat.pow 10 (9 - _) < 10 ^ _ * 10 ^ (9 - _) :=
            Nat.mul_lt_mul_of_pos_right (ofDigits_lt digits) (Nat.pow_pos (by decide))
        _ = 1000000000 := by rw [← Nat.pow_add, Nat.add_sub_cancel' few]
  · cases read
    decide

theorem leapAware_ends {second nano : Nat} (small : nano < 1000000000)
    (leap : 1000000000 ≤ (leapAware second nano).2.val) : (leapAware second nano).1 = 59 := by
  unfold leapAware at leap ⊢
  split at leap
  · next last => rw [if_pos last]
  · rw [val_nanosInto] at leap
    omega

/-- A leap second that is read is the sixtieth second of its minute. -/
theorem readTime_ends {date : Date} {c : Civil} (read : readTime date cs = some (c, rest))
    (leap : 1000000000 ≤ c.nano.val) : c.second = 59 := by
  simp only [readTime, Option.bind_eq_bind, Option.bind_eq_some_iff] at read
  obtain ⟨⟨hour, _⟩, -, _, -, ⟨minute, _⟩, -, _, -, ⟨second, _⟩, -, ⟨nano, _⟩, fraction, read⟩ := read
  obtain ⟨-, ⟨⟩⟩ := Option.ite_none_right_eq_some.mp read
  exact leapAware_ends (readFraction_lt fraction) leap

theorem readOffset_dvd {offset : Int} (read : readOffset cs = some (offset, rest)) : 60 ∣ offset := by
  unfold readOffset at read
  split at read
  · cases read
    exact Int.dvd_zero 60
  · cases read
    exact Int.dvd_zero 60
  · split at read
    · cases read
      exact Int.dvd_zero 60
    · simp only [Option.bind_eq_bind, Option.bind_eq_some_iff] at read
      obtain ⟨⟨sign, _⟩, -, ⟨hours, _⟩, -, ⟨minutes, _⟩, -, read⟩ := read
      obtain ⟨-, ⟨⟩⟩ := Option.ite_none_right_eq_some.mp read
      refine Dvd.dvd.mul_left ?_ sign
      omega

/-- What a text can stand for: within the calendar, and in a leap second only at the end of a minute. -/
structure Legible (t : Instant) : Prop where
  representable : t.Representable
  minute : t.EndsMinute

theorem Legible.read (h : t.Legible) : ofText? t.text = some t := ofText?_text h.representable h.minute

theorem legible_of_read {s : String} (read : ofText? s = some t) : t.Legible := by
  simp only [ofText?, ofChars?, Option.bind_eq_bind, Option.bind_eq_some_iff] at read
  obtain ⟨_, -, _, -, ⟨civil, _⟩, time, ⟨offset, _⟩, shift, read⟩ := read
  obtain ⟨⟨-, -, representable⟩, ⟨⟩⟩ := Option.ite_none_right_eq_some.mp read
  refine ⟨representable, fun leap => ?_⟩
  have last := readTime_ends time leap
  obtain ⟨minutes, rfl⟩ := readOffset_dvd shift
  simp only [Civil.instant, Civil.ofDay, secondsPerDay]
  omega

theorem legible_iff : t.Legible ↔ ∃ s, ofText? s = some t :=
  ⟨fun h => ⟨t.text, h.read⟩, fun ⟨_, read⟩ => legible_of_read read⟩

end Instant

end Timetable
