import Timetable.Instant.Civil

/-!
# The order of the calendar

* `Date.valid_ofDayNumber`, `Date.dayNumber_ofDayNumber`: every day has a date of the calendar, which counts
  back to it;
* `Date.yearStart_le_dayNumber`, `Date.dayNumber_lt_yearStart`: a date lies in its year;
* `Date.dayNumber_lt_of_month_lt`, `Date.dayNumber_lt_of_year_lt`: days count up with months and years, so a day has one
  date (`Date.dayNumber_inj`);
* `Instant.instant_civil`, `Civil.civil_instant`: an instant and its date and time of day determine each other.
-/

namespace Timetable

theorem yearStart_mono {a b : Int} (h : a ≤ b) : yearStart a ≤ yearStart b := by
  have ha := leapsBefore_bounds a
  have hb := leapsBefore_bounds b
  rcases Int.lt_or_eq_of_le h with h | rfl
  · simp only [yearStart]
    omega
  · exact Int.le_refl _

/-! ## Months -/

namespace Date

theorem daysOfFirst_succ (n : Nat) (lengths : List Nat) :
    daysOfFirst (n + 1) lengths = daysOfFirst n lengths + lengths.getD n 0 := by
  induction lengths generalizing n with
  | nil => cases n <;> simp [daysOfFirst]
  | cons length lengths ih =>
    cases n with
    | zero => simp [daysOfFirst]
    | succ n =>
      simp only [daysOfFirst, List.getD_cons_succ] at ih ⊢
      rw [ih n]
      omega

theorem daysOfFirst_mono {m n : Nat} (h : m ≤ n) (lengths : List Nat) :
    daysOfFirst m lengths ≤ daysOfFirst n lengths := by
  induction h with
  | refl => exact Nat.le_refl _
  | step _ ih =>
    rw [daysOfFirst_succ]
    omega

theorem daysOfFirst_year (year : Int) :
    daysOfFirst 12 (monthLengths year) = if isLeap year then 366 else 365 := by
  simp only [monthLengths]
  cases isLeap year <;> rfl

theorem daysInMonth_eq {year : Int} {month : Nat} (h : 1 ≤ month) :
    daysInMonth year month = (monthLengths year).getD (month - 1) 0 := by
  rw [daysInMonth, if_neg (by omega)]

/-- The months before a month, and the month itself, end by the start of a later one. -/
theorem daysOfFirst_add_daysInMonth (year : Int) {month : Nat} (h : 1 ≤ month) :
    daysOfFirst (month - 1) (monthLengths year) + daysInMonth year month =
      daysOfFirst month (monthLengths year) := by
  obtain ⟨n, rfl⟩ : ∃ n, month = n + 1 := ⟨month - 1, by omega⟩
  rw [daysInMonth_eq h, Nat.add_sub_cancel, daysOfFirst_succ]

/-! ## The order of dates -/

theorem yearStart_le_dayNumber {d : Date} (h : d.Valid) : yearStart d.year ≤ d.dayNumber := by
  obtain ⟨_, _, hd, _⟩ := h
  simp only [dayNumber]
  omega

theorem dayNumber_lt_yearStart {d : Date} (h : d.Valid) : d.dayNumber < yearStart (d.year + 1) := by
  obtain ⟨hm, hm', _, hd⟩ := h
  have upto := daysOfFirst_add_daysInMonth d.year hm
  have whole := daysOfFirst_mono hm' (monthLengths d.year)
  rw [daysOfFirst_year] at whole
  rw [yearStart_succ]
  simp only [dayNumber]
  split <;> simp_all <;> omega

theorem dayNumber_lt_of_year_lt {d e : Date} (hd : d.Valid) (he : e.Valid) (h : d.year < e.year) :
    d.dayNumber < e.dayNumber :=
  calc d.dayNumber < yearStart (d.year + 1) := dayNumber_lt_yearStart hd
    _ ≤ yearStart e.year := yearStart_mono h
    _ ≤ e.dayNumber := yearStart_le_dayNumber he

theorem dayNumber_lt_of_month_lt {d e : Date} (hd : d.Valid) (he : e.Valid)
    (hy : d.year = e.year) (h : d.month < e.month) : d.dayNumber < e.dayNumber := by
  obtain ⟨hm, _, _, hday⟩ := hd
  obtain ⟨_, _, heday, _⟩ := he
  have upto := daysOfFirst_add_daysInMonth d.year hm
  have earlier := daysOfFirst_mono (n := e.month - 1) (by omega : d.month ≤ e.month - 1)
    (monthLengths d.year)
  simp only [dayNumber, ← hy]
  omega

/-- A day has one date. -/
theorem dayNumber_inj {d e : Date} (hd : d.Valid) (he : e.Valid) (h : d.dayNumber = e.dayNumber) : d = e := by
  have year : d.year = e.year := by
    rcases Int.lt_trichotomy d.year e.year with before | same | after
    · exact absurd h (Int.ne_of_lt (dayNumber_lt_of_year_lt hd he before))
    · exact same
    · exact absurd h.symm (Int.ne_of_lt (dayNumber_lt_of_year_lt he hd after))
  have month : d.month = e.month := by
    rcases Nat.lt_trichotomy d.month e.month with before | same | after
    · exact absurd h (Int.ne_of_lt (dayNumber_lt_of_month_lt hd he year before))
    · exact same
    · exact absurd h.symm (Int.ne_of_lt (dayNumber_lt_of_month_lt he hd year.symm after))
  have day : d.day = e.day := by
    simp only [dayNumber, year, month] at h
    omega
  cases d
  cases e
  simp only [mk.injEq]
  exact ⟨year, month, day⟩

/-! ## The date of a day -/

/-- Walking lands in a month, on a day of it that lies as far from the start as was asked. -/
theorem walkMonths_spec {lengths : List Nat} (month : Nat) {rest : Nat}
    (h : rest < daysOfFirst lengths.length lengths) :
    ∃ n, n < lengths.length ∧ (walkMonths lengths month rest).1 = month + n ∧
      1 ≤ (walkMonths lengths month rest).2 ∧
      (walkMonths lengths month rest).2 ≤ lengths.getD n 0 ∧
      daysOfFirst n lengths + (walkMonths lengths month rest).2 = rest + 1 := by
  induction lengths generalizing month rest with
  | nil => simp [daysOfFirst] at h
  | cons length lengths ih =>
    simp only [List.length_cons, daysOfFirst] at h
    by_cases hr : rest < length
    · refine ⟨0, by simp, ?_⟩
      simp only [walkMonths, hr, if_true, List.getD_cons_zero, daysOfFirst]
      omega
    · obtain ⟨n, hn, hmonth, hlow, hhigh, hsum⟩ :=
        ih (month + 1) (by omega : rest - length < daysOfFirst lengths.length lengths)
      refine ⟨n + 1, by simpa using hn, ?_, ?_, ?_, ?_⟩ <;>
        simp only [walkMonths, hr, if_false, List.getD_cons_succ, daysOfFirst]
      · omega
      · exact hlow
      · exact hhigh
      · omega

theorem ofDayNumber_spec (day : Int) :
    (ofDayNumber day).Valid ∧ (ofDayNumber day).dayNumber = day := by
  have start := yearStart_yearOfDay_le day
  have stop := lt_yearStart_yearOfDay_succ day
  rw [yearStart_succ] at stop
  have inYear : (day - yearStart (yearOfDay day)).toNat <
      daysOfFirst (monthLengths (yearOfDay day)).length (monthLengths (yearOfDay day)) := by
    show _ < daysOfFirst 12 _
    rw [daysOfFirst_year]
    split <;> simp_all <;> omega
  obtain ⟨n, hn, hmonth, hlow, hhigh, hsum⟩ := walkMonths_spec 1 inYear
  have hn' : n < 12 := hn
  simp only [ofDayNumber, Valid, dayNumber, hmonth, Nat.add_sub_cancel_left]
  refine ⟨⟨by omega, by omega, hlow, ?_⟩, by omega⟩
  rw [daysInMonth_eq (by omega), Nat.add_sub_cancel_left]
  exact hhigh

theorem valid_ofDayNumber (day : Int) : (ofDayNumber day).Valid := (ofDayNumber_spec day).1

theorem dayNumber_ofDayNumber (day : Int) : (ofDayNumber day).dayNumber = day :=
  (ofDayNumber_spec day).2

end Date

/-! ## Dates with a time of day -/

theorem Instant.timeOfDay_bounds (t : Instant) :
    0 ≤ t.timeOfDay ∧ t.timeOfDay < 86400 := by
  simp only [Instant.timeOfDay, Instant.secondsPerDay]
  omega

theorem Instant.ofDay_civil (t : Instant) : (t.civil.ofDay : Int) = t.timeOfDay := by
  have := t.timeOfDay_bounds
  simp only [Civil.ofDay, Instant.civil]
  omega

theorem Instant.instant_civil (t : Instant) : t.civil.instant = t := by
  rw [Instant.ext_iff']
  refine ⟨?_, rfl⟩
  have hday : t.civil.date.dayNumber = t.dayNumber := Date.dayNumber_ofDayNumber _
  simp only [Civil.instant, hday, t.ofDay_civil, Instant.dayNumber, Instant.timeOfDay,
    Instant.secondsPerDay]
  omega

/-- The other way round for a date of the calendar with a time of day. -/
theorem Civil.civil_instant {c : Civil} (valid : c.date.Valid) (hour : c.hour ≤ 23) (minute : c.minute ≤ 59)
    (second : c.second ≤ 59) : c.instant.civil = c := by
  obtain ⟨date, h, m, s, nano⟩ := c
  have day : (Civil.mk date h m s nano).instant.dayNumber = date.dayNumber := by
    simp only [Instant.dayNumber, Civil.instant, Civil.ofDay, Instant.secondsPerDay] at *
    omega
  have time : (Civil.mk date h m s nano).instant.timeOfDay = ((h * 60 + m) * 60 + s : Nat) := by
    simp only [Instant.timeOfDay, Civil.instant, Civil.ofDay, Instant.secondsPerDay] at *
    omega
  have same : Date.ofDayNumber date.dayNumber = date :=
    Date.dayNumber_inj (Date.valid_ofDayNumber _) valid (Date.dayNumber_ofDayNumber _)
  simp only [Instant.civil, day, time, same, Int.toNat_natCast, Civil.instant, Civil.mk.injEq, true_and, and_true] at *
  omega

end Timetable
