import Mathlib.Data.Option.Basic
import Mathlib.Tactic.SplitIfs
import Timetable.Cron.Search
import Timetable.Proofs.Instant.Civil

/-!
# Occurrences lie ahead

The search for an occurrence starts fresh in each unit only where all larger units are those of the start, so
it never looks before the start (`Pattern.search_spec`). An occurrence after an instant therefore comes later, at a
whole second, and within the calendar (`Pattern.nextAfter_spec`).
-/

namespace Timetable.Cron

/-! ## Values of a unit -/

theorem Field.sorted_all (f : Field) : f.all.Pairwise (· < ·) := List.pairwise_lt_range'

theorem Field.high_of_mem_all {f : Field} {n : Nat} (h : n ∈ f.all) (hf : f.low ≤ f.high) :
    n ≤ f.high := ((mem_all hf).mp h).2

theorem Field.low_of_mem_all {f : Field} {n : Nat} (h : n ∈ f.all) (hf : f.low ≤ f.high) :
    f.low ≤ n := ((mem_all hf).mp h).1

namespace Pattern

/-- The values of every unit are ascending and within its range. -/
structure Regular (p : Pattern) : Prop where
  seconds : p.seconds.Sublist Field.seconds.all
  minutes : p.minutes.Sublist Field.minutes.all
  hours : p.hours.Sublist Field.hours.all
  days : p.days.Sublist Field.days.all
  months : p.months.Sublist Field.months.all
  weekdays : p.weekdays.Sublist Field.weekdays.all
  years : p.years.Sublist Field.years.all

theorem sublist_of_field? {f : Field} {cs rest : List Char} {ns : List Nat}
    (h : field? f cs = some (ns, rest)) : ns.Sublist f.all := by
  simp only [field?, Field.ofItems?, Option.bind_eq_bind, Option.bind_eq_some_iff,
    Option.some.injEq, Prod.mk.injEq, Prod.exists] at h
  obtain ⟨_, _, _, _, ⟨_, _, rfl⟩, rfl, _⟩ := h
  exact List.filter_sublist

theorem regular_of_mem_words {w : String × Pattern} (h : w ∈ words) : w.2.Regular := by
  simp only [words, List.mem_cons, List.not_mem_nil, or_false] at h
  rcases h with rfl | rfl | rfl | rfl | rfl <;> constructor <;> decide

theorem regular_of_ofChars? {cs : List Char} {p : Pattern} (h : ofChars? cs = some p) :
    p.Regular := by
  rcases (Option.orElse_eq_some _ _ _).mp h with h | ⟨_, h⟩
  · obtain ⟨w, hw, rfl⟩ := Option.map_eq_some_iff.mp h
    exact regular_of_mem_words (List.mem_of_find?_eq_some hw)
  · simp only [ofFields?, Option.bind_eq_bind, Option.bind_eq_some_iff, Prod.exists] at h
    obtain ⟨_, _, h₁, _, _, h₂, _, _, h₃, _, _, h₄, _, _, h₅, _, c, h₆, h⟩ := h
    have years : ((field? .years c).getD (Field.years.all, c)).1.Sublist Field.years.all := by
      cases h₇ : field? .years c with
      | none => exact List.Sublist.refl _
      | some r => exact sublist_of_field? h₇
    split at h
    · cases h
      exact ⟨sublist_of_field? h₁, sublist_of_field? h₂, sublist_of_field? h₃,
        sublist_of_field? h₄, sublist_of_field? h₅, sublist_of_field? h₆, years⟩
    · cases h

/-! ## Choosing a value -/

variable {α : Type} {search : Bool → Nat → Option α} {r : α}

/-- Only the first of ascending values is searched fresh. -/
theorem firstOf_eq_some {fresh : Bool} {ns : List Nat} (sorted : ns.Pairwise (· < ·))
    (h : firstOf search fresh ns = some r) :
    ∃ n ∈ ns, ∃ f, search f n = some r ∧ (f = fresh ∨ ∃ m ∈ ns, m < n) := by
  induction ns generalizing fresh with
  | nil => cases h
  | cons n ns ih =>
    simp only [firstOf] at h
    split at h
    · next hr =>
      cases h
      exact ⟨n, List.mem_cons_self, fresh, hr, .inl rfl⟩
    · obtain ⟨n', hn', f, hf, _⟩ := ih sorted.of_cons h
      have later : n < n' := List.rel_of_pairwise_cons sorted hn'
      exact ⟨n', List.mem_cons_of_mem _ hn', f, hf, .inr ⟨n, List.mem_cons_self, later⟩⟩

/-- Where the search of some values is fresh, it is fresh at the bound. -/
theorem firstOf_filter_eq_some {fresh : Bool} {values : List Nat} {bound : Nat} {keep : Nat → Bool}
    (sorted : values.Pairwise (· < ·))
    (h : firstOf search (fresh && values.contains bound) (values.filter keep) = some r) :
    ∃ n ∈ values, keep n = true ∧ ∃ f, search f n = some r ∧
      ((∀ m, keep m = true → bound ≤ m) → fresh = true → n = bound → f = true) := by
  obtain ⟨n, hn, f, hf, hfresh⟩ := firstOf_eq_some (sorted.filter _) h
  obtain ⟨hmem, hkeep⟩ := List.mem_filter.mp hn
  refine ⟨n, hmem, hkeep, f, hf, ?_⟩
  rintro above rfl rfl
  rcases hfresh with rfl | ⟨m, hm, hlt⟩
  · simpa using hmem
  · exact absurd (above m (List.mem_filter.mp hm).2) (Nat.not_le.mpr hlt)

theorem searchFrom_eq_some {fresh : Bool} {values : List Nat} {bound : Nat}
    (sorted : values.Pairwise (· < ·)) (h : searchFrom search values bound fresh = some r) :
    ∃ n ∈ values, bound ≤ n ∧ ∃ f, search f n = some r ∧ (fresh = true → n = bound → f = true) := by
  obtain ⟨n, hmem, hkeep, f, hf, hfresh⟩ := firstOf_filter_eq_some sorted h
  exact ⟨n, hmem, by simpa using hkeep, f, hf, hfresh (by simp)⟩

/-! ## The search, unit by unit -/

/-- The units of the time of day are within their ranges. -/
def Timely (c : Civil) : Prop := c.hour ≤ 23 ∧ c.minute ≤ 59 ∧ c.second ≤ 59

variable {p : Pattern} {i c : Civil} {fresh : Bool}

theorem inMinute_spec {date : Date} {hour minute : Nat}
    (h : p.inMinute i date hour minute fresh = some c) :
    ∃ second ∈ p.seconds, c = ⟨date, hour, minute, second, Instant.nanosInto 0⟩ ∧
      (fresh = true → i.second ≤ second) := by
  obtain ⟨second, hs, rfl⟩ := Option.map_eq_some_iff.mp h
  refine ⟨second, List.mem_of_find?_eq_some hs, rfl, ?_⟩
  rintro rfl
  simpa using List.find?_some hs

theorem inHour_spec (reg : p.Regular) (hi : Timely i) {date : Date} {hour : Nat}
    (h : p.inHour i date hour fresh = some c) :
    c.date = date ∧ c.hour = hour ∧ c.minute ≤ 59 ∧ c.second ≤ 59 ∧ c.nano.val = 0 ∧
      (fresh = true → i.minute * 60 + i.second ≤ c.minute * 60 + c.second) := by
  obtain ⟨minute, hm, hbound, f, hf, hfresh⟩ :=
    searchFrom_eq_some (Field.sorted_all _ |>.sublist reg.minutes) h
  obtain ⟨second, hs, rfl, hsec⟩ := inMinute_spec hf
  have minuteHigh := Field.high_of_mem_all (reg.minutes.subset hm) (by decide)
  have secondHigh := Field.high_of_mem_all (reg.seconds.subset hs) (by decide)
  refine ⟨rfl, rfl, minuteHigh, secondHigh, rfl, ?_⟩
  rintro rfl
  simp only [if_true] at hbound hfresh
  obtain ⟨_, _, hisec⟩ := hi
  show _ ≤ minute * 60 + second
  rcases Nat.lt_or_eq_of_le hbound with hlt | rfl
  · omega
  · have := hsec (hfresh trivial rfl)
    omega

theorem inDay_spec (reg : p.Regular) (hi : Timely i) {date : Date}
    (h : p.inDay i date fresh = some c) :
    c.date = date ∧ Timely c ∧ c.nano.val = 0 ∧ (fresh = true → i.ofDay ≤ c.ofDay) := by
  unfold inDay at h
  split at h
  · obtain ⟨hour, hh, hbound, f, hf, hfresh⟩ :=
      searchFrom_eq_some (Field.sorted_all _ |>.sublist reg.hours) h
    obtain ⟨hdate, rfl, hmin, hsec, hnano, hrest⟩ := inHour_spec reg hi hf
    have hourHigh := Field.high_of_mem_all (reg.hours.subset hh) (by decide)
    refine ⟨hdate, ⟨hourHigh, hmin, hsec⟩, hnano, ?_⟩
    rintro rfl
    simp only [if_true] at hbound hfresh
    obtain ⟨_, himin, hisec⟩ := hi
    simp only [Civil.ofDay]
    rcases Nat.lt_or_eq_of_le hbound with hlt | heq
    · omega
    · have := hrest (hfresh trivial heq.symm)
      omega
  · cases h

theorem inMonth_spec (reg : p.Regular) (hi : Timely i) {year month : Nat} (hmonth : 1 ≤ month)
    (hmonth' : month ≤ 12) (h : p.inMonth i year month fresh = some c) :
    c.date.year = year ∧ c.date.month = month ∧ c.date.Valid ∧ Timely c ∧ c.nano.val = 0 ∧
      (fresh = true → i.date.day ≤ daysInMonth year month →
        i.date.day < c.date.day ∨ i.date.day = c.date.day ∧ i.ofDay ≤ c.ofDay) := by
  obtain ⟨day, hd, hkeep, f, hf, hfresh⟩ :=
    firstOf_filter_eq_some (Field.sorted_all _ |>.sublist reg.days) h
  obtain ⟨hdate, htime, hnano, hrest⟩ := inDay_spec reg hi hf
  have dayLow := Field.low_of_mem_all (reg.days.subset hd) (by decide)
  simp only [Bool.and_eq_true, decide_eq_true_eq] at hkeep
  rw [hdate]
  refine ⟨rfl, rfl, ⟨hmonth, hmonth', dayLow, hkeep.2⟩, htime, hnano, ?_⟩
  rintro rfl hin
  simp only [if_true, Nat.min_eq_left hin, Bool.and_eq_true, decide_eq_true_eq] at hkeep hfresh
  show i.date.day < day ∨ i.date.day = day ∧ _
  rcases Nat.lt_or_eq_of_le hkeep.1 with hlt | heq
  · exact .inl hlt
  · exact .inr ⟨heq, hrest (hfresh (fun _ hm => hm.1) trivial heq.symm)⟩

theorem inYear_spec (reg : p.Regular) (hi : Timely i) (hv : i.date.Valid) {year : Nat}
    (h : p.inYear i year fresh = some c) :
    c.date.year = year ∧ c.date.Valid ∧ Timely c ∧ c.nano.val = 0 ∧
      (fresh = true → i.date.year = year →
        i.date.dayNumber < c.date.dayNumber ∨
          i.date.dayNumber = c.date.dayNumber ∧ i.ofDay ≤ c.ofDay) := by
  obtain ⟨month, hm, hbound, f, hf, hfresh⟩ :=
    searchFrom_eq_some (Field.sorted_all _ |>.sublist reg.months) h
  have monthLow := Field.low_of_mem_all (reg.months.subset hm) (by decide)
  have monthHigh := Field.high_of_mem_all (reg.months.subset hm) (by decide)
  obtain ⟨hy, hcm, hvc, htime, hnano, hrest⟩ := inMonth_spec reg hi monthLow monthHigh hf
  refine ⟨hy, hvc, htime, hnano, ?_⟩
  rintro rfl hiy
  simp only [if_true] at hbound hfresh
  rcases Nat.lt_or_eq_of_le hbound with hlt | heq
  · exact .inl (Date.dayNumber_lt_of_month_lt hv hvc (hiy.trans hy.symm) (hcm.symm ▸ hlt))
  · have inside : i.date.day ≤ daysInMonth year month := by
      rw [← hiy, ← heq]
      exact hv.2.2.2
    have sameDays : i.date.dayNumber - i.date.day = c.date.dayNumber - c.date.day := by
      simp only [Date.dayNumber, hiy, hy, heq, hcm]
      omega
    rcases hrest (hfresh trivial heq.symm) inside with hday | ⟨hday, htod⟩
    · exact .inl (by omega)
    · exact .inr ⟨by omega, htod⟩

theorem search_spec (reg : p.Regular) (hi : Timely i) (hv : i.date.Valid)
    (h : p.search i = some c) :
    (1970 ≤ c.date.year ∧ c.date.year ≤ 2100) ∧ c.date.Valid ∧ Timely c ∧ c.nano.val = 0 ∧
      i.instant.second ≤ c.instant.second := by
  unfold search at h
  split at h
  · cases h
  · have sorted := Field.sorted_all _ |>.sublist reg.years
    obtain ⟨year, hy, f, hf, hfresh⟩ := firstOf_eq_some (sorted.filter _) h
    simp only [List.mem_filter, decide_eq_true_eq] at hy hfresh
    obtain ⟨hcy, hvc, htime, hnano, hrest⟩ := inYear_spec reg hi hv hf
    have yearLow := Field.low_of_mem_all (reg.years.subset hy.1) (by decide)
    have yearHigh := Field.high_of_mem_all (reg.years.subset hy.1) (by decide)
    simp only [Field.years] at yearLow yearHigh
    refine ⟨by omega, hvc, htime, hnano, ?_⟩
    have later : i.date.dayNumber < c.date.dayNumber ∨
        i.date.dayNumber = c.date.dayNumber ∧ i.ofDay ≤ c.ofDay := by
      rcases Int.lt_or_eq_of_le hy.2 with hlt | heq
      · exact .inl (Date.dayNumber_lt_of_year_lt hv hvc (hcy.symm ▸ hlt))
      · refine hrest ?_ heq
        rcases hfresh with hfresh | ⟨m, hm, hlt⟩
        · exact hfresh
        · omega
    obtain ⟨hih, him, his⟩ := hi
    simp only [Civil.instant, Instant.secondsPerDay, Civil.ofDay] at later ⊢
    omega

/-! ## Occurrences -/

theorem timely_civil (t : Instant) : Timely t.civil := by
  have := t.timeOfDay_bounds
  simp only [Timely, Instant.civil]
  omega

theorem second_plus_second (t : Instant) :
    (t.plus Instant.nanosPerSecond).second = t.second + 1 := by
  obtain ⟨s, n⟩ := t
  have := n.isLt
  simp only [Instant.plus]
  split_ifs with hleap hwithin <;>
    simp only [Instant.InLeapSecond, Instant.nanos, Instant.nanosPerSecond, Instant.ofNanos] at *
  · omega
  · omega
  · omega

/-- An occurrence after an instant is later, at a whole second, and within the calendar. -/
theorem nextAfter_spec (reg : p.Regular) {t u : Instant} (h : p.nextAfter t = .ok (some u)) :
    t.second < u.second ∧ u.nano.val = 0 ∧ u.Representable := by
  unfold nextAfter at h
  split at h
  · next start hstart =>
    obtain ⟨rfl, _⟩ := Instant.add?_eq_some_iff.mp hstart
    simp only [Except.ok.injEq, Option.map_eq_some_iff] at h
    obtain ⟨c, hc, rfl⟩ := h
    obtain ⟨⟨low, high⟩, hv, ⟨hh, hm, hs⟩, hnano, hle⟩ :=
      search_spec reg (timely_civil _) (Date.valid_ofDayNumber _) hc
    rw [Instant.instant_civil, second_plus_second] at hle
    refine ⟨by omega, hnano, ?_⟩
    have start : yearStart 1970 ≤ c.date.dayNumber :=
      Int.le_trans (yearStart_mono low) (Date.yearStart_le_dayNumber hv)
    have stop : c.date.dayNumber < yearStart 2101 :=
      Int.lt_of_lt_of_le (Date.dayNumber_lt_yearStart hv) (yearStart_mono (by omega))
    have start' : yearStart 1970 = 0 := by decide
    have stop' : yearStart 2101 = 47847 := by decide
    simp only [Instant.Representable, Civil.instant, Instant.first, Instant.last, Civil.ofDay,
      Instant.secondsPerDay]
    omega
  · cases h

/-- There is an answer as long as the calendar reaches the next second. -/
theorem nextAfter_isOk {t : Instant} (h : (t.add? Instant.nanosPerSecond).isSome) :
    ∃ next, p.nextAfter t = .ok next := by
  obtain ⟨start, hs⟩ := Option.isSome_iff_exists.mp h
  exact ⟨(p.search start.civil).map Civil.instant, by simp only [nextAfter, hs]⟩

end Pattern

end Timetable.Cron
