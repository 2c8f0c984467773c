import Mathlib.Logic.Relation
import Timetable.Proofs.Schedule.Fires
import Timetable.Proofs.Schedule.Plan

/-!
# Gaps between fires

A schedule is accepted with a least gap between its fires in mind, and refused as too short otherwise. Of an interval
all gaps are as long as it (`RepeatSpec.sinceNanos_every`). Of an expression only the gap between the next two fires is
looked at (`validateSchedule_tooShort_iff`), so being accepted says nothing about later ones:
`rare_close_fires_are_accepted` is an expression that fires in pairs, a minute apart, and is accepted between the two.

1. `Cron.Pattern.matches_of_search`: whatever the search finds matches, also where it skips years;
2. `Cron.Pattern.TimesSpaced.second_le`: times of day that are far enough apart around the clock keep all fires apart;
3. `gaps_of_accepted`: all gaps are long enough just if the schedule is never too short from any of its fires on, and
   this is so for intervals and for such times of day.
-/

namespace Timetable

/-- Outside leap seconds a difference is that of the places on the clock. -/
theorem Instant.sinceNanos_of_not_inLeapSecond {t u : Instant} (ht : ¬ t.InLeapSecond) (hu : ¬ u.InLeapSecond) :
    u.sinceNanos t = u.nanos - t.nanos := by
  simp [sinceNanos, leapBetween, ht, hu]

/-! ## What a search finds -/

namespace Cron.Pattern

variable {p : Pattern} {i c d : Civil} {fresh : Bool}

/-- Whether the time of day has units of the pattern. -/
def MatchesTime (p : Pattern) (c : Civil) : Prop := c.second ∈ p.seconds ∧ c.minute ∈ p.minutes ∧ c.hour ∈ p.hours

theorem matchesTime_of_inDay (reg : p.Regular) {date : Date} (h : p.inDay i date fresh = some c) :
    c.date = date ∧ weekday date.dayNumber ∈ p.weekdays ∧ p.MatchesTime c ∧ c.nano.val = 0 := by
  unfold inDay at h
  split at h
  · next weekdays =>
    obtain ⟨hour, hours, -, _, h, -⟩ := searchFrom_eq_some (Field.sorted_all _ |>.sublist reg.hours) h
    obtain ⟨minute, minutes, -, _, h, -⟩ := searchFrom_eq_some (Field.sorted_all _ |>.sublist reg.minutes) h
    obtain ⟨second, seconds, rfl, -⟩ := inMinute_spec h
    exact ⟨rfl, List.contains_iff_mem.mp weekdays, ⟨seconds, minutes, hours⟩, rfl⟩
  · cases h

/-- What is found matches, whatever the search left out. -/
theorem matches_of_search (reg : p.Regular) (h : p.search i = some c) : p.Matches c := by
  unfold search at h
  split at h
  · cases h
  · obtain ⟨year, years, _, h, -⟩ := firstOf_eq_some ((Field.sorted_all _ |>.sublist reg.years).filter _) h
    obtain ⟨month, months, -, _, h, -⟩ := searchFrom_eq_some (Field.sorted_all _ |>.sublist reg.months) h
    obtain ⟨day, days, inside, _, h, -⟩ := firstOf_filter_eq_some (Field.sorted_all _ |>.sublist reg.days) h
    obtain ⟨date, weekdays, ⟨seconds, minutes, hours⟩, whole⟩ := matchesTime_of_inDay reg h
    simp only [Bool.and_eq_true, decide_eq_true_eq] at inside
    have firstMonth := Field.low_of_mem_all (reg.months.subset months) (by decide)
    have lastMonth := Field.high_of_mem_all (reg.months.subset months) (by decide)
    have firstDay := Field.low_of_mem_all (reg.days.subset days) (by decide)
    refine ⟨seconds, minutes, hours, ?_, ?_, ?_, ⟨year, (List.mem_filter.mp years).1, ?_⟩, ?_, whole⟩ <;> rw [date]
    · exact days
    · exact months
    · exact weekdays
    · exact ⟨firstMonth, lastMonth, firstDay, inside.2⟩

/-! ## Times of day -/

/-- The times of day of a pattern, in seconds from midnight. -/
def timesOfDay (p : Pattern) : List Nat :=
  p.hours.flatMap fun hour => p.minutes.flatMap fun minute => p.seconds.map fun second => (hour * 60 + minute) * 60 + second

/-- Two times of day, be the second one of the next day, are a number of seconds apart. -/
def TimesSpaced (p : Pattern) (gap : Nat) : Prop :=
  gap ≤ 86400 ∧ ∀ a ∈ p.timesOfDay, ∀ b ∈ p.timesOfDay, a < b → a + gap ≤ b ∧ b + gap ≤ a + 86400

instance (gap : Nat) : Decidable (p.TimesSpaced gap) := inferInstanceAs (Decidable (_ ∧ _))

theorem Matches.ofDay_mem (h : p.Matches c) : c.ofDay ∈ p.timesOfDay := by
  obtain ⟨second, minute, hour, -⟩ := h
  simp only [timesOfDay, List.mem_flatMap, List.mem_map]
  exact ⟨c.hour, hour, c.minute, minute, c.second, second, rfl⟩

/-- Of two dates and times that match, the later one is at least the gap later: on the same day by the times of day, on
the next one around midnight. -/
theorem TimesSpaced.second_le {gap : Nat} (spaced : p.TimesSpaced gap) (reg : p.Regular) (hc : p.Matches c)
    (hd : p.Matches d) (lt : c.instant.second < d.instant.second) : c.instant.second + gap ≤ d.instant.second := by
  obtain ⟨day, apart⟩ := spaced
  have timeC := (hc.proper reg).1
  have timeD := (hd.proper reg).1
  have ahead := apart _ hc.ofDay_mem _ hd.ofDay_mem
  have behind := apart _ hd.ofDay_mem _ hc.ofDay_mem
  simp only [Timely] at timeC timeD
  simp only [Civil.instant, Civil.ofDay, Instant.secondsPerDay] at *
  omega

end Cron.Pattern

/-! ## From fire to fire -/

namespace RepeatSpec

variable {spec : RepeatSpec} {s t u now : Instant}

/-- The second instant is the fire after the first. -/
def Next (spec : RepeatSpec) (t u : Instant) : Prop := spec.nextAfter t = .ok (some u)

/-- The fires after an instant, each searched from the one before, are at least a number of nanoseconds apart. -/
def Spaced (spec : RepeatSpec) (now : Instant) (gap : Int) : Prop :=
  ∀ s t u, Relation.ReflTransGen spec.Next now s → spec.Next s t → spec.Next t u → gap ≤ u.sinceNanos t

theorem next_every {millis : Nat} (usable : (every millis).Usable) (next : (every millis).Next t u) :
    u = .ofMillis (nextMultiple millis t.millis) := by
  have fits : FitsWord millis := by
    have := usable.2
    simp only [FitsWord]
    omega
  rw [Next, nextAfter_every usable.1, signedWord_of_fits fits, nextFire] at next
  split at next
  · simp only [Except.ok.injEq, Instant.ofMillis?] at next
    split at next
    · exact (Option.some.inj next).symm
    · cases next
  · cases next

/-- Multiples of some milliseconds are that far apart. -/
theorem sinceNanos_every {millis : Nat} (usable : (every millis).Usable) (fire : (every millis).Next s t)
    (next : (every millis).Next t u) : u.sinceNanos t = millis * Instant.nanosPerMilli := by
  have positive : (millis : Int) ≠ 0 := by have := usable.1; omega
  obtain rfl := next_every usable fire
  obtain rfl := next_every usable next
  have further : nextMultiple millis (nextMultiple millis s.millis) = nextMultiple millis s.millis + millis := by
    conv_lhs => rw [nextMultiple]
    rw [nextMultiple, Int.mul_ediv_cancel _ positive, Int.add_mul, Int.one_mul]
  have plain (n : Int) : ¬ (Instant.ofMillis n).InLeapSecond := Instant.not_inLeapSecond_ofNanos _
  rw [Instant.millis_ofMillis, further, Instant.sinceNanos_of_not_inLeapSecond (plain _) (plain _), Instant.ofMillis,
    Instant.ofMillis, Instant.nanos_ofNanos, Instant.nanos_ofNanos, Int.add_mul]
  omega

theorem matches_of_next {expression : String} {p : Cron.Pattern} (parsed : parseExpression expression = .ok p)
    (next : (cron expression).Next t u) : ∃ c, p.Matches c ∧ u = c.instant := by
  rw [Next, nextAfter_cron parsed, Cron.Pattern.nextAfter] at next
  split at next
  · obtain ⟨c, found, rfl⟩ := Option.map_eq_some_iff.mp (Except.ok.inj next)
    exact ⟨c, Cron.Pattern.matches_of_search (regular_of_parseExpression parsed) found, rfl⟩
  · cases next

/-- Times of day that are far enough apart keep all fires of the expression apart. -/
theorem spaced_of_timesSpaced {expression : String} {p : Cron.Pattern} {gap : Nat}
    (parsed : parseExpression expression = .ok p) (spaced : p.TimesSpaced gap) :
    (cron expression).Spaced now (gap * Instant.nanosPerSecond) := by
  intro s t u _ fire next
  have regular := regular_of_parseExpression parsed
  obtain ⟨c, matchesC, rfl⟩ := matches_of_next parsed fire
  obtain ⟨d, matchesD, rfl⟩ := matches_of_next parsed next
  have later := (Cron.Pattern.nextAfter_spec regular ((nextAfter_cron parsed _).symm.trans next)).1
  have apart := spaced.second_le regular matchesC matchesD later
  have wholeC : c.instant.nano.val = 0 := matchesC.2.2.2.2.2.2.2.2
  have wholeD : d.instant.nano.val = 0 := matchesD.2.2.2.2.2.2.2.2
  have plainC : ¬ c.instant.InLeapSecond := by simp [Instant.InLeapSecond, wholeC]
  have plainD : ¬ d.instant.InLeapSecond := by simp [Instant.InLeapSecond, wholeD]
  rw [Instant.sinceNanos_of_not_inLeapSecond plainC plainD]
  simp only [Instant.nanos, Instant.nanosPerSecond, wholeC, wholeD]
  omega

end RepeatSpec

/-! ## What validation looks at -/

section Validation

variable {schedule : Schedule} {policy : SchedulePolicy} {purpose : ValidationPurpose} {now t u : Instant} {spec : RepeatSpec}

/-- A search for occurrences breaks off at the end of the calendar only. -/
theorem occurrences_eq_error {p : Cron.Pattern} {n : Nat} {failure : ScheduleError}
    (h : p.occurrences n t = .error failure) : failure = .outOfRange := by
  induction n generalizing t with
  | zero => cases h
  | succ n ih =>
    simp only [Cron.Pattern.occurrences, Cron.Pattern.nextAfter, bind, Except.bind] at h
    cases reached : t.add? Instant.nanosPerSecond with
    | none =>
      simp only [reached] at h
      cases h
      rfl
    | some start =>
      simp only [reached] at h
      split at h
      · split at h
        · next rest =>
          cases h
          exact ih rest
        · cases h
      · cases h

theorem occurrences_two_iff {p : Cron.Pattern} :
    p.occurrences 2 now = .ok [t, u] ↔ p.nextAfter now = .ok (some t) ∧ p.nextAfter t = .ok (some u) := by
  simp only [Cron.Pattern.occurrences, bind, Except.bind]
  constructor
  · intro found
    split at found
    · cases found
    · next fire first =>
      cases fire with
      | none => cases found
      | some t' =>
        -- the list of two begins with the first fire, and the rest of it is the second
        cases second : p.nextAfter t' with
        | error failure => simp [second] at found
        | ok fire =>
          cases fire <;> simp_all [pure, Except.pure]
  · rintro ⟨first, second⟩
    simp only [first, second]
    rfl

/-- An expression is too short just if the fire after the next one comes too soon. -/
theorem validateSchedule_tooShort_iff {expression : String} {p : Cron.Pattern}
    (parsed : parseExpression expression = .ok p) :
    validateSchedule (.periodical expression) policy purpose now = .error (.tooShort policy.effectiveMinimum) ↔
      ∃ t u, (RepeatSpec.cron expression).Next now t ∧ (RepeatSpec.cron expression).Next t u ∧
        u.sinceNanos t < policy.effectiveMinimum * nanosPerMinute := by
  simp only [RepeatSpec.Next, RepeatSpec.nextAfter_cron parsed, ← and_assoc, ← occurrences_two_iff]
  simp only [validateSchedule, nextOccurrences, parsed, bind, Except.bind]
  constructor
  · intro short
    split at short
    · next failed =>
      cases short
      cases occurrences_eq_error failed
    · next found =>
      split at short
      · split at short
        · next t u close => exact ⟨t, u, found, close⟩
        · cases short
      · cases short
  · rintro ⟨t, u, found, close⟩
    simp only [found, if_pos close]

/-- Fires of an accepted interval are as far apart as it is long. -/
theorem spaced_of_accepted_interval {minutes : Nat}
    (accepted : validateSchedule (.interval minutes) policy purpose now = .ok ()) :
    (RepeatSpec.every (minutes * 60000)).Spaced now (policy.effectiveMinimum * nanosPerMinute) := by
  intro s t u _ fire next
  have usable : (RepeatSpec.every (minutes * 60000)).Usable := (accepted_of_validateSchedule accepted).usable rfl
  rw [RepeatSpec.sinceNanos_every usable fire next]
  have long : policy.effectiveMinimum ≤ minutes := by
    by_contra short
    simp only [validateSchedule, if_pos (Nat.not_le.mp short)] at accepted
    cases accepted
  have milli : (60000 : Int) * Instant.nanosPerMilli = nanosPerMinute := rfl
  rw [Int.natCast_mul, Int.mul_assoc, Int.cast_ofNat_Int, milli]
  exact Int.mul_le_mul_of_nonneg_right (Int.ofNat_le.mpr long) (by decide)

/-- The fires of an accepted schedule are never too close just if it is not too short from any of them on. -/
theorem spaced_iff (accepted : validateSchedule schedule policy purpose now = .ok ())
    (plan : queuePlan schedule now = .repeating spec) :
    spec.Spaced now (policy.effectiveMinimum * nanosPerMinute) ↔
      ∀ t, Relation.ReflTransGen spec.Next now t →
        validateSchedule schedule policy purpose t ≠ .error (.tooShort policy.effectiveMinimum) := by
  cases schedule with
  | interval minutes =>
    cases plan
    have spaced := spaced_of_accepted_interval accepted
    -- validation of an interval does not look at the time
    have anywhere (t : Instant) : validateSchedule (.interval minutes) policy purpose t = .ok () := accepted
    exact iff_of_true spaced fun t _ => by rw [anywhere t]; exact nofun
  | periodical expression =>
    cases plan
    obtain ⟨p, parsed⟩ := accepted_of_validateSchedule accepted
    simp only [ne_eq, validateSchedule_tooShort_iff parsed, RepeatSpec.Spaced]
    constructor
    · rintro spaced s reached ⟨t, u, fire, next, close⟩
      exact absurd (spaced s t u reached fire next) (Int.not_le.mpr close)
    · intro wide s t u reached fire next
      exact Int.not_lt.mp fun close => wide s reached ⟨t, u, fire, next, close⟩
  | onTime at_ =>
    simp only [queuePlan] at plan
    split at plan <;> cases plan

/-- Accepting a schedule keeps its fires apart if it is an interval, if its times of day are far enough apart around the
clock, and for others just if it would not be refused as too short at any of its fires. -/
theorem gaps_of_accepted (accepted : validateSchedule schedule policy purpose now = .ok ())
    (plan : queuePlan schedule now = .repeating spec) :
    (schedule.scheduleType = .interval → spec.Spaced now (policy.effectiveMinimum * nanosPerMinute)) ∧
    (∀ expression p, schedule = .periodical expression → parseExpression expression = .ok p →
      p.TimesSpaced (policy.effectiveMinimum * 60) → spec.Spaced now (policy.effectiveMinimum * nanosPerMinute)) ∧
    (spec.Spaced now (policy.effectiveMinimum * nanosPerMinute) ↔
      ∀ t, Relation.ReflTransGen spec.Next now t →
        validateSchedule schedule policy purpose t ≠ .error (.tooShort policy.effectiveMinimum)) := by
  refine ⟨fun isInterval => ?_, ?_, spaced_iff accepted plan⟩
  · cases schedule with
    | interval minutes =>
      cases plan
      exact spaced_of_accepted_interval accepted
    | periodical expression => cases isInterval
    | onTime at_ => cases isInterval
  · rintro expression p rfl parsed apart
    cases plan
    have spaced : (RepeatSpec.cron expression).Spaced now _ := RepeatSpec.spaced_of_timesSpaced parsed apart
    have minute : ((policy.effectiveMinimum * 60 : Nat) : Int) * Instant.nanosPerSecond =
        policy.effectiveMinimum * nanosPerMinute := by
      rw [Int.natCast_mul, Int.mul_assoc]
      rfl
    rwa [minute] at spaced

/-- Every six hours on working days. -/
theorem four_fires_a_day_are_spaced :
    (RepeatSpec.cron "0 */6 * * 2-6").Spaced ⟨1704067230, 0⟩
      ((SchedulePolicy.mk 360).effectiveMinimum * nanosPerMinute) := by
  have accepted : validateSchedule (.periodical "0 */6 * * 2-6") ⟨360⟩ .create ⟨1704067230, 0⟩ = .ok () := by
    decide +kernel
  have parsed : parseExpression "0 */6 * * 2-6" =
      .ok { seconds := [0], minutes := [0], hours := [0, 6, 12, 18], weekdays := [2, 3, 4, 5, 6] } := by
    decide +kernel
  exact (gaps_of_accepted accepted rfl).2.1 _ _ rfl parsed (by decide +kernel)

/-- Midnight and a minute later, every day: between the two, on the first of January 2024, the fire after the next one is
that of the next midnight, almost a day away. The one after that comes a minute later. -/
theorem rare_close_fires_are_accepted :
    validateSchedule (.periodical "0,1 0 * * *") ⟨5⟩ .create ⟨1704067230, 0⟩ = .ok () ∧
      queuePlan (.periodical "0,1 0 * * *") ⟨1704067230, 0⟩ = .repeating (.cron "0,1 0 * * *") ∧
      ¬ (RepeatSpec.cron "0,1 0 * * *").Spaced ⟨1704067230, 0⟩ ((SchedulePolicy.mk 5).effectiveMinimum * nanosPerMinute) := by
  refine ⟨by decide +kernel, rfl, fun spaced => ?_⟩
  have first : (RepeatSpec.cron "0,1 0 * * *").Next ⟨1704067230, 0⟩ ⟨1704067260, 0⟩ := by
    rw [RepeatSpec.Next]
    decide +kernel
  have midnight : (RepeatSpec.cron "0,1 0 * * *").Next ⟨1704067260, 0⟩ ⟨1704153600, 0⟩ := by
    rw [RepeatSpec.Next]
    decide +kernel
  have minuteLater : (RepeatSpec.cron "0,1 0 * * *").Next ⟨1704153600, 0⟩ ⟨1704153660, 0⟩ := by
    rw [RepeatSpec.Next]
    decide +kernel
  exact absurd (spaced _ _ _ (.single first) midnight minuteLater) (by decide)

end Validation

end Timetable
