import Mathlib.Order.Bounds.Basic
import Timetable.Proofs.Schedule.Fires
import Timetable.Proofs.Schedule.Plan

/-!
# Fixed intervals fire at their multiples

A number of milliseconds that fits a signed word fires at its multiples since 1970, before 1970 as well as after it. What
is asked for is the least multiple later than the instant it is asked from (`RepeatSpec.isLeast_nextMultiple`), no step of
the count leaves a signed word (`RepeatSpec.countsWithinWord`), and there is an answer unless that multiple lies outside
the calendar (`RepeatSpec.nextAfter_every_eq`). Anywhere between a fire and the multiple behind it the answer is that
multiple (`RepeatSpec.nextMultiple_of_between`). `RepeatSpec.every_fires_at_multiples` has all of it, and that every
accepted interval is such a number.

Later than an instant is later than what a clock without leap seconds shows, which is that instant itself outside leap
seconds. From within one a multiple can be left out that is later than the instant
(`RepeatSpec.multiple_behind_leap_second_is_left_out`): on that clock it has passed.
-/

namespace Timetable

/-! ## Counting from any instant of the calendar -/

namespace Instant

variable {t : Instant} {ms : Int}

@[simp] theorem millis_smoothed (t : Instant) : t.smoothed.millis = t.millis := by
  rw [millis, smoothed, nanos_ofNanos, millis]

/-- Milliseconds have passed if the clock without leap seconds shows so. -/
theorem ofMillis_le_smoothed_iff : ofMillis ms ≤ t.smoothed ↔ ms ≤ t.millis := by
  rw [← millis_smoothed t]
  exact (millis_le_iff (not_inLeapSecond_ofNanos _)).symm

theorem smoothed_lt_ofMillis_iff : t.smoothed < ofMillis ms ↔ t.millis < ms := by
  rw [← not_le, ← not_le, ofMillis_le_smoothed_iff]

theorem Representable.millis_bounds (h : t.Representable) :
    -4611686018427387904 ≤ t.millis ∧ t.millis < 4611686018427387904 := by
  obtain ⟨low, high⟩ := h
  have := t.nano.isLt
  simp only [first, last] at low high
  simp only [millis, nanos, nanosPerSecond, nanosPerMilli]
  omega

/-- A sum of milliseconds is in the calendar as the milliseconds are. -/
theorem addMillis?_ofMillis (a b : Int) : (ofMillis a).addMillis? b = ofMillis? (a + b) := by
  have sum : (ofMillis a).plus (b * nanosPerMilli) = ofMillis (a + b) := plusMillis_ofMillis a b
  rw [addMillis?, add?, sum, ofMillis?]

end Instant

namespace RepeatSpec

variable {millis : Nat} {every ms : Int} {after later fire : Instant}

/-! ## The least multiple ahead -/

/-- The multiples of some milliseconds since 1970, in the calendar and beyond it. -/
def multiples (millis : Nat) : Set Instant := {t | ∃ n : Int, t = .ofMillis (n * millis)}

theorem isLeast_nextMultiple (low : 1 ≤ millis) (after : Instant) :
    IsLeast {t ∈ multiples millis | after.smoothed < t} (.ofMillis (nextMultiple millis after.millis)) := by
  have pos : (1 : Int) ≤ millis := by omega
  constructor
  · exact ⟨⟨_, rfl⟩, Instant.smoothed_lt_ofMillis_iff.mpr (lt_nextMultiple pos _)⟩
  · rintro t ⟨⟨n, rfl⟩, ahead⟩
    exact Instant.ofMillis_le_ofMillis (nextMultiple_le_of_lt pos (Instant.smoothed_lt_ofMillis_iff.mp ahead))

/-- From a multiple on, until the one behind it, that one is next. -/
theorem nextMultiple_of_between {n : Int} (pos : 1 ≤ every) (reached : n * every ≤ ms) (before : ms < n * every + every) :
    nextMultiple every ms = n * every + every := by
  have low : n ≤ ms / every := Int.le_ediv_of_mul_le (by omega) reached
  have high : ms / every < n + 1 := by
    refine Int.ediv_lt_of_lt_mul (by omega) ?_
    rw [Int.add_mul, Int.one_mul]
    exact before
  have quotient : ms / every = n := by omega
  rw [nextMultiple, quotient, Int.add_mul, Int.one_mul]

/-! ## The count stays in a signed word -/

/-- Whether the milliseconds are the same as a signed word, and every step of the count of the next multiple has a value that
such a word can hold. -/
structure CountsWithinWord (millis : Nat) (after : Instant) : Prop where
  cast : signedWord millis = millis
  start : FitsWord after.millis
  quotient : FitsWord (after.millis / millis)
  successor : FitsWord (after.millis / millis + 1)
  product : FitsWord (nextMultiple millis after.millis)

/-- Dividing brings a number closer to zero, or leaves it below. -/
theorem ediv_bounds (pos : 1 ≤ every) (ms : Int) : min ms (-1) ≤ ms / every ∧ ms / every ≤ max ms 0 := by
  rcases Int.lt_or_le ms 0 with neg | nonneg
  · have below : ms / every < 0 := Int.ediv_neg_of_neg_of_pos neg (by omega)
    have above : ms ≤ ms / every := by
      refine Int.le_ediv_of_mul_le (by omega) ?_
      have := Int.mul_le_mul_of_nonpos_left (Int.le_of_lt neg) pos
      omega
    omega
  · have above : 0 ≤ ms / every := Int.ediv_nonneg nonneg (by omega)
    have below : ms / every ≤ ms := Int.ediv_le_self every nonneg
    omega

theorem fitsWord_of_le (high : millis ≤ 9223372036854775807) : FitsWord millis := by
  simp only [FitsWord]
  omega

theorem countsWithinWord (low : 1 ≤ millis) (high : millis ≤ 9223372036854775807) (rep : after.Representable) :
    CountsWithinWord millis after := by
  have pos : (1 : Int) ≤ millis := by omega
  have bounds := rep.millis_bounds
  have quotient := ediv_bounds pos after.millis
  refine ⟨signedWord_of_fits (fitsWord_of_le high), ?_, ?_, ?_, fitsWord_nextMultiple pos (fitsWord_of_le high) bounds⟩
  all_goals
    simp only [FitsWord]
    omega

/-- There is an answer unless the next multiple lies outside the calendar. -/
theorem nextAfter_every_eq (low : 1 ≤ millis) (high : millis ≤ 9223372036854775807) (rep : after.Representable) :
    (RepeatSpec.every millis).nextAfter after = .ok (Instant.ofMillis? (nextMultiple millis after.millis)) := by
  have count := countsWithinWord low high rep
  rw [nextAfter_every low, count.cast, nextFire, if_pos count.product]

/-- Asked anywhere between a fire and the multiple behind it, the answer is that multiple. -/
theorem nextAfter_every_of_between (low : 1 ≤ millis) (high : millis ≤ 9223372036854775807) (rep : after.Representable)
    (fires : (RepeatSpec.every millis).nextAfter after = .ok (some fire)) (rep' : later.Representable)
    (reached : fire ≤ later.smoothed) (before : later.smoothed < fire.plusMillis millis) :
    (RepeatSpec.every millis).nextAfter later = .ok (fire.addMillis? millis) := by
  rw [nextAfter_every_eq low high rep, Except.ok.injEq, Instant.ofMillis?, Option.ite_none_right_eq_some,
    Option.some.injEq] at fires
  obtain ⟨-, rfl⟩ := fires
  rw [nextMultiple, Instant.plusMillis_ofMillis, Instant.smoothed_lt_ofMillis_iff] at before
  rw [nextMultiple, Instant.ofMillis_le_smoothed_iff] at reached
  rw [nextAfter_every_eq low high rep', nextMultiple_of_between (by omega) reached before, nextMultiple,
    Instant.addMillis?_ofMillis]

/-- An accepted interval is counted in milliseconds that fit a signed word. -/
theorem queuePlan_of_accepted {minutes : Nat} (accepted : (Schedule.interval minutes).Accepted) (now : Instant) :
    ∃ millis, queuePlan (.interval minutes) now = .repeating (.every millis) ∧ 1 ≤ millis ∧
      millis ≤ 9223372036854775807 :=
  ⟨minutes * 60000, rfl, accepted.usable rfl⟩

/-! ## The result -/

/-- For milliseconds that fit a signed word, from any instant of the calendar:
* no step of the count leaves a signed word, and the answer is the least multiple later than what a clock without leap
  seconds shows then, which is that instant itself outside leap seconds, or none if that multiple lies outside the calendar;
* from anywhere between a fire and the multiple behind it the answer is that multiple, or none if the calendar ends before;
* whatever interval is accepted is queued with such milliseconds. -/
theorem every_fires_at_multiples (low : 1 ≤ millis) (high : millis ≤ 9223372036854775807) :
    (∀ after : Instant, after.Representable →
      CountsWithinWord millis after ∧ (¬ after.InLeapSecond → after.smoothed = after) ∧
        ∃ t, IsLeast {t ∈ multiples millis | after.smoothed < t} t ∧ after < t ∧
          (RepeatSpec.every millis).nextAfter after = .ok (if t.Representable then some t else none)) ∧
      (∀ after fire later : Instant, after.Representable →
        (RepeatSpec.every millis).nextAfter after = .ok (some fire) → later.Representable → fire ≤ later.smoothed →
          later.smoothed < fire.plusMillis millis →
            (RepeatSpec.every millis).nextAfter later = .ok (fire.addMillis? millis)) ∧
      ∀ minutes policy purpose now now', validateSchedule (.interval minutes) policy purpose now = .ok () →
        ∃ accepted, queuePlan (.interval minutes) now' = .repeating (.every accepted) ∧ 1 ≤ accepted ∧
          accepted ≤ 9223372036854775807 := by
  refine ⟨fun after rep => ?_, fun after fire later rep fires => nextAfter_every_of_between low high rep fires,
    fun minutes policy purpose now now' valid => queuePlan_of_accepted (accepted_of_validateSchedule valid) now'⟩
  refine ⟨countsWithinWord low high rep, Instant.ofNanos_nanos, _, isLeast_nextMultiple low after, ?_,
    nextAfter_every_eq low high rep⟩
  exact Instant.lt_ofMillis (lt_nextMultiple (by omega) _)

/-- Every minute, asked half a second before 1970 and again in the last second of the first minute. -/
theorem every_minute_fires_at_multiples :
    (RepeatSpec.every 60000).nextAfter ⟨-1, 500000000⟩ = .ok (some ⟨0, 0⟩) ∧
      (RepeatSpec.every 60000).nextAfter ⟨59, 999999999⟩ = .ok (some ⟨60, 0⟩) ∧
      ∃ accepted, queuePlan (.interval 5) ⟨0, 0⟩ = .repeating (.every accepted) ∧ 1 ≤ accepted ∧
        accepted ≤ 9223372036854775807 := by
  have first : (RepeatSpec.every 60000).nextAfter ⟨-1, 500000000⟩ = .ok (some ⟨0, 0⟩) := by decide +kernel
  obtain ⟨-, again, plan⟩ := every_fires_at_multiples (show 1 ≤ 60000 by decide) (by decide)
  refine ⟨first, ?_, plan 5 {} .create ⟨0, 0⟩ ⟨0, 0⟩ (by decide +kernel)⟩
  rw [again _ _ ⟨59, 999999999⟩ (by decide) first (by decide) (by decide +kernel) (by decide +kernel)]
  decide +kernel

/-- In the leap second behind the first minute the second minute still lies ahead, and every second, asked then, leaves it
out. -/
theorem multiple_behind_leap_second_is_left_out :
    let after : Instant := ⟨59, 1500000000⟩
    after.Representable ∧ (RepeatSpec.every 1000).nextAfter after = .ok (some ⟨61, 0⟩) ∧
      (⟨60, 0⟩ : Instant) ∈ {t ∈ multiples 1000 | after < t} ∧ ¬ IsLeast {t ∈ multiples 1000 | after < t} ⟨61, 0⟩ := by
  have ahead : (⟨60, 0⟩ : Instant) ∈ {t ∈ multiples 1000 | (⟨59, 1500000000⟩ : Instant) < t} :=
    ⟨⟨60, by decide +kernel⟩, by decide⟩
  exact ⟨by decide, by decide +kernel, ahead, fun least => absurd (least.2 ahead) (by decide)⟩

end RepeatSpec

end Timetable
