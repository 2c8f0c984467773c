import Timetable.Proofs.Queue.Storable
import Timetable.Proofs.Schedule.Plan

/-!
# Delays

What is queued once is queued with a delay, in whole milliseconds from the time at which it is put in. The delay ends at
its instant or less than a millisecond before (`Instant.Storable.delay_ends`). So once it has ended the instant counts
as past (`Instant.Storable.past_of_delay`), and it does so ever after (`Instant.Past.mono`).

A clock that shows leap seconds would break this, and for the end of a delay an instant in one does as well: it counts as
a second later when looked at from an earlier time of day.
-/

namespace Timetable

namespace Instant

variable {now later at_ fireAt : Instant}

/-- Whole milliseconds from now a delay ends at its instant or less than a millisecond before. -/
theorem Storable.delay_ends (clock : now.Storable) (time : at_.Storable) (ahead : 0 < at_.sinceMillis now)
    (reached : now.addMillis? (signedWord (at_.sinceMillis now).toNat) = some fireAt) :
    at_.nanos - nanosPerMilli < fireAt.nanos ∧ fireAt.nanos ≤ at_.nanos := by
  have noLeap : at_.leapBetween now = 0 := by
    simp [leapBetween, clock.ordinary, time.ordinary]
  have since : at_.sinceMillis now = (at_.nanos - now.nanos).tdiv nanosPerMilli := by
    rw [sinceMillis, sinceNanos, noLeap, Int.zero_mul, Int.add_zero]
  obtain ⟨low, high⟩ := time.representable
  obtain ⟨low', high'⟩ := clock.representable
  have := at_.nano.isLt
  have := now.nano.isLt
  have positive : 0 ≤ at_.nanos - now.nanos := by
    by_contra negative
    have : 0 ≤ (now.nanos - at_.nanos).tdiv nanosPerMilli := Int.tdiv_nonneg (by omega) (by decide)
    rw [← Int.neg_sub, Int.neg_tdiv] at since
    omega
  rw [Int.tdiv_eq_ediv_of_nonneg positive] at since
  have fits : FitsWord (at_.sinceMillis now) := by
    simp only [first, last] at low high low' high'
    simp only [since, FitsWord, nanos, nanosPerMilli, nanosPerSecond]
    omega
  rw [Int.toNat_of_nonneg ahead.le, signedWord_of_fits fits] at reached
  obtain ⟨rfl, -⟩ := add?_eq_some_iff.mp reached
  rw [plus_of_not_inLeapSecond clock.ordinary, nanos_ofNanos, since]
  simp only [nanosPerMilli]
  omega

/-- An instant lies behind, or less than a millisecond ahead. -/
def Past (t now : Instant) : Prop := t.sinceMillis now ≤ 0

theorem past_iff : at_.Past now ↔ at_.sinceNanos now < nanosPerMilli := by
  unfold Past sinceMillis nanosPerMilli
  rcases Int.le_total 0 (at_.sinceNanos now) with ahead | behind
  · rw [Int.tdiv_eq_ediv_of_nonneg ahead]
    omega
  · have : 0 ≤ (-at_.sinceNanos now).tdiv 1000000 := Int.tdiv_nonneg (by omega) (by decide)
    rw [Int.neg_tdiv] at this
    omega

/-- What was past stays so. -/
theorem Past.mono (h : at_.Past now) (minute : at_.EndsMinute) (clock : now.Storable) (clock' : later.Storable)
    (le : now ≤ later) : at_.Past later := by
  rw [past_iff] at h ⊢
  have passed := nanos_mono clock.ordinary le
  have ordinary := clock.ordinary
  have ordinary' := clock'.ordinary
  simp only [sinceNanos, leapBetween, ordinary, ordinary', if_false] at h ⊢
  by_cases leap : at_.InLeapSecond
  · have last := minute leap
    simp only [leap, if_true] at h ⊢
    simp only [InLeapSecond, timeOfDay, nanos, nanosPerSecond, nanosPerMilli, secondsPerDay] at *
    split_ifs at h ⊢ <;> omega
  · simp only [leap, if_false, ite_self, Int.zero_mul, Int.add_zero] at h ⊢
    omega

/-- Where a delay has ended its instant is past. -/
theorem Storable.past_of_delay (clock : now.Storable) (time : at_.Storable) (ahead : ¬ at_.Past now)
    (reached : now.addMillis? (signedWord (at_.sinceMillis now).toNat) = some fireAt) (clock' : later.Storable)
    (le : fireAt ≤ later) : at_.Past later := by
  obtain ⟨low, -⟩ := clock.delay_ends time (not_le.mp ahead) reached
  have passed := nanos_mono (clock.addMillis? reached).ordinary le
  have noLeap : at_.leapBetween later = 0 := by
    simp [leapBetween, clock'.ordinary, time.ordinary]
  rw [past_iff, sinceNanos, noLeap]
  simp only [nanosPerMilli] at *
  omega

end Instant

theorem queuePlan_onTime (at_ now : Instant) : queuePlan (.onTime at_) now = .expired ↔ at_.Past now := by
  unfold queuePlan Instant.Past
  dsimp only
  split
  · next past => exact iff_of_true rfl past
  · next ahead => exact iff_of_false (by simp) ahead

end Timetable
