import Timetable.Proofs.Schedule.Repeat
import Timetable.Schedule.Plan

/-!
# Accepted schedules can be queued

What a schedule asks of the queue is usable once the schedule was accepted.
-/

namespace Timetable

namespace Schedule

/-- What a schedule repeats. -/
def spec? : Schedule → Option RepeatSpec
  | interval minutes => some (.every (minutes * 60000))
  | periodical expression => some (.cron expression)
  | onTime _ => none

/-- What is left of having been accepted once, whatever the policy and the time were. -/
def Accepted : Schedule → Prop
  | interval minutes => 1 ≤ minutes ∧ minutes ≤ maximumMinutes
  | periodical expression => ∃ p, parseExpression expression = .ok p
  | onTime _ => True

/-- Minutes fit 32 bits. -/
def Narrow : Schedule → Prop
  | interval minutes => minutes < 4294967296
  | _ => True

theorem Accepted.narrow {s : Schedule} (h : s.Accepted) : s.Narrow := by
  cases s with
  | interval minutes => exact Nat.lt_of_le_of_lt h.2 (by decide)
  | periodical expression | onTime at_ => trivial

theorem Accepted.usable {s : Schedule} (h : s.Accepted) {spec : RepeatSpec}
    (hs : s.spec? = some spec) : spec.Usable := by
  cases s with
  | interval minutes =>
    cases hs
    obtain ⟨low, high⟩ := h
    simp only [maximumMinutes] at high
    exact ⟨by omega, by omega⟩
  | periodical expression =>
    cases hs
    exact h
  | onTime at_ => cases hs

end Schedule

theorem queuePlan_eq_repeating_iff {s : Schedule} {now : Instant} {spec : RepeatSpec} :
    queuePlan s now = .repeating spec ↔ s.spec? = some spec := by
  cases s with
  | interval minutes => simp [queuePlan, Schedule.spec?]
  | periodical expression => simp [queuePlan, Schedule.spec?]
  | onTime at_ =>
    simp only [queuePlan, Schedule.spec?]
    split <;> simp

theorem spec?_eq_none {s : Schedule} (now : Instant)
    (h : ∀ spec, queuePlan s now ≠ .repeating spec) :
    s.spec? = none :=
  Option.eq_none_iff_forall_ne_some.mpr fun spec hs => h spec (queuePlan_eq_repeating_iff.mpr hs)

theorem accepted_of_validateSchedule {s : Schedule} {policy : SchedulePolicy}
    {purpose : ValidationPurpose} {now : Instant}
    (h : validateSchedule s policy purpose now = .ok ()) : s.Accepted := by
  cases s with
  | interval minutes =>
    simp only [validateSchedule] at h
    have low : ¬ minutes < policy.effectiveMinimum := fun hlt => by
      rw [if_pos hlt] at h
      cases h
    have high : ¬ maximumMinutes < minutes := fun hlt => by
      rw [if_neg low, if_pos hlt] at h
      cases h
    simp only [SchedulePolicy.effectiveMinimum] at low
    exact ⟨by omega, by omega⟩
  | periodical expression =>
    show ∃ p, parseExpression expression = .ok p
    cases hp : parseExpression expression with
    | ok p => exact ⟨p, rfl⟩
    | error e =>
      simp only [validateSchedule, nextOccurrences, hp] at h
      cases h
  | onTime at_ => trivial

end Timetable
