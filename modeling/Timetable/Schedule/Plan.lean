import Timetable.Schedule.Repeat

/-!
# Accepting and queueing schedules

`validateSchedule` says whether a schedule is accepted, `queuePlan` how an accepted one is queued.
Whatever enters, leaves or restores an entry of a job goes through the one plan of its schedule.
-/

namespace Timetable

/-- The least gap between executions, in minutes; zero counts as one. -/
structure SchedulePolicy where
  minimumMinutes : Nat := 5
deriving DecidableEq

def SchedulePolicy.effectiveMinimum (p : SchedulePolicy) : Nat := max p.minimumMinutes 1

def maximumMinutes : Nat := 2147483647

inductive ValidationPurpose where
  | create
  | update
deriving DecidableEq

def nanosPerMinute : Int := 60000000000

/-- Refuses intervals that are too short or too long, expressions whose next two occurrences are too
close or missing, and, in an update, an instant that has passed. -/
def validateSchedule (schedule : Schedule) (policy : SchedulePolicy) (purpose : ValidationPurpose)
    (now : Instant) : Except ScheduleError Unit :=
  let minimum := policy.effectiveMinimum
  match schedule with
  | .interval minutes =>
    if minutes < minimum then .error (.tooShort minimum)
    else if maximumMinutes < minutes then .error (.tooLong maximumMinutes)
    else .ok ()
  | .periodical expression => do
    match ← nextOccurrences expression now 2 with
    | [first, second] =>
      if second.sinceNanos first < minimum * nanosPerMinute then .error (.tooShort minimum)
      else .ok ()
    | _ => .error (.noNextExecution ScheduleType.periodical.text)
  | .onTime at_ => if purpose = .update ∧ at_ < now then .error .dateInPast else .ok ()

/-- How a schedule is queued. -/
inductive QueuePlan where
  | repeating (spec : RepeatSpec)
  /-- Once, after a positive number of milliseconds. -/
  | delayed (millis : Nat)
  /-- Its instant is less than a millisecond ahead, or past. -/
  | expired
deriving DecidableEq

def queuePlan (schedule : Schedule) (now : Instant) : QueuePlan :=
  match schedule with
  | .interval minutes => .repeating (.every (minutes * 60000))
  | .periodical expression => .repeating (.cron expression)
  | .onTime at_ =>
    let millis := at_.sinceMillis now
    if millis ≤ 0 then .expired else .delayed millis.toNat

def QueuePlan.toJson : QueuePlan → Json
  | repeating spec => .obj [("repeating", spec.toJson)]
  | delayed millis => .obj [("delayed", .ofNat millis)]
  | expired => .str "expired"

end Timetable
