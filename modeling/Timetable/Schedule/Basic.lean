import Timetable.Error
import Timetable.Instant.Basic
import Timetable.Json.Record

/-!
# Schedules

A schedule says when a job runs: every so many minutes, at the times of a cron expression, or once
at an instant. In JSON it is an object with its type and its value.
-/

namespace Timetable

inductive ScheduleType where
  | interval
  | periodical
  | onTime
deriving DecidableEq, Repr, Inhabited

inductive Schedule where
  /-- Every so many minutes. -/
  | interval (minutes : Nat)
  /-- At the times of a cron expression. -/
  | periodical (expression : String)
  /-- Once. -/
  | onTime (at_ : Instant)
deriving DecidableEq, Inhabited

namespace ScheduleType

def text : ScheduleType → String
  | interval => "interval"
  | periodical => "periodical"
  | onTime => "on_time"

def ofText? (s : String) : Option ScheduleType :=
  [interval, periodical, onTime].find? (·.text == s)

def parse : String → Except String ScheduleType := parseWord "schedule type" ofText?

theorem ofText?_text (t : ScheduleType) : ofText? t.text = some t := by cases t <;> decide

def toJson (t : ScheduleType) : Json := .str t.text

def ofJson? (j : Json) : Option ScheduleType := Json.word? j >>= ofText?

end ScheduleType

namespace Schedule

def scheduleType : Schedule → ScheduleType
  | interval _ => .interval
  | periodical _ => .periodical
  | onTime _ => .onTime

def isRepeating (s : Schedule) : Bool := s.scheduleType != .onTime

def valueJson : Schedule → Json
  | interval minutes => .ofNat minutes
  | periodical expression => .str expression
  | onTime at_ => .ofInstant at_

def toJson (s : Schedule) : Json := .obj [("type", s.scheduleType.toJson), ("value", s.valueJson)]

/-- A schedule of a type from its value; minutes fit 32 bits. -/
def ofValue? (value : Json) : ScheduleType → Option Schedule
  | .interval => (Json.nat32? value).map interval
  | .periodical => (Json.string? value).map periodical
  | .onTime => (Json.instant? value).map onTime

def ofJson? (j : Json) : Option Schedule := do
  let [type, value] ← Json.record? ["type", "value"] j | none
  let value ← value.required some
  ofValue? value (← type.required ScheduleType.ofJson?)

end Schedule

end Timetable
