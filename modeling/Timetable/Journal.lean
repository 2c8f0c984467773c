import Timetable.Execution.Json

/-!
# The journal

What the engine tells about its work while it does it: the functions that were called, the alerts
that were raised, and measures. `Measure.summary` adds measures up under the names by which a
monitor knows them.
-/

namespace Timetable

/-- A job was disabled after a number of failures in a row. -/
structure Alert where
  jobId : Identifier
  jobName : String
  failures : Nat
deriving DecidableEq, Inhabited

/-- How a job that was put back into the queue runs. -/
inductive Restoration where
  | repeating
  | single
deriving DecidableEq, Repr, Inhabited

def Restoration.text : Restoration → String
  | repeating => "repeating"
  | single => "single"

inductive Measure where
  /-- An execution was stored. -/
  | execution (status : ExecutionStatus)
  /-- How long an execution took. -/
  | duration (status : ExecutionStatus) (seconds : Decimal)
  | autoDisabled (jobId : Identifier)
  | restored (kind : Restoration) (count : Nat)
  | queueSize (size : Nat)
deriving DecidableEq, Inhabited

/-- What a monitor shows under one name. -/
inductive Reading where
  | counter (total : Nat)
  | gauge (last : Nat)
  | samples (values : List Decimal)
deriving DecidableEq, Inhabited

namespace Reading

/-- The reading after another one of the same name. -/
def followedBy : Reading → Reading → Reading
  | counter m, counter n => counter (m + n)
  | samples xs, samples ys => samples (xs ++ ys)
  | _, later => later

def toJson : Reading → Json
  | counter n | gauge n => .ofNat n
  | samples values => .ofList .real values

end Reading

namespace Measure

/-- A name with its labels in braces. -/
def labelled (name labels : String) : String := name ++ "\x7b" ++ labels ++ "\x7d"

def name : Measure → String
  | execution status => labelled "job_execution_total" ("status=" ++ status.text)
  | duration status _ => labelled "job_execution_duration_seconds" ("status=" ++ status.text)
  | autoDisabled jobId => labelled "job_auto_disabled_total" ("job_id=" ++ jobId.text)
  | restored kind _ => labelled "orphan_jobs_restored_total" ("kind=" ++ kind.text)
  | queueSize _ => labelled "job_queue_size" ""

def reading : Measure → Reading
  | execution _ | autoDisabled _ => .counter 1
  | duration _ seconds => .samples [seconds]
  | restored _ count => .counter count
  | queueSize size => .gauge size

/-- Adds a reading to those of a list by name. -/
def record (name : String) (r : Reading) : List (String × Reading) → List (String × Reading)
  | [] => [(name, r)]
  | (n, old) :: rest =>
    if n = name then (n, old.followedBy r) :: rest else (n, old) :: record name r rest

/-- What a monitor shows of some measures. -/
def summary (ms : List Measure) : List (String × Reading) :=
  ms.foldl (fun readings m => record m.name m.reading readings) []

/-- The measures of an execution that was stored. -/
def ofExecution (status : ExecutionStatus) (seconds : Option Decimal) : List Measure :=
  execution status :: (seconds.map (duration status)).toList

end Measure

/-- Everything told so far, oldest first. -/
structure Journal where
  calls : List FunctionSpec := []
  alerts : List Alert := []
  measures : List Measure := []
deriving DecidableEq, Inhabited

namespace Journal

def call (spec : FunctionSpec) (j : Journal) : Journal := { j with calls := j.calls ++ [spec] }

def alert (a : Alert) (j : Journal) : Journal := { j with alerts := j.alerts ++ [a] }

def measure (ms : List Measure) (j : Journal) : Journal := { j with measures := j.measures ++ ms }

end Journal

end Timetable
