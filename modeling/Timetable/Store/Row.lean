import Timetable.Error
import Timetable.Execution.Json
import Timetable.Json.Printer
import Timetable.Json.Reader

/-!
# Rows

How jobs and executions lie in the columns of two tables, and how they are read back. A schedule
fills a column for its type and one for its value; the columns of the other types are empty. A row
whose columns hold something else does not read: `StoreError.corruptRow` names the first column that
is wrong.

Columns hold times in microseconds, from a first one on that is earlier than most calendars begin. Lists of functions
and results are JSON, of which a column keeps the text or the value: a value keeps its numbers digit by digit, so one
with a power of ten comes back with all its digits in their places (`JsonColumn`). No text is to hold the character 0,
which no column takes.
-/

namespace Timetable

/-! ## Times in columns -/

/-- The start of 2000, the origin of column times. -/
def columnEpoch : Instant := ⟨946684800, Instant.nanosInto 0⟩

/-- The time that a column holds: whole microseconds, cut toward the origin. Columns know no leap seconds. -/
def columnTime (t : Instant) : Instant :=
  .ofNanos (columnEpoch.nanos + (t.nanos - columnEpoch.nanos).tdiv 1000 * 1000)

/-- The first time that a column holds, at the start of the Julian day count in 4714 BC. -/
def columnStart : Instant := ⟨-210866803200, Instant.nanosInto 0⟩

/-- The error of a statement that is given a time before the first. -/
def timeOutOfRange : StoreError := .ofFailure (.reported "timestamp out of range")

/-- Times, as columns cut them, are taken by a statement if none is before the first. -/
def takeTimes (times : List (Option Instant)) : Except StoreError Unit :=
  if times.all (·.all (decide <| columnStart ≤ ·)) then .ok () else .error timeOutOfRange

theorem columnTime_of_dvd {t : Instant} (h : t.nanos % 1000 = 0) : columnTime t = t.smoothed := by
  have hd : (1000 : Int) ∣ t.nanos - columnEpoch.nanos := by
    have : columnEpoch.nanos = 946684800000000000 := by decide
    omega
  simp only [columnTime, Instant.smoothed, Int.tdiv_mul_cancel hd]
  congr 1
  omega

def jobsTable : String := "jobs"

def executionsTable : String := "job_executions"

/-- The value of a column, or the reason why it does not read. -/
def readColumn {α : Type} (table reason : String) : Option α → Except StoreError α
  | some a => .ok a
  | none => .error (.corruptRow table reason)

/-- The word of a column, or what is wrong with it. -/
def readWord {α : Type} (table : String) (word : Except String α) : Except StoreError α :=
  word.mapError (.corruptRow table)

/-! ## Values for columns -/

/-- A time, or null. -/
def columnInstant? : Json → Option (Option Instant)
  | .null => some none
  | j => (Json.instant? j).map fun t => some (columnTime t)

/-- A text, or null. -/
def columnText? : Json → Option (Option String)
  | .null => some none
  | j => (Json.string? j).map some

/-- A whole number of 32 bits, or null. -/
def columnInteger? : Json → Option (Option Int)
  | .null => some none
  | j => (Json.int32? j).map some

/-- The text of a value, which may be given itself, but for null. -/
def columnJson? : Json → Option String
  | .null => none
  | .str text => (Json.ofText? text).map fun _ => text
  | j => some j.text

/-- What a column keeps of JSON: the text that it is given, or the value. -/
inductive JsonColumn where
  | json
  | jsonb
deriving DecidableEq, Inhabited

namespace JsonColumn

def decimalChars : JsonColumn → Decimal → List Char
  | json => Decimal.chars
  | jsonb => fun d => (Json.Numeral.inPlace d).chars

/-- The text that comes back of a value. Its blanks and the order of its members, which may change too, are nothing to
its reader. -/
def text (kind : JsonColumn) (j : Json) : String := j.textIn kind.decimalChars

end JsonColumn

/-- The value of a column that holds JSON text. -/
def readJson? {α : Type} (ofJson? : Json → Option α) (text : String) : Option α := do
  ofJson? (← Json.ofText? text).normal

/-! ## Schedules -/

structure ScheduleColumns where
  scheduleType : String
  intervalMinutes : Option Int := none
  cronExpression : Option String := none
  executeAt : Option Instant := none
deriving DecidableEq, Inhabited

namespace ScheduleColumns

/-- The most minutes that the column holds. -/
def maximumMinutes : Nat := 2147483647

def ofSchedule (s : Schedule) : Except StoreError ScheduleColumns :=
  let scheduleType := s.scheduleType.text
  match s with
  | .interval minutes =>
    if minutes ≤ maximumMinutes then .ok { scheduleType, intervalMinutes := some minutes }
    else .error (.queryFailed ("interval " ++ Text.natText minutes ++ " out of range"))
  | .periodical expression => .ok { scheduleType, cronExpression := some expression }
  | .onTime at_ => .ok { scheduleType, executeAt := some (columnTime at_) }

def minutes? : Option Int → Option Nat
  | some n => if 0 ≤ n then some n.toNat else none
  | none => none

/-- The schedule of a known type. -/
def scheduleOf (c : ScheduleColumns) : ScheduleType → Except StoreError Schedule
  | .interval =>
    .interval <$> readColumn jobsTable "interval job without a valid interval_minutes"
      (minutes? c.intervalMinutes)
  | .periodical =>
    .periodical <$> readColumn jobsTable "periodical job without cron_expression" c.cronExpression
  | .onTime => .onTime <$> readColumn jobsTable "on_time job without execute_at" c.executeAt

def schedule (c : ScheduleColumns) : Except StoreError Schedule := do
  c.scheduleOf (← readWord jobsTable (ScheduleType.parse c.scheduleType))

/-- The columns after a statement that may name a schedule. The type replaces the one that is there unless it is null; if it
does, the values replace those that are there, null or not. -/
def change (new : Option ScheduleColumns) (old : ScheduleColumns) : ScheduleColumns :=
  let type := new.map (·.scheduleType)
  { scheduleType := type.getD old.scheduleType
    intervalMinutes := if type.isNone then old.intervalMinutes else new.bind (·.intervalMinutes)
    cronExpression := if type.isNone then old.cronExpression else new.bind (·.cronExpression)
    executeAt := if type.isNone then old.executeAt else new.bind (·.executeAt) }

/-- They are replaced together, or not at all. -/
theorem change_eq (new : Option ScheduleColumns) (old : ScheduleColumns) : change new old = new.getD old := by
  cases new <;> rfl

end ScheduleColumns

/-! ## Jobs -/

structure JobRow where
  id : Identifier
  environment : String
  name : String
  schedule : ScheduleColumns
  functions : String
  executionType : String
  status : String
  createdAt : Instant
  updatedAt : Instant
deriving DecidableEq, Inhabited

def functionsText (kind : JsonColumn) (fs : List FunctionSpec) : String := kind.text (.ofList FunctionSpec.toJson fs)

def readFunctions (table text : String) : Except StoreError (List FunctionSpec) :=
  readColumn table "functions" (readJson? (Json.list? FunctionSpec.ofJson?) text)

def readExecutionType (table text : String) : Except StoreError ExecutionType :=
  readWord table (ExecutionType.parse text)

namespace JobRow

def ofNew (kind : JsonColumn) (id : Identifier) (now : Instant) (schedule : ScheduleColumns) (j : NewJob) :
    JobRow where
  id := id
  environment := j.environment
  name := j.name
  schedule := schedule
  functions := functionsText kind j.functions
  executionType := j.executionType.text
  status := j.status.text
  createdAt := now
  updatedAt := now

/-- With the columns that changes name. -/
def change (kind : JsonColumn) (now : Instant) (c : JobChanges) (schedule : Option ScheduleColumns) (r : JobRow) :
    JobRow :=
  { r with
    name := c.name.getD r.name
    schedule := .change schedule r.schedule
    functions := (c.functions.map (functionsText kind)).getD r.functions
    executionType := (c.executionType.map ExecutionType.text).getD r.executionType
    status := (c.status.map JobStatus.text).getD r.status
    updatedAt := now }

/-- With another value in one column; none if there is no such column or it does not hold that. -/
def withColumn? (column : String) (value : Json) (r : JobRow) : Option JobRow :=
  match column with
  | "environment_id" => (Json.string? value).map fun s => { r with environment := s }
  | "name" => (Json.string? value).map fun s => { r with name := s }
  | "schedule_type" =>
    (Json.string? value).map fun s => { r with schedule := { r.schedule with scheduleType := s } }
  | "interval_minutes" =>
    (columnInteger? value).map fun n => { r with schedule := { r.schedule with intervalMinutes := n } }
  | "cron_expression" =>
    (columnText? value).map fun s => { r with schedule := { r.schedule with cronExpression := s } }
  | "execute_at" =>
    (columnInstant? value).map fun t => { r with schedule := { r.schedule with executeAt := t } }
  | "functions" => (columnJson? value).map fun j => { r with functions := j }
  | "execution_type" => (Json.string? value).map fun s => { r with executionType := s }
  | "status" => (Json.string? value).map fun s => { r with status := s }
  | "created_at" => (Json.instant? value).map fun t => { r with createdAt := columnTime t }
  | "updated_at" => (Json.instant? value).map fun t => { r with updatedAt := columnTime t }
  | _ => none

def job (r : JobRow) : Except StoreError Job := do
  return {
    id := r.id
    environment := r.environment
    name := r.name
    schedule := ← r.schedule.schedule
    functions := ← readFunctions jobsTable r.functions
    executionType := ← readExecutionType jobsTable r.executionType
    status := ← readWord jobsTable (JobStatus.parse r.status)
    createdAt := r.createdAt
    updatedAt := r.updatedAt }

end JobRow

/-! ## Executions -/

structure ExecutionRow where
  id : Identifier
  jobId : Identifier
  processedOn : Option Instant
  finishedOn : Option Instant
  results : String
  functions : String
  executionType : String
  status : String
  schedule : String
  createdAt : Instant
deriving DecidableEq, Inhabited

namespace ExecutionRow

def ofNew (kind : JsonColumn) (id : Identifier) (now : Instant) (e : NewExecution) : ExecutionRow where
  id := id
  jobId := e.jobId
  processedOn := e.processedOn.map columnTime
  finishedOn := e.finishedOn.map columnTime
  results := kind.text (.ofList CallResult.toJson e.results)
  functions := functionsText kind e.functions
  executionType := e.executionType.text
  status := e.status.text
  schedule := kind.text e.schedule.toJson
  createdAt := now

def execution (r : ExecutionRow) : Except StoreError JobExecution := do
  return {
    id := r.id
    jobId := r.jobId
    processedOn := r.processedOn
    finishedOn := r.finishedOn
    results := ← readColumn executionsTable "results" (readJson? (Json.list? CallResult.ofJson?) r.results)
    functions := ← readFunctions executionsTable r.functions
    executionType := ← readExecutionType executionsTable r.executionType
    status := ← readWord executionsTable (ExecutionStatus.parse r.status)
    schedule := ← readColumn executionsTable "schedule" (readJson? Schedule.ofJson? r.schedule)
    createdAt := r.createdAt }

/-- With another value in one column; none if there is no such column or it does not hold that. -/
def withColumn? (column : String) (value : Json) (r : ExecutionRow) : Option ExecutionRow :=
  match column with
  | "processed_on" => (columnInstant? value).map fun t => { r with processedOn := t }
  | "finished_on" => (columnInstant? value).map fun t => { r with finishedOn := t }
  | "results" => (columnJson? value).map fun j => { r with results := j }
  | "functions" => (columnJson? value).map fun j => { r with functions := j }
  | "execution_type" => (Json.string? value).map fun s => { r with executionType := s }
  | "status" => (Json.string? value).map fun s => { r with status := s }
  | "schedule" => (columnJson? value).map fun j => { r with schedule := j }
  | "created_at" => (Json.instant? value).map fun t => { r with createdAt := columnTime t }
  | _ => none

/-- Whether a row was begun, or then stored, no earlier than another; one never begun comes last. -/
def begunNoEarlier (a b : ExecutionRow) : Bool :=
  match a.processedOn, b.processedOn with
  | some x, some y => decide (y < x) || (x == y && decide (b.createdAt ≤ a.createdAt))
  | some _, none => true
  | none, some _ => false
  | none, none => decide (b.createdAt ≤ a.createdAt)

end ExecutionRow

end Timetable
