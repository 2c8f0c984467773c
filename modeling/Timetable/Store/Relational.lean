import Timetable.Store.Interface
import Timetable.Store.Row
import Timetable.Table

/-!
# The store in tables

Every operation is one statement on the tables `Tables`, which are read back row by row: of several
rows that are asked for, one that does not read fails them all. The time of a statement is the
clock in whole microseconds; inside a transaction it is the time of its opening.

A statement is refused, before it looks at any row, when it is given a time that no column holds or
a limit that turns out negative as a signed word. What becomes of a transaction after a refused
statement is left to its server.
-/

namespace Timetable

structure Tables where
  jobs : Table Identifier JobRow := .empty
  /-- Oldest first. -/
  executions : List ExecutionRow := []
deriving DecidableEq, Inhabited

namespace RelationalStore

/-! ## Rows by statement -/

def newestJobFirst (a b : JobRow) : Bool := decide (b.createdAt ≤ a.createdAt)

def newestExecutionFirst (a b : ExecutionRow) : Bool := decide (b.createdAt ≤ a.createdAt)

def insertJob (r : JobRow) : Act StoreError Tables Job := do
  .ofExcept (takeTimes [r.schedule.executeAt])
  modify fun t => { t with jobs := t.jobs.set r.id r }
  .ofExcept r.job

/-- Changes a row and reads it back; the change stays if it does not read. -/
def changeJob (kind : JsonColumn) (now : Instant) (id : Identifier) (c : JobChanges)
    (schedule : Option ScheduleColumns) : Act StoreError Tables Job := do
  .ofExcept (takeTimes [schedule.bind (·.executeAt)])
  let t ← get
  match t.jobs.get? id with
  | none => throw (.notFound ("job " ++ id.text))
  | some r =>
    let r := r.change kind now c schedule
    set { t with jobs := t.jobs.set id r }
    .ofExcept r.job

def removeJob (id : Identifier) (t : Tables) : Bool × Tables :=
  if t.jobs.contains id then
    (true, { t with jobs := t.jobs.erase id, executions := t.executions.filter (·.jobId ≠ id) })
  else (false, t)

def readJob : Option JobRow → Except StoreError (Option Job)
  | some r => some <$> r.job
  | none => .ok none

def findJob (environment : String) (id : Identifier) (t : Tables) :
    Except StoreError (Option Job) :=
  readJob ((t.jobs.get? id).filter (·.environment == environment))

def listJobs (environment : String) (t : Tables) : Except StoreError (List Job) :=
  ((t.jobs.values.filter (·.environment == environment)).mergeSort newestJobFirst).mapM JobRow.job

def listEnabledJobs (t : Tables) : Except StoreError (List Job) :=
  (t.jobs.values.filter (·.status == JobStatus.enabled.text)).mapM JobRow.job

def readExecution : Option ExecutionRow → Except StoreError (Option JobExecution)
  | some r => some <$> r.execution
  | none => .ok none

def insertExecution (r : ExecutionRow) : Act StoreError Tables (Option JobExecution) := do
  .ofExcept (takeTimes [r.processedOn, r.finishedOn])
  let t ← get
  if t.jobs.contains r.jobId then
    set { t with executions := t.executions ++ [r] }
    .ofExcept (readExecution (some r))
  else return none

def executionsOf (t : Tables) (jobId : Identifier) : List ExecutionRow :=
  t.executions.filter (·.jobId == jobId)

def findExecution (jobId id : Identifier) (t : Tables) : Except StoreError (Option JobExecution) :=
  readExecution ((executionsOf t jobId).find? (·.id == id))

def hasStatus (f : ExecutionFilter) (r : ExecutionRow) : Bool :=
  match f.status with
  | some status => r.status == status.text
  | none => true

def listExecutions (jobId : Identifier) (f : ExecutionFilter) (t : Tables) :
    Except StoreError (List JobExecution) :=
  (((executionsOf t jobId).filter (hasStatus f)).mergeSort newestExecutionFirst).mapM
    ExecutionRow.execution

/-- The error of a statement with a negative limit. -/
def negativeLimit : StoreError := .ofFailure (.reported "LIMIT must not be negative")

def recentExecutions (jobId : Identifier) (limit : Nat) (t : Tables) :
    Except StoreError (List JobExecution) :=
  let rows := signedWord limit
  if rows < 0 then .error negativeLimit
  else (((executionsOf t jobId).mergeSort ExecutionRow.begunNoEarlier).take rows.toNat).mapM
    ExecutionRow.execution

/-- Takes out the executions that are not to be kept; how many. -/
def keepExecutions (keep : ExecutionRow → Bool) (t : Tables) : Nat × Tables :=
  let kept := t.executions.filter keep
  (t.executions.length - kept.length, { t with executions := kept })

/-- Puts a value into one column of all rows of a table, past the store; how many rows. Whether the table has
such a column and that can hold the value does not depend on the rows. -/
def overwrite? (table column : String) (value : Json) (t : Tables) : Option (Nat × Tables) :=
  if table = jobsTable then do
    discard ((default : JobRow).withColumn? column value)
    let jobs ← t.jobs.mapValues? (·.withColumn? column value)
    some (jobs.size, { t with jobs })
  else if table = executionsTable then do
    discard ((default : ExecutionRow).withColumn? column value)
    let rows ← t.executions.mapM (·.withColumn? column value)
    some (rows.length, { t with executions := rows })
  else none

/-! ## The tables as a job store -/

open StoreState

/-- The schedule of a new job is split into columns before an identifier is handed out. -/
def createJob (kind : JsonColumn) (faults : StoreFaults) (now : Instant) (j : NewJob) :
    Act StoreError (StoreState Tables) Job := do
  let schedule ← .ofExcept (ScheduleColumns.ofSchedule j.schedule)
  let id ← issue
  send faults .createJob (onRows (insertJob (.ofNew kind id now.floorMicros schedule j)))

def updateJob (kind : JsonColumn) (faults : StoreFaults) (now : Instant) (id : Identifier)
    (c : JobChanges) : Act StoreError (StoreState Tables) Job := do
  let schedule ← .ofExcept (c.schedule.mapM ScheduleColumns.ofSchedule)
  send faults .updateJob (onRows (changeJob kind now.floorMicros id c schedule))

def deleteJob (faults : StoreFaults) (id : Identifier) : Act StoreError (StoreState Tables) Bool :=
  send faults .deleteJob (change (removeJob id))

def createExecution (kind : JsonColumn) (faults : StoreFaults) (now : Instant) (e : NewExecution) :
    Act StoreError (StoreState Tables) (Option JobExecution) := do
  let id ← issue
  send faults .createExecution (onRows (insertExecution (.ofNew kind id now.floorMicros e)))

/-- Asks the database for a sign of life. -/
def checkHealth (faults : StoreFaults) : Act StoreError (StoreState Tables) Unit :=
  send faults .health (pure ())

/-- How the statement of each call begins. -/
def opening : StoreCall → String
  | .createJob => "INSERT INTO jobs"
  | .updateJob => "UPDATE jobs"
  | .deleteJob => "DELETE FROM jobs"
  | .findJob | .findJobById | .listJobs | .listEnabledJobs => "SELECT id, environment_id"
  | .createExecution => "INSERT INTO job_executions"
  | .findExecution | .listExecutions | .recentExecutions => "SELECT id, job_id"
  | .deleteExecutions | .deleteExecution => "DELETE FROM job_executions"
  | .openTransaction => "BEGIN"
  | .commit => "COMMIT"
  | .health => "SELECT 1"

/-- The error of a statement that the server refuses. -/
def refusal (words : String) : StoreCall → StoreError
  | .openTransaction | .commit => .transactionFailed (DatabaseFailure.reported words).text
  | .health => .healthCheckFailed (DatabaseFailure.reported words).text
  | _ => .ofFailure (.reported words)

/-- Every statement that begins in one of some ways is refused. -/
def refusing (openings : List String) (words : String) : StoreFaults := fun _ call =>
  if openings.any fun o => o.toList.isPrefixOf (opening call).toList then some (refusal words call)
  else none

/-- The store in tables, with JSON in columns of some kind, and with faults. -/
def jobStore (kind : JsonColumn) (faults : StoreFaults) : JobStore (StoreState Tables) (Transaction Tables) where
  createJob := createJob kind faults
  updateJob := updateJob kind faults
  deleteJob := deleteJob faults
  findJob environment id := send faults .findJob (read (findJob environment id))
  findJobById id := send faults .findJobById (read fun t => readJob (t.jobs.get? id))
  listJobs environment := send faults .listJobs (read (listJobs environment))
  listEnabledJobs := send faults .listEnabledJobs (read listEnabledJobs)
  createExecution := createExecution kind faults
  findExecution jobId id := send faults .findExecution (read (findExecution jobId id))
  listExecutions jobId filter := send faults .listExecutions (read (listExecutions jobId filter))
  recentExecutions jobId limit :=
    send faults .recentExecutions (read (recentExecutions jobId limit))
  deleteExecutions jobId :=
    send faults .deleteExecutions (change (keepExecutions (·.jobId ≠ jobId)))
  deleteExecution jobId id :=
    send faults .deleteExecution do
      return (← change (keepExecutions fun e => !(e.jobId == jobId && e.id == id))) ≠ 0
  openTransaction := StoreState.openTransaction faults
  inside :=
    { createJob := fun _ j => within fun openedAt => createJob kind faults openedAt j
      updateJob := fun _ id c => within fun openedAt => updateJob kind faults openedAt id c
      deleteJob := fun id => within fun _ => deleteJob faults id }
  commit := StoreState.commit faults

end RelationalStore

end Timetable
