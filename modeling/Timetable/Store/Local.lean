import Timetable.Store.Interface
import Timetable.Table

/-!
# The store in memory

Jobs by identifier, and all executions in the order in which they were stored. Every execution
belongs to a stored job: deleting a job deletes its executions, and none is added without its job.
-/

namespace Timetable

structure LocalStore where
  jobs : Table Identifier Job := .empty
  /-- Oldest first. -/
  executions : List JobExecution := []
deriving DecidableEq, Inhabited

namespace LocalStore

/-! ## Jobs -/

def addJob (id : Identifier) (now : Instant) (j : NewJob) (s : LocalStore) : Job × LocalStore :=
  (j.store id now, { s with jobs := s.jobs.set id (j.store id now) })

def changeJob (now : Instant) (id : Identifier) (changes : JobChanges) :
    Act StoreError LocalStore Job := do
  let s ← get
  match s.jobs.get? id with
  | none => throw (.notFound ("job " ++ id.text))
  | some j =>
    let j := changes.applyAt now j
    set { s with jobs := s.jobs.set id j }
    return j

def removeJob (id : Identifier) (s : LocalStore) : Bool × LocalStore :=
  if s.jobs.contains id then
    (true, { s with jobs := s.jobs.erase id, executions := s.executions.filter (·.jobId ≠ id) })
  else (false, s)

def jobIn? (s : LocalStore) (environment : String) (id : Identifier) : Option Job :=
  (s.jobs.get? id).filter (·.environment == environment)

def jobsOf (s : LocalStore) (environment : String) : List Job :=
  (s.jobs.values.filter (·.environment == environment)).mergeSort fun a b =>
    decide (b.createdAt ≤ a.createdAt)

def enabledJobs (s : LocalStore) : List Job := s.jobs.values.filter Job.isEnabled

/-! ## Executions -/

def addExecution (id : Identifier) (now : Instant) (e : NewExecution) (s : LocalStore) :
    JobExecution × LocalStore :=
  (e.store id now, { s with executions := s.executions ++ [e.store id now] })

/-- The executions of a job, newest first. -/
def executionsOf (s : LocalStore) (jobId : Identifier) : List JobExecution :=
  s.executions.reverse.filter (·.jobId == jobId)

def recent (s : LocalStore) (jobId : Identifier) (limit : Nat) : List JobExecution :=
  ((s.executionsOf jobId).mergeSort JobExecution.begunNoEarlier).take limit

/-- Takes out the executions that are not to be kept; how many. -/
def keepExecutions (keep : JobExecution → Bool) (s : LocalStore) : Nat × LocalStore :=
  let kept := s.executions.filter keep
  (s.executions.length - kept.length, { s with executions := kept })

/-! ## The store as a job store -/

open StoreState

/-- A commit that fails says so. -/
def commitRejected : StoreError := .transactionFailed "commit rejected by in-memory store"

def createJob (faults : StoreFaults) (now : Instant) (j : NewJob) :
    Act StoreError (StoreState LocalStore) Job :=
  send faults .createJob do
    let id ← issue
    change (addJob id now j)

def updateJob (faults : StoreFaults) (now : Instant) (id : Identifier) (changes : JobChanges) :
    Act StoreError (StoreState LocalStore) Job :=
  send faults .updateJob (onRows (changeJob now id changes))

def deleteJob (faults : StoreFaults) (id : Identifier) :
    Act StoreError (StoreState LocalStore) Bool :=
  send faults .deleteJob (change (removeJob id))

def createExecution (faults : StoreFaults) (now : Instant) (e : NewExecution) :
    Act StoreError (StoreState LocalStore) (Option JobExecution) :=
  send faults .createExecution do
    if (← get).rows.jobs.contains e.jobId then
      let id ← issue
      return some (← change (addExecution id now e))
    return none

/-- The store in memory, with faults. -/
def jobStore (faults : StoreFaults) : JobStore (StoreState LocalStore) (Transaction LocalStore) where
  createJob := createJob faults
  updateJob := updateJob faults
  deleteJob := deleteJob faults
  findJob environment id := send faults .findJob (read fun s => .ok (s.jobIn? environment id))
  findJobById id := send faults .findJobById (read fun s => .ok (s.jobs.get? id))
  listJobs environment := send faults .listJobs (read fun s => .ok (s.jobsOf environment))
  listEnabledJobs := send faults .listEnabledJobs (read fun s => .ok s.enabledJobs)
  createExecution := createExecution faults
  findExecution jobId id :=
    send faults .findExecution (read fun s => .ok ((s.executionsOf jobId).find? (·.id == id)))
  listExecutions jobId filter :=
    send faults .listExecutions (read fun s => .ok ((s.executionsOf jobId).filter filter.accepts))
  recentExecutions jobId limit :=
    send faults .recentExecutions (read fun s => .ok (s.recent jobId limit))
  deleteExecutions jobId :=
    send faults .deleteExecutions (change (keepExecutions (·.jobId ≠ jobId)))
  deleteExecution jobId id :=
    send faults .deleteExecution do
      return (← change (keepExecutions fun e => !(e.jobId == jobId && e.id == id))) ≠ 0
  openTransaction := StoreState.openTransaction faults
  inside :=
    { createJob := fun now j => within fun _ => createJob faults now j
      updateJob := fun now id changes => within fun _ => updateJob faults now id changes
      deleteJob := fun id => within fun _ => deleteJob faults id }
  commit := StoreState.commit faults

end LocalStore

end Timetable
