import Timetable.Act
import Timetable.Error
import Timetable.Execution.Basic

/-!
# Job stores

What the engine asks of a store of jobs and executions, whatever it is kept in. A `JobStore σ τ` is
a record of actions on the state `σ` of the store; `τ` is what is known of an open transaction.
Nothing of a transaction shows before its commit, and a transaction that is forgotten leaves nothing.

Both stores of this library keep a `StoreState ρ`: rows `ρ` beside a count of the identifiers that
were handed out, which no rollback takes back, and of the statements that were sent.
-/

namespace Timetable

/-- The statements of a store, by name. -/
inductive StoreCall where
  | createJob
  | updateJob
  | deleteJob
  | findJob
  | findJobById
  | listJobs
  | listEnabledJobs
  | createExecution
  | findExecution
  | listExecutions
  | recentExecutions
  | deleteExecutions
  | deleteExecution
  | openTransaction
  | commit
  | health
deriving DecidableEq, Repr

namespace StoreCall

def text : StoreCall → String
  | createJob => "create_job"
  | updateJob => "update_job"
  | deleteJob => "delete_job"
  | findJob => "find_job"
  | findJobById => "find_job_by_id"
  | listJobs => "list_jobs"
  | listEnabledJobs => "list_enabled_jobs"
  | createExecution => "create_execution"
  | findExecution => "find_execution"
  | listExecutions => "list_executions"
  | recentExecutions => "recent_executions"
  | deleteExecutions => "delete_executions"
  | deleteExecution => "delete_execution"
  | openTransaction => "begin"
  | commit => "commit"
  | health => "health"

end StoreCall

/-- Changes of jobs. -/
structure JobWriter (σ : Type) where
  createJob (now : Instant) (job : NewJob) : Act StoreError σ Job
  /-- Fails if there is no such job. -/
  updateJob (now : Instant) (id : Identifier) (changes : JobChanges) : Act StoreError σ Job
  /-- Takes out a job and its executions; whether there was such a job. -/
  deleteJob (id : Identifier) : Act StoreError σ Bool

structure JobStore (σ τ : Type) extends JobWriter σ where
  findJob (environment : String) (id : Identifier) : Act StoreError σ (Option Job)
  findJobById (id : Identifier) : Act StoreError σ (Option Job)
  /-- The jobs of an environment, newest first. -/
  listJobs (environment : String) : Act StoreError σ (List Job)
  listEnabledJobs : Act StoreError σ (List Job)
  /-- Adds an execution, if its job is still there. -/
  createExecution (now : Instant) (e : NewExecution) : Act StoreError σ (Option JobExecution)
  findExecution (jobId id : Identifier) : Act StoreError σ (Option JobExecution)
  /-- The executions of a job, newest first. -/
  listExecutions (jobId : Identifier) (filter : ExecutionFilter) :
    Act StoreError σ (List JobExecution)
  /-- The executions that were begun last, latest first; those never begun come last. -/
  recentExecutions (jobId : Identifier) (limit : Nat) : Act StoreError σ (List JobExecution)
  deleteExecutions (jobId : Identifier) : Act StoreError σ Nat
  deleteExecution (jobId id : Identifier) : Act StoreError σ Bool
  openTransaction (now : Instant) : Act StoreError σ τ
  /-- What may be changed inside a transaction. -/
  inside : JobWriter (τ × σ)
  commit (transaction : τ) : Act StoreError σ Unit

/-- A writer of a part of a larger state. -/
def JobWriter.zoom {σ ω : Type} (w : JobWriter σ) (get : ω → σ) (put : σ → ω → ω) :
    JobWriter ω where
  createJob now job := (w.createJob now job).zoom get put
  updateJob now id changes := (w.updateJob now id changes).zoom get put
  deleteJob id := (w.deleteJob id).zoom get put

/-! ## Rows, identifiers and statements -/

structure StoreState (ρ : Type) where
  rows : ρ
  /-- Identifiers handed out so far. -/
  issued : Nat := 0
  /-- Statements sent so far. -/
  sent : Nat := 0
deriving DecidableEq, Inhabited

/-- Which of the statements that are sent fail, and how. -/
abbrev StoreFaults := Nat → StoreCall → Option StoreError

/-- The calls with some names fail, all in the same way. -/
def StoreFaults.named (names : List String) (e : StoreError) : StoreFaults := fun _ call =>
  if names.contains call.text then some e else none

/-- The faults of two lists. -/
def StoreFaults.or (f g : StoreFaults) : StoreFaults := fun n call => f n call <|> g n call

/-- No statement fails. -/
def noStoreFaults : StoreFaults := fun _ _ => none

/-- A transaction works on rows of its own. -/
structure Transaction (ρ : Type) where
  working : ρ
  openedAt : Instant
deriving DecidableEq, Inhabited

namespace StoreState

variable {ρ α : Type}

/-- Hands out the next identifier. -/
def issue : Act StoreError (StoreState ρ) Identifier :=
  .of fun s => (.ok (.generated (s.issued + 1)), { s with issued := s.issued + 1 })

/-- Sends a statement: it has its effect on the rows unless it fails. -/
def send (faults : StoreFaults) (call : StoreCall) (effect : Act StoreError (StoreState ρ) α) :
    Act StoreError (StoreState ρ) α :=
  .of fun s =>
    let s' := { s with sent := s.sent + 1 }
    match faults s.sent call with
    | some e => (.error e, s')
    | none => effect.on s'

/-- Changes the rows. -/
def change (f : ρ → α × ρ) : Act StoreError (StoreState ρ) α :=
  .of fun s => let (a, rows) := f s.rows; (.ok a, { s with rows })

def onRows (x : Act StoreError ρ α) : Act StoreError (StoreState ρ) α :=
  x.zoom rows fun rows s => { s with rows }

def read (f : ρ → Except StoreError α) : Act StoreError (StoreState ρ) α :=
  .of fun s => (f s.rows, s)

/-- Opens a transaction on a copy of the rows. -/
def openTransaction (faults : StoreFaults) (now : Instant) :
    Act StoreError (StoreState ρ) (Transaction ρ) :=
  send faults .openTransaction (.of fun s => (.ok ⟨s.rows, now⟩, s))

/-- Puts the rows of a transaction in the place of the rows. -/
def commit (faults : StoreFaults) (t : Transaction ρ) : Act StoreError (StoreState ρ) Unit :=
  send faults .commit (.of fun s => (.ok (), { s with rows := t.working }))

/-- Runs an action on the rows of a transaction; it may ask when that was opened. -/
def within (x : Instant → Act StoreError (StoreState ρ) α) :
    Act StoreError (Transaction ρ × StoreState ρ) α :=
  .of fun (t, s) =>
    let (r, s') := (x t.openedAt).on { s with rows := t.working }
    (r, { t with working := s'.rows }, { s' with rows := s.rows })

end StoreState

end Timetable
