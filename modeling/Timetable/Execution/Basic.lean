import Timetable.Job.Basic

/-!
# Executions

What one run of a job left behind: the outcome of each call that was made and the definition the job
had then. A call that answers a code from 200 to 299 succeeds; any other code, no code and no
answer are failures.
-/

namespace Timetable

def isSuccessCode (code : Option Nat) : Bool :=
  match code with
  | some code => 200 ≤ code && code < 300
  | none => false

/-- The outcome of one call. -/
structure CallResult where
  functionId : String
  statusCode : Option Nat
  /-- No answer came. -/
  fatal : Bool
deriving DecidableEq, Inhabited

namespace CallResult

def completed (functionId : String) (statusCode : Option Nat) : CallResult :=
  ⟨functionId, statusCode, false⟩

def failed (functionId : String) : CallResult := ⟨functionId, none, true⟩

def isFailure (r : CallResult) : Bool := r.fatal || !isSuccessCode r.statusCode

end CallResult

inductive ExecutionStatus where
  | finished
  /-- The job could not be run. -/
  | jobError
  /-- A call failed. -/
  | withCallError
deriving DecidableEq, Repr, Inhabited

namespace ExecutionStatus

def ofResults (results : List CallResult) : ExecutionStatus :=
  if results.any CallResult.isFailure then withCallError else finished

def text : ExecutionStatus → String
  | finished => "finished"
  | jobError => "job_error"
  | withCallError => "with_call_error"

def ofText? (s : String) : Option ExecutionStatus :=
  [finished, jobError, withCallError].find? (·.text == s)

def parse : String → Except String ExecutionStatus := parseWord "execution status" ofText?

theorem ofText?_text (t : ExecutionStatus) : ofText? t.text = some t := by cases t <;> decide

def toJson (t : ExecutionStatus) : Json := .str t.text

def ofJson? (j : Json) : Option ExecutionStatus := Json.word? j >>= ofText?

end ExecutionStatus

structure JobExecution where
  id : Identifier
  jobId : Identifier
  processedOn : Option Instant
  finishedOn : Option Instant
  results : List CallResult
  functions : List FunctionSpec
  executionType : ExecutionType
  status : ExecutionStatus
  schedule : Schedule
  createdAt : Instant
deriving DecidableEq, Inhabited

/-- An execution to be stored, without identifier and time of storing. -/
structure NewExecution where
  jobId : Identifier
  processedOn : Option Instant
  finishedOn : Option Instant
  results : List CallResult
  functions : List FunctionSpec
  executionType : ExecutionType
  status : ExecutionStatus
  schedule : Schedule
deriving DecidableEq, Inhabited

def NewExecution.store (e : NewExecution) (id : Identifier) (now : Instant) : JobExecution :=
  { e with id, createdAt := now }

/-- Seconds between two instants, to the millisecond, rounded toward zero. -/
def durationSeconds (processedOn finishedOn : Option Instant) : Option Decimal :=
  match processedOn, finishedOn with
  | some start, some stop => some (.thousandths (stop.sinceMillis start))
  | _, _ => none

structure ExecutionView where
  id : Identifier
  jobId : Identifier
  processedOn : Option Instant
  finishedOn : Option Instant
  duration : Option Decimal
  results : List CallResult
  functions : List FunctionSpec
  executionType : ExecutionType
  status : ExecutionStatus
  schedule : Schedule
deriving DecidableEq, Inhabited

namespace JobExecution

def duration (e : JobExecution) : Option Decimal := durationSeconds e.processedOn e.finishedOn

def toView (e : JobExecution) : ExecutionView := { e with duration := e.duration }

/-- Whether an execution was begun no earlier than another; one that was never begun comes last. -/
def begunNoEarlier (a b : JobExecution) : Bool :=
  match a.processedOn, b.processedOn with
  | some x, some y => decide (y ≤ x)
  | none, some _ => false
  | _, none => true

end JobExecution

/-- Which executions to list; no status lists all. -/
structure ExecutionFilter where
  status : Option ExecutionStatus := none
deriving DecidableEq, Inhabited

def ExecutionFilter.accepts (f : ExecutionFilter) (e : JobExecution) : Bool :=
  match f.status with
  | some status => e.status == status
  | none => true

end Timetable
