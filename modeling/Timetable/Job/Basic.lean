import Timetable.Schedule.Basic

/-!
# Jobs

A job runs functions on a schedule. It belongs to an environment, which is its tenant, and is known
to the queue by the text of its identifier. Here are the job itself, what a caller may ask for
(`CreateJobRequest`, `UpdateJobRequest`), and changes as a value of their own (`JobChanges`), so
that an update can be planned before it is stored.
-/

namespace Timetable

/-! ## Functions to call -/

/-- A function and what is passed to it. -/
structure FunctionSpec where
  functionId : String
  event : Json := Json.empty
  headers : Json := Json.empty
  params : Json := Json.empty
deriving DecidableEq, Inhabited

inductive ExecutionType where
  /-- One function after the other, up to the first failure. -/
  | sequential
  /-- All functions at once. -/
  | parallel
deriving DecidableEq, Repr, Inhabited

inductive JobStatus where
  | enabled
  | disabled
deriving DecidableEq, Repr, Inhabited

namespace ExecutionType

def text : ExecutionType → String
  | sequential => "sequential"
  | parallel => "parallel"

def ofText? (s : String) : Option ExecutionType := [sequential, parallel].find? (·.text == s)

def parse : String → Except String ExecutionType := parseWord "execution type" ofText?

theorem ofText?_text (t : ExecutionType) : ofText? t.text = some t := by cases t <;> decide

def toJson (t : ExecutionType) : Json := .str t.text

def ofJson? (j : Json) : Option ExecutionType := Json.word? j >>= ofText?

end ExecutionType

namespace JobStatus

def ofBool (isEnabled : Bool) : JobStatus := if isEnabled then enabled else disabled

def text : JobStatus → String
  | enabled => "enabled"
  | disabled => "disabled"

def ofText? (s : String) : Option JobStatus := [enabled, disabled].find? (·.text == s)

def parse : String → Except String JobStatus := parseWord "job status" ofText?

theorem ofText?_text (t : JobStatus) : ofText? t.text = some t := by cases t <;> decide

def toJson (t : JobStatus) : Json := .str t.text

def ofJson? (j : Json) : Option JobStatus := Json.word? j >>= ofText?

end JobStatus

/-! ## Jobs -/

structure Job where
  id : Identifier
  environment : String
  name : String
  schedule : Schedule
  functions : List FunctionSpec
  executionType : ExecutionType
  status : JobStatus
  createdAt : Instant
  updatedAt : Instant
deriving DecidableEq, Inhabited

/-- A job to be stored, without identifier and times. -/
structure NewJob where
  environment : String
  name : String
  schedule : Schedule
  functions : List FunctionSpec
  executionType : ExecutionType
  status : JobStatus
deriving DecidableEq, Inhabited

def NewJob.store (j : NewJob) (id : Identifier) (now : Instant) : Job :=
  { j with id, createdAt := now, updatedAt := now }

structure JobChanges where
  name : Option String := none
  schedule : Option Schedule := none
  functions : Option (List FunctionSpec) := none
  executionType : Option ExecutionType := none
  status : Option JobStatus := none
deriving DecidableEq, Inhabited

namespace Job

def isEnabled (j : Job) : Bool := j.status == .enabled

/-- The name of the job in the queue. -/
def queueKey (j : Job) : String := j.id.text

end Job

namespace JobChanges

def disable : JobChanges := { status := some .disabled }

/-- The job with what the changes name replaced. -/
def applyTo (c : JobChanges) (j : Job) : Job :=
  { j with
    name := c.name.getD j.name
    schedule := c.schedule.getD j.schedule
    functions := c.functions.getD j.functions
    executionType := c.executionType.getD j.executionType
    status := c.status.getD j.status }

/-- The job as it is stored with the changes made. -/
def applyAt (c : JobChanges) (now : Instant) (j : Job) : Job :=
  { c.applyTo j with updatedAt := now }

end JobChanges

/-! ## Requests -/

/-- A function to call as a caller names it: payloads may be left out. -/
structure FunctionRequest where
  functionId : String
  event : Option Json := none
  headers : Option Json := none
  params : Option Json := none
deriving DecidableEq, Inhabited

/-- The empty object in the place of nothing and of null. -/
def orEmpty : Option Json → Json
  | none | some .null => Json.empty
  | some j => j

def FunctionRequest.toSpec (r : FunctionRequest) : FunctionSpec where
  functionId := r.functionId
  event := orEmpty r.event
  headers := orEmpty r.headers
  params := orEmpty r.params

structure CreateJobRequest where
  name : String
  schedule : Schedule
  functions : List FunctionRequest
  executionType : ExecutionType
  enabled : Option Bool := none
deriving DecidableEq, Inhabited

structure UpdateJobRequest where
  name : Option String := none
  schedule : Option Schedule := none
  functions : Option (List FunctionRequest) := none
  executionType : Option ExecutionType := none
  enabled : Option Bool := none
deriving DecidableEq, Inhabited

/-- A job as its caller sees it, with the time of its next execution. -/
structure JobView where
  id : Identifier
  name : String
  environment : String
  schedule : Schedule
  functions : List FunctionSpec
  executionType : ExecutionType
  status : JobStatus
  nextExecutionAt : Option Instant
deriving DecidableEq, Inhabited

def Job.toView (j : Job) (nextExecutionAt : Option Instant) : JobView :=
  { j with nextExecutionAt }

end Timetable
