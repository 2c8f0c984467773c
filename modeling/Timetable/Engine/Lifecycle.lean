import Timetable.Engine.Queueing
import Timetable.Text.Basic

/-!
# Jobs from creation to deletion

What callers may do with jobs and their executions. Every operation is scoped to an environment: a
job of another one is not found. A request is checked name first, then functions, then schedule.
-/

namespace Timetable.Engine

variable {σ ρ τ : Type}

open World

/-! ## Checking requests -/

/-- A name without blanks around it. -/
def validateName (name : String) : Except EngineError String :=
  let name := Text.trimText name
  if name = "" then .error (.validation (.missingField "name")) else .ok name

/-- Refuses functions that do not exist. -/
def requireFunctions (g : Engine σ ρ τ) (specs : List FunctionSpec) : Except EngineError Unit :=
  match g.invoker.missing (specs.map (·.functionId)) with
  | .error e => .error e
  | .ok [] => .ok ()
  | .ok missing => .error (.validation (.functionsNotFound (", ".intercalate missing)))

def validateFunctions (g : Engine σ ρ τ) (requests : List FunctionRequest) :
    Except EngineError (List FunctionSpec) := do
  if requests.isEmpty then throw (.validation (.missingField "functions"))
  let specs := requests.map FunctionRequest.toSpec
  match specs.find? fun spec => Text.trimText spec.functionId = "" with
  | some spec =>
    throw (.validation (.invalidField "functionId" s!"'{spec.functionId}' is not a function id"))
  | none =>
    g.requireFunctions specs
    return specs

def validate (g : Engine σ ρ τ) (schedule : Schedule) (purpose : ValidationPurpose)
    (now : Instant) : Except EngineError Unit :=
  (validateSchedule schedule g.policy purpose now).mapError fun e => .validation (.schedule e)

/-- The job that a request asks for. -/
def newJob (g : Engine σ ρ τ) (environment : String) (r : CreateJobRequest) (now : Instant) :
    Except EngineError NewJob := do
  let name ← validateName r.name
  let functions ← g.validateFunctions r.functions
  g.validate r.schedule .create now
  return {
    environment
    name
    schedule := r.schedule
    functions
    executionType := r.executionType
    status := .ofBool (r.enabled.getD true) }

/-- The changes that a request asks for. -/
def changes (g : Engine σ ρ τ) (r : UpdateJobRequest) (now : Instant) :
    Except EngineError JobChanges := do
  let name ← r.name.mapM validateName
  let functions ← r.functions.mapM g.validateFunctions
  discard (r.schedule.mapM fun schedule => g.validate schedule .update now)
  return {
    name
    schedule := r.schedule
    functions
    executionType := r.executionType
    status := r.enabled.map .ofBool }

/-! ## Jobs -/

/-- Stores a job and, if it is enabled, puts it into the queue. If the second fails the job is left to
reconciliation. -/
def createJob (g : Engine σ ρ τ) (environment : String) (r : CreateJobRequest) :
    Act EngineError (World σ ρ) Job := do
  let now ← time
  let new ← .ofExcept (g.newJob environment r now)
  let job ← storing (onStore (g.store.createJob now new))
  if job.isEnabled then discard (attempting (queueing (g.enqueue job)))
  return job

def getJob (g : Engine σ ρ τ) (environment : String) (id : Identifier) :
    Act EngineError (World σ ρ) Job := do
  match ← storing (onStore (g.store.findJob environment id)) with
  | some job => return job
  | none => throw (.jobNotFound id.text)

def updateJob (g : Engine σ ρ τ) (environment : String) (id : Identifier) (r : UpdateJobRequest) :
    Act EngineError (World σ ρ) Job := do
  let old ← g.getJob environment id
  g.applyUpdate old (← .ofExcept (g.changes r (← time)))

def deleteJob (g : Engine σ ρ τ) (environment : String) (id : Identifier) :
    Act EngineError (World σ ρ) Unit := do
  g.applyDelete (← g.getJob environment id)

def listJobs (g : Engine σ ρ τ) (environment : String) : Act EngineError (World σ ρ) (List Job) :=
  storing (onStore (g.store.listJobs environment))

def jobView (g : Engine σ ρ τ) (job : Job) : Act EngineError (World σ ρ) JobView := do
  return job.toView (← queueing (g.nextExecutionAt job))

/-! ## Executions -/

def getExecution (g : Engine σ ρ τ) (environment : String) (jobId id : Identifier) :
    Act EngineError (World σ ρ) JobExecution := do
  discard (g.getJob environment jobId)
  match ← storing (onStore (g.store.findExecution jobId id)) with
  | some e => return e
  | none => throw (.executionNotFound id.text)

def listExecutions (g : Engine σ ρ τ) (environment : String) (jobId : Identifier)
    (filter : ExecutionFilter) : Act EngineError (World σ ρ) (List JobExecution) := do
  discard (g.getJob environment jobId)
  storing (onStore (g.store.listExecutions jobId filter))

/-- Clears the history of a job; how many executions it held. -/
def deleteExecutions (g : Engine σ ρ τ) (environment : String) (jobId : Identifier) :
    Act EngineError (World σ ρ) Nat := do
  discard (g.getJob environment jobId)
  storing (onStore (g.store.deleteExecutions jobId))

def deleteExecution (g : Engine σ ρ τ) (environment : String) (jobId id : Identifier) :
    Act EngineError (World σ ρ) Unit := do
  discard (g.getJob environment jobId)
  if !(← storing (onStore (g.store.deleteExecution jobId id))) then
    throw (.executionNotFound id.text)

end Timetable.Engine
