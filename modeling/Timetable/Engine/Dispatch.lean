import Timetable.Engine.Lifecycle

/-!
# Dispatch

What is done with a claimed entry. `Engine.process` reads the job that the entry carries, loads its
present definition and runs its functions; `Engine.completed` and `Engine.failed` store an execution
of what came of it. A job whose last executions all failed is disabled.

Running takes time. `Engine.start` does what is done at once and tells what follows as a `Course`,
so that other work may go on meanwhile; `Course.play` lets it follow with nothing else going on.
-/

namespace Timetable

/-! ## Courses -/

/-- What follows after the start of something that takes time. -/
structure Course (ω ε α : Type) where
  /-- What happens on the way, by milliseconds after the start, in order. -/
  marks : List (Nat × (ω → ω)) := []
  /-- Milliseconds until the outcome is there. -/
  takes : Nat := 0
  /-- Milliseconds that recording the outcome takes after that. -/
  settling : Nat := 0
  outcome : Except ε α

namespace Course

variable {ω ε α : Type} {σ ρ : Type}

/-- The end of something that is over at once. -/
def done (outcome : Except ε α) : Course ω ε α := { outcome }

/-- Lets a course follow to its outcome. -/
def play (c : Course (World σ ρ) ε α) : Act ε (World σ ρ) α :=
  .of fun w => (c.outcome, (c.marks.foldl (fun w m => m.2 w) w).pass c.takes)

end Course

/-! ## Outcomes -/

/-- What came of a dispatch that was not broken off. -/
inductive DispatchOutcome where
  /-- The functions ran; `job` is the definition they ran with. -/
  | completed (job : Job) (results : List CallResult)
  /-- The job was deleted after its entry was queued. -/
  | jobGone
deriving DecidableEq, Inhabited

inductive DispatchError where
  /-- The payload of an entry is not a job. -/
  | noJob (entryId : String)
  | engine (e : EngineError)
deriving DecidableEq, Repr

def DispatchError.message : DispatchError → String
  | noJob entryId => s!"Queue entry {entryId} does not carry a job"
  | engine e => e.message

namespace Engine

variable {σ ρ τ α : Type}

open World

def engaging (x : Act EngineError (World σ ρ) α) : Act DispatchError (World σ ρ) α :=
  x.mapError .engine

/-- The job that an entry carries, as it was when it was queued. -/
def payloadJob (e : StoredEntry) : Except DispatchError Job :=
  match Job.ofJson? e.payload with
  | some job => .ok job
  | none => .error (.noJob e.id)

/-! ## Running -/

/-- The present definition of the job of an entry, if it still exists and all its functions do. -/
def present (g : Engine σ ρ τ) (e : StoredEntry) : Act DispatchError (World σ ρ) (Option Job) := do
  let queued ← .ofExcept (payloadJob e)
  match ← engaging (storing (onStore (g.store.findJobById queued.id))) with
  | none => return none
  | some job =>
    engaging (.ofExcept (g.requireFunctions job.functions))
    return some job

/-- Running the functions of a job; every call is told when it starts. -/
def running (g : Engine σ ρ τ) (job : Job) : Course (World σ ρ) DispatchError DispatchOutcome :=
  let run := runFunctions g.invoker.reply job.functions job.executionType
  { marks := run.calls.map fun c => (c.started, tell (Journal.call c.spec))
    takes := run.takes
    outcome := .ok (.completed job run.results) }

def start (g : Engine σ ρ τ) (e : StoredEntry) (w : World σ ρ) :
    Course (World σ ρ) DispatchError DispatchOutcome × World σ ρ :=
  match (g.present e).on w with
  | (.error error, w) => (.done (.error error), w)
  | (.ok none, w) => (.done (.ok .jobGone), w)
  | (.ok (some job), w) => (g.running job, w)

def process (g : Engine σ ρ τ) (e : StoredEntry) :
    Act DispatchError (World σ ρ) DispatchOutcome := do
  match ← g.present e with
  | none => return .jobGone
  | some job => (g.running job).play

/-! ## Recording -/

/-- Stores an execution and tells its measures, if its job is still there; whether it is. -/
def record (g : Engine σ ρ τ) (new : NewExecution) : Act DispatchError (World σ ρ) Bool := do
  match ← engaging (storing (onStore (g.store.createExecution (← time) new))) with
  | none => return false
  | some saved =>
    modify (tell (Journal.measure (Measure.ofExecution saved.status saved.duration)))
    return true

/-- The execution of a job with an entry. -/
def executionOf (job : Job) (e : StoredEntry) (finishedOn : Instant) (status : ExecutionStatus)
    (results : List CallResult) : NewExecution where
  jobId := job.id
  processedOn := e.processedOn
  finishedOn := some finishedOn
  results := results
  functions := job.functions
  executionType := job.executionType
  status := status
  schedule := job.schedule

/-- Records the results of a dispatch. What a deleted job left in the queue is taken out. -/
def completed (g : Engine σ ρ τ) (e : StoredEntry) (outcome : DispatchOutcome)
    (finishedOn : Instant) : Act DispatchError (World σ ρ) Unit := do
  match outcome with
  | .completed job results =>
    discard (g.record (executionOf job e finishedOn (.ofResults results) results))
  | .jobGone =>
    let queued ← .ofExcept (payloadJob e)
    discard (engaging (queueing (g.dequeue queued)))

/-! ## Failing jobs -/

/-- Whether a number of executions are as many as asked for and all failed. -/
def allFailed (threshold : Nat) (recent : List JobExecution) : Bool :=
  recent.length == threshold && recent.all (·.status == .jobError)

/-- Disables a job, and raises an alert. -/
def disable (g : Engine σ ρ τ) (job : Job) : Act EngineError (World σ ρ) Unit := do
  discard (g.updateJob job.environment job.id { enabled := some false })
  modify (tell (Journal.measure [.autoDisabled job.id]))
  modify (tell (Journal.alert ⟨job.id, job.name, g.threshold⟩))

/-- Disables a job whose last executions all failed. -/
def disableIfFailing (g : Engine σ ρ τ) (id : Identifier) : Act EngineError (World σ ρ) Unit := do
  if g.threshold = 0 then return
  let recent ← storing (onStore (g.store.recentExecutions id g.threshold))
  if !allFailed g.threshold recent then return
  match ← storing (onStore (g.store.findJobById id)) with
  | none => return
  | some job => if job.isEnabled then g.disable job

/-- Records a dispatch that was broken off, with the definition that was queued. -/
def failed (g : Engine σ ρ τ) (e : StoredEntry) (finishedOn : Instant) :
    Act DispatchError (World σ ρ) Unit := do
  let job ← .ofExcept (payloadJob e)
  if ← g.record (executionOf job e finishedOn .jobError []) then
    engaging (g.disableIfFailing job.id)

end Engine

end Timetable
