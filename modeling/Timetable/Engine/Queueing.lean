import Timetable.Engine.Basic
import Timetable.Job.Basic
import Timetable.Job.Json

/-!
# Jobs in the queue

A job is put into the queue, taken out and looked for as its schedule says at the time; the payload
of its entries is the job itself. `Engine.applyUpdate` stores a change of a job and moves its
entries in one planned step, and undoes the second when the first fails.

The plan of an update (`ChangePlan`): the definition that was queued is taken out, the new one is put in, both or neither,
by whether the job was enabled before and is enabled after, and whether its schedule changed.
-/

namespace Timetable

structure ChangePlan where
  removeOld : Bool
  addNew : Bool
deriving DecidableEq, Repr

namespace ChangePlan

def isNothing (p : ChangePlan) : Bool := !p.removeOld && !p.addNew

def between (old new : Job) : ChangePlan :=
  match old.isEnabled, new.isEnabled with
  | true, true => if old.schedule = new.schedule then ⟨false, false⟩ else ⟨true, true⟩
  | true, false => ⟨true, false⟩
  | false, true => ⟨false, true⟩
  | false, false => ⟨false, false⟩

end ChangePlan

namespace Engine

variable {σ ρ τ : Type}

open World

/-! ## One job -/

/-- Puts a job into the queue; one whose instant has passed stays out. The queue is asked at the time of the plan. -/
def enqueue (g : Engine σ ρ τ) (job : Job) : Act QueueError (World σ ρ) Unit := do
  let now ← time
  match queuePlan job.schedule now with
  | .repeating spec => onQueue (g.queue.addRepeating now job.queueKey spec job.toJson)
  | .delayed millis => onQueue (g.queue.addDelayed now job.queueKey millis job.toJson)
  | .expired => return

/-- Takes a job out of the queue; whether there was something to take out. -/
def dequeue (g : Engine σ ρ τ) (job : Job) : Act QueueError (World σ ρ) Bool := do
  match queuePlan job.schedule (← time) with
  | .repeating spec => onQueue (g.queue.removeRepeating job.queueKey spec)
  | .delayed _ | .expired => onQueue (g.queue.removeDelayed job.queueKey)

/-- Whether a record is the one of a key and a specification. -/
def isRecordOf (key : String) (spec : RepeatSpec) (r : RepeatRecord) : Bool :=
  r.key == key && r.spec == spec

/-- Whether the queue holds what the job's schedule asks for. -/
def isQueued (g : Engine σ ρ τ) (job : Job) : Act QueueError (World σ ρ) Bool := do
  let now ← time
  match queuePlan job.schedule now with
  | .repeating spec =>
    return (← onQueue g.queue.listRepeating).any (isRecordOf job.queueKey spec)
  | .delayed _ | .expired => return (← onQueue (g.queue.getEntry now job.queueKey)).isSome

/-- When the job fires next, if it is in the queue; an entry that is at work does not fire again. -/
def nextExecutionAt (g : Engine σ ρ τ) (job : Job) :
    Act QueueError (World σ ρ) (Option Instant) := do
  let now ← time
  match queuePlan job.schedule now with
  | .repeating spec =>
    let records ← onQueue g.queue.listRepeating
    return (records.find? (isRecordOf job.queueKey spec)).bind (·.next)
  | .delayed _ | .expired =>
    let entry ← onQueue (g.queue.getEntry now job.queueKey)
    return (entry.filter (·.state != .active)).map (·.entry.fireAt)

/-! ## A change of a job -/

/-- Moves the entries of a job as a plan says. -/
def move (g : Engine σ ρ τ) (plan : ChangePlan) (old new : Job) :
    Act QueueError (World σ ρ) Unit := do
  if plan.removeOld then discard (g.dequeue old)
  if plan.addNew then g.enqueue new

/-- Puts the old definition back if the queue no longer holds it. -/
def restore (g : Engine σ ρ τ) (old : Job) : Act QueueError (World σ ρ) Unit := do
  if !(← g.isQueued old) then g.enqueue old

/-- Undoes the queue's side of a change that failed. Errors on the way are passed over. -/
def undo (g : Engine σ ρ τ) (old new : Job) (added : Bool) : Act EngineError (World σ ρ) Unit := do
  if added then discard (attempting (queueing (g.dequeue new)))
  if old.isEnabled then discard (attempting (queueing (g.restore old)))

/-- Changes a job that was read before, in the store and in the queue. -/
def applyUpdate (g : Engine σ ρ τ) (old : Job) (changes : JobChanges) :
    Act EngineError (World σ ρ) Job := do
  let plan := ChangePlan.between old (changes.applyTo old)
  let now ← time
  let t ← storing (onStore (g.store.openTransaction now))
  let (new, t) ← storing (inTransaction t (g.store.inside.updateJob now old.id changes))
  match ← attempting (queueing (g.move plan old new)) with
  | .error e =>
    g.undo old new false
    throw e
  | .ok () =>
    match ← attempting (storing (onStore (g.store.commit t))) with
    | .error e =>
      g.undo old new plan.addNew
      throw e
    | .ok () => return new

/-- Deletes a job that was read before, in the store and in the queue. -/
def applyDelete (g : Engine σ ρ τ) (job : Job) : Act EngineError (World σ ρ) Unit := do
  let t ← storing (onStore (g.store.openTransaction (← time)))
  let (_, t) ← storing (inTransaction t (g.store.inside.deleteJob job.id))
  discard (queueing (g.dequeue job))
  match ← attempting (storing (onStore (g.store.commit t))) with
  | .error e =>
    if job.isEnabled then discard (attempting (queueing (g.enqueue job)))
    throw e
  | .ok () => return

end Engine

end Timetable
