import Timetable.Engine.Queueing

/-!
# Reconciliation

Puts enabled jobs that lost their entry back into the queue. A pass gives up claims whose lease ran
out, looks at the store and at the queue, and then enqueues what it misses, job by job. What it looked
at is a `Survey`; `Survey.lacks?` decides on it alone.

A repeat record counts only while its next instance is stored or an entry of its key is at work, or
if nothing more comes.
-/

namespace Timetable

/-- What a pass sees of the store and the queue, each part at its own moment. -/
structure Survey where
  jobs : List Job
  entries : List QueueEntry
  records : List RepeatRecord
deriving DecidableEq, Inhabited

namespace Survey

def holdsEntry (s : Survey) (id : String) : Bool := s.entries.any (·.entry.id == id)

def holdsKey (s : Survey) (key : String) : Bool := s.entries.any (·.entry.key == key)

def keyIsActive (s : Survey) (key : String) : Bool :=
  s.entries.any fun e => e.state == .active && e.entry.key == key

def isLive (s : Survey) (r : RepeatRecord) : Bool :=
  match r.currentInstance with
  | some instance_ => s.holdsEntry instance_.id || s.keyIsActive r.key
  | none => true

def holdsLive (s : Survey) (key : String) (spec : RepeatSpec) : Bool :=
  s.records.any fun r => s.isLive r && r.key == key && r.spec.id == spec.id

/-- How a job that is missing from the queue runs; none if it is not missing, or past. -/
def lacks? (s : Survey) (now : Instant) (job : Job) : Option Restoration :=
  match queuePlan job.schedule now with
  | .repeating spec => if s.holdsLive job.queueKey spec then none else some .repeating
  | .delayed _ => if s.holdsKey job.queueKey then none else some .single
  | .expired => none

end Survey

structure ReconcileReport where
  repeating : Nat
  single : Nat
  /-- Claims that were given up. -/
  stalled : Nat
deriving DecidableEq, Inhabited

/-- Jobs put back into the queue. -/
def ReconcileReport.total (r : ReconcileReport) : Nat := r.repeating + r.single

def ReconcileReport.toJson (r : ReconcileReport) : Json :=
  .obj [("repeating", .ofNat r.repeating), ("single", .ofNat r.single),
    ("stalled", .ofNat r.stalled), ("total", .ofNat r.total)]

namespace Engine

variable {σ ρ τ : Type}

open World

def survey (g : Engine σ ρ τ) : Act EngineError (World σ ρ) Survey := do
  let jobs ← storing (onStore g.store.listEnabledJobs)
  let entries ← queueing (onQueue (g.queue.listEntries (← time) EntryState.all))
  let records ← queueing (onQueue g.queue.listRepeating)
  return ⟨jobs, entries, records⟩

/-- Enqueues a job that a survey misses; how, if that succeeds. -/
def restoreJob (g : Engine σ ρ τ) (s : Survey) (now : Instant) (job : Job) :
    Act EngineError (World σ ρ) (Option Restoration) := do
  match s.lacks? now job with
  | none => return none
  | some kind =>
    match ← attempting (queueing (g.enqueue job)) with
    | .ok () => return some kind
    | .error _ => return none

def restoreJobs (g : Engine σ ρ τ) (s : Survey) (now : Instant) :
    List Job → Act EngineError (World σ ρ) (List Restoration)
  | [] => return []
  | job :: jobs => do
    let kind ← g.restoreJob s now job
    return kind.toList ++ (← g.restoreJobs s now jobs)

/-- One pass. -/
def reconcile (g : Engine σ ρ τ) : Act EngineError (World σ ρ) ReconcileReport := do
  let stalled ← queueing (onQueue (g.queue.recoverStalled (← time)))
  let s ← g.survey
  let kinds ← g.restoreJobs s (← time) s.jobs
  let repeating := kinds.count .repeating
  let single := kinds.count .single
  modify (tell (Journal.measure [.restored .repeating repeating, .restored .single single]))
  return ⟨repeating, single, stalled⟩

end Engine

end Timetable
