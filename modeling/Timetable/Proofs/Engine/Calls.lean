import Timetable.Proofs.Engine.Shares

/-!
# Calls in an environment

A call is made in one environment. Most calls name a job and look it up there first (`JobCall.ask_missing`,
`JobCall.ask_found`). Everything after that goes by the identifier alone, since transactions, executions and the queue
know of no environments, and stays within the share of the job (`JobCall.within_serve`).
-/

namespace Timetable

open World LocalQueue Act

/-! ## Calls -/

/-- What may be asked of one job. -/
inductive JobCall where
  | update (request : UpdateJobRequest)
  | delete
  | get
  | getExecution (execution : Identifier)
  | listExecutions (filter : ExecutionFilter)
  | deleteExecutions
  | deleteExecution (execution : Identifier)

/-- What may be asked in an environment. -/
inductive Call where
  | create (request : CreateJobRequest)
  | list
  | ofJob (id : Identifier) (call : JobCall)

abbrev JobCall.Answer : JobCall → Type
  | update _ => Job
  | delete => Unit
  | get => Job
  | getExecution _ => JobExecution
  | listExecutions _ => List JobExecution
  | deleteExecutions => Nat
  | deleteExecution _ => Unit

abbrev Call.Answer : Call → Type
  | create _ => Job
  | list => List Job
  | ofJob _ call => call.Answer

namespace JobCall

variable {g : Engine LocalQueue (StoreState LocalStore) (Transaction LocalStore)} {rules : ClaimRules}
  {ordered : Prop} {environment : String} {id : Identifier} {job : Job} {w : Memory}

def ask (g : Engine LocalQueue (StoreState LocalStore) (Transaction LocalStore)) (environment : String) (id : Identifier) :
    (c : JobCall) → Act EngineError Memory c.Answer
  | update r => g.updateJob environment id r
  | delete => g.deleteJob environment id
  | get => g.getJob environment id
  | getExecution execution => g.getExecution environment id execution
  | listExecutions filter => g.listExecutions environment id filter
  | deleteExecutions => g.deleteExecutions environment id
  | deleteExecution execution => g.deleteExecution environment id execution

/-- What is done once the job was found. -/
def serve (g : Engine LocalQueue (StoreState LocalStore) (Transaction LocalStore)) (job : Job) :
    (c : JobCall) → Act EngineError Memory c.Answer
  | update r => do g.rewrite job (← .ofExcept (g.changes r (← time)))
  | delete => g.withdraw job
  | get => return job
  | getExecution execution => do
    match ← Engine.storing (onStore (g.store.findExecution job.id execution)) with
    | some e => return e
    | none => throw (.executionNotFound execution.text)
  | listExecutions filter => Engine.storing (onStore (g.store.listExecutions job.id filter))
  | deleteExecutions => Engine.storing (onStore (g.store.deleteExecutions job.id))
  | deleteExecution execution => do
    if !(← Engine.storing (onStore (g.store.deleteExecution job.id execution))) then
      throw (.executionNotFound execution.text)

theorem getJob_on (hs : g.store = LocalStore.jobStore noStoreFaults) (environment : String) (id : Identifier)
    (w : Memory) : (g.getJob environment id).on w =
      match w.store.rows.jobIn? environment id with
      | some job => (.ok job, w.sentOne)
      | none => (.error (.jobNotFound id.text), w.sentOne) := by
  simp only [Engine.getJob, hs, Engine.storing, on_bind, on_mapError, onStore_findJob_on, Except.mapError]
  cases w.store.rows.jobIn? environment id <;> rfl

/-- A job that is stored in another environment, or not at all, is not found. -/
theorem ask_missing (hs : g.store = LocalStore.jobStore noStoreFaults) (missing : ¬ w.Owns environment id)
    (c : JobCall) : (c.ask g environment id).on w = (.error (.jobNotFound id.text), w.sentOne) := by
  have absent : w.store.rows.jobIn? environment id = none := by
    refine Option.filter_eq_none_iff.mpr fun job stored => ?_
    rw [beq_iff_eq]
    exact fun own => missing ⟨job, stored, own⟩
  have lookup := getJob_on hs environment id w
  rw [absent] at lookup
  cases c <;>
    simp only [ask, Engine.updateJob, Engine.deleteJob, Engine.getExecution, Engine.listExecutions,
      Engine.deleteExecutions, Engine.deleteExecution, on_bind, on_discard, lookup] <;> rfl

theorem ask_found (hs : g.store = LocalStore.jobStore noStoreFaults) (stored : w.jobs.get? id = some job)
    (own : job.environment = environment) (ownId : job.id = id) (c : JobCall) :
    (c.ask g environment id).on w = (c.serve g job).on w.sentOne := by
  subst ownId
  have present : w.store.rows.jobIn? environment job.id = some job :=
    Option.filter_eq_some_iff.mpr ⟨stored, beq_iff_eq.mpr own⟩
  have lookup := getJob_on hs environment job.id w
  rw [present] at lookup
  have now : (time : Act EngineError Memory Instant).on w.sentOne = (.ok w.now, w.sentOne) := rfl
  cases c with
  | update r =>
    simp only [ask, serve, Engine.updateJob, on_bind, lookup, now, on_ofExcept]
    cases g.changes r w.now with
    | error e => rfl
    | ok changes => exact Engine.applyUpdate_eq (w := w.sentOne) hs stored changes
  | delete =>
    simp only [ask, serve, Engine.deleteJob, on_bind, lookup]
    exact Engine.applyDelete_eq (w := w.sentOne) hs stored
  | get => exact lookup
  | getExecution execution =>
    simp only [ask, serve, Engine.getExecution, on_bind, on_discard, lookup]
    rfl
  | listExecutions filter =>
    simp only [ask, serve, Engine.listExecutions, on_bind, on_discard, lookup]
    rfl
  | deleteExecutions =>
    simp only [ask, serve, Engine.deleteExecutions, on_bind, on_discard, lookup]
    rfl
  | deleteExecution execution =>
    simp only [ask, serve, Engine.deleteExecution, on_bind, on_discard, lookup]
    rfl

/-- Once the job was found, a call stays within its share. -/
theorem within_serve (hg : g.queue = workQueue rules) (hs : g.store = LocalStore.jobStore noStoreFaults)
    (own : job.environment = environment) (ha : job.schedule.Accepted) (c : JobCall) :
    Within (Engine.ofJob ordered environment job.id) (c.serve g job) := by
  cases c with
  | update r =>
    refine Engine.within_clock.bind fun now => within_ofExceptThen fun changes checked => ?_
    exact Engine.within_rewrite hg own ha fun s hs => Engine.accepted_of_changes checked hs
  | delete => exact Engine.within_withdraw hg ha
  | get => exact within_pure job
  | getExecution execution =>
    refine (Engine.within_findExecution hs execution).bind fun found => ?_
    cases found with
    | none => exact within_throw _
    | some e => exact within_pure e
  | listExecutions filter => exact Engine.within_listExecutions hs filter
  | deleteExecutions => exact Engine.within_deleteExecutions hs
  | deleteExecution execution =>
    refine (Engine.within_deleteExecution hs execution).bind fun found => ?_
    cases found with
    | true => exact within_pure ()
    | false => exact within_throw _

end JobCall

/-- What is asked of an engine in an environment. -/
def Call.ask (g : Engine LocalQueue (StoreState LocalStore) (Transaction LocalStore)) (environment : String) :
    (c : Call) → Act EngineError Memory c.Answer
  | create r => g.createJob environment r
  | list => g.listJobs environment
  | ofJob id call => call.ask g environment id

/-- Whether a call is to make a new job. -/
def Call.Creates : Call → Prop
  | create _ => True
  | _ => False

end Timetable
