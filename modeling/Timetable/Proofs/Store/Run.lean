import Timetable.Store.Interface

/-!
# Runs of a store

A *request* is one call of a job store with its arguments, the clock aside. A transaction is one request: the changes
that are made in it, one after the other, and whether they are committed in the end.
-/

namespace Timetable

/-- A change of jobs, which may be made inside a transaction too. -/
inductive StoreWrite where
  | createJob (job : NewJob)
  | updateJob (id : Identifier) (changes : JobChanges)
  | deleteJob (id : Identifier)
deriving DecidableEq, Inhabited

inductive StoreRequest where
  | write (w : StoreWrite)
  | findJob (environment : String) (id : Identifier)
  | findJobById (id : Identifier)
  | listJobs (environment : String)
  | listEnabledJobs
  | createExecution (e : NewExecution)
  | findExecution (jobId id : Identifier)
  | listExecutions (jobId : Identifier) (filter : ExecutionFilter)
  | recentExecutions (jobId : Identifier) (limit : Nat)
  | deleteExecutions (jobId : Identifier)
  | deleteExecution (jobId id : Identifier)
  | transaction (writes : List StoreWrite) (commits : Bool)
deriving DecidableEq, Inhabited

/-- A change is answered by the job as it is stored, or by whether there was one to delete. -/
abbrev WriteAnswer : Type := Job ⊕ Bool

/-- What a request is answered. Each change of a transaction has an answer of its own. -/
abbrev StoreRequest.Answer : StoreRequest → Type
  | write _ => WriteAnswer
  | findJob .. => Option Job
  | findJobById _ => Option Job
  | listJobs _ => List Job
  | listEnabledJobs => List Job
  | createExecution _ => Option JobExecution
  | findExecution .. => Option JobExecution
  | listExecutions .. => List JobExecution
  | recentExecutions .. => List JobExecution
  | deleteExecutions _ => Nat
  | deleteExecution .. => Bool
  | transaction .. => List (Except StoreError WriteAnswer)

namespace StoreWrite

variable {σ : Type}

/-- Whether a change takes an identifier. -/
def creates : StoreWrite → Bool
  | createJob _ => true
  | _ => false

/-- Makes a change at some time. -/
def ask (writer : JobWriter σ) (now : Instant) : StoreWrite → Act StoreError σ WriteAnswer
  | createJob job => .inl <$> writer.createJob now job
  | updateJob id changes => .inl <$> writer.updateJob now id changes
  | deleteJob id => .inr <$> writer.deleteJob id

/-- Makes changes one after the other, whether they fail or not. -/
def askAll (writer : JobWriter σ) (now : Instant) (ws : List StoreWrite) :
    Act StoreError σ (List (Except StoreError WriteAnswer)) :=
  ws.mapM fun w => (w.ask writer now).attempt

theorem askAll_cons {writer : JobWriter σ} {now : Instant} {w : StoreWrite} {ws : List StoreWrite} {s s₁ s₂ : σ}
    {r : Except StoreError WriteAnswer} {answers : List (Except StoreError WriteAnswer)}
    (first : (w.ask writer now).on s = (r, s₁)) (rest : (askAll writer now ws).on s₁ = (.ok answers, s₂)) :
    (askAll writer now (w :: ws)).on s = (.ok (r :: answers), s₂) := by
  unfold askAll at rest ⊢
  rw [List.mapM_cons, Act.on_bind, Act.on_attempt, first]
  dsimp only
  rw [Act.on_bind, rest]
  rfl

end StoreWrite

namespace JobStore

variable {σ τ α : Type}

/-- Works inside a transaction. -/
def within (t : τ) (x : Act StoreError (τ × σ) α) : Act StoreError σ (α × τ) :=
  .of fun s =>
    let (r, t, s) := x.on (t, s)
    (r.map (·, t), s)

/-- Makes changes in a transaction at some time, and commits it or forgets it. -/
def transact (S : JobStore σ τ) (now : Instant) (ws : List StoreWrite) (commits : Bool) :
    Act StoreError σ (List (Except StoreError WriteAnswer)) := do
  let t ← S.openTransaction now
  let (answers, t) ← within t (StoreWrite.askAll S.inside now ws)
  if commits then S.commit t
  return answers

/-- Asks a request at some time. -/
def ask (S : JobStore σ τ) (now : Instant) : (r : StoreRequest) → Act StoreError σ r.Answer
  | .write w => w.ask S.toJobWriter now
  | .findJob environment id => S.findJob environment id
  | .findJobById id => S.findJobById id
  | .listJobs environment => S.listJobs environment
  | .listEnabledJobs => S.listEnabledJobs
  | .createExecution e => S.createExecution now e
  | .findExecution jobId id => S.findExecution jobId id
  | .listExecutions jobId filter => S.listExecutions jobId filter
  | .recentExecutions jobId limit => S.recentExecutions jobId limit
  | .deleteExecutions jobId => S.deleteExecutions jobId
  | .deleteExecution jobId id => S.deleteExecution jobId id
  | .transaction writes commits => S.transact now writes commits

end JobStore

end Timetable
