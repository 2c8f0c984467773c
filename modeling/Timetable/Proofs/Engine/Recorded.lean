import Timetable.Proofs.Engine.Breaker

/-!
# What is recorded of a dispatch

A dispatch reads the row of its job, runs the functions or finds that it cannot, and hands its outcome over to be
recorded. Time may pass between the two, and the job may change or go. Whatever the queue is, and whatever the invoker
does:

1. `Engine.process_outcome`: a dispatch fails only after it read the row, and otherwise its results are those of the
   functions in that row;
2. `Engine.completed_appends`, `Engine.failed_appends`, `Engine.jobGone_keeps`: no step of the recording touches an
   execution that was there, and one is added just when the row is still there;
3. `Engine.dispatch_recorded`: the execution tells when the entry was claimed, when the dispatch ended, and what came
   of it. It has the definition of the row that was read if the functions ran, and that of the queued job if they did
   not.

So a dispatch that was broken off after the job had changed is recorded with a definition that it did not go by
(`Engine.failure_recorded_with_queued_definition`).
-/

namespace Timetable

open World

/-- What is run, how, and when. -/
structure Definition where
  functions : List FunctionSpec
  executionType : ExecutionType
  schedule : Schedule
deriving DecidableEq

def Job.definition (j : Job) : Definition := ⟨j.functions, j.executionType, j.schedule⟩

def JobExecution.definition (x : JobExecution) : Definition := ⟨x.functions, x.executionType, x.schedule⟩

/-- The executions that are stored, oldest first. -/
def World.history {σ : Type} (w : World σ (StoreState LocalStore)) : List JobExecution := w.store.rows.executions

namespace Engine

variable {σ : Type} {g : Engine σ (StoreState LocalStore) (Transaction LocalStore)}
  {w w₁ : World σ (StoreState LocalStore)} {e : StoredEntry} {old queued : Job} {id : Identifier}

/-- Records what came of a dispatch. -/
def settle (g : Engine σ (StoreState LocalStore) (Transaction LocalStore)) (e : StoredEntry)
    (outcome : Except DispatchError DispatchOutcome) (finishedOn : Instant) :
    Act DispatchError (World σ (StoreState LocalStore)) Unit :=
  match outcome with
  | .ok outcome => g.completed e outcome finishedOn
  | .error _ => g.failed e finishedOn

/-! ## Running -/

/-- What comes of a dispatch, by the row that it reads. -/
theorem process_outcome (hs : g.store = LocalStore.jobStore noStoreFaults) (payload : payloadJob e = .ok queued) :
    ((g.process e).on w).1 =
      match w.jobs.get? queued.id with
      | none => .ok .jobGone
      | some job =>
        match g.requireFunctions job.functions with
        | .error error => .error (.engine error)
        | .ok () => .ok (.completed job (runFunctions g.invoker.reply job.functions job.executionType).results) := by
  unfold process present
  simp only [payload, Act.ofExcept, engaging, storing, hs, Act.on_bind, Act.on_pure, Act.on_mapError,
    onStore_findJobById_on]
  cases w.jobs.get? queued.id with
  | none => rfl
  | some job =>
    cases required : g.requireFunctions job.functions with
    | error error => simp only [Except.mapError, Act.on_bind, Act.on_mapError, Act.on_throw, required]
    | ok _ => simp only [Except.mapError, Act.on_bind, Act.on_mapError, Act.on_pure, required, running, Course.play, Act.on_of]

/-! ## The queue's side -/

/-- An action that leaves the store as it is. -/
def Spares {ε ρ α : Type} (x : Act ε (World σ ρ) α) : Prop := ∀ w, (x.on w).2.store = w.store

section

variable {ε ρ τ α β : Type} {x : Act ε (World σ ρ) α}

theorem spares_pure (a : α) : Spares (pure a : Act ε (World σ ρ) α) := fun _ => rfl

theorem spares_time : Spares (time : Act ε (World σ ρ) Instant) := fun _ => rfl

theorem spares_onQueue (x : Act QueueError σ α) : Spares (onQueue x : Act QueueError (World σ ρ) α) := fun _ => rfl

theorem Spares.bind {f : α → Act ε (World σ ρ) β} (hx : Spares x) (hf : ∀ a, Spares (f a)) : Spares (x >>= f) := by
  intro w
  have first := hx w
  rw [Act.on_bind]
  cases on : x.on w with
  | mk r w₁ =>
    rw [on] at first
    cases r with
    | error e => exact first
    | ok a => exact (hf a w₁).trans first

theorem Spares.discard (hx : Spares x) : Spares (discard x : Act ε (World σ ρ) Unit) := by
  intro w
  rw [Act.on_discard]
  exact hx w

theorem Spares.mapError {ε' : Type} {f : ε → ε'} (hx : Spares x) : Spares (x.mapError f) := hx

theorem Spares.attempting {x : Act EngineError (World σ ρ) α} (hx : Spares x) : Spares (Engine.attempting x) := by
  intro w
  have same := hx w
  rw [Engine.attempting, Act.on_attemptUnless]
  cases on : x.on w with
  | mk r w₁ =>
    rw [on] at same
    cases r <;> exact same

variable {g : Engine σ ρ τ} (old new : Job)

theorem enqueue_spares : Spares (g.enqueue new) := by
  unfold enqueue
  refine spares_time.bind fun now => ?_
  cases queuePlan new.schedule now with
  | expired => exact spares_pure ()
  | _ => exact spares_onQueue _

theorem dequeue_spares : Spares (g.dequeue old) := by
  unfold dequeue
  refine spares_time.bind fun now => ?_
  cases queuePlan old.schedule now <;> exact spares_onQueue _

theorem isQueued_spares : Spares (g.isQueued old) := by
  unfold isQueued
  refine spares_time.bind fun now => ?_
  cases queuePlan old.schedule now <;> exact (spares_onQueue _).bind fun _ => spares_pure _

theorem move_spares (plan : ChangePlan) : Spares (g.move plan old new) := by
  obtain ⟨removeOld, addNew⟩ := plan
  have second : Spares (if addNew then g.enqueue new else pure () : Act QueueError (World σ ρ) Unit) := by
    cases addNew with
    | false => exact spares_pure ()
    | true => exact enqueue_spares new
  cases removeOld with
  | false => exact second
  | true => exact (dequeue_spares old).discard.bind fun _ => second

theorem restore_spares : Spares (g.restore old) := by
  unfold restore
  refine (isQueued_spares old).bind fun queued => ?_
  cases queued with
  | true => exact spares_pure ()
  | false => exact enqueue_spares old

theorem undo_spares (added : Bool) : Spares (g.undo old new added) := by
  have second : Spares (if old.isEnabled then discard (Engine.attempting (queueing (g.restore old))) else pure () :
      Act EngineError (World σ ρ) Unit) := by
    cases old.isEnabled with
    | false => exact spares_pure ()
    | true => exact (restore_spares old).mapError.attempting.discard
  cases added with
  | false => exact second
  | true => exact (dequeue_spares new).mapError.attempting.discard.bind fun _ => second

end

theorem Spares.ends {ε ρ α : Type} {x : Act ε (World σ ρ) α} (hx : Spares x) (w : World σ ρ) :
    x.Ends w (fun _ w' => w'.store = w.store) fun _ w' => w'.store = w.store :=
  Act.ends_iff_forall.mpr (hx w)

/-! ## The store's side -/

/-- An action that leaves the executions as they are. -/
def Keeps {ε α : Type} (w : World σ (StoreState LocalStore)) (x : Act ε (World σ (StoreState LocalStore)) α) : Prop :=
  x.Ends w (fun _ w' => w'.history = w.history) fun _ w' => w'.history = w.history

theorem history_eq (same : w₁.store = w.store) : w₁.history = w.history := congrArg (·.rows.executions) same

theorem Spares.keeps {ε α : Type} {x : Act ε (World σ (StoreState LocalStore)) α} (hx : Spares x) : Keeps w x :=
  (hx.ends w).mono (fun _ _ => history_eq) fun _ _ => history_eq

theorem applyUpdate_keeps (hs : g.store = LocalStore.jobStore noStoreFaults) (old : Job) (changes : JobChanges) :
    Keeps w (g.applyUpdate old changes) := by
  simp only [Keeps, applyUpdate, Act.ends_bind, ends_time, hs, storing, Act.ends_mapError]
  rw [Act.ends_of_on_ok (onStore_openTransaction_on _ _)]
  cases stored : w.jobs.get? old.id with
  | none =>
    rw [Act.ends_of_on_error (inTransaction_updateJob_gone stored _)]
    rfl
  | some job =>
    rw [Act.ends_of_on_ok (inTransaction_updateJob_on stored _)]
    have moved : Spares (queueing (g.move (.between old (changes.applyTo old)) old (changes.applyAt w.now job))) :=
      Spares.mapError (move_spares old _ _)
    refine Act.Ends.mono (moved.attempting.keeps (w := w.sentOne.sentOne)) (fun r w₁ same => ?_) fun _ _ same => same
    cases r with
    | error e =>
      refine Act.ends_bind.mpr (Act.Ends.mono ((undo_spares (g := g) old _ false).keeps (w := w₁)) ?_ ?_)
      · exact fun _ w₂ same' => Act.ends_throw.mpr (same'.trans same)
      · exact fun _ w₂ same' => same'.trans same
    | ok _ =>
      simp only [attempting, Act.ends_bind, Act.ends_attemptUnless, Act.ends_mapError]
      rw [Act.ends_of_on_ok (onStore_commit_on _ _)]
      exact Act.ends_pure.mpr rfl

theorem disable_keeps (hs : g.store = LocalStore.jobStore noStoreFaults) (job : Job) : Keeps w (g.disable job) := by
  simp only [Keeps, disable, updateJob, getJob, Act.ends_bind, Act.ends_discard, Act.ends_modify, ends_time, hs, storing,
    Act.ends_mapError]
  rw [Act.ends_of_on_ok (onStore_findJob_on _ _ _)]
  cases w.store.rows.jobIn? job.environment job.id with
  | none => exact Act.ends_throw.mpr rfl
  | some found =>
    refine Act.ends_pure.mpr (Act.ends_ofExcept.mpr ⟨fun changes _ => ?_, fun _ _ => rfl⟩)
    exact (applyUpdate_keeps (w := w.sentOne) hs found changes).mono (fun _ _ same => same) fun _ _ same => same

theorem disableIfFailing_keeps (hs : g.store = LocalStore.jobStore noStoreFaults) (id : Identifier) :
    Keeps w (g.disableIfFailing id) := by
  unfold Keeps disableIfFailing
  split
  · exact Act.ends_pure.mpr rfl
  · simp only [Act.ends_bind, storing, hs, Act.ends_mapError]
    rw [Act.ends_of_on_ok (onStore_recentExecutions_on _ _ _)]
    split
    · exact Act.ends_pure.mpr rfl
    · simp only [Act.ends_bind, Act.ends_mapError]
      rw [Act.ends_of_on_ok (onStore_findJobById_on _ _)]
      cases w.sentOne.jobs.get? id with
      | none => exact Act.ends_pure.mpr rfl
      | some job =>
        dsimp only
        split
        · exact (disable_keeps (w := w.sentOne.sentOne) hs job).mono (fun _ _ same => same) fun _ _ same => same
        · exact Act.ends_pure.mpr rfl

/-- An execution was stored at the end of the history if its job is stored, and nothing else changed there. -/
def Appends (new : NewExecution) (w w' : World σ (StoreState LocalStore)) : Prop :=
  if w.jobs.contains new.jobId then ∃ id, w'.history = w.history ++ [new.store id w.now] else w'.history = w.history

theorem record_appends (hs : g.store = LocalStore.jobStore noStoreFaults) (new : NewExecution) :
    (g.record new).Ends w (fun _ w' => Appends new w w') fun _ _ => False := by
  simp only [record, Act.ends_bind, ends_time, engaging, storing, hs, Act.ends_mapError]
  cases stored : w.jobs.contains new.jobId with
  | true =>
    rw [Act.ends_of_on_ok (onStore_createExecution_stored w.now stored)]
    simp only [Act.ends_bind, Act.ends_modify, Act.ends_pure, Appends, stored, if_true]
    exact ⟨_, rfl⟩
  | false =>
    rw [Act.ends_of_on_ok (onStore_createExecution_gone w.now stored)]
    simp only [Act.ends_pure, Appends, stored, Bool.false_eq_true, if_false]
    rfl

theorem completed_appends (hs : g.store = LocalStore.jobStore noStoreFaults) (job : Job) (results : List CallResult)
    (finishedOn : Instant) :
    Appends (executionOf job e finishedOn (.ofResults results) results) w
      ((g.completed e (.completed job results) finishedOn).on w).2 :=
  Act.ends_iff_forall.mp (Act.ends_discard.mpr ((record_appends hs _).mono (fun _ _ h => h) fun _ _ => False.elim))

theorem jobGone_keeps (finishedOn : Instant) : Keeps w (g.completed e .jobGone finishedOn) := by
  refine Act.ends_bind.mpr (Act.ends_ofExcept.mpr ⟨fun queued _ => ?_, fun _ _ => rfl⟩)
  exact (Spares.discard (Spares.mapError (Spares.mapError (dequeue_spares queued)))).keeps

/-- A failure is stored before it may disable the job, and what that does touches no execution. -/
theorem failed_appends (hs : g.store = LocalStore.jobStore noStoreFaults) (payload : payloadJob e = .ok queued)
    (finishedOn : Instant) :
    Appends (executionOf queued e finishedOn .jobError []) w ((g.failed e finishedOn).on w).2 := by
  refine Act.ends_iff_forall.mp ?_
  simp only [failed, payload, Act.ends_bind, Act.ends_ofExcept]
  refine ⟨?_, fun _ never => by cases never⟩
  rintro _ ⟨⟩
  refine (record_appends hs _).mono (fun saved w₁ appended => ?_) fun _ _ => False.elim
  cases saved with
  | false => exact Act.ends_pure.mpr appended
  | true =>
    have kept : Keeps w₁ (engaging (g.disableIfFailing queued.id)) :=
      Act.ends_mapError.mpr (disableIfFailing_keeps hs queued.id)
    refine Act.Ends.mono kept (fun _ w₂ same => ?_) fun _ w₂ same => ?_
    · unfold Appends at appended ⊢
      rw [same]
      exact appended
    · unfold Appends at appended ⊢
      rw [same]
      exact appended

end Engine

/-- What an execution tells of a dispatch: `queued` is the job that the entry carries, `ran` the row that was read. -/
structure JobExecution.Tells (x : JobExecution) (e : StoredEntry) (finishedOn : Instant) (queued ran : Job)
    (outcome : Except DispatchError DispatchOutcome) : Prop where
  jobId : x.jobId = queued.id
  processedOn : x.processedOn = e.processedOn
  finishedOn : x.finishedOn = some finishedOn
  results : match outcome with
    | .ok outcome => outcome = .completed ran x.results ∧ x.status = .ofResults x.results
    | .error _ => x.results = [] ∧ x.status = .jobError
  definition : x.definition = if outcome.isOk then ran.definition else queued.definition

namespace Engine

theorem Appends.tells {σ : Type} {w w' : World σ (StoreState LocalStore)} {new : NewExecution} {e : StoredEntry}
    {finishedOn : Instant} {queued ran : Job} {outcome : Except DispatchError DispatchOutcome}
    (appended : Appends new w w') (own : new.jobId = queued.id)
    (tells : ∀ id now, (new.store id now).Tells e finishedOn queued ran outcome) :
    if w.jobs.contains queued.id then
      ∃ x, w'.history = w.history ++ [x] ∧ x.Tells e finishedOn queued ran outcome
    else w'.history = w.history := by
  unfold Appends at appended
  rw [own] at appended
  split
  · next stored =>
    rw [if_pos stored] at appended
    obtain ⟨id, added⟩ := appended
    exact ⟨_, added, tells id w.now⟩
  · next stored =>
    rw [if_neg stored] at appended
    exact appended

/-- What is recorded of a dispatch: one execution if the row of its job is there by then, which tells what came of it,
and else none. It has the definition that was read if the functions ran, and the one that was queued if not. -/
theorem dispatch_recorded {σ : Type} {g : Engine σ (StoreState LocalStore) (Transaction LocalStore)}
    (hs : g.store = LocalStore.jobStore noStoreFaults) {w v : World σ (StoreState LocalStore)} {e : StoredEntry}
    {queued : Job} (payload : payloadJob e = .ok queued)
    (ownId : ∀ job, w.jobs.get? queued.id = some job → job.id = queued.id)
    (gone : w.jobs.get? queued.id = none → v.jobs.get? queued.id = none) (finishedOn : Instant) :
    let outcome := ((g.process e).on w).1
    let w' := ((g.settle e outcome finishedOn).on v).2
    if v.jobs.contains queued.id then
      ∃ ran, w.jobs.get? queued.id = some ran ∧
        ∃ x, w'.history = v.history ++ [x] ∧ x.Tells e finishedOn queued ran outcome
    else w'.history = v.history := by
  dsimp only
  rw [process_outcome hs payload]
  cases read : w.jobs.get? queued.id with
  | none =>
    rw [Table.contains_eq_false_iff.mpr (gone read)]
    exact Act.ends_iff_forall.mp (jobGone_keeps finishedOn)
  | some ran =>
    have own : ran.id = queued.id := ownId ran read
    simp only [Option.some.injEq, exists_eq_left']
    cases g.requireFunctions ran.functions with
    | error error => exact (failed_appends hs payload finishedOn).tells rfl fun _ _ => ⟨rfl, rfl, rfl, ⟨rfl, rfl⟩, rfl⟩
    | ok _ => exact (completed_appends hs ran _ finishedOn).tells own fun _ _ => ⟨own, rfl, rfl, ⟨rfl, rfl⟩, rfl⟩

/-! ## A change between queueing and dispatch (used by the theorems below) -/

/-- The first fire of a job is queued, and then the job is changed to run every ten minutes and to call its functions
all at once. -/
def changedWorld : Memory :=
  ((strict.updateJob "e" (.generated 1) { schedule := some (.interval 10), executionType := some .parallel }).on
    strictSite.world).2

def changedJob : Job := { strictJob with schedule := .interval 10, executionType := .parallel }

/-- Knows no function. -/
def forgetful : Engine LocalQueue (StoreState LocalStore) (Transaction LocalStore) :=
  inMemory {} {} 2 { Invoker.obliging with missing := .ok }

/-- The world after the first fire was dispatched and the outcome recorded. -/
def dispatched (g : Engine LocalQueue (StoreState LocalStore) (Transaction LocalStore)) (w : Memory) : Memory :=
  ((g.settle strictFire ((g.process strictFire).on w).1 (.ofMillis 300000)).on w).2

/-- What was run is recorded, and not what was queued. -/
theorem recorded_after_change :
    payloadJob strictFire = .ok strictJob ∧ changedWorld.jobs.get? strictJob.id = some changedJob ∧
      ∃ x, (dispatched strict changedWorld).history = [x] ∧ x.definition = changedJob.definition := by
  have payload : payloadJob strictFire = .ok strictJob := by decide +kernel
  have row : changedWorld.jobs.get? strictJob.id = some changedJob := by decide +kernel
  have recorded := dispatch_recorded (g := strict) (w := changedWorld) (v := changedWorld) rfl payload ?_ ?_
    (.ofMillis 300000)
  · rw [if_pos (by decide +kernel)] at recorded
    obtain ⟨ran, read, x, added, tells⟩ := recorded
    obtain rfl : ran = changedJob := Option.some.inj (read.symm.trans row)
    refine ⟨payload, row, x, added, tells.definition.trans (if_pos ?_)⟩
    decide +kernel
  · intro job stored
    obtain rfl : job = changedJob := Option.some.inj (stored.symm.trans row)
    rfl
  · exact id

/-- A dispatch that fails is recorded with the definition that was queued, although it went by the one that was read. -/
theorem failure_recorded_with_queued_definition :
    payloadJob strictFire = .ok strictJob ∧ changedWorld.jobs.get? strictJob.id = some changedJob ∧
      ((forgetful.process strictFire).on changedWorld).1.isOk = false ∧
      (dispatched forgetful changedWorld).history.map (·.definition) = [strictJob.definition] ∧
      strictJob.definition ≠ changedJob.definition := by
  decide +kernel

end Engine

end Timetable
