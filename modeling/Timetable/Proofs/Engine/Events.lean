import Timetable.Proofs.Engine.Runs

/-!
# What operations do to the queue and the jobs

A `Scene` is a world without its history of executions. An operation asks at most one request of a worker, at once. Then
time may pass, the queue is mended (`Scene.Mends`), and one job is created, changed or deleted at most (`Scene.Turn`);
what is queued of the job follows (`Operation.act_follows`).

So what holds of every scene of a run can be shown event by event (`Operation.act_goes`).

Histories may be cleared as well, which no scene shows (`Site.Onward`).
-/

namespace Timetable

open World LocalQueue

/-! ## One job in the queue -/

namespace LocalQueue

/-- With a job put in, as its schedule says at the time. -/
def put (q : LocalQueue) (now : Instant) (job : Job) : LocalQueue :=
  match queuePlan job.schedule now with
  | .repeating spec => ((addRepeating now job.queueKey spec job.toJson).on q).2
  | .delayed millis => ((addDelayed now job.queueKey millis job.toJson).on q).2
  | .expired => q

/-- With a job taken out, as its schedule says at the time. -/
def withdraw (q : LocalQueue) (now : Instant) (job : Job) : LocalQueue :=
  match queuePlan job.schedule now with
  | .repeating spec => ((removeRepeating job.queueKey spec).on q).2
  | .delayed _ | .expired => ((removeDelayed job.queueKey).on q).2

/-- With the entries of a job moved as its change asks. -/
def moved (q : LocalQueue) (now : Instant) (old new : Job) : LocalQueue :=
  let plan := ChangePlan.between old new
  let q := if plan.removeOld then q.withdraw now old else q
  if plan.addNew then q.put now new else q

theorem moved_keeps {P : LocalQueue → Prop} {now : Instant} {old new : Job} {q : LocalQueue}
    (put : ∀ {q}, P q → P (q.put now new)) (withdraw : ∀ {q}, P q → P (q.withdraw now old)) (h : P q) :
    P (q.moved now old new) := by
  have removed : P (if (ChangePlan.between old new).removeOld then q.withdraw now old else q) := by
    split
    · exact withdraw h
    · exact h
  unfold LocalQueue.moved
  dsimp only
  split
  · exact put removed
  · exact removed

end LocalQueue

/-! ## Events -/

/-- What a world shows beside the executions and the journal. -/
structure Scene where
  now : Instant
  queue : LocalQueue
  jobs : Table Identifier Job

def World.scene (w : Memory) : Scene := ⟨w.now, w.queue, w.jobs⟩

/-- What workers ask of the queue. -/
def QueueRequest.OfWorkers : QueueRequest → Prop
  | claimDue _ | renewLease _ | recoverStalled | finish _ => True
  | _ => False

namespace Scene

variable {rules : ClaimRules} {s s' : Scene}

/-- What leaves the jobs as they are. -/
inductive Still (rules : ClaimRules) : Scene → Scene → Prop
  | passed {s : Scene} {now : Instant} : s.now ≤ now → Still rules s { s with now }
  | asked {s : Scene} (request : QueueRequest) :
    request.OfWorkers → Still rules s { s with queue := (((workQueue rules).ask s.now request).on s.queue).2 }
  /-- An enabled job is put in, if it is missing. -/
  | restored {s : Scene} {id : Identifier} {job : Job} :
    s.jobs.get? id = some job → job.isEnabled = true → Still rules s { s with queue := s.queue.put s.now job }
  /-- What a job that is gone left behind is taken out. -/
  | cleared {s : Scene} {job : Job} :
    s.jobs.get? job.id = none → Still rules s { s with queue := s.queue.withdraw s.now job }

/-- One job is created, changed or deleted, and the queue follows. -/
inductive Turn : Scene → Scene → Prop
  | created {s : Scene} {job : Job} :
    s.jobs.get? job.id = none → job.schedule.Accepted →
    Turn s ⟨s.now, if job.isEnabled then s.queue.put s.now job else s.queue, s.jobs.set job.id job⟩
  | changed {s : Scene} {old new : Job} :
    s.jobs.get? old.id = some old → new.id = old.id → new.schedule.Accepted →
    Turn s ⟨s.now, s.queue.moved s.now old new, s.jobs.set old.id new⟩
  | deleted {s : Scene} {job : Job} :
    s.jobs.get? job.id = some job → Turn s ⟨s.now, s.queue.withdraw s.now job, s.jobs.erase job.id⟩

/-- What may happen in one operation. -/
def Goes (rules : ClaimRules) (s s' : Scene) : Prop :=
  ∃ s₁, Relation.ReflTransGen (Still rules) s s₁ ∧ (s' = s₁ ∨ Turn s₁ s')

theorem Goes.refl (s : Scene) : Goes rules s s := ⟨s, .refl, .inl rfl⟩

theorem Goes.of_still (h : Still rules s s') : Goes rules s s' := ⟨s', .single h, .inl rfl⟩

theorem Goes.of_turn (h : Turn s s') : Goes rules s s' := ⟨s, .refl, .inr h⟩

/-- What every event keeps, an operation keeps. -/
theorem Goes.induction {P : Scene → Prop} (h : Goes rules s s') (still : ∀ {s s'}, P s → Still rules s s' → P s')
    (turn : ∀ {s s'}, P s → Turn s s' → P s') (start : P s) : P s' := by
  obtain ⟨s₁, stills, last⟩ := h
  have before : P s₁ := by
    clear last
    induction stills with
    | refl => exact start
    | tail _ event ih => exact still ih event
  rcases last with rfl | last
  · exact before
  · exact turn before last

theorem jobs_eq_of_still (h : Still rules s s') : s'.jobs = s.jobs := by cases h <;> rfl

/-- An enabled job is put in, if it is missing, or what a job that is gone left behind is taken out. -/
inductive Mends : Scene → Scene → Prop
  | restored {s : Scene} {id : Identifier} {job : Job} :
    s.jobs.get? id = some job → job.isEnabled = true → Mends s { s with queue := s.queue.put s.now job }
  | cleared {s : Scene} {job : Job} :
    s.jobs.get? job.id = none → Mends s { s with queue := s.queue.withdraw s.now job }

theorem Mends.still (h : Mends s s') : Still rules s s' := by
  cases h with
  | restored stored enabled => exact .restored stored enabled
  | cleared gone => exact .cleared gone

/-- Time passes, the queue is mended, and one job is created, changed or deleted at most. -/
def Follows (s s' : Scene) : Prop :=
  ∃ now s₁, s.now ≤ now ∧ Relation.ReflTransGen Mends { s with now } s₁ ∧ (s' = s₁ ∨ Turn s₁ s')

theorem now_eq_of_mends {now : Instant} {s₁ : Scene} (mends : Relation.ReflTransGen Mends { s with now } s₁)
    (last : s' = s₁ ∨ Turn s₁ s') : s'.now = now := by
  have same : s₁.now = now := by
    clear last
    induction mends with
    | refl => rfl
    | tail _ event ih => cases event <;> exact ih
  rcases last with rfl | turn
  · exact same
  · cases turn <;> exact same

namespace Follows

theorem now_le (h : Follows s s') : s.now ≤ s'.now := by
  obtain ⟨now, s₁, later, mends, last⟩ := h
  rw [now_eq_of_mends mends last]
  exact later

theorem refl (s : Scene) : Follows s s := ⟨s.now, s, le_rfl, .refl, .inl rfl⟩

theorem of_turn (h : Turn s s') : Follows s s' := ⟨s.now, s, le_rfl, .refl, .inr h⟩

theorem of_mends (h : Relation.ReflTransGen Mends s s') : Follows s s' := ⟨s.now, s', le_rfl, h, .inl rfl⟩

theorem goes (h : Follows s s') : Goes rules s s' := by
  obtain ⟨now, s₁, later, mends, last⟩ := h
  exact ⟨s₁, .head (.passed later) (mends.lift id fun _ _ => Mends.still), last⟩

end Follows

/-- A request may be asked of the queue. -/
def asked (rules : ClaimRules) (s : Scene) : Option QueueRequest → Scene
  | none => s
  | some request => { s with queue := (((workQueue rules).ask s.now request).on s.queue).2 }

end Scene

/-! ## Operations -/

namespace Engine

open Scene

variable {g : Engine LocalQueue (StoreState LocalStore) (Transaction LocalStore)} {rules : ClaimRules}
  {w w' : Memory} {job old new : Job} {id : Identifier} {environment : String} {e : StoredEntry}

theorem ends_on {ε σ α : Type} (x : Act ε σ α) (s : σ) :
    x.Ends s (fun _ s' => s' = (x.on s).2) fun _ s' => s' = (x.on s).2 :=
  ⟨fun _ _ => rfl, fun _ _ => rfl⟩

theorem enqueue_scene (hg : g.queue = workQueue rules) : (g.enqueue job).Ends w
    (fun _ w' => w'.scene = { w.scene with queue := w.queue.put w.now job }) fun _ _ => True := by
  simp only [enqueue, Act.ends_bind, ends_time, hg, scene, LocalQueue.put]
  cases queuePlan job.schedule w.now with
  | repeating spec => exact ends_onQueue.mpr ((ends_on _ _).mono (fun _ _ h => by rw [h]; rfl) fun _ _ _ => trivial)
  | delayed millis => exact ends_onQueue.mpr ((ends_on _ _).mono (fun _ _ h => by rw [h]; rfl) fun _ _ _ => trivial)
  | expired => exact Act.ends_pure.mpr rfl

theorem dequeue_scene (hg : g.queue = workQueue rules) : (g.dequeue job).Ends w
    (fun _ w' => w'.scene = { w.scene with queue := w.queue.withdraw w.now job }) fun _ _ => True := by
  simp only [dequeue, Act.ends_bind, ends_time, hg, scene, LocalQueue.withdraw]
  cases queuePlan job.schedule w.now <;>
    exact ends_onQueue.mpr ((ends_on _ _).mono (fun _ _ h => by rw [h]; rfl) fun _ _ _ => trivial)

theorem move_scene (hg : g.queue = workQueue rules) : (g.move (ChangePlan.between old new) old new).Ends w
    (fun _ w' => w'.scene = { w.scene with queue := w.queue.moved w.now old new }) fun _ _ => True := by
  have adds {w₁ : Memory} {q : LocalQueue} (before : w₁.scene = { w.scene with queue := q }) :
      (if (ChangePlan.between old new).addNew = true then g.enqueue new else pure PUnit.unit).Ends w₁
        (fun _ w' => w'.scene = { w.scene with
          queue := if (ChangePlan.between old new).addNew = true then q.put w.now new else q }) fun _ _ => True := by
    obtain ⟨now, queue, jobs⟩ := Scene.mk.inj before
    split
    · refine (enqueue_scene hg).mono (fun _ w' h => ?_) fun _ _ h => h
      rw [h, before, queue, now]
      rfl
    · exact Act.ends_pure.mpr before
  simp only [move, LocalQueue.moved]
  cases (ChangePlan.between old new).removeOld with
  | true =>
    refine Act.ends_bind.mpr (Act.ends_discard.mpr ((dequeue_scene hg).mono (fun _ w₁ h => ?_) fun _ _ h => h))
    exact adds h
  | false => exact adds rfl

theorem applyUpdate_turns (hg : g.queue = workQueue rules) (hs : g.store = LocalStore.jobStore noStoreFaults)
    (h : w.InStep) (hold : w.jobs.get? old.id = some old) {changes : JobChanges}
    (ha : ∀ s, changes.schedule = some s → s.Accepted) :
    (g.applyUpdate old changes).Ends w (fun _ w' => Turn w.scene w'.scene) fun e _ => e.isOutOfRange = true := by
  let new := changes.applyAt w.now old
  have accepted : new.schedule.Accepted := by
    show (changes.schedule.getD old.schedule).Accepted
    cases hc : changes.schedule with
    | none => exact h.accepted hold
    | some s => exact ha s hc
  have moves : (g.move (ChangePlan.between old new) old new).Ends w.sentOne.sentOne _ _ := move_scene hg
  have turns : (g.applyUpdate old changes).Ends w (fun _ w' => Turn w.scene w'.scene) fun _ _ => True := by
    simp only [applyUpdate, Act.ends_bind, ends_time, hs, storing, queueing, attempting, Act.ends_mapError,
      Act.ends_attemptUnless]
    rw [Act.ends_of_on_ok (onStore_openTransaction_on _ _), Act.ends_of_on_ok (inTransaction_updateJob_on hold _)]
    refine moves.mono (fun _ w₁ moved => ?_) fun e _ _ => ?_
    · rw [Act.ends_of_on_ok (onStore_commit_on _ _), Act.ends_pure]
      obtain ⟨now, queue, -⟩ := Scene.mk.inj moved
      have turned : Turn w.scene ⟨w.now, w.queue.moved w.now old new, w.jobs.set old.id new⟩ :=
        .changed hold rfl accepted
      convert turned using 1
      show Scene.mk w₁.now w₁.queue (w.jobs.set old.id new) = _
      rw [now, queue]
      rfl
    · split
      · trivial
      · exact ⟨fun _ _ => Act.ends_throw.mpr trivial, fun _ _ => trivial⟩
  exact (turns.and (applyUpdate_ends hg hs h hold ha)).mono (fun _ _ h => h.1) fun _ _ h => h.2

theorem applyDelete_turns (hg : g.queue = workQueue rules) (hs : g.store = LocalStore.jobStore noStoreFaults)
    (h : w.InStep) (hold : w.jobs.get? old.id = some old) :
    (g.applyDelete old).Ends w (fun _ w' => Turn w.scene w'.scene) fun _ _ => False := by
  have stored : w.store.rows.jobs.contains old.id = true := Table.contains_iff.mpr ⟨old, hold⟩
  have turns : (g.applyDelete old).Ends w (fun _ w' => Turn w.scene w'.scene) fun _ _ => True := by
    simp only [applyDelete, Act.ends_bind, ends_time, hs, storing, queueing, attempting, Act.ends_mapError,
      Act.ends_attemptUnless, Act.ends_discard]
    rw [Act.ends_of_on_ok (onStore_openTransaction_on _ _), Act.ends_of_on_ok (inTransaction_deleteJob_on stored _)]
    refine (dequeue_scene (w := w.sentOne.sentOne) hg).mono (fun _ w₁ moved => ?_) fun _ _ _ => trivial
    rw [Act.ends_of_on_ok (onStore_commit_on _ _), Act.ends_pure]
    obtain ⟨now, queue, -⟩ := Scene.mk.inj moved
    have turned : Turn w.scene ⟨w.now, w.queue.withdraw w.now old, w.jobs.erase old.id⟩ := .deleted hold
    convert turned using 1
    show Scene.mk w₁.now w₁.queue (w.jobs.erase old.id) = _
    rw [now, queue]
    rfl
  exact (turns.and (applyDelete_ends hg hs h hold)).mono (fun _ _ h => h.1) fun _ _ h => h.2

/-- A job that is created is stored under the next identifier, and put in if it is enabled. -/
theorem createJob_scene (hg : g.queue = workQueue rules) (hs : g.store = LocalStore.jobStore noStoreFaults)
    (h : w.InStep) (r : CreateJobRequest) : (g.createJob environment r).Ends w
      (fun job w' => job.id = .generated (w.store.issued + 1) ∧ job.schedule = r.schedule ∧ job.schedule.Accepted ∧
        w'.scene = ⟨w.now, if job.isEnabled then w.queue.put w.now job else w.queue, w.jobs.set job.id job⟩)
      fun _ _ => True := by
  simp only [createJob, Act.ends_bind, ends_time, Act.ends_ofExcept, hs, storing, queueing, attempting,
    Act.ends_mapError]
  refine ⟨fun new hnew => ?_, fun _ _ => trivial⟩
  rw [Act.ends_of_on_ok (onStore_createJob_on _ _ _)]
  generalize stored : new.store (.generated (w.store.issued + 1)) w.now = job
  have own : job.id = .generated (w.store.issued + 1) := stored ▸ rfl
  have schedule : job.schedule = r.schedule := stored ▸ schedule_of_newJob hnew
  have accepted : job.schedule.Accepted := stored ▸ accepted_of_newJob hnew
  have jobs : (w.stored w.now new).jobs = w.jobs.set job.id job := by rw [← stored]; rfl
  cases he : job.isEnabled with
  | false =>
    simp only [Bool.false_eq_true, if_false, Act.ends_pure, he, ← jobs]
    exact ⟨own, schedule, accepted, rfl⟩
  | true =>
    simp only [if_true, Act.ends_bind, Act.ends_discard, Act.ends_attemptUnless, Act.ends_mapError, Act.ends_pure, he]
    have enqueued := enqueue_ends (w := w.stored w.now new) hg h.sound accepted
    refine ((enqueue_scene hg).and enqueued).mono (fun _ w₁ put => ⟨own, schedule, accepted, ?_⟩) ?_
    · rw [put.1, ← jobs]
      rfl
    · rintro _ w₁ ⟨-, rfl⟩
      simp [EngineError.isOutOfRange]

theorem createJob_goes (hg : g.queue = workQueue rules) (hs : g.store = LocalStore.jobStore noStoreFaults)
    (h : w.InStep) (fresh : w.jobs.get? (.generated (w.store.issued + 1)) = none) (r : CreateJobRequest) :
    (g.createJob environment r).Ends w (fun _ w' => Turn w.scene w'.scene)
      fun e w' => e.isOutOfRange = true ∨ w' = w := by
  refine ((createJob_scene hg hs h r).and (createJob_ends hg hs h fresh r)).mono (fun job w' made => ?_)
    fun _ _ failed => failed.2
  obtain ⟨⟨own, -, accepted, same⟩, -⟩ := made
  rw [same]
  exact .created (own ▸ fresh) accepted

theorem updateJob_goes (hg : g.queue = workQueue rules) (hs : g.store = LocalStore.jobStore noStoreFaults)
    (h : w.InStep) (r : UpdateJobRequest) :
    (g.updateJob environment id r).Ends w (fun _ w' => Turn w.scene w'.scene)
      fun e w' => e.isOutOfRange = true ∨ w'.scene = w.scene := by
  simp only [updateJob, Act.ends_bind]
  refine (getJob_ends hs).mono (fun old w₁ hold => ?_) fun e w₁ he => .inr (he ▸ rfl)
  obtain ⟨rfl, hold⟩ := hold
  rw [ends_time]
  refine Act.ends_ofExcept.mpr ⟨fun changes hc => ?_, fun e _ => .inr rfl⟩
  have own : old.id = id := h.ownId hold
  exact (applyUpdate_turns (w := w.sentOne) hg hs h (own ▸ hold) fun s hs' => accepted_of_changes hc hs').mono
    (fun _ _ turn => turn) fun e w₁ he => .inl he

theorem deleteJob_goes (hg : g.queue = workQueue rules) (hs : g.store = LocalStore.jobStore noStoreFaults)
    (h : w.InStep) : (g.deleteJob environment id).Ends w (fun _ w' => Turn w.scene w'.scene)
      fun _ w' => w'.scene = w.scene := by
  simp only [deleteJob, Act.ends_bind]
  refine (getJob_ends hs).mono (fun old w₁ hold => ?_) fun e w₁ he => he ▸ rfl
  obtain ⟨rfl, hold⟩ := hold
  have own : old.id = id := h.ownId hold
  exact (applyDelete_turns (w := w.sentOne) hg hs h (own ▸ hold)).mono (fun _ _ turn => turn) fun _ _ => False.elim

/-! ### Reconciliation -/

theorem restoreJobs_mends (hg : g.queue = workQueue rules) {jobs : List Job} (h : w.InStep)
    (hj : ∀ job ∈ jobs, w.jobs.get? job.id = some job ∧ job.isEnabled = true) (s : Survey) (now : Instant) :
    (g.restoreJobs s now jobs).Ends w (fun _ w' => Relation.ReflTransGen Mends w.scene w'.scene)
      fun e _ => e.isOutOfRange = true := by
  induction jobs generalizing w with
  | nil => exact Act.ends_pure.mpr .refl
  | cons job jobs ih =>
    obtain ⟨hs, he⟩ := hj job List.mem_cons_self
    have rest {w₁ : Memory} (h₁ : w₁.InStep) (same : w₁.jobs = w.jobs)
        (before : Relation.ReflTransGen Mends w.scene w₁.scene) :
        (g.restoreJobs s now jobs).Ends w₁ (fun _ w' => Relation.ReflTransGen Mends w.scene w'.scene)
          fun e _ => e.isOutOfRange = true :=
      (ih h₁ fun job' mem => same ▸ hj job' (List.mem_cons_of_mem _ mem)).mono (fun _ _ later => before.trans later)
        fun _ _ e => e
    simp only [restoreJobs, restoreJob, Act.ends_bind, Act.ends_pure]
    cases s.lacks? now job with
    | none => exact Act.ends_pure.mpr (rest h rfl .refl)
    | some kind =>
      simp only [Act.ends_bind, attempting, queueing, Act.ends_attemptUnless, Act.ends_mapError, Act.ends_pure]
      refine ((enqueue_scene hg).and (enqueue_again_ends hg h hs he)).mono (fun _ w₁ put => ?_) ?_
      · have mends : Mends w.scene w₁.scene := by
          rw [put.1]
          exact .restored hs he
        exact rest put.2.1 put.2.2 (.single mends)
      · rintro _ w₁ ⟨-, rfl⟩
        simp [EngineError.isOutOfRange]

theorem reconcile_follows (hg : g.queue = workQueue rules) (hs : g.store = LocalStore.jobStore noStoreFaults)
    (h : w.InStep) : g.reconcile.Ends w (fun _ w' => Follows (w.scene.asked rules (some .recoverStalled)) w'.scene)
      fun e _ => e.isOutOfRange = true := by
  have recovered : (w.putQueue (w.queue.recover w.now)).InStep :=
    InStep.withQueue h h.sound.recover fun key spec => has_of_repeats_eq rfl
  have enabled : ∀ job ∈ w.store.rows.enabledJobs, w.jobs.get? job.id = some job ∧ job.isEnabled = true := by
    intro job hjob
    simp only [LocalStore.enabledJobs, List.mem_filter, Table.mem_values_iff] at hjob
    obtain ⟨⟨id, hj⟩, he⟩ := hjob
    exact ⟨h.ownId hj ▸ hj, he⟩
  simp only [reconcile, survey, Act.ends_bind, ends_time, hg, hs, queueing, storing, Act.ends_mapError, Act.ends_pure,
    Act.ends_modify]
  refine ends_onQueue.mpr ((Act.ends_of_on_ok (recoverStalled_on _ _)).mpr ?_)
  rw [Act.ends_of_on_ok (onStore_listEnabledJobs_on _)]
  refine ends_onQueue.mpr ((Act.ends_of_on_ok (listEntries_on _ _ _)).mpr ?_)
  refine ends_onQueue.mpr ((Act.ends_of_on_ok (listRepeating_on _)).mpr ?_)
  refine (restoreJobs_mends (w := (w.putQueue (w.queue.recover w.now)).sentOne) hg recovered enabled _ _).mono ?_
    fun _ _ e => e
  exact fun _ w₁ mends => .of_mends mends

/-! ### Dispatches -/

theorem Beside.scene (h : Beside w w') : w'.scene = { w.scene with now := w'.now } := by
  rw [World.scene, World.scene, h.queue, h.jobs]

theorem Beside.follows (h : Beside w w') : Follows w.scene w'.scene :=
  ⟨w'.now, w'.scene, h.now, h.scene ▸ .refl, .inl rfl⟩

theorem disableIfFailing_goes (hg : g.queue = workQueue rules) (hs : g.store = LocalStore.jobStore noStoreFaults)
    (h : w.InStep) (id : Identifier) : (g.disableIfFailing id).Ends w
      (fun _ w' => w'.scene = w.scene ∨ Turn w.scene w'.scene)
      fun e w' => e.isOutOfRange = true ∨ w'.scene = w.scene := by
  have twice : w.sentOne.sentOne.InStep := h
  unfold disableIfFailing
  split
  · exact Act.ends_pure.mpr (.inl rfl)
  simp only [Act.ends_bind, storing, hs, Act.ends_mapError]
  rw [Act.ends_of_on_ok (onStore_recentExecutions_on _ _ _)]
  split
  · exact Act.ends_pure.mpr (.inl rfl)
  rw [Act.ends_bind, Act.ends_mapError, Act.ends_of_on_ok (onStore_findJobById_on _ _)]
  cases w.sentOne.jobs.get? id with
  | none => exact Act.ends_pure.mpr (.inl rfl)
  | some job =>
    cases he : job.isEnabled with
    | false =>
      simp only [he, Bool.false_eq_true, if_false, Act.ends_pure]
      exact .inl rfl
    | true =>
      simp only [he, if_true, disable, Act.ends_bind, Act.ends_discard, Act.ends_modify]
      exact (updateJob_goes hg hs twice _).mono (fun _ w₁ turn => .inr turn) fun _ _ e => e

theorem failed_follows (hg : g.queue = workQueue rules) (hs : g.store = LocalStore.jobStore noStoreFaults)
    (h : w.InStep) (finishedOn : Instant) : (g.failed e finishedOn).Ends w (fun _ w' => Follows w.scene w'.scene)
      fun e w' => e.isOutOfRange = true ∨ Follows w.scene w'.scene := by
  simp only [failed, Act.ends_bind, Act.ends_ofExcept]
  refine ⟨fun job _ => ?_, fun _ _ => .inr (.refl _)⟩
  refine (record_ends hs _).mono (fun saved w₁ same => ?_) fun _ _ => False.elim
  have recorded : Relation.ReflTransGen Mends { w.scene with now := w₁.now } w₁.scene := same.scene ▸ .refl
  cases saved with
  | false => exact Act.ends_pure.mpr ⟨_, _, same.now, recorded, .inl rfl⟩
  | true =>
    refine Act.ends_mapError.mpr ((disableIfFailing_goes hg hs (same.later h).inStep job.id).mono ?_ ?_)
    · exact fun _ w' last => ⟨_, _, same.now, recorded, last⟩
    · exact fun _ w' => Or.imp_right fun last => ⟨_, _, same.now, recorded, .inl last⟩

theorem completed_follows (hg : g.queue = workQueue rules) (hs : g.store = LocalStore.jobStore noStoreFaults)
    {outcome : DispatchOutcome}
    (gone : outcome = .jobGone → ∃ queued, payloadJob e = .ok queued ∧ w.jobs.get? queued.id = none)
    (finishedOn : Instant) : (g.completed e outcome finishedOn).Ends w (fun _ w' => Follows w.scene w'.scene)
      fun _ _ => True := by
  cases outcome with
  | completed job results =>
    exact Act.ends_discard.mpr ((record_ends hs _).mono (fun _ _ same => same.follows) fun _ _ _ => trivial)
  | jobGone =>
    obtain ⟨queued, hq, absent⟩ := gone rfl
    simp only [completed, Act.ends_bind, Act.ends_ofExcept, hq, Except.ok.injEq, forall_eq', reduceCtorEq,
      implies_true, and_true, Act.ends_discard, engaging, queueing, Act.ends_mapError]
    refine (dequeue_scene hg).mono (fun _ w₁ taken => ?_) fun _ _ _ => trivial
    rw [taken]
    exact .of_mends (.single (.cleared absent))

/-- What is asked of the queue, and nothing else. -/
theorem queueing_asks (request : QueueRequest) :
    (engaging (queueing (onQueue ((workQueue rules).ask w.now request)))).Ends w
      (fun _ w' => w'.scene = w.scene.asked rules (some request))
      fun _ w' => w'.scene = w.scene.asked rules (some request) := by
  refine Act.ends_mapError.mpr (Act.ends_mapError.mpr (ends_onQueue.mpr ((ends_on _ _).mono ?_ ?_)))
  · rintro _ _ rfl
    rfl
  · rintro _ _ rfl
    rfl

end Engine

namespace Operation

open Engine Scene

variable {rules : ClaimRules} {policy : SchedulePolicy} {threshold : Nat} {invoker : Invoker} {s : Site}
  {op : Operation}

theorem ends_silent {α : Type} {x : Act DispatchError Memory α} {w : Memory}
    {Q : Memory → Prop} {E : DispatchError → Memory → Prop} (h : x.Ends w (fun _ => Q) E) :
    (silent x).Ends w (fun _ => Q) E :=
  Act.ends_bind.mpr (Act.ends_discard.mpr (h.mono (fun _ _ h => Act.ends_pure.mpr h) fun _ _ h => h))

/-- What an operation asks of the queue before it does anything else. -/
def request? : Operation → Option QueueRequest
  | reconcile | recoverStalled => some .recoverStalled
  | claimDue limit => some (.claimDue limit)
  | renewLease e => some (.renewLease e)
  | finish e => some (.finish e)
  | create .. | update .. | delete .. | process _ | completed .. | failed .. => none

theorem ofWorkers_of_request? {request : QueueRequest} (h : op.request? = some request) : request.OfWorkers := by
  cases op <;> simp only [request?, Option.some.injEq, reduceCtorEq] at h <;> subst h <;> trivial

/-- What every operation does, unless the calendar breaks it off. -/
theorem act_follows (h : s.InStep) (allowed : op.Allowed s) :
    (op.act (inMemory rules policy threshold invoker)).Ends s.world
      (fun _ w' => Follows (s.world.scene.asked rules op.request?) w'.scene)
      fun e w' => e.isOutOfRange = true ∨ Follows (s.world.scene.asked rules op.request?) w'.scene := by
  have inStep := h.world
  have same {w' : Memory} (h : w'.scene = s.world.scene) : Follows s.world.scene w'.scene := h ▸ .refl _
  have asks (request : QueueRequest) :
      (silent (engaging (queueing (onQueue ((workQueue rules).ask s.world.now request))))).Ends s.world
        (fun _ w' => Follows (s.world.scene.asked rules (some request)) w'.scene)
        fun e w' => e.isOutOfRange = true ∨ Follows (s.world.scene.asked rules (some request)) w'.scene :=
    ends_silent ((queueing_asks request).mono (fun _ _ same => same ▸ .refl _) fun _ _ same => .inr (same ▸ .refl _))
  cases op with
  | create environment r =>
    have fresh : s.Fresh := allowed
    refine ends_silent (Act.ends_mapError.mpr ((createJob_goes rfl rfl inStep fresh.notStored r).mono ?_ ?_))
    · exact fun _ _ => .of_turn
    · exact fun _ _ => Or.imp_right fun h => same (h ▸ rfl)
  | update environment id r =>
    refine ends_silent (Act.ends_mapError.mpr ((updateJob_goes rfl rfl inStep r).mono ?_ ?_))
    · exact fun _ _ => .of_turn
    · exact fun _ _ => Or.imp_right same
  | delete environment id =>
    refine ends_silent (Act.ends_mapError.mpr ((deleteJob_goes rfl rfl inStep).mono ?_ ?_))
    · exact fun _ _ => .of_turn
    · exact fun _ _ h => .inr (same h)
  | reconcile =>
    refine ends_silent (Act.ends_mapError.mpr ((reconcile_follows rfl rfl inStep).mono ?_ ?_))
    · exact fun _ _ follows => follows
    · exact fun _ _ => .inl
  | process e =>
    refine Act.ends_bind.mpr ((process_ends rfl).mono ?_ ?_)
    · exact fun _ _ beside => Act.ends_pure.mpr beside.1.follows
    · exact fun _ _ beside => .inr beside.follows
  | completed e outcome finishedOn =>
    have recorded : (e, outcome) ∈ s.outcomes := allowed
    have gone : outcome = .jobGone → ∃ queued, payloadJob e = .ok queued ∧ s.world.jobs.get? queued.id = none := by
      rintro rfl
      exact h.gone recorded
    refine ends_silent (((completed_follows rfl rfl gone finishedOn).and
      (completed_ends rfl rfl inStep gone finishedOn)).mono ?_ ?_)
    · exact fun _ _ h => h.1
    · exact fun _ _ h => h.2.elim
  | failed e finishedOn => exact ends_silent (failed_follows rfl rfl inStep finishedOn)
  | claimDue limit => exact Act.ends_bind.mpr (ends_time.mpr (asks (.claimDue limit)))
  | renewLease e => exact Act.ends_bind.mpr (ends_time.mpr (asks (.renewLease e)))
  | recoverStalled => exact Act.ends_bind.mpr (ends_time.mpr (asks .recoverStalled))
  | finish e => exact asks (.finish e)

theorem act_goes (h : s.InStep) (allowed : op.Allowed s) :
    (op.act (inMemory rules policy threshold invoker)).Ends s.world (fun _ w' => Goes rules s.world.scene w'.scene)
      fun e w' => e.isOutOfRange = true ∨ Goes rules s.world.scene w'.scene := by
  have goes {s' : Scene} (follows : Follows (s.world.scene.asked rules op.request?) s') :
      Goes rules s.world.scene s' := by
    cases asks : op.request? with
    | none =>
      rw [asks] at follows
      exact follows.goes
    | some request =>
      rw [asks] at follows
      have later : Goes rules (s.world.scene.asked rules (some request)) s' := follows.goes
      obtain ⟨s₁, stills, last⟩ := later
      exact ⟨s₁, .head (.asked request (ofWorkers_of_request? asks)) stills, last⟩
  exact (act_follows h allowed).mono (fun _ _ => goes) fun _ _ => Or.imp_right goes

end Operation

/-! ## Runs in which histories are cleared -/

namespace Engine

variable {g : Engine LocalQueue (StoreState LocalStore) (Transaction LocalStore)} {w : Memory}

theorem deleteExecutions_scene (hs : g.store = LocalStore.jobStore noStoreFaults) (environment : String)
    (id : Identifier) :
    (g.deleteExecutions environment id).Ends w (fun _ w' => w'.scene = w.scene) fun _ w' => w'.scene = w.scene := by
  simp only [deleteExecutions, Act.ends_bind, Act.ends_discard]
  refine (getJob_ends hs).mono (fun _ w₁ found => ?_) fun _ w₁ same => same ▸ rfl
  rw [found.1, hs]
  exact Act.ends_mapError.mpr (ends_onStore.mpr ⟨fun _ _ => rfl, fun _ _ => rfl⟩)

theorem deleteExecution_scene (hs : g.store = LocalStore.jobStore noStoreFaults) (environment : String)
    (id execution : Identifier) : (g.deleteExecution environment id execution).Ends w (fun _ w' => w'.scene = w.scene)
      fun _ w' => w'.scene = w.scene := by
  simp only [deleteExecution, Act.ends_bind, Act.ends_discard]
  refine (getJob_ends hs).mono (fun _ w₁ found => ?_) fun _ w₁ same => same ▸ rfl
  rw [found.1, hs]
  refine Act.ends_mapError.mpr (ends_onStore.mpr ⟨fun _ _ => ?_, fun _ _ => rfl⟩)
  dsimp only
  split
  · exact Act.ends_throw.mpr rfl
  · exact Act.ends_pure.mpr rfl

end Engine

namespace Site

variable {rules : ClaimRules} {policy : SchedulePolicy} {threshold : Nat} {t₀ : Instant} {s s' : Site}

/-- A step, or a job's history is cleared, as a whole or by one execution. -/
inductive Onward (rules : ClaimRules) (policy : SchedulePolicy) (threshold : Nat) (s : Site) : Site → Prop
  | step {s' : Site} : Step rules policy threshold s s' → Onward rules policy threshold s s'
  | clearedAll (environment : String) (id : Identifier) : Onward rules policy threshold s
    ⟨(((Engine.inMemory rules policy threshold .obliging).deleteExecutions environment id).on s.world).2, s.outcomes⟩
  | clearedOne (environment : String) (id execution : Identifier) : Onward rules policy threshold s
    ⟨(((Engine.inMemory rules policy threshold .obliging).deleteExecution environment id execution).on s.world).2,
      s.outcomes⟩

/-- The sites that a run may reach in which histories are cleared as well. -/
def Visited (rules : ClaimRules) (policy : SchedulePolicy) (threshold : Nat) (t₀ : Instant) (s : Site) : Prop :=
  Relation.ReflTransGen (Onward rules policy threshold) (start t₀) s

theorem Reached.visited (h : Reached rules policy threshold t₀ s) : Visited rules policy threshold t₀ s :=
  h.lift id fun _ _ => .step

theorem InStep.of_scene (h : s.InStep) {w : Memory} (same : w.scene = s.world.scene) : InStep ⟨w, s.outcomes⟩ := by
  obtain ⟨now, queue, jobs⟩ := Scene.mk.inj same
  refine ⟨?_, fun {e} gone => ?_⟩
  · show Timetable.InStep w.now w.queue w.jobs
    rw [now, queue, jobs]
    exact h.world
  · obtain ⟨queued, hq, absent⟩ := h.gone gone
    exact ⟨queued, hq, by rw [jobs]; exact absent⟩

/-- Where a run may go on, it goes by events. -/
theorem Onward.goes (h : s.InStep) (onward : Onward rules policy threshold s s') :
    s'.InStep ∧ Scene.Goes rules s.world.scene s'.world.scene := by
  cases onward with
  | step step =>
    refine ⟨h.step step, ?_⟩
    cases step with
    | tick later => exact .of_still (.passed later)
    | succeed allowed on => exact (Act.ends_of_on_ok on).mp (Operation.act_goes h allowed)
    | fail allowed on whole =>
      refine ((Act.ends_of_on_error on).mp (Operation.act_goes h allowed)).resolve_left ?_
      simp [whole]
  | clearedAll environment id =>
    have same := (Act.ends_iff_forall (P := fun w' : Memory => w'.scene = s.world.scene)).mp
      (Engine.deleteExecutions_scene (g := .inMemory rules policy threshold .obliging) rfl environment id)
    exact ⟨h.of_scene same, same ▸ .refl _⟩
  | clearedOne environment id execution =>
    have same := (Act.ends_iff_forall (P := fun w' : Memory => w'.scene = s.world.scene)).mp
      (Engine.deleteExecution_scene (g := .inMemory rules policy threshold .obliging) rfl environment id execution)
    exact ⟨h.of_scene same, same ▸ .refl _⟩

theorem InStep.of_visited (h : Visited rules policy threshold t₀ s) : s.InStep := by
  induction h with
  | refl => exact inStep_start t₀
  | tail _ onward ih => exact (onward.goes ih).1

end Site

end Timetable
