import Timetable.Proofs.Engine.Recorded
import Timetable.Proofs.Queue.Shares

/-!
# Jobs on their own

What a world in memory holds under the identifier of a job is its share of the world: the job, its executions, and what
the queue holds under its key (`World.share`). To put a job into the queue, to take it out and to undo either stays
within its key (`Engine.queueUnder`). To change or to delete a stored job, or its executions, stays within its share
(`Engine.ofJob`):

1. the shares of all other identifiers are left as they are;
2. what comes of it depends on that share, on the clock and on the next identifier alone.

Transactions copy all rows, so a change is not put together of steps that stay within a share. But what it comes to
does (`Engine.applyUpdate_eq`, `Engine.applyDelete_eq`).
-/

namespace Timetable

open World LocalQueue

/-! ## Shares of a world -/

/-- What is held of one job. -/
@[ext]
structure JobShare where
  job : Option Job := none
  /-- Oldest first. -/
  executions : List JobExecution := []
  queue : LocalQueue.Share := {}

namespace World

/-- What is held under an identifier. -/
def share (w : Memory) (id : Identifier) : JobShare where
  job := w.jobs.get? id
  executions := w.history.filter (·.jobId == id)
  queue := w.queue.share id.text

/-- The jobs of an environment, in the order in which they are kept. -/
def jobsIn (w : Memory) (environment : String) : Table Identifier Job :=
  w.jobs.filter fun _ job => job.environment == environment

/-- Whether the job under an identifier is one of an environment. -/
def Owns (w : Memory) (environment : String) (id : Identifier) : Prop :=
  ∃ job, w.jobs.get? id = some job ∧ job.environment = environment

theorem mem_executions {w : Memory} {id : Identifier} {x : JobExecution} :
    x ∈ (w.share id).executions ↔ x ∈ w.history ∧ x.jobId = id := by
  show x ∈ w.history.filter (·.jobId == id) ↔ _
  rw [List.mem_filter, beq_iff_eq]

/-- The world with its rows changed. -/
def editRows (f : LocalStore → LocalStore) (w : Memory) : Memory := w.putStore { w.store with rows := f w.store.rows }

/-- Two worlds show the same time, will hand out the same identifier next, and hold the same under an identifier. If
asked for, they keep the jobs of an environment in the same order. -/
structure Alike (ordered : Prop) (environment : String) (id : Identifier) (w v : Memory) : Prop where
  now : w.now = v.now
  issued : w.store.issued = v.store.issued
  share : w.share id = v.share id
  order : ordered → w.jobsIn environment = v.jobsIn environment

namespace Alike

variable {ordered : Prop} {environment : String} {id : Identifier} {w v : Memory}

theorem job (h : Alike ordered environment id w v) : w.jobs.get? id = v.jobs.get? id := congrArg JobShare.job h.share

theorem executions (h : Alike ordered environment id w v) :
    w.history.filter (·.jobId == id) = v.history.filter (·.jobId == id) := congrArg JobShare.executions h.share

theorem queue (h : Alike ordered environment id w v) : w.queue.share id.text = v.queue.share id.text :=
  congrArg JobShare.queue h.share

end Alike

end World

namespace Engine

open Act

variable {g : Engine LocalQueue (StoreState LocalStore) (Transaction LocalStore)} {rules : ClaimRules}
  {ordered : Prop} {environment key : String} {id : Identifier} {job old new : Job} {w v : Memory} {ε α : Type}

/-- One key of the queue, and nothing of the store. -/
def queueUnder (key : String) : Scope Memory where
  inv w := w.queue.Tidy
  frame w w' := w' = w.putQueue w'.queue ∧ ∀ other, other ≠ key → w'.queue.share other = w.queue.share other
  alike w v := w.now = v.now ∧ w.queue.share key = v.queue.share key
  refl _ := ⟨rfl, fun _ _ => rfl⟩
  trans {w w₁ w₂} h h' := by
    refine ⟨?_, fun other ne => (h'.2 other ne).trans (h.2 other ne)⟩
    rw [h'.1, h.1]
    rfl

/-- One job of an environment. -/
def ofJob (ordered : Prop) (environment : String) (id : Identifier) : Scope Memory where
  inv w := w.queue.Tidy ∧ ∀ job, w.jobs.get? id = some job → job.environment = environment
  frame w w' := w.store.issued ≤ w'.store.issued ∧ ∀ other, other ≠ id → w'.share other = w.share other
  alike := World.Alike ordered environment id
  refl _ := ⟨le_rfl, fun _ _ => rfl⟩
  trans h h' := ⟨h.1.trans h'.1, fun other ne => (h'.2 other ne).trans (h.2 other ne)⟩

/-! ## The queue's side -/

theorem within_time : Within (queueUnder key) (time : Act ε Memory Instant) := within_gets fun _ _ like => like.1

theorem within_onQueue {x : Act QueueError LocalQueue α} (hx : Within (underKey key) x) :
    Within (queueUnder key) (onQueue x : Act QueueError Memory α) where
  inv h := hx.inv h
  frame h := ⟨rfl, hx.frame h⟩
  alike h h' like := ⟨(hx.alike h h' like.2).1, like.1, (hx.alike h h' like.2).2⟩

theorem within_enqueue (hg : g.queue = workQueue rules) (ha : job.schedule.Accepted) :
    Within (queueUnder job.queueKey) (g.enqueue job) := by
  unfold enqueue
  rw [hg]
  refine within_time.bind fun now => ?_
  cases plan : queuePlan job.schedule now with
  | repeating spec =>
    exact within_onQueue (within_addRepeating (ha.usable (queuePlan_eq_repeating_iff.mp plan)).colonless _)
  | delayed millis => exact within_onQueue (within_addDelayed millis _)
  | expired => exact within_pure ()

theorem within_dequeue (hg : g.queue = workQueue rules) (ha : job.schedule.Accepted) :
    Within (queueUnder job.queueKey) (g.dequeue job) := by
  unfold dequeue
  rw [hg]
  refine within_time.bind fun now => ?_
  cases plan : queuePlan job.schedule now with
  | repeating spec =>
    exact within_onQueue (within_removeRepeating (ha.usable (queuePlan_eq_repeating_iff.mp plan)).colonless)
  | _ => exact within_onQueue within_removeDelayed

theorem within_isQueued (hg : g.queue = workQueue rules) : Within (queueUnder job.queueKey) (g.isQueued job) := by
  unfold isQueued
  rw [hg]
  refine within_time.bind fun now => ?_
  cases queuePlan job.schedule now with
  | repeating spec =>
    refine within_onQueue (within_listRepeating (isRecordOf job.queueKey spec) fun r found => ?_)
    rw [isRecordOf, Bool.and_eq_true, beq_iff_eq] at found
    exact found.1
  | _ => exact (within_onQueue within_getEntry).bind fun _ => within_pure _

theorem within_move (hg : g.queue = workQueue rules) (own : new.queueKey = old.queueKey) (was : old.schedule.Accepted)
    (ha : new.schedule.Accepted) (plan : ChangePlan) : Within (queueUnder old.queueKey) (g.move plan old new) := by
  obtain ⟨removeOld, addNew⟩ := plan
  have second : Within (queueUnder old.queueKey) (if addNew then g.enqueue new else pure ()) := by
    cases addNew with
    | false => exact within_pure ()
    | true => exact own ▸ within_enqueue hg ha
  cases removeOld with
  | false => exact second
  | true => exact (within_dequeue hg was).discard.bind fun _ => second

theorem within_restore (hg : g.queue = workQueue rules) (ha : job.schedule.Accepted) :
    Within (queueUnder job.queueKey) (g.restore job) := by
  unfold restore
  refine (within_isQueued hg).bind fun queued => ?_
  cases queued with
  | true => exact within_pure ()
  | false => exact within_enqueue hg ha

theorem within_attempting {S : Scope Memory} {x : Act QueueError Memory α} (hx : Within S x) :
    Within S (attempting (queueing x)) := (hx.mapError _).attemptUnless _

theorem within_undo (hg : g.queue = workQueue rules) (own : new.queueKey = old.queueKey) (was : old.schedule.Accepted)
    (ha : new.schedule.Accepted) (added : Bool) : Within (queueUnder old.queueKey) (g.undo old new added) := by
  have second : Within (queueUnder old.queueKey)
      (if old.isEnabled then discard (attempting (queueing (g.restore old))) else pure () :
        Act EngineError Memory Unit) := by
    cases old.isEnabled with
    | false => exact within_pure ()
    | true => exact (within_attempting (within_restore hg was)).discard
  cases added with
  | false => exact second
  | true => exact (within_attempting (own ▸ within_dequeue hg ha)).discard.bind fun _ => second

/-- The queue's side of a change, undone if it fails. -/
def arrange (g : Engine LocalQueue (StoreState LocalStore) (Transaction LocalStore)) (plan : ChangePlan) (old new : Job) :
    Act EngineError Memory Unit := do
  match ← attempting (queueing (g.move plan old new)) with
  | .error e =>
    g.undo old new false
    throw e
  | .ok () => return

theorem within_arrange (hg : g.queue = workQueue rules) (own : new.queueKey = old.queueKey)
    (was : old.schedule.Accepted) (ha : new.schedule.Accepted) (plan : ChangePlan) :
    Within (queueUnder old.queueKey) (g.arrange plan old new) := by
  refine (within_attempting (within_move hg own was ha plan)).bind fun r => ?_
  cases r with
  | error e => exact (within_undo hg own was ha false).bind fun _ => within_throw e
  | ok _ => exact within_pure ()

/-- What stays within the key of a job stays within its share. -/
theorem within_ofJob {x : Act ε Memory α} (hx : Within (queueUnder id.text) x) :
    Within (ofJob ordered environment id) x where
  inv {w} h := by
    have beside := (hx.frame h.1).1
    refine ⟨hx.inv h.1, ?_⟩
    rw [beside]
    exact h.2
  frame {w} h := by
    obtain ⟨beside, others⟩ := hx.frame h.1
    refine ⟨by rw [beside]; exact le_rfl, fun other ne => ?_⟩
    have queue := others other.text (mt Identifier.text_injective ne)
    rw [beside]
    exact JobShare.ext rfl rfl queue
  alike {w v} h h' like := by
    have beside := (hx.frame h.1).1
    have beside' := (hx.frame h'.1).1
    obtain ⟨result, now, queue⟩ := hx.alike h.1 h'.1 ⟨like.now, like.queue⟩
    refine ⟨result, ?_⟩
    rw [beside, beside']
    refine ⟨like.now, like.issued, ?_, like.order⟩
    exact JobShare.ext like.job like.executions queue

/-! ## The store's side -/

/-- One more statement is sent. -/
def sendOne : Act ε Memory Unit := modify sentOne

theorem within_sendOne : Within (ofJob ordered environment id) (sendOne : Act ε Memory Unit) :=
  within_modify (fun h => h) (fun _ => ⟨le_rfl, fun _ _ => rfl⟩) fun _ _ like => ⟨like.now, like.issued, like.share, like.order⟩

/-- One more identifier is handed out. -/
def issueOne : Act ε Memory Unit := modify fun w => w.putStore { w.store with issued := w.store.issued + 1 }

theorem within_issueOne : Within (ofJob ordered environment id) (issueOne : Act ε Memory Unit) :=
  within_modify (fun h => h) (fun _ => ⟨Nat.le_succ _, fun _ _ => rfl⟩) fun _ _ like =>
    ⟨like.now, congrArg (· + 1) like.issued, like.share, like.order⟩

/-- A job takes the place of the one under its identifier. -/
def putJob (job : Job) : Act ε Memory Unit := modify (editRows fun s => { s with jobs := s.jobs.set job.id job })

theorem within_putJob (own : job.environment = environment) :
    Within (ofJob ordered environment job.id) (putJob job : Act ε Memory Unit) := by
  refine within_modify (fun {w} h => ⟨h.1, fun stored hj => ?_⟩) (fun {w} _ => ⟨le_rfl, fun other ne => ?_⟩)
    fun {w v} h h' like => ?_
  · change (w.jobs.set job.id job).get? job.id = some stored at hj
    rw [Table.get?_set, if_pos rfl] at hj
    cases hj
    exact own
  · refine JobShare.ext ?_ rfl rfl
    show (w.jobs.set job.id job).get? other = w.jobs.get? other
    rw [Table.get?_set, if_neg ne.symm]
  · refine ⟨like.now, like.issued, JobShare.ext ?_ like.executions
      like.queue, fun asked => ?_⟩
    · show (w.jobs.set job.id job).get? job.id = (v.jobs.set job.id job).get? job.id
      rw [Table.get?_set, Table.get?_set, if_pos rfl, if_pos rfl]
    · have put {u : Memory} (h : ∀ stored, u.jobs.get? job.id = some stored → stored.environment = environment) :
          (u.jobs.set job.id job).filter (fun _ j => j.environment == environment) =
            (u.jobsIn environment).set job.id job :=
        Table.filter_set (beq_iff_eq.mpr own) fun stored hj => beq_iff_eq.mpr (h stored hj)
      show (w.jobs.set job.id job).filter _ = (v.jobs.set job.id job).filter _
      rw [put h.2, put h'.2, like.order asked]

/-- A job is taken out with its executions. -/
def dropJob (id : Identifier) : Act ε Memory Unit :=
  modify (editRows fun s => { s with jobs := s.jobs.erase id, executions := s.executions.filter (·.jobId ≠ id) })

theorem filter_ne_filter {xs : List JobExecution} {other : Identifier} :
    (xs.filter (·.jobId ≠ id)).filter (·.jobId == other) = if id = other then [] else xs.filter (·.jobId == other) := by
  rw [List.filter_filter]
  split
  · next same =>
    subst same
    exact List.filter_eq_nil_iff.mpr fun e _ => by simp
  · next ne =>
    refine List.filter_congr fun e _ => ?_
    by_cases own : e.jobId = other
    · subst own
      simp [Ne.symm ne]
    · simp [own]

theorem within_dropJob : Within (ofJob ordered environment id) (dropJob id : Act ε Memory Unit) := by
  refine within_modify (fun {w} h => ⟨h.1, fun stored hj => ?_⟩) (fun {w} _ => ⟨le_rfl, fun other ne => ?_⟩)
    fun {w v} h h' like => ?_
  · change (w.jobs.erase id).get? id = some stored at hj
    rw [Table.get?_erase, if_pos rfl] at hj
    cases hj
  · refine JobShare.ext ?_ ?_ rfl
    · show (w.jobs.erase id).get? other = w.jobs.get? other
      rw [Table.get?_erase, if_neg ne.symm]
    · show (w.history.filter (·.jobId ≠ id)).filter _ = w.history.filter _
      rw [filter_ne_filter, if_neg ne.symm]
  · refine ⟨like.now, like.issued, JobShare.ext ?_ ?_ like.queue, fun asked => ?_⟩
    · show (w.jobs.erase id).get? id = (v.jobs.erase id).get? id
      rw [Table.get?_erase, Table.get?_erase, if_pos rfl, if_pos rfl]
    · show (w.history.filter (·.jobId ≠ id)).filter _ = (v.history.filter (·.jobId ≠ id)).filter _
      rw [filter_ne_filter, filter_ne_filter, if_pos rfl, if_pos rfl]
    · show (w.jobs.erase id).filter _ = (v.jobs.erase id).filter _
      rw [Table.filter_erase, Table.filter_erase]
      exact congrArg (Table.erase · id) (like.order asked)

/-- What is read of the executions of a job. -/
theorem within_reading {x : Act ε Memory α} {f : List JobExecution → α}
    (on : ∀ w, x.on w = (.ok (f (w.store.rows.executionsOf id)), w.sentOne)) :
    Within (ofJob ordered environment id) x where
  inv {w} h := by
    rw [on]
    exact h
  frame {w} _ := by
    rw [on]
    exact ⟨le_rfl, fun _ _ => rfl⟩
  alike {w v} _ _ like := by
    have newestFirst (u : Memory) : u.store.rows.executionsOf id = (u.history.filter (·.jobId == id)).reverse :=
      List.filter_reverse
    rw [on, on, newestFirst, newestFirst, like.executions]
    exact ⟨rfl, like.now, like.issued, like.share, like.order⟩

theorem length_keepExecutions {keep : JobExecution → Bool} (others : ∀ e, e.jobId ≠ id → keep e = true)
    (s : LocalStore) : (LocalStore.keepExecutions keep s).1 =
      ((s.executions.filter (·.jobId == id)).filter fun e => !keep e).length := by
  have parts : s.executions.length = (s.executions.filter keep).length + (s.executions.filter fun e => !keep e).length :=
    s.executions.length_eq_length_filter_add keep
  have gone : (s.executions.filter (·.jobId == id)).filter (fun e => !keep e) = s.executions.filter fun e => !keep e := by
    rw [List.filter_filter]
    refine List.filter_congr fun e _ => ?_
    by_cases own : e.jobId = id
    · simp [own]
    · simp [others e own]
  rw [gone]
  show s.executions.length - (s.executions.filter keep).length = _
  omega

/-- What takes out executions of a job. -/
theorem within_clearing {x : Act ε Memory α} {f : Nat → α} {keep : JobExecution → Bool}
    (others : ∀ e, e.jobId ≠ id → keep e = true)
    (on : ∀ w, x.on w = (.ok (f (LocalStore.keepExecutions keep w.store.rows).1),
      w.sentOne.editRows fun s => (LocalStore.keepExecutions keep s).2)) :
    Within (ofJob ordered environment id) x where
  inv {w} h := by
    rw [on]
    exact h
  frame {w} _ := by
    rw [on]
    refine ⟨le_rfl, fun other ne => JobShare.ext rfl ?_ rfl⟩
    show (w.history.filter keep).filter (·.jobId == other) = w.history.filter (·.jobId == other)
    rw [List.filter_filter]
    refine List.filter_congr fun e _ => ?_
    by_cases own : e.jobId = other
    · simp [own, others e (own.trans_ne ne)]
    · simp [own]
  alike {w v} _ _ like := by
    have kept (u : Memory) : (u.history.filter keep).filter (·.jobId == id) =
        (u.history.filter (·.jobId == id)).filter keep := List.filter_comm _ _ _
    rw [on, on, length_keepExecutions others, length_keepExecutions others]
    refine ⟨by rw [show w.store.rows.executions.filter _ = _ from like.executions]; rfl, like.now, like.issued, ?_, like.order⟩
    refine JobShare.ext like.job ?_ like.queue
    show (w.history.filter keep).filter _ = (v.history.filter keep).filter _
    rw [kept, kept, like.executions]

theorem within_findExecution (hs : g.store = LocalStore.jobStore noStoreFaults) (execution : Identifier) :
    Within (ofJob ordered environment id) (storing (onStore (g.store.findExecution id execution))) := by
  rw [hs]
  exact within_reading (f := fun xs => xs.find? (·.id == execution)) fun _ => rfl

theorem within_listExecutions (hs : g.store = LocalStore.jobStore noStoreFaults) (filter : ExecutionFilter) :
    Within (ofJob ordered environment id) (storing (onStore (g.store.listExecutions id filter))) := by
  rw [hs]
  exact within_reading (f := fun xs => xs.filter filter.accepts) fun _ => rfl

theorem within_deleteExecutions (hs : g.store = LocalStore.jobStore noStoreFaults) :
    Within (ofJob ordered environment id) (storing (onStore (g.store.deleteExecutions id))) := by
  rw [hs]
  exact within_clearing (f := fun n => n) (fun _ other => decide_eq_true other) fun _ => rfl

theorem within_deleteExecution (hs : g.store = LocalStore.jobStore noStoreFaults) (execution : Identifier) :
    Within (ofJob ordered environment id) (storing (onStore (g.store.deleteExecution id execution))) := by
  have others (e : JobExecution) (other : e.jobId ≠ id) : (!(e.jobId == id && e.id == execution)) = true := by
    rw [beq_false_of_ne other]
    rfl
  rw [hs]
  exact within_clearing (f := fun n => decide (n ≠ 0)) others fun _ => rfl

/-! ## Changes -/

/-- A change of a stored job: the queue's side first, then the row. -/
def rewrite (g : Engine LocalQueue (StoreState LocalStore) (Transaction LocalStore)) (old : Job) (changes : JobChanges) :
    Act EngineError Memory Job := do
  let now ← time
  sendOne
  sendOne
  g.arrange (ChangePlan.between old (changes.applyTo old)) old (changes.applyAt now old)
  sendOne
  putJob (changes.applyAt now old)
  return changes.applyAt now old

theorem applyUpdate_eq (hs : g.store = LocalStore.jobStore noStoreFaults) (hold : w.jobs.get? old.id = some old)
    (changes : JobChanges) : (g.applyUpdate old changes).on w = (g.rewrite old changes).on w := by
  have stored : w.store.rows.jobs.get? old.id = some old := hold
  have now : (time : Act EngineError Memory Instant).on w = (.ok w.now, w) := rfl
  have moved : Spares (attempting (queueing
      (g.move (.between old (changes.applyTo old)) old (changes.applyAt w.now old)))) :=
    Spares.attempting (Spares.mapError (move_spares _ _ _))
  have spared := moved w.sentOne.sentOne
  simp only [applyUpdate, rewrite, arrange, sendOne, putJob, Act.on_bind, hs, storing, now, on_mapError, on_modify,
    onStore_openTransaction_on, inTransaction_updateJob_on stored, Except.mapError]
  cases on : (attempting (queueing
      (g.move (.between old (changes.applyTo old)) old (changes.applyAt w.now old)))).on w.sentOne.sentOne with
  | mk r w₁ =>
    rw [on] at spared
    cases r with
    | error e => rfl
    | ok r =>
      cases r with
      | error e =>
        simp only [Act.on_bind]
        cases (g.undo old (changes.applyAt w.now old) false).on w₁ with
        | mk r₂ w₂ => cases r₂ <;> rfl
      | ok _ =>
        -- nothing was committed since the rows were copied
        obtain ⟨now₁, queue, store, journal⟩ := w₁
        obtain rfl : store = w.sentOne.sentOne.store := spared
        rfl

/-- The deletion of a stored job: the queue's side first, then the rows. -/
def withdraw (g : Engine LocalQueue (StoreState LocalStore) (Transaction LocalStore)) (job : Job) :
    Act EngineError Memory Unit := do
  sendOne
  sendOne
  discard (queueing (g.dequeue job))
  sendOne
  dropJob job.id

theorem applyDelete_eq (hs : g.store = LocalStore.jobStore noStoreFaults) (hold : w.jobs.get? old.id = some old) :
    (g.applyDelete old).on w = (g.withdraw old).on w := by
  have stored : w.store.rows.jobs.contains old.id = true := Table.contains_iff.mpr ⟨old, hold⟩
  have now : (time : Act EngineError Memory Instant).on w = (.ok w.now, w) := rfl
  have moved : Spares (discard (queueing (g.dequeue old)) : Act EngineError Memory Unit) :=
    Spares.discard (Spares.mapError (dequeue_spares old))
  have spared := moved w.sentOne.sentOne
  simp only [applyDelete, withdraw, sendOne, dropJob, Act.on_bind, hs, storing, now, on_mapError, on_modify,
    onStore_openTransaction_on, inTransaction_deleteJob_on stored, Except.mapError]
  cases on : (discard (queueing (g.dequeue old)) : Act EngineError Memory Unit).on w.sentOne.sentOne with
  | mk r w₁ =>
    rw [on] at spared
    cases r with
    | error e => rfl
    | ok _ =>
      obtain ⟨now₁, queue, store, journal⟩ := w₁
      obtain rfl : store = w.sentOne.sentOne.store := spared
      rfl

/-- The creation of a job under an identifier: the row first, then the queue's side. -/
def createAt (g : Engine LocalQueue (StoreState LocalStore) (Transaction LocalStore)) (id : Identifier)
    (environment : String) (r : CreateJobRequest) : Act EngineError Memory Job := do
  let now ← time
  let new ← .ofExcept (g.newJob environment r now)
  sendOne
  issueOne
  putJob (new.store id now)
  if (new.store id now).isEnabled then discard (attempting (queueing (g.enqueue (new.store id now))))
  return new.store id now

theorem createJob_eq (hs : g.store = LocalStore.jobStore noStoreFaults) (environment : String) (r : CreateJobRequest) :
    (g.createJob environment r).on w = (g.createAt (.generated (w.store.issued + 1)) environment r).on w := by
  have now : (time : Act EngineError Memory Instant).on w = (.ok w.now, w) := rfl
  simp only [createJob, createAt, sendOne, issueOne, putJob, Act.on_bind, hs, storing, now, on_mapError, on_modify,
    on_ofExcept, onStore_createJob_on, Except.mapError]
  cases g.newJob environment r w.now with
  | error e => rfl
  | ok new => rfl

/-! ## Changes within the share of their job -/

theorem within_clock : Within (ofJob ordered environment id) (time : Act ε Memory Instant) :=
  within_gets fun _ _ like => like.now

theorem within_rewrite (hg : g.queue = workQueue rules) (own : old.environment = environment)
    (was : old.schedule.Accepted) {changes : JobChanges} (ha : ∀ s, changes.schedule = some s → s.Accepted) :
    Within (ofJob ordered environment old.id) (g.rewrite old changes) := by
  refine within_clock.bind fun now => within_sendOne.bind fun _ => within_sendOne.bind fun _ => ?_
  have accepted : (changes.applyAt now old).schedule.Accepted := by
    show (changes.schedule.getD old.schedule).Accepted
    cases hc : changes.schedule with
    | none => exact was
    | some s => exact ha s hc
  have key : (changes.applyAt now old).queueKey = old.queueKey := rfl
  have arranged : Within (ofJob ordered environment old.id)
      (g.arrange (ChangePlan.between old (changes.applyTo old)) old (changes.applyAt now old)) :=
    within_ofJob (within_arrange hg key was accepted _)
  have put : Within (ofJob ordered environment (changes.applyAt now old).id)
      (putJob (changes.applyAt now old) : Act EngineError Memory Unit) := within_putJob own
  exact arranged.bind fun _ => within_sendOne.bind fun _ => put.bind fun _ => within_pure _

theorem within_withdraw (hg : g.queue = workQueue rules) (ha : job.schedule.Accepted) :
    Within (ofJob ordered environment job.id) (g.withdraw job) := by
  refine within_sendOne.bind fun _ => within_sendOne.bind fun _ => ?_
  have taken : Within (queueUnder job.id.text) (discard (queueing (g.dequeue job)) : Act EngineError Memory Unit) :=
    ((within_dequeue hg ha).mapError _).discard
  exact (within_ofJob taken).bind fun _ => within_sendOne.bind fun _ => within_dropJob

theorem environment_of_newJob {now : Instant} {r : CreateJobRequest} {made : NewJob}
    (h : g.newJob environment r now = .ok made) : made.environment = environment := by
  simp only [newJob, except_bind_eq_ok] at h
  obtain ⟨name, _, functions, _, _, _, h⟩ := h
  cases h
  rfl

theorem within_createAt (hg : g.queue = workQueue rules) (r : CreateJobRequest) :
    Within (ofJob ordered environment id) (g.createAt id environment r) := by
  refine within_clock.bind fun now => within_ofExceptThen fun new made => ?_
  have put : Within (ofJob ordered environment (new.store id now).id)
      (putJob (new.store id now) : Act EngineError Memory Unit) := within_putJob (environment_of_newJob made)
  have accepted : (new.store id now).schedule.Accepted := accepted_of_newJob made
  have enqueued : Within (queueUnder (new.store id now).queueKey) (g.enqueue (new.store id now)) :=
    within_enqueue hg accepted
  have attempted : Within (ofJob ordered environment id) (attempting (queueing (g.enqueue (new.store id now)))) :=
    within_attempting (within_ofJob enqueued)
  refine within_sendOne.bind fun _ => within_issueOne.bind fun _ => Within.bind put fun _ => ?_
  cases (new.store id now).isEnabled with
  | false => exact within_pure _
  | true => exact attempted.discard.bind fun _ => within_pure _

end Engine

end Timetable
