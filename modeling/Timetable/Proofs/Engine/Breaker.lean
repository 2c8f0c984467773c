import Timetable.Proofs.Engine.Owned
import Timetable.Proofs.Store.Recent

/-!
# Jobs that keep failing

A dispatch that was broken off is recorded, and disables its job iff the latest executions all failed, as many as the
engine asks for (`failing_jobs_are_disabled`, with `JobExecution.Failing`). It raises an alert iff it does, and then the
queue holds no record for the job, nor an entry that nobody claimed. Nothing else that comes of a dispatch changes a job.
-/

namespace Timetable

open World LocalQueue JobExecution

/-! ## What is left of a job that is not enabled -/

/-- No record of a key is left, and no entry that nobody claimed. -/
structure LocalQueue.Cleared (q : LocalQueue) (key : String) : Prop where
  record : ∀ {field r}, q.repeats.get? field = some r → r.key ≠ key
  entry : ∀ {id e}, q.entries.get? id = some e → e.key = key → e.processedOn ≠ none

theorem Scene.Off.cleared {w : Memory} {id : Identifier} (off : w.scene.Off id) (inStep : w.InStep)
    (owned : w.scene.Owned) : w.queue.Cleared id.text := by
  have none (spec : RepeatSpec) : ¬ w.queue.Has id.text spec := by
    rw [InStep.has_key inStep, Option.bind_eq_some_iff]
    rintro ⟨job, stored, wants⟩
    exact Bool.false_ne_true ((off job stored).symm.trans (Job.wants_eq_some_iff.mp wants).1)
  refine ⟨fun {field r} hr key => none r.spec ⟨field, r, hr, key, rfl⟩, fun {k e} stored key never => ?_⟩
  cases repeats : e.repeats with
  | none =>
    obtain ⟨id', job, hj, own, enabled, -⟩ := owned.filled.single stored repeats never
    obtain rfl : id' = id := (owned.ownId hj).symm.trans (Identifier.text_injective (own.trans key))
    exact Bool.false_ne_true ((off job hj).symm.trans enabled)
  | some spec =>
    obtain ⟨r, hr, -⟩ := (StoredEntry.follows_of_none never).mp (owned.sound.follows stored repeats)
    have usable := ((owned.sound.made stored).fire spec repeats).1
    obtain ⟨own, same⟩ := owned.sound.record_of_field usable.colonless hr
    exact none spec ⟨_, r, hr, own.trans key, same⟩

namespace Engine

variable {g : Engine LocalQueue (StoreState LocalStore) (Transaction LocalStore)} {rules : ClaimRules}
  {w : Memory} {e : StoredEntry} {old : Job} {environment : String}

/-! ## Recording -/

/-- An execution of a stored job is the newest of its history. -/
theorem record_stored (hs : g.store = LocalStore.jobStore noStoreFaults) {new : NewExecution}
    (stored : w.jobs.contains new.jobId = true) :
    (g.record new).Ends w (fun saved w' => saved = true ∧ Beside w w' ∧ w'.journal.alerts = w.journal.alerts ∧
      ∃ id, w'.store.rows.executionsOf new.jobId = new.store id w.now :: w.store.rows.executionsOf new.jobId)
      fun _ _ => False := by
  simp only [record, Act.ends_bind, ends_time, engaging, storing, hs, Act.ends_mapError]
  rw [Act.ends_of_on_ok (onStore_createExecution_stored w.now stored)]
  simp only [Act.ends_bind, Act.ends_modify, Act.ends_pure, true_and]
  refine ⟨⟨le_rfl, rfl, rfl⟩, rfl, .generated (w.store.issued + 1), ?_⟩
  have newest : (w.store.rows.executions ++ [new.store (.generated (w.store.issued + 1)) w.now]).reverse =
      new.store (.generated (w.store.issued + 1)) w.now :: w.store.rows.executions.reverse := by simp
  show List.filter _ (List.reverse (_ ++ _)) = _
  exact newest ▸ List.filter_cons_of_pos (beq_self_eq_true new.jobId)

theorem dequeue_quiet (hg : g.queue = workQueue rules) (job : Job) : (g.dequeue job).Ends w
    (fun _ w' => w'.store = w.store ∧ w'.journal = w.journal) fun _ w' => w'.store = w.store ∧ w'.journal = w.journal := by
  simp only [dequeue, Act.ends_bind, ends_time, hg]
  cases queuePlan job.schedule w.now <;>
    exact ends_onQueue.mpr ((ends_on _ _).mono (fun _ _ _ => ⟨rfl, rfl⟩) fun _ _ _ => ⟨rfl, rfl⟩)

/-- No way of recording results changes a job. -/
theorem completed_quiet (hg : g.queue = workQueue rules) (hs : g.store = LocalStore.jobStore noStoreFaults)
    (outcome : DispatchOutcome) (finishedOn : Instant) :
    (g.completed e outcome finishedOn).Ends w (fun _ w' => w'.jobs = w.jobs) fun _ w' => w'.jobs = w.jobs := by
  cases outcome with
  | completed job results =>
    exact Act.ends_discard.mpr ((record_ends hs _).mono (fun _ _ same => same.jobs) fun _ _ => False.elim)
  | jobGone =>
    simp only [completed, Act.ends_bind, Act.ends_ofExcept, Act.ends_discard, engaging, queueing, Act.ends_mapError]
    refine ⟨fun queued _ => (dequeue_quiet hg queued).mono ?_ ?_, fun _ _ => trivial⟩
    · exact fun _ w' same => congrArg (·.rows.jobs) same.1
    · exact fun _ w' same => congrArg (·.rows.jobs) same.1

/-! ## Disabling -/

/-- A job is disabled, and an alert is raised. -/
structure Disables (n : Nat) (old new : Job) (w w' : Memory) : Prop where
  off : new.isEnabled = false
  rows : w'.store.rows = { w.store.rows with jobs := w.jobs.set old.id new }
  alerts : w'.journal.alerts = w.journal.alerts ++ [⟨old.id, old.name, n⟩]

theorem applyUpdate_disables (hg : g.queue = workQueue rules) (hs : g.store = LocalStore.jobStore noStoreFaults)
    (h : w.InStep) (stored : w.jobs.get? old.id = some old) (enabled : old.isEnabled = true) :
    (g.applyUpdate old { status := some .disabled }).Ends w
      (fun _ w' => w'.journal = w.journal ∧ w'.store.rows = { w.store.rows with
        jobs := w.jobs.set old.id (JobChanges.applyAt { status := some .disabled } w.now old) }) fun _ _ => False := by
  have plan : ChangePlan.between old (JobChanges.applyTo { status := some .disabled } old) = ⟨true, false⟩ := by
    have off : (JobChanges.applyTo { status := some .disabled } old).isEnabled = false := rfl
    simp [ChangePlan.between, enabled, off]
  simp only [applyUpdate, Act.ends_bind, ends_time, hs, storing, queueing, attempting, Act.ends_mapError,
    Act.ends_attemptUnless, plan, move]
  rw [Act.ends_of_on_ok (onStore_openTransaction_on _ _), Act.ends_of_on_ok (inTransaction_updateJob_on stored _)]
  have dequeued := dequeue_ends (w := w.sentOne.sentOne) hg h.sound (h.accepted stored)
  simp only [if_true, Bool.false_eq_true, if_false, Act.ends_bind, Act.ends_discard, Act.ends_pure]
  refine (dequeued.and (dequeue_quiet hg old)).mono (fun _ w₁ same => ?_) fun _ _ failed => failed.1.elim
  rw [Act.ends_of_on_ok (onStore_commit_on _ _)]
  exact ⟨same.2.2, rfl⟩

theorem disable_disables (hg : g.queue = workQueue rules) (hs : g.store = LocalStore.jobStore noStoreFaults)
    (h : w.InStep) (stored : w.jobs.get? old.id = some old) (enabled : old.isEnabled = true) :
    (g.disable old).Ends w (fun _ w' => ∃ new, Disables g.threshold old new w w') fun _ _ => False := by
  have found : w.store.rows.jobIn? old.environment old.id = some old := by
    have stored : w.store.rows.jobs.get? old.id = some old := stored
    simp [LocalStore.jobIn?, stored]
  simp only [disable, updateJob, getJob, Act.ends_bind, Act.ends_discard, Act.ends_modify, ends_time, hs, storing,
    Act.ends_mapError]
  rw [Act.ends_of_on_ok (onStore_findJob_on _ _ _), found]
  simp only [Act.ends_pure]
  refine Act.ends_ofExcept.mpr ⟨?_, fun e refused => ?_⟩
  · rintro changes ⟨⟩
    refine (applyUpdate_disables (w := w.sentOne) hg hs h stored enabled).mono (fun _ w₁ same => ?_) fun _ _ => id
    exact ⟨_, rfl, same.2, by simp [World.tell, Journal.alert, Journal.measure, same.1, sentOne, putStore]⟩
  · cases refused

/-- A job is disabled iff it is enabled and its latest executions all failed. -/
theorem disableIfFailing_disables (hg : g.queue = workQueue rules) (hs : g.store = LocalStore.jobStore noStoreFaults)
    (h : w.InStep) (stored : w.jobs.get? old.id = some old) (armed : 0 < g.threshold) :
    (g.disableIfFailing old.id).Ends w
      (fun _ w' =>
        if old.isEnabled = true ∧ Failing g.threshold (w.store.rows.executionsOf old.id) then
          ∃ new, Disables g.threshold old new w w'
        else w'.store.rows = w.store.rows ∧ w'.journal = w.journal) fun _ _ => False := by
  have twice : w.sentOne.sentOne.InStep := h
  simp only [disableIfFailing, Nat.ne_of_gt armed, if_false, Act.ends_bind, storing, hs, Act.ends_mapError]
  rw [Act.ends_of_on_ok (onStore_recentExecutions_on _ _ _)]
  have window := allFailed_recent w.store.rows old.id g.threshold
  cases all : Engine.allFailed g.threshold (w.store.rows.recent old.id g.threshold) with
  | false =>
    have not : ¬ Failing g.threshold (w.store.rows.executionsOf old.id) := by simpa [all] using window
    simp only [not, and_false, Bool.not_false, if_true, if_false, Act.ends_pure]
    exact ⟨rfl, rfl⟩
  | true =>
    have failing : Failing g.threshold (w.store.rows.executionsOf old.id) := window.mp all
    simp only [Bool.not_true, Bool.false_eq_true, if_false, Act.ends_bind, Act.ends_mapError, failing, and_true]
    rw [Act.ends_of_on_ok (onStore_findJobById_on _ _), show w.sentOne.jobs.get? old.id = some old from stored]
    dsimp only
    split
    · refine (disable_disables (w := w.sentOne.sentOne) hg hs twice stored ‹_›).mono ?_ fun _ _ => id
      rintro _ w' ⟨new, done⟩
      exact ⟨new, done.off, done.rows, done.alerts⟩
    · exact Act.ends_pure.mpr ⟨rfl, rfl⟩

/-- What a dispatch that was broken off leaves of its job. -/
structure Broke (n : Nat) (e : StoredEntry) (old new : Job) (w w' : Memory) : Prop where
  recorded : ∃ x : JobExecution, x.jobId = old.id ∧ x.status = .jobError ∧ x.processedOn = e.processedOn ∧
    w'.store.rows.executionsOf old.id = x :: w.store.rows.executionsOf old.id
  stored : w'.jobs.get? old.id = some new
  disabled : new.isEnabled = false ↔ old.isEnabled = false ∨ Failing n (w'.store.rows.executionsOf old.id)
  alerts : w'.journal.alerts = w.journal.alerts ++
    if old.isEnabled = true ∧ new.isEnabled = false then [⟨old.id, old.name, n⟩] else []

/-- A dispatch that was broken off is recorded for the job that its entry carries. -/
theorem failed_breaks (hg : g.queue = workQueue rules) (hs : g.store = LocalStore.jobStore noStoreFaults)
    (h : w.InStep) {queued : Job} (payload : payloadJob e = .ok queued) (same : queued.id = old.id)
    (stored : w.jobs.get? old.id = some old) (armed : 0 < g.threshold) (finishedOn : Instant) :
    (g.failed e finishedOn).Ends w (fun _ w' => ∃ new, Broke g.threshold e old new w w') fun _ _ => False := by
  have own : (executionOf queued e finishedOn .jobError []).jobId = old.id := same
  have found : w.jobs.contains (executionOf queued e finishedOn .jobError []).jobId = true :=
    Table.contains_iff.mpr ⟨old, own ▸ stored⟩
  simp only [failed, Act.ends_bind, Act.ends_ofExcept, payload]
  refine ⟨?_, fun _ never => by cases never⟩
  rintro _ ⟨⟩
  refine (record_stored hs found).mono (fun saved w₁ recorded => ?_) fun _ _ => id
  obtain ⟨rfl, beside, alerts, newId, newest⟩ := recorded
  rw [own] at newest
  have stored₁ : w₁.jobs.get? old.id = some old := beside.jobs ▸ stored
  rw [if_pos rfl, engaging, Act.ends_mapError, same]
  refine (disableIfFailing_disables hg hs (beside.later h).inStep stored₁ armed).mono (fun _ w' after => ?_) fun _ _ => id
  split at after
  · next both =>
    obtain ⟨new, off, rows, told⟩ := after
    refine ⟨new, ⟨_, own, rfl, rfl, Eq.trans ?_ newest⟩, ?_, ?_, ?_⟩
    · rw [rows]
      rfl
    · rw [World.jobs, rows]
      simp
    · rw [rows]
      exact iff_of_true off (.inr both.2)
    · rw [told, alerts, if_pos ⟨both.1, off⟩]
  · next kept =>
    obtain ⟨rows, told⟩ := after
    refine ⟨old, ⟨_, own, rfl, rfl, rows ▸ newest⟩, ?_, ?_, ?_⟩
    · rw [World.jobs, rows]
      exact stored₁
    · rw [rows]
      refine ⟨.inl, ?_⟩
      rintro (off | failing)
      · exact off
      · simpa [failing] using kept
    · have on : ¬ (old.isEnabled = true ∧ old.isEnabled = false) := by simp
      rw [told, alerts, if_neg on, List.append_nil]

/-- An engine that asks for no failures disables no job. -/
theorem failed_quiet (hs : g.store = LocalStore.jobStore noStoreFaults) (unarmed : g.threshold = 0) (finishedOn : Instant) :
    (g.failed e finishedOn).Ends w (fun _ w' => w'.jobs = w.jobs) fun _ w' => w'.jobs = w.jobs := by
  simp only [failed, Act.ends_bind, Act.ends_ofExcept]
  refine ⟨fun job _ => ?_, fun _ _ => trivial⟩
  refine (record_ends hs _).mono (fun saved w₁ same => ?_) fun _ _ => False.elim
  have unchanged : (engaging (g.disableIfFailing job.id)).Ends w₁ (fun _ w' => w'.jobs = w.jobs) fun _ w' =>
      w'.jobs = w.jobs := by
    rw [disableIfFailing, if_pos unarmed, engaging, Act.ends_mapError]
    exact Act.ends_pure.mpr same.jobs
  cases saved with
  | false => exact Act.ends_pure.mpr same.jobs
  | true => exact unchanged

end Engine

/-- A dispatch that was broken off disables its job iff the latest executions all failed, as many as the engine asks for.
Then an alert is raised, and nothing is left in the queue that nobody claimed. Nothing else that comes of a dispatch
changes a job. -/
theorem failing_jobs_are_disabled {rules : ClaimRules} {policy : SchedulePolicy} {n : Nat} {t₀ : Instant} {s : Site}
    (visited : Site.Visited rules policy n t₀ s) (invoker : Invoker) (e : StoredEntry) (finishedOn : Instant) :
    let g := Engine.inMemory rules policy n invoker
    (∀ queued old, 0 < n → Engine.payloadJob e = .ok queued → s.world.jobs.get? queued.id = some old →
      ∃ new w', (g.failed e finishedOn).on s.world = (.ok (), w') ∧ Engine.Broke n e old new s.world w' ∧
        (new.isEnabled = false → w'.queue.Cleared old.queueKey)) ∧
    (∀ outcome, ((g.completed e outcome finishedOn).on s.world).2.jobs = s.world.jobs) ∧
    (n = 0 → ((g.process e).on s.world).2.jobs = s.world.jobs ∧
      ((g.failed e finishedOn).on s.world).2.jobs = s.world.jobs) := by
  intro g
  have inStep : s.world.InStep := (Site.InStep.of_visited visited).world
  have owned := Site.owned_of_visited visited
  refine ⟨fun queued old armed payload stored => ?_, fun outcome => ?_, ?_⟩
  · have own : old.id = queued.id := inStep.ownId stored
    have breaks := Engine.failed_breaks (g := g) rfl rfl inStep payload own.symm (own ▸ stored) armed finishedOn
    have follows := Engine.failed_follows (g := g) (e := e) rfl rfl inStep finishedOn
    have later := Engine.failed_ends (g := g) (e := e) rfl rfl inStep finishedOn
    cases on : (g.failed e finishedOn).on s.world with
    | mk r w' =>
      cases r with
      | error err => exact ((Act.ends_of_on_error on).mp breaks).elim
      | ok _ =>
        rw [Act.ends_of_on_ok on] at breaks follows later
        obtain ⟨new, broke⟩ := breaks
        refine ⟨new, w', rfl, broke, fun off => ?_⟩
        have goes : Scene.Goes rules s.world.scene w'.scene := follows.goes
        have off : w'.scene.Off old.id := fun job stored => Option.some.inj (broke.stored.symm.trans stored) ▸ off
        exact off.cleared later.inStep (goes.induction Scene.Owned.still Scene.Owned.turn owned)
  · exact Act.ends_iff_forall.mp (Engine.completed_quiet (g := g) rfl rfl outcome finishedOn)
  · rintro rfl
    have ran := Engine.process_ends (g := g) (e := e) (w := s.world) rfl
    refine ⟨Act.ends_iff_forall.mp (ran.mono (fun _ _ same => same.1.jobs) fun _ _ same => same.jobs), ?_⟩
    exact Act.ends_iff_forall.mp (Engine.failed_quiet (g := g) rfl rfl finishedOn)

section

open Engine

/-! ## Two failures (used by the theorem below) -/

/-- Asks for two failures. -/
def strict : Engine LocalQueue (StoreState LocalStore) (Transaction LocalStore) := inMemory {} {} 2 .obliging

/-- The site after an operation of this engine that is no dispatch. -/
def Site.strictly (op : Operation) (s : Site) : Site := ⟨((op.act strict).on s.world).2, s.outcomes⟩

theorem Site.step_strictly {op : Operation} {s : Site} (allowed : op.Allowed s)
    (silent : ((op.act strict).on s.world).1 = .ok []) : Site.Step {} {} 2 s (s.strictly op) :=
  .succeed allowed (Prod.ext silent rfl)

/-- A job was created. -/
def strictSite : Site := (Site.start (.ofMillis 0)).strictly (.create "e" everyFiveMinutes)

/-- As it is stored. -/
def strictJob : Job where
  id := .generated 1
  environment := "e"
  name := "a"
  schedule := .interval 5
  functions := [{ functionId := "f" }]
  executionType := .sequential
  status := .enabled
  createdAt := .ofMillis 0
  updatedAt := .ofMillis 0

/-- Its first fire. -/
def strictFire : StoredEntry :=
  { StoredEntry.ofFire strictJob.queueKey (.every 300000) (.ofMillis 300000) strictJob.toJson with
    processedOn := some (.ofMillis 300000) }

/-- Its dispatch was broken off. -/
def failedOnceSite : Site := strictSite.strictly (.failed strictFire (.ofMillis 300000))

/-- The first failure leaves the job enabled, the second disables it. -/
theorem disabled_by_second_failure :
    failedOnceSite.world.jobs.get? strictJob.id = some strictJob ∧ strictJob.isEnabled = true ∧
      ∃ new w', (strict.failed strictFire (.ofMillis 300000)).on failedOnceSite.world = (.ok (), w') ∧
        w'.jobs.get? strictJob.id = some new ∧ new.isEnabled = false ∧
        w'.journal.alerts = [⟨strictJob.id, "a", 2⟩] ∧ w'.queue.Cleared strictJob.queueKey := by
  have created : Site.Step {} {} 2 (.start (.ofMillis 0)) strictSite :=
    Site.step_strictly ⟨rfl, fun _ _ h => by cases h⟩ (by decide +kernel)
  have failed : Site.Step {} {} 2 strictSite failedOnceSite := Site.step_strictly trivial (by decide +kernel)
  have visited : Site.Visited {} {} 2 (.ofMillis 0) failedOnceSite :=
    Site.Reached.visited (.tail (.tail .refl created) failed)
  have stored : failedOnceSite.world.jobs.get? strictJob.id = some strictJob := by decide +kernel
  have payload : payloadJob strictFire = .ok strictJob := by decide +kernel
  have once : (failedOnceSite.world.store.rows.executionsOf strictJob.id).map (·.status) = [.jobError] := by
    decide +kernel
  have silent : failedOnceSite.world.journal.alerts = [] := by decide +kernel
  obtain ⟨new, w', on, broke, cleared⟩ := (failing_jobs_are_disabled visited .obliging strictFire (.ofMillis 300000)).1
    strictJob strictJob (by decide) payload stored
  obtain ⟨x, -, status, -, newest⟩ := broke.recorded
  obtain ⟨y, ys, history, status', rest⟩ := List.map_eq_cons_iff.mp once
  obtain rfl := List.map_eq_nil_iff.mp rest
  have off : new.isEnabled = false := by
    refine broke.disabled.mpr (.inr ?_)
    rw [newest, history]
    refine ⟨Nat.le_refl 2, ?_⟩
    simp [status, status']
  refine ⟨stored, rfl, new, w', on, broke.stored, off, ?_, cleared off⟩
  rw [broke.alerts, silent, if_pos ⟨rfl, off⟩]
  rfl

end

end Timetable
