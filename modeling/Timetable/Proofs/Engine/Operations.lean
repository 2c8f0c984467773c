import Timetable.Engine.Dispatch
import Timetable.Engine.Reconciliation
import Timetable.Proofs.Engine.InStep
import Timetable.Proofs.Engine.Requests

/-!
# The engine's operations keep the store and the queue in step

Every operation ends `Later`: in step, and with no jobs but those that were there and the one that was created.
Only an operation that the end of the calendar breaks off is left out.
-/

namespace Timetable.Engine

open World LocalQueue

/-- A world in step, without jobs that were not there before, some new ones aside. -/
structure Later (new : Identifier → Prop) (w w' : Memory) : Prop where
  inStep : w'.InStep
  absent : ∀ {id}, ¬ new id → w.jobs.get? id = none → w'.jobs.get? id = none

theorem Later.of_jobs_eq {new : Identifier → Prop} {w w' : Memory} (h : w'.InStep)
    (hj : w'.jobs = w.jobs) : Later new w w' :=
  ⟨h, fun _ absent => hj ▸ absent⟩

theorem Later.trans {w w₁ w' : Memory} (h : Later (fun _ => False) w w₁)
    (h' : Later (fun _ => False) w₁ w') : Later (fun _ => False) w w' :=
  ⟨h'.inStep, fun _ absent => h'.absent id (h.absent id absent)⟩

section

variable {g : Engine LocalQueue (StoreState LocalStore) (Transaction LocalStore)}
  {rules : ClaimRules} {w w' : Memory} {environment : String} {id : Identifier}

/-! ## Jobs -/

theorem createJob_ends (hg : g.queue = workQueue rules)
    (hs : g.store = LocalStore.jobStore noStoreFaults) (h : w.InStep)
    (fresh : w.jobs.get? (.generated (w.store.issued + 1)) = none) (r : CreateJobRequest) :
    (g.createJob environment r).Ends w
      (fun _ w' => Later (· = .generated (w.store.issued + 1)) w w')
      fun e w' => e.isOutOfRange = true ∨ w' = w := by
  simp only [createJob, Act.ends_bind, ends_time, Act.ends_ofExcept, hs, storing, queueing,
    attempting, Act.ends_mapError]
  refine ⟨fun new hnew => ?_, fun e _ => .inr trivial⟩
  rw [Act.ends_of_on_ok (onStore_createJob_on _ _ _)]
  have accepted : (new.store (.generated (w.store.issued + 1)) w.now).schedule.Accepted :=
    accepted_of_newJob hnew
  have absent {id : Identifier} (ne : ¬ id = .generated (w.store.issued + 1))
      (hn : w.jobs.get? id = none) : (w.jobs.set (.generated (w.store.issued + 1))
        (new.store (.generated (w.store.issued + 1)) w.now)).get? id = none := by
    rw [Table.get?_set, if_neg (Ne.symm ne)]
    exact hn
  cases he : (new.store (.generated (w.store.issued + 1)) w.now).isEnabled with
  | false =>
    simp only [Bool.false_eq_true, if_false, Act.ends_pure]
    refine ⟨InStep.add h fresh accepted h.sound fun key spec => ?_, absent⟩
    simp only [Job.wants_eq_some_iff, he, Bool.false_eq_true, false_and, and_false, false_or]
    rfl
  | true =>
    simp only [if_true, Act.ends_bind, Act.ends_discard, Act.ends_attemptUnless,
      Act.ends_mapError, Act.ends_pure]
    have enqueued := enqueue_ends (w := w.stored w.now new) hg h.sound accepted
    refine enqueued.mono (fun _ w' moved => ?_) ?_
    · have now : w'.now = w.now := moved.now
      have jobs : w'.jobs = w.jobs.set _ _ := moved.jobs
      refine ⟨?_, jobs ▸ absent⟩
      show Timetable.InStep w'.now w'.queue w'.jobs
      rw [now, jobs]
      refine InStep.add h fresh accepted (now ▸ moved.sound) fun key spec => ?_
      rw [moved.has, Job.wants_eq_some_iff, he, eq_self, true_and]
      rfl
    · rintro _ w' rfl
      simp [EngineError.isOutOfRange]

theorem getJob_ends (hs : g.store = LocalStore.jobStore noStoreFaults) :
    (g.getJob environment id).Ends w (fun job w' => w' = w.sentOne ∧ w.jobs.get? id = some job)
      fun _ w' => w' = w.sentOne := by
  simp only [getJob, Act.ends_bind, hs, storing, Act.ends_mapError]
  rw [Act.ends_of_on_ok (onStore_findJob_on _ _ _)]
  cases hj : w.store.rows.jobIn? environment id with
  | none => exact Act.ends_throw.mpr rfl
  | some job =>
    rw [LocalStore.jobIn?, Option.filter_eq_some_iff] at hj
    exact Act.ends_pure.mpr ⟨rfl, hj.1⟩

theorem updateJob_ends (hg : g.queue = workQueue rules)
    (hs : g.store = LocalStore.jobStore noStoreFaults) (h : w.InStep) (r : UpdateJobRequest) :
    (g.updateJob environment id r).Ends w (fun _ w' => Later (fun _ => False) w w')
      fun e w' => e.isOutOfRange = true ∨ Later (fun _ => False) w w' := by
  have same : Later (fun _ => False) w w.sentOne := .of_jobs_eq h rfl
  simp only [updateJob, Act.ends_bind]
  refine (getJob_ends hs).mono (fun old w' hold => ?_) fun e w' he => .inr (he ▸ same)
  obtain ⟨rfl, hold⟩ := hold
  rw [ends_time]
  refine Act.ends_ofExcept.mpr ⟨fun changes hc => ?_, fun e _ => .inr same⟩
  have own : old.id = id := h.ownId hold
  refine (applyUpdate_ends (w := w.sentOne) hg hs h (own ▸ hold) fun s hs' =>
    accepted_of_changes hc hs').mono ?_ fun e w' he => .inl he
  rintro job w' ⟨inStep, jobs⟩
  refine ⟨inStep, fun {id'} _ hn => ?_⟩
  rw [jobs, Table.get?_set, if_neg]
  · exact hn
  · rintro rfl
    rw [own, hold] at hn
    cases hn

theorem deleteJob_ends (hg : g.queue = workQueue rules)
    (hs : g.store = LocalStore.jobStore noStoreFaults) (h : w.InStep) :
    (g.deleteJob environment id).Ends w (fun _ w' => Later (fun _ => False) w w')
      fun _ w' => Later (fun _ => False) w w' := by
  have same : Later (fun _ => False) w w.sentOne := .of_jobs_eq h rfl
  simp only [deleteJob, Act.ends_bind]
  refine (getJob_ends hs).mono (fun old w' hold => ?_) fun e w' he => he ▸ same
  obtain ⟨rfl, hold⟩ := hold
  have own : old.id = id := h.ownId hold
  refine (applyDelete_ends (w := w.sentOne) hg hs h (own ▸ hold)).mono ?_ fun _ _ => False.elim
  rintro _ w' ⟨inStep, jobs⟩
  refine ⟨inStep, fun {id'} _ hn => ?_⟩
  rw [jobs, Table.get?_erase]
  split
  · rfl
  · exact hn

/-! ## Reconciliation -/

/-- A job that is put in again has its record already, so the records stay as they are. -/
theorem enqueue_again_ends {job : Job} (hg : g.queue = workQueue rules) (h : w.InStep)
    (hs : w.jobs.get? job.id = some job) (he : job.isEnabled = true) :
    (g.enqueue job).Ends w (fun _ w' => w'.InStep ∧ w'.jobs = w.jobs) fun e _ => e = .outOfRange := by
  refine (enqueue_ends hg h.sound (h.accepted hs)).mono (fun _ w' moved => ⟨?_, moved.jobs⟩) fun _ _ e => e
  have sound : Sound w.now w'.queue := moved.now ▸ moved.sound
  show Timetable.InStep w'.now w'.queue w'.jobs
  rw [moved.now, moved.jobs]
  refine InStep.withQueue h sound fun key spec => (moved.has key spec).trans ?_
  refine or_iff_right_of_imp ?_
  rintro ⟨rfl, hspec⟩
  exact h.records.mpr ⟨_, job, hs, rfl, Job.wants_eq_some_iff.mpr ⟨he, hspec⟩⟩

theorem restoreJobs_ends (hg : g.queue = workQueue rules) {jobs : List Job} (h : w.InStep)
    (hj : ∀ job ∈ jobs, w.jobs.get? job.id = some job ∧ job.isEnabled = true) (s : Survey)
    (now : Instant) :
    (g.restoreJobs s now jobs).Ends w (fun _ w' => w'.InStep ∧ w'.jobs = w.jobs)
      fun e _ => e.isOutOfRange = true := by
  induction jobs generalizing w with
  | nil => exact Act.ends_pure.mpr ⟨h, rfl⟩
  | cons job jobs ih =>
    obtain ⟨hs, he⟩ := hj job List.mem_cons_self
    have rest {w' : Memory} (h' : w'.InStep) (same : w'.jobs = w.jobs) :
        (g.restoreJobs s now jobs).Ends w' (fun _ w' => w'.InStep ∧ w'.jobs = w.jobs)
          fun e _ => e.isOutOfRange = true := by
      refine (ih h' fun job' hjob' => same ▸ hj job' (List.mem_cons_of_mem _ hjob')).mono ?_
        fun _ _ e => e
      rintro _ w'' ⟨inStep, same'⟩
      exact ⟨inStep, same'.trans same⟩
    simp only [restoreJobs, restoreJob, Act.ends_bind, Act.ends_pure]
    cases s.lacks? now job with
    | none => exact Act.ends_pure.mpr (rest h rfl)
    | some kind =>
      simp only [Act.ends_bind, attempting, queueing, Act.ends_attemptUnless, Act.ends_mapError,
        Act.ends_pure]
      refine (enqueue_again_ends hg h hs he).mono (fun _ w' again => rest again.1 again.2) ?_
      rintro _ w' rfl
      simp [EngineError.isOutOfRange]

theorem reconcile_ends (hg : g.queue = workQueue rules)
    (hs : g.store = LocalStore.jobStore noStoreFaults) (h : w.InStep) :
    g.reconcile.Ends w (fun _ w' => Later (fun _ => False) w w') fun e _ => e.isOutOfRange = true := by
  have recovered : (w.putQueue (w.queue.recover w.now)).InStep :=
    InStep.withQueue h h.sound.recover fun key spec => has_of_repeats_eq rfl
  have enabled : ∀ job ∈ w.store.rows.enabledJobs,
      w.jobs.get? job.id = some job ∧ job.isEnabled = true := by
    intro job hjob
    simp only [LocalStore.enabledJobs, List.mem_filter, Table.mem_values_iff] at hjob
    obtain ⟨⟨id, hj⟩, he⟩ := hjob
    exact ⟨h.ownId hj ▸ hj, he⟩
  simp only [reconcile, survey, Act.ends_bind, ends_time, hg, hs, queueing, storing,
    Act.ends_mapError, Act.ends_pure, Act.ends_modify]
  refine ends_onQueue.mpr ((Act.ends_of_on_ok (recoverStalled_on _ _)).mpr ?_)
  rw [Act.ends_of_on_ok (onStore_listEnabledJobs_on _)]
  refine ends_onQueue.mpr ((Act.ends_of_on_ok (listEntries_on _ _ _)).mpr ?_)
  refine ends_onQueue.mpr ((Act.ends_of_on_ok (listRepeating_on _)).mpr ?_)
  have restored := restoreJobs_ends (w := (w.putQueue (w.queue.recover w.now)).sentOne) hg
    recovered enabled
  refine (restored _ _).mono ?_ fun _ _ e => e
  rintro _ w' ⟨inStep, jobs⟩
  exact .of_jobs_eq inStep jobs

end

end Timetable.Engine
