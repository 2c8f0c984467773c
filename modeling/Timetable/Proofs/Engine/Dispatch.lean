import Timetable.Proofs.Engine.Operations
import Timetable.Proofs.Instant.Order

/-!
# Dispatches keep the store and the queue in step

Running the functions of a job takes time and touches neither the store nor the queue. What is recorded of a
dispatch touches them only where a failing job is disabled, which is an update like any other, and where the job is
gone: then the queue has no record of it, and what it still holds for the job may go as well.
-/

namespace Timetable

open World LocalQueue

/-- Whether the calendar ended. -/
def DispatchError.isOutOfRange : DispatchError → Bool
  | noJob _ => false
  | engine e => e.isOutOfRange

namespace Engine

/-- The jobs, the queue and the clock are as before, but time may have passed. -/
structure Beside (w w' : Memory) : Prop where
  now : w.now ≤ w'.now
  queue : w'.queue = w.queue
  jobs : w'.jobs = w.jobs

theorem Beside.later {w w' : Memory} (h : Beside w w') (inStep : w.InStep) :
    Later (fun _ => False) w w' := by
  refine .of_jobs_eq ?_ h.jobs
  show Timetable.InStep w'.now w'.queue w'.jobs
  rw [h.queue, h.jobs]
  exact InStep.mono inStep h.now

theorem Beside.refl (w : Memory) : Beside w w := ⟨le_rfl, rfl, rfl⟩

theorem Beside.trans {w w₁ w' : Memory} (h : Beside w w₁) (h' : Beside w₁ w') : Beside w w' :=
  ⟨le_trans h.now h'.now, h'.queue.trans h.queue, h'.jobs.trans h.jobs⟩

variable {g : Engine LocalQueue (StoreState LocalStore) (Transaction LocalStore)}
  {rules : ClaimRules} {w : Memory} {e : StoredEntry}

/-! ## Running -/

theorem present_ends (hs : g.store = LocalStore.jobStore noStoreFaults) :
    (g.present e).Ends w
      (fun job? w' => Beside w w' ∧
        (job? = none → ∃ queued, payloadJob e = .ok queued ∧ w'.jobs.get? queued.id = none))
      fun _ w' => Beside w w' := by
  have same : Beside w w.sentOne := ⟨le_rfl, rfl, rfl⟩
  simp only [present, Act.ends_bind, Act.ends_ofExcept, engaging, storing, hs, Act.ends_mapError]
  refine ⟨fun queued hq => ?_, fun _ _ => ⟨le_rfl, rfl, rfl⟩⟩
  rw [Act.ends_of_on_ok (onStore_findJobById_on _ _)]
  cases hj : w.jobs.get? queued.id with
  | none => exact Act.ends_pure.mpr ⟨same, fun _ => ⟨queued, hq, hj⟩⟩
  | some job =>
    simp only [Act.ends_bind, Act.ends_mapError, Act.ends_ofExcept, Act.ends_pure, reduceCtorEq,
      false_imp_iff, and_true]
    exact ⟨fun _ _ => same, fun _ _ => same⟩

theorem Beside.foldl {marks : List (Nat × (Memory → Memory))}
    (h : ∀ m ∈ marks, ∀ w, Beside w (m.2 w)) (w : Memory) :
    Beside w (marks.foldl (fun w m => m.2 w) w) := by
  induction marks generalizing w with
  | nil => exact .refl w
  | cons m marks ih =>
    have rest := ih (fun m' hm' => h m' (List.mem_cons_of_mem _ hm')) (m.2 w)
    exact (h m List.mem_cons_self w).trans rest

theorem running_play_ends (job : Job) :
    (g.running job).play.Ends w (fun outcome w' => Beside w w' ∧ outcome ≠ .jobGone)
      fun _ _ => False := by
  have told : ∀ m ∈ (g.running job).marks, ∀ w, Beside w (m.2 w) := by
    intro m hm w
    obtain ⟨c, _, rfl⟩ := List.mem_map.mp hm
    exact ⟨le_rfl, rfl, rfl⟩
  have passed (w : Memory) (ms : Nat) : Beside w (w.pass ms) :=
    ⟨Instant.le_plusMillis _ _, rfl, rfl⟩
  refine ⟨fun outcome ran => ⟨(Beside.foldl told w).trans (passed _ _), ?_⟩, fun _ failed => ?_⟩
  · cases ran
    simp
  · cases failed

theorem process_ends (hs : g.store = LocalStore.jobStore noStoreFaults) :
    (g.process e).Ends w
      (fun outcome w' => Beside w w' ∧ (outcome = .jobGone →
        ∃ queued, payloadJob e = .ok queued ∧ w'.jobs.get? queued.id = none))
      fun _ w' => Beside w w' := by
  refine Act.ends_bind.mpr ((present_ends hs).mono ?_ fun _ _ h => h)
  rintro (_ | job) w₁ ⟨same, gone⟩
  · exact Act.ends_pure.mpr ⟨same, fun _ => gone rfl⟩
  · refine (running_play_ends job).mono ?_ fun _ _ => False.elim
    rintro outcome w' ⟨same', ran⟩
    exact ⟨same.trans same', fun h => absurd h ran⟩

/-! ## Recording -/

theorem record_ends (hs : g.store = LocalStore.jobStore noStoreFaults) (new : NewExecution) :
    (g.record new).Ends w (fun _ w' => Beside w w') fun _ _ => False := by
  simp only [record, Act.ends_bind, ends_time, engaging, storing, hs, Act.ends_mapError]
  obtain ⟨saved, store, on, jobs⟩ := onStore_createExecution_on w.now new w
  rw [Act.ends_of_on_ok on]
  have same : Beside w (w.putStore store) := ⟨le_rfl, rfl, jobs⟩
  cases saved with
  | none => exact Act.ends_pure.mpr same
  | some saved =>
    simp only [Act.ends_bind, Act.ends_modify, Act.ends_pure]
    exact ⟨same.now, same.queue, same.jobs⟩

/-- A dispatch is recorded; one that found its job gone must not outlive a new job of that name. -/
theorem completed_ends (hg : g.queue = workQueue rules)
    (hs : g.store = LocalStore.jobStore noStoreFaults) (h : w.InStep) {outcome : DispatchOutcome}
    (gone : outcome = .jobGone →
      ∃ queued, payloadJob e = .ok queued ∧ w.jobs.get? queued.id = none) (finishedOn : Instant) :
    (g.completed e outcome finishedOn).Ends w (fun _ w' => Later (fun _ => False) w w')
      fun _ _ => False := by
  cases outcome with
  | completed job results =>
    refine Act.ends_discard.mpr ((record_ends hs _).mono ?_ fun _ _ => False.elim)
    exact fun _ w' same => same.later h
  | jobGone =>
    obtain ⟨queued, hq, absent⟩ := gone rfl
    simp only [completed, Act.ends_bind, Act.ends_ofExcept, hq, Except.ok.injEq, forall_eq',
      reduceCtorEq, false_imp_iff, implies_true, and_true, Act.ends_discard, engaging, queueing,
      Act.ends_mapError]
    refine (dequeue_gone_ends hg h absent).mono ?_ fun _ _ => False.elim
    rintro _ w' ⟨inStep, jobs⟩
    exact .of_jobs_eq inStep jobs

theorem disable_ends (hg : g.queue = workQueue rules)
    (hs : g.store = LocalStore.jobStore noStoreFaults) (h : w.InStep) (job : Job) :
    (g.disable job).Ends w (fun _ w' => Later (fun _ => False) w w')
      fun e w' => e.isOutOfRange = true ∨ Later (fun _ => False) w w' := by
  simp only [disable, Act.ends_bind, Act.ends_discard, Act.ends_modify]
  refine (updateJob_ends hg hs h _).mono (fun _ w' later => ?_) fun _ _ e => e
  exact ⟨later.inStep, later.absent⟩

theorem disableIfFailing_ends (hg : g.queue = workQueue rules)
    (hs : g.store = LocalStore.jobStore noStoreFaults) (h : w.InStep) (id : Identifier) :
    (g.disableIfFailing id).Ends w (fun _ w' => Later (fun _ => False) w w')
      fun e w' => e.isOutOfRange = true ∨ Later (fun _ => False) w w' := by
  have same : Later (fun _ => False) w w := .of_jobs_eq h rfl
  have sent : Later (fun _ => False) w w.sentOne := .of_jobs_eq h rfl
  have twice : Later (fun _ => False) w w.sentOne.sentOne := .of_jobs_eq h rfl
  unfold disableIfFailing
  split
  · exact Act.ends_pure.mpr same
  simp only [Act.ends_bind, storing, hs, Act.ends_mapError]
  rw [Act.ends_of_on_ok (onStore_recentExecutions_on _ _ _)]
  split
  · exact Act.ends_pure.mpr sent
  rw [Act.ends_bind, Act.ends_mapError, Act.ends_of_on_ok (onStore_findJobById_on _ _)]
  cases w.sentOne.jobs.get? id with
  | none => exact Act.ends_pure.mpr twice
  | some job =>
    cases he : job.isEnabled with
    | false => simpa [he] using twice
    | true =>
      simp only [he, if_true]
      refine (disable_ends hg hs twice.inStep job).mono (fun _ w' next => twice.trans next) ?_
      exact fun _ w' => Or.imp_right twice.trans

/-- A dispatch that was broken off is recorded, and a job that keeps failing is disabled. -/
theorem failed_ends (hg : g.queue = workQueue rules)
    (hs : g.store = LocalStore.jobStore noStoreFaults) (h : w.InStep) (finishedOn : Instant) :
    (g.failed e finishedOn).Ends w (fun _ w' => Later (fun _ => False) w w')
      fun e w' => e.isOutOfRange = true ∨ Later (fun _ => False) w w' := by
  simp only [failed, Act.ends_bind, Act.ends_ofExcept]
  refine ⟨fun job _ => ?_, fun _ _ => .inr (.of_jobs_eq h rfl)⟩
  refine (record_ends hs _).mono (fun saved w₁ same => ?_) fun _ _ => False.elim
  have later := same.later h
  cases saved with
  | false => exact Act.ends_pure.mpr later
  | true =>
    refine Act.ends_mapError.mpr ((disableIfFailing_ends hg hs later.inStep job.id).mono ?_ ?_)
    · exact fun _ w' next => later.trans next
    · exact fun _ w' => Or.imp_right later.trans

end Engine

end Timetable
