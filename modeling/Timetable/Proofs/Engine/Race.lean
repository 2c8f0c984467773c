import Mathlib.Logic.Function.Basic
import Timetable.Proofs.Engine.Passes

/-!
# Changes of one job at the same time

An update of a job reads the job, checks what is asked for, and then changes the store and the queue; a deletion reads
the job and then takes it out of both. Several of these may be under way at once, with any steps of the others and any
time between two steps of one (`Race.Step`). One that is alone takes the steps of the whole operation
(`Stage.next_update`, `Stage.next_delete`).

What is taken out of the queue and what is put in is planned for the job as it was read, and the record that is taken
out is that of its schedule then. `Pending.Suits` says when this plan is right for the job as it is stored by now; it
is for a job with the status and the schedule that were read (`Pending.suits_of_unchanged`).

1. Any number of changes leaves the store and the queue in step if each of them suits the job that it finds stored
   (`Race.inStep_of_reach`).
2. Two changes leave the records of the job's key as its row asks just when they do (`Race.agrees_iff_suited`).
3. They need not: the record of a job that was deleted may stay, and a job that was moved twice may keep the record of
   the first move (`Race.stale_changes_leave_records`).
-/

namespace Timetable

open World LocalQueue

/-! ## One change, step by step -/

/-- What is asked of a job. -/
inductive Mutation where
  | update (environment : String) (request : UpdateJobRequest)
  | delete (environment : String)
deriving DecidableEq

def Mutation.environment : Mutation → String
  | update environment _ | delete environment => environment

/-- A change that was checked, of the job as it was read. -/
inductive Pending where
  | update (old : Job) (changes : JobChanges)
  | delete (old : Job)
deriving DecidableEq

namespace Pending

def old : Pending → Job
  | update old _ | delete old => old

/-- What is done to the queue. -/
def plan : Pending → ChangePlan
  | update old changes => .between old (changes.applyTo old)
  | delete _ => ⟨true, false⟩

/-- What becomes of the job that is stored. -/
def result (now : Instant) (job : Job) : Pending → Option Job
  | update _ changes => some (changes.applyAt now job)
  | delete _ => none

def apply {σ ρ τ : Type} (g : Engine σ ρ τ) : Pending → Act EngineError (World σ ρ) Unit
  | update old changes => discard (g.applyUpdate old changes)
  | delete old => g.applyDelete old

end Pending

/-- How far a change is. -/
inductive Stage where
  | asked (m : Mutation)
  | read (m : Mutation) (old : Job)
  | ready (p : Pending)
  | ended
deriving DecidableEq

namespace Stage

variable {σ ρ τ : Type}

/-- The next step of a change. -/
def next (g : Engine σ ρ τ) (id : Identifier) : Stage → Act EngineError (World σ ρ) Stage
  | asked m => do return read m (← g.getJob m.environment id)
  | read (.update _ request) old => do
    return ready (.update old (← .ofExcept (g.changes request (← time))))
  | read (.delete _) old => return ready (.delete old)
  | ready p => do
    p.apply g
    return ended
  | ended => return ended

/-- An update that is alone takes these steps. -/
theorem next_update (g : Engine σ ρ τ) (id : Identifier) (environment : String) (r : UpdateJobRequest) :
    ((asked (.update environment r)).next g id >>= fun s => s.next g id >>= fun s => s.next g id) =
      (do discard (g.updateJob environment id r); return ended) := by
  have discarded {α : Type} (x : Act EngineError (World σ ρ) α) : discard x = (fun _ => ()) <$> x := rfl
  simp [next, Engine.updateJob, Mutation.environment, Pending.apply, discarded]

theorem next_delete (g : Engine σ ρ τ) (id : Identifier) (environment : String) :
    ((asked (.delete environment)).next g id >>= fun s => s.next g id >>= fun s => s.next g id) =
      (do g.deleteJob environment id; return ended) := by
  simp [next, Engine.deleteJob, Mutation.environment, Pending.apply]

end Stage

/-! ## What a change leaves of the records of a job -/

namespace Pending

/-- Whether a record of the job's key is there after the change if the job's own was there before. -/
def Leaves (p : Pending) (now : Instant) (job : Job) (spec : RepeatSpec) : Prop :=
  (p.plan.addNew = true ∧ (p.result now job).bind (·.schedule.spec?) = some spec) ∨
    (job.wants = some spec ∧ ¬ (p.plan.removeOld = true ∧ p.old.schedule.spec? = some spec))

/-- The plan of a change is right for the job that is stored. -/
structure Suits (p : Pending) (now : Instant) (job : Job) : Prop where
  /-- A record that is not wanted any more is the one that is taken out. -/
  removes : ∀ spec, job.wants = some spec → (p.result now job).bind Job.wants ≠ some spec →
    p.plan.removeOld = true ∧ p.old.schedule.spec? = some spec
  /-- One that is wanted is put in, or it is there and not taken out. -/
  provides : ∀ spec, (p.result now job).bind Job.wants = some spec →
    p.plan.addNew = true ∨
      job.wants = some spec ∧ ¬ (p.plan.removeOld = true ∧ p.old.schedule.spec? = some spec)
  /-- None is put in that is not wanted. -/
  adds : ∀ spec, p.plan.addNew = true → (p.result now job).bind (·.schedule.spec?) = some spec →
    (p.result now job).bind Job.wants = some spec

variable {p : Pending} {now : Instant} {job : Job}

/-- A plan is right just when it leaves what the job asks for afterwards. -/
theorem suits_iff : p.Suits now job ↔
    ∀ spec, p.Leaves now job spec ↔ (p.result now job).bind Job.wants = some spec := by
  have asked {spec : RepeatSpec} (h : (p.result now job).bind Job.wants = some spec) :
      (p.result now job).bind (·.schedule.spec?) = some spec := by
    obtain ⟨new, hr, hw⟩ := Option.bind_eq_some_iff.mp h
    exact Option.bind_eq_some_iff.mpr ⟨new, hr, (Job.wants_eq_some_iff.mp hw).2⟩
  constructor
  · intro h spec
    constructor
    · rintro (⟨added, spec?⟩ | ⟨own, kept⟩)
      · exact h.adds spec added spec?
      · by_contra unwanted
        exact kept (h.removes spec own unwanted)
    · intro wanted
      rcases h.provides spec wanted with added | kept
      · exact .inl ⟨added, asked wanted⟩
      · exact .inr kept
  · intro h
    refine ⟨fun spec own unwanted => ?_, fun spec wanted => ?_, fun spec added spec? => ?_⟩
    · by_contra kept
      exact unwanted ((h spec).mp (.inr ⟨own, kept⟩))
    · rcases (h spec).mpr wanted with ⟨added, _⟩ | kept
      · exact .inl added
      · exact .inr kept
    · exact (h spec).mp (.inl ⟨added, spec?⟩)

/-- A plan is right for a job with the status and the schedule that were read. -/
theorem suits_of_unchanged (status : p.old.status = job.status) (schedule : p.old.schedule = job.schedule) :
    p.Suits now job := by
  have enabled : p.old.isEnabled = job.isEnabled := by simp only [Job.isEnabled, status]
  refine suits_iff.mpr fun spec => ?_
  cases p with
  | delete old =>
    simp only [Leaves, plan, result, Pending.old] at *
    simp [Job.wants_eq_some_iff, schedule]
  | update old changes =>
    simp only [Leaves, plan, result, Pending.old] at *
    have planned : (changes.applyTo old).isEnabled = (changes.applyAt now job).isEnabled := by
      simp only [Job.isEnabled, JobChanges.applyAt, JobChanges.applyTo, status]
    have moved : (changes.applyTo old).schedule = (changes.applyAt now job).schedule := by
      simp only [JobChanges.applyAt, JobChanges.applyTo, schedule]
    simp only [ChangePlan.between, enabled, planned, moved, schedule, Option.bind_some, Job.wants_eq_some_iff]
    cases job.isEnabled <;> cases (changes.applyAt now job).isEnabled
    · simp
    · simp
    · simp
    · by_cases same : job.schedule = (changes.applyAt now job).schedule
      · simp [same]
      · simp [same]

end Pending

namespace Engine

variable {g : Engine LocalQueue (StoreState LocalStore) (Transaction LocalStore)} {rules : ClaimRules}
  {w w' : Memory} {old new job : Job} {p : Pending} {id : Identifier}

/-- A change took its effect on a stored job and on the records of its key. -/
structure Applied (p : Pending) (id : Identifier) (job : Job) (w w' : Memory) : Prop where
  now : w'.now = w.now
  sound : Sound w'.now w'.queue
  jobs : ∀ id', w'.jobs.get? id' = if id = id' then p.result w.now job else w.jobs.get? id'
  has : ∀ key spec, w'.queue.Has key spec ↔
    if id.text = key then p.Leaves w.now job spec else w.queue.Has key spec

theorem applyUpdate_applied (hg : g.queue = workQueue rules) (hs : g.store = LocalStore.jobStore noStoreFaults)
    (h : w.InStep) {changes : JobChanges} (was : old.schedule.Accepted)
    (ha : ∀ s, changes.schedule = some s → s.Accepted) (stored : w.jobs.get? old.id = some job) :
    (g.applyUpdate old changes).Ends w (fun _ w' => Applied (.update old changes) old.id job w w')
      fun e _ => e.isOutOfRange = true := by
  have own : job.id = old.id := h.ownId stored
  have accepted : (changes.applyAt w.now job).schedule.Accepted := by
    show (changes.schedule.getD job.schedule).Accepted
    cases hc : changes.schedule with
    | none => exact h.accepted stored
    | some s => exact ha s hc
  simp only [applyUpdate, Act.ends_bind, ends_time, hs, storing, queueing, attempting, Act.ends_mapError,
    Act.ends_attemptUnless]
  rw [Act.ends_of_on_ok (onStore_openTransaction_on _ _), Act.ends_of_on_ok (inTransaction_updateJob_on stored _)]
  have moves := move_as_planned (w := w.sentOne.sentOne) hg h.sound
    (.between old (changes.applyTo old)) was accepted
  refine moves.mono (fun _ w' moved => ?_) fun e _ he => ?_
  · rw [Act.ends_of_on_ok (onStore_commit_on _ _), Act.ends_pure]
    refine ⟨moved.now, moved.sound, (w.jobs.get?_set _ · _), fun key spec => (moved.has key spec).trans ?_⟩
    have before : w.queue.Has old.id.text spec ↔ job.wants = some spec := by
      rw [h.has_key, stored, Option.bind_some]
    have newKey : (changes.applyAt w.now job).queueKey = old.id.text := congrArg Identifier.text own
    rw [newKey]
    split
    · next hk =>
      subst hk
      simp only [Job.queueKey, true_and, Pending.Leaves, Pending.plan, Pending.result, Pending.old, Option.bind_some]
      exact or_congr Iff.rfl (and_congr before Iff.rfl)
    · next hk =>
      simp only [hk, Job.queueKey, false_and, and_false, false_or, not_false_eq_true, and_true]
      rfl
  · subst he
    simp [EngineError.isOutOfRange]

theorem applyDelete_applied (hg : g.queue = workQueue rules) (hs : g.store = LocalStore.jobStore noStoreFaults)
    (h : w.InStep) (was : old.schedule.Accepted) (stored : w.jobs.get? old.id = some job) :
    (g.applyDelete old).Ends w (fun _ w' => Applied (.delete old) old.id job w w') fun _ _ => False := by
  have contained : w.store.rows.jobs.contains old.id = true := Table.contains_iff.mpr ⟨job, stored⟩
  simp only [applyDelete, Act.ends_bind, ends_time, hs, storing, queueing, attempting, Act.ends_mapError,
    Act.ends_attemptUnless, Act.ends_discard]
  rw [Act.ends_of_on_ok (onStore_openTransaction_on _ _), Act.ends_of_on_ok (inTransaction_deleteJob_on contained _)]
  have taken := dequeue_ends (w := w.sentOne.sentOne) hg h.sound was
  refine taken.mono (fun _ w' moved => ?_) fun _ _ => False.elim
  rw [Act.ends_of_on_ok (onStore_commit_on _ _), Act.ends_pure]
  refine ⟨moved.now, moved.sound, w.jobs.get?_erase _, fun key spec => (moved.has key spec).trans ?_⟩
  have before : w.queue.Has old.id.text spec ↔ job.wants = some spec := by
    rw [h.has_key, stored, Option.bind_some]
  split
  · next hk =>
    subst hk
    simp only [Job.queueKey, true_and, Pending.Leaves, Pending.plan, Pending.result, Pending.old, Bool.false_eq_true,
      false_and, false_or]
    exact and_congr before Iff.rfl
  · next hk =>
    simp only [hk, Job.queueKey, false_and, not_false_eq_true, and_true]
    rfl

/-- A job that is gone cannot be changed. -/
theorem applyUpdate_gone (hs : g.store = LocalStore.jobStore noStoreFaults) (changes : JobChanges)
    (gone : w.jobs.get? old.id = none) :
    (g.applyUpdate old changes).Ends w (fun _ _ => False)
      fun _ w' => w'.now = w.now ∧ w'.queue = w.queue ∧ w'.jobs = w.jobs := by
  simp only [applyUpdate, Act.ends_bind, ends_time, hs, storing, Act.ends_mapError]
  rw [Act.ends_of_on_ok (onStore_openTransaction_on _ _), Act.ends_of_on_error (inTransaction_updateJob_gone gone _)]
  exact ⟨rfl, rfl, rfl⟩

/-- The deletion of a job that is gone only takes out what the queue still holds for it, and no record. -/
theorem applyDelete_gone (hg : g.queue = workQueue rules) (hs : g.store = LocalStore.jobStore noStoreFaults)
    (h : w.InStep) (gone : w.jobs.get? old.id = none) :
    (g.applyDelete old).Ends w (fun _ w' => w'.InStep ∧ w'.jobs = w.jobs) fun _ _ => False := by
  have absent : w.store.rows.jobs.contains old.id = false := by
    refine Bool.eq_false_iff.mpr fun contained => ?_
    obtain ⟨job, stored⟩ := Table.contains_iff.mp contained
    rw [show w.jobs.get? old.id = some job from stored] at gone
    cases gone
  simp only [applyDelete, Act.ends_bind, ends_time, hs, storing, queueing, attempting, Act.ends_mapError,
    Act.ends_attemptUnless, Act.ends_discard]
  rw [Act.ends_of_on_ok (onStore_openTransaction_on _ _), Act.ends_of_on_ok (inTransaction_deleteJob_gone absent _)]
  have taken := dequeue_gone_ends (w := w.sentOne.sentOne) hg h gone
  refine taken.mono ?_ fun _ _ => False.elim
  rintro _ w₁ ⟨inStep, jobs⟩
  rw [Act.ends_of_on_ok (onStore_commit_on _ _), Act.ends_pure]
  refine ⟨?_, rfl⟩
  show Timetable.InStep w₁.now w₁.queue w.jobs
  rw [← show w₁.jobs = w.jobs from jobs]
  exact inStep

/-! ## One step -/

/-- A checked change of the job of an identifier. -/
structure IsOf (p : Pending) (id : Identifier) : Prop where
  ownId : p.old.id = id
  was : p.old.schedule.Accepted
  accepted : ∀ old changes, p = .update old changes → ∀ s, changes.schedule = some s → s.Accepted

theorem apply_ends (hg : g.queue = workQueue rules) (hs : g.store = LocalStore.jobStore noStoreFaults)
    (h : w.InStep) (own : IsOf p id) :
    (p.apply g).Ends w
      (fun _ w' => (∀ job, w.jobs.get? id = some job → Applied p id job w w') ∧ (w.jobs.get? id = none → w'.InStep))
      fun e w' => e.isOutOfRange = true ∨ (w.jobs.get? id = none ∧ w'.InStep) := by
  obtain ⟨rfl, was, accepted⟩ := own
  cases stored : w.jobs.get? p.old.id with
  | none =>
    cases p with
    | update old changes =>
      refine Act.ends_discard.mpr ((applyUpdate_gone hs changes stored).mono (fun _ _ => False.elim) ?_)
      rintro e w' ⟨now, queue, jobs⟩
      refine .inr ⟨rfl, ?_⟩
      show Timetable.InStep w'.now w'.queue w'.jobs
      rw [now, queue, jobs]
      exact h
    | delete old =>
      refine (applyDelete_gone hg hs h stored).mono (fun _ w' left => ?_) fun _ _ => False.elim
      exact ⟨nofun, fun _ => left.1⟩
  | some job =>
    cases p with
    | update old changes =>
      refine Act.ends_discard.mpr ((applyUpdate_applied hg hs h was (accepted old changes rfl) stored).mono ?_ ?_)
      · rintro _ w' applied
        exact ⟨fun _ h => Option.some.inj h ▸ applied, nofun⟩
      · exact fun _ _ => .inl
    | delete old =>
      refine (applyDelete_applied hg hs h was stored).mono (fun _ w' applied => ?_) fun _ _ => False.elim
      exact ⟨fun _ h => Option.some.inj h ▸ applied, nofun⟩

/-- A change that suits the stored job keeps the store and the queue in step. -/
theorem Applied.inStep (h : w.InStep) (own : IsOf p id) (stored : w.jobs.get? id = some job)
    (suits : p.Suits w.now job) (applied : Applied p id job w w') : w'.InStep := by
  show Timetable.InStep w'.now w'.queue w'.jobs
  have sound : Sound w.now w'.queue := applied.now ▸ applied.sound
  rw [applied.now]
  refine InStep.change h (p.result w.now job) sound applied.jobs (fun new hr => ?_) fun key spec => ?_
  · cases p with
    | delete old => cases hr
    | update old changes =>
      cases hr
      have ownId : job.id = id := h.ownId stored
      refine ⟨ownId, ?_⟩
      show (changes.schedule.getD job.schedule).Accepted
      cases hc : changes.schedule with
      | none => exact h.accepted stored
      | some s => exact own.accepted old changes rfl s hc
  · rw [applied.has, Pending.suits_iff.mp suits]

end Engine

/-! ## Agreement of the queue and a row -/

/-- The records of the key of an identifier are those that its job asks for, if there is one. -/
def World.Agrees (w : Memory) (id : Identifier) : Prop :=
  (w.queue.repeats.values.filter (·.key == id.text)).map (·.spec) = ((w.jobs.get? id).bind Job.wants).toList

instance (w : Memory) (id : Identifier) : Decidable (w.Agrees id) := inferInstanceAs (Decidable (_ = _))

/-- As no record is there twice, it is enough to know which there are. -/
theorem World.agrees_iff {w : Memory} {id : Identifier} (h : Sound w.now w.queue) :
    w.Agrees id ↔ ∀ spec, w.queue.Has id.text spec ↔ (w.jobs.get? id).bind Job.wants = some spec := by
  have mem (spec : RepeatSpec) : spec ∈ (w.queue.repeats.values.filter (·.key == id.text)).map (·.spec) ↔
      w.queue.Has id.text spec := by
    simp only [List.mem_map, List.mem_filter, Table.mem_values_iff, beq_iff_eq]
    constructor
    · rintro ⟨r, ⟨⟨f, hr⟩, key⟩, own⟩
      exact ⟨f, r, hr, key, own⟩
    · rintro ⟨f, r, hr, key, own⟩
      exact ⟨r, ⟨⟨f, hr⟩, key⟩, own⟩
  have nodup : ((w.queue.repeats.values.filter (·.key == id.text)).map (·.spec)).Nodup := by
    have chains : ((w.queue.repeats.values.filter (·.key == id.text)).map fun r => (r.key, r.spec)).Nodup :=
      (List.filter_sublist.map _).nodup h.nodup_chains
    refine List.Nodup.map_on ?_ (List.Nodup.of_map _ chains)
    intro r hr r' hr' same
    refine List.inj_on_of_nodup_map chains hr hr' ?_
    simp only [List.mem_filter, beq_iff_eq] at hr hr'
    exact Prod.ext (hr.2.trans hr'.2.symm) same
  unfold World.Agrees
  constructor
  · intro same spec
    rw [← mem, same, Option.mem_toList]
  · intro same
    have perm : ((w.queue.repeats.values.filter (·.key == id.text)).map (·.spec)).Perm
        ((w.jobs.get? id).bind Job.wants).toList := by
      refine (List.perm_ext_iff_of_nodup nodup (Option.toList_nodup _)).mpr fun spec => ?_
      rw [mem, same, Option.mem_toList]
    cases wanted : (w.jobs.get? id).bind Job.wants with
    | none =>
      rw [wanted] at perm
      exact perm.eq_nil
    | some spec =>
      rw [wanted] at perm
      exact List.perm_singleton.mp perm

theorem World.InStep.agrees {w : Memory} (h : w.InStep) (id : Identifier) : w.Agrees id :=
  (World.agrees_iff h.sound).mpr (h.has_key id)

namespace Engine

variable {w w' : Memory} {job : Job} {p : Pending} {id : Identifier}

/-- A change that does not suit the stored job leaves other records than those that its row asks for. -/
theorem Applied.suits_of_agrees (applied : Applied p id job w w') (agrees : w'.Agrees id) : p.Suits w.now job := by
  refine Pending.suits_iff.mpr fun spec => ?_
  have left := applied.has id.text spec
  rw [if_pos rfl] at left
  rw [← left, (World.agrees_iff applied.sound).mp agrees, applied.jobs, if_pos rfl]

end Engine

/-! ## Steps of a change -/

namespace Stage

variable {g : Engine LocalQueue (StoreState LocalStore) (Transaction LocalStore)} {rules : ClaimRules}
  {w w' : Memory} {id : Identifier} {s : Stage}

/-- The plan of a change that comes to its last step is right by then. -/
def Suits (w : Memory) (id : Identifier) : Stage → Prop
  | ready p => ∀ job, w.jobs.get? id = some job → p.Suits w.now job
  | _ => True

/-- What a change goes by is of the job of an identifier. -/
def IsOf (id : Identifier) : Stage → Prop
  | read _ old => old.id = id ∧ old.schedule.Accepted
  | ready p => Engine.IsOf p id
  | _ => True

/-- The job is stored as it was read. -/
def Fresh (w : Memory) (id : Identifier) : Stage → Prop
  | read _ old => w.jobs.get? id = some old
  | ready p => w.jobs.get? id = some p.old
  | _ => True

theorem Fresh.congr (h : s.Fresh w id) (same : w'.jobs = w.jobs) : s.Fresh w' id := by
  cases s with
  | read | ready =>
    unfold Fresh at h ⊢
    rw [same]
    exact h
  | _ => trivial

theorem Fresh.suits (h : s.Fresh w id) : s.Suits w id := by
  cases s with
  | ready p =>
    intro job stored
    obtain rfl : p.old = job := Option.some.inj (h.symm.trans stored)
    exact Pending.suits_of_unchanged rfl rfl
  | _ => trivial

theorem exists_of_not_suits (h : ¬ s.Suits w id) :
    ∃ p job, s = ready p ∧ w.jobs.get? id = some job ∧ ¬ p.Suits w.now job := by
  cases s with
  | ready p =>
    simp only [Suits, not_forall] at h
    obtain ⟨job, stored, unsuited⟩ := h
    exact ⟨p, job, rfl, stored, unsuited⟩
  | _ => exact absurd trivial h

/-- Before its last step a change touches neither the jobs nor the queue. -/
theorem next_ends (hs : g.store = LocalStore.jobStore noStoreFaults) (h : w.InStep) (own : s.IsOf id)
    (early : ∀ p, s ≠ ready p) :
    (s.next g id).Ends w (fun s' w' => Engine.Beside w w' ∧ s'.IsOf id ∧ (s.Fresh w id → s'.Fresh w' id))
      fun _ w' => Engine.Beside w w' := by
  have sent : Engine.Beside w w.sentOne := ⟨le_rfl, rfl, rfl⟩
  cases s with
  | asked m =>
    refine Act.ends_bind.mpr ((Engine.getJob_ends hs).mono ?_ fun _ _ h => h ▸ sent)
    rintro job w' ⟨rfl, stored⟩
    exact Act.ends_pure.mpr ⟨sent, ⟨h.ownId stored, h.accepted stored⟩, fun _ => stored⟩
  | read m old =>
    obtain ⟨ownId, accepted⟩ := own
    cases m with
    | update environment r =>
      simp only [next, Act.ends_bind, ends_time, Act.ends_ofExcept, Act.ends_pure]
      refine ⟨fun changes checked => ⟨.refl w, ?_, fun fresh => fresh⟩, fun _ _ => .refl w⟩
      refine ⟨ownId, accepted, ?_⟩
      rintro _ _ ⟨⟩ s hs
      exact Engine.accepted_of_changes checked hs
    | delete environment =>
      have own : (ready (.delete old)).IsOf id := ⟨ownId, accepted, fun _ _ h => by cases h⟩
      exact Act.ends_pure.mpr ⟨.refl w, own, fun fresh => fresh⟩
  | ready p => exact absurd rfl (early p)
  | ended => exact Act.ends_pure.mpr ⟨.refl w, trivial, fun fresh => fresh⟩

/-- The last step of a change. -/
theorem last_ends {p : Pending} (hg : g.queue = workQueue rules) (hs : g.store = LocalStore.jobStore noStoreFaults)
    (h : w.InStep) (own : Engine.IsOf p id) :
    ((ready p).next g id).Ends w
      (fun s' w' => s' = ended ∧ (∀ job, w.jobs.get? id = some job → Engine.Applied p id job w w') ∧
        (w.jobs.get? id = none → w'.InStep))
      fun e w' => e.isOutOfRange = true ∨ (w.jobs.get? id = none ∧ w'.InStep) :=
  Act.ends_bind.mpr ((Engine.apply_ends hg hs h own).mono
    (fun _ _ left => Act.ends_pure.mpr ⟨rfl, left⟩) fun _ _ left => left)

end Stage

/-! ## Several changes -/

/-- A world, and how far each of some changes is. -/
structure Race (ι : Type) where
  world : Memory
  stage : ι → Stage

namespace Race

variable {ι : Type} [DecidableEq ι]

/-- Time passes, or one of the changes goes on where `may` allows it, or is refused. -/
inductive Step (rules : ClaimRules) (policy : SchedulePolicy) (threshold : Nat) (id : Identifier)
    (may : Memory → Stage → Prop) : Race ι → Race ι → Prop
  | tick {r : Race ι} {now : Instant} :
    r.world.now ≤ now → Step rules policy threshold id may r ⟨{ r.world with now }, r.stage⟩
  | go {r : Race ι} {i : ι} {stage : Stage} {world : Memory} {invoker : Invoker} :
    may r.world (r.stage i) →
    ((r.stage i).next (.inMemory rules policy threshold invoker) id).on r.world = (.ok stage, world) →
    Step rules policy threshold id may r ⟨world, Function.update r.stage i stage⟩
  | refuse {r : Race ι} {i : ι} {e : EngineError} {world : Memory} {invoker : Invoker} :
    may r.world (r.stage i) →
    ((r.stage i).next (.inMemory rules policy threshold invoker) id).on r.world = (.error e, world) →
    e.isOutOfRange = false → Step rules policy threshold id may r ⟨world, Function.update r.stage i .ended⟩

abbrev Reach (rules : ClaimRules) (policy : SchedulePolicy) (threshold : Nat) (id : Identifier)
    (may : Memory → Stage → Prop) : Race ι → Race ι → Prop :=
  Relation.ReflTransGen (Step rules policy threshold id may)

variable {rules : ClaimRules} {policy : SchedulePolicy} {threshold : Nat} {id : Identifier} {r r' s : Race ι}

/-- The store and the queue are in step, and the changes are all of one job. -/
structure Sound (id : Identifier) (r : Race ι) : Prop where
  world : r.world.InStep
  own : ∀ i, (r.stage i).IsOf id

theorem Sound.update (h : r.Sound id) {w : Memory} (inStep : w.InStep) {i : ι} {stage : Stage} (own : stage.IsOf id) :
    Sound id ⟨w, Function.update r.stage i stage⟩ := by
  refine ⟨inStep, fun j => ?_⟩
  show (Function.update r.stage i stage j).IsOf id
  by_cases same : j = i
  · rw [same, Function.update_self]
    exact own
  · rw [Function.update_of_ne same]
    exact h.own j

theorem Sound.step (h : r.Sound id)
    (step : Step rules policy threshold id (fun w s => s.Suits w id) r r') : r'.Sound id := by
  cases step with
  | tick later => exact ⟨Timetable.InStep.mono h.world later, h.own⟩
  | @go i stage world invoker suits on =>
    have own := h.own i
    by_cases last : ∃ p, r.stage i = .ready p
    · obtain ⟨p, ready⟩ := last
      rw [ready] at on own suits
      obtain ⟨rfl, changed, kept⟩ := (Act.ends_of_on_ok on).mp (Stage.last_ends rfl rfl h.world own)
      refine h.update ?_ trivial
      cases stored : r.world.jobs.get? id with
      | none => exact kept stored
      | some job => exact (changed job stored).inStep h.world own stored (suits job stored)
    · have ends := Stage.next_ends (g := .inMemory rules policy threshold invoker) rfl h.world own (not_exists.mp last)
      obtain ⟨beside, own', _⟩ := (Act.ends_of_on_ok on).mp ends
      exact h.update (beside.later h.world).inStep own'
  | @refuse i e world invoker suits on whole =>
    have own := h.own i
    by_cases last : ∃ p, r.stage i = .ready p
    · obtain ⟨p, ready⟩ := last
      rw [ready] at on own
      rcases (Act.ends_of_on_error on).mp (Stage.last_ends rfl rfl h.world own) with final | ⟨_, inStep⟩
      · rw [whole] at final
        cases final
      · exact h.update inStep trivial
    · have ends := Stage.next_ends (g := .inMemory rules policy threshold invoker) rfl h.world own (not_exists.mp last)
      exact h.update (((Act.ends_of_on_error on).mp ends).later h.world).inStep trivial

/-- Changes of one job, as many as there may be, leave the store and the queue in step if each of them suits the job
that is stored when it comes to its last step. -/
theorem inStep_of_reach (h : r.Sound id)
    (run : Reach rules policy threshold id (fun w s => s.Suits w id) r r') : r'.world.InStep := by
  have sound : r'.Sound id := by
    induction run with
    | refl => exact h
    | tail _ step ih => exact ih.step step
  exact sound.world

/-! ## Two changes -/

variable {r r' s : Race Bool}

/-- What is known of two changes as long as the queue and the row may still agree: up to here each of them suited the
job that was stored, and one of them goes by the job as it is stored while the other has not ended. -/
structure Open (rules : ClaimRules) (policy : SchedulePolicy) (threshold : Nat) (id : Identifier)
    (s r : Race Bool) : Prop where
  reach : Reach rules policy threshold id (fun w s => s.Suits w id) s r
  sound : r.Sound id
  fresh : ∀ i, r.stage (!i) ≠ .ended → (r.stage i).Fresh r.world id

/-- Both changes have ended, and the queue does not hold what the row asks for. -/
def Spoilt (id : Identifier) (r : Race Bool) : Prop := (∀ i, r.stage i = .ended) ∧ ¬ r.world.Agrees id

/-- It is all over when one of the two ends and the other has ended. -/
theorem ended_update {i : Bool} (other : r.stage (!i) = .ended) : ∀ j, Function.update r.stage i .ended j = .ended := by
  refine (Bool.forall_bool' i).mpr ⟨Function.update_self .., ?_⟩
  rw [Function.update_of_ne (Bool.not_ne_self i)]
  exact other

/-- When a change has ended, nothing need be known of the other one. -/
theorem fresh_of_ended {i : Bool} {w : Memory} : ∀ j, Function.update r.stage i .ended (!j) ≠ .ended →
    (Function.update r.stage i .ended j).Fresh w id := by
  refine (Bool.forall_bool' i).mpr ⟨fun _ => ?_, fun running => ?_⟩
  · rw [Function.update_self]
    trivial
  · rw [Bool.not_not, Function.update_self] at running
    exact absurd rfl running

/-- Whatever a change does next, each goes by the job as it is stored while the other has not ended: before its last
step it touches no job, and with its last it ends. -/
theorem fresh_of_next {i : Bool} {stage : Stage} {world : Memory} {invoker : Invoker} (sound : r.Sound id)
    (fresh : ∀ i, r.stage (!i) ≠ .ended → (r.stage i).Fresh r.world id)
    (on : ((r.stage i).next (.inMemory rules policy threshold invoker) id).on r.world = (.ok stage, world)) :
    ∀ j, Function.update r.stage i stage (!j) ≠ .ended → (Function.update r.stage i stage j).Fresh world id := by
  have own := sound.own i
  by_cases last : ∃ p, r.stage i = .ready p
  · obtain ⟨p, ready⟩ := last
    rw [ready] at on own
    obtain ⟨rfl, _⟩ := (Act.ends_of_on_ok on).mp (Stage.last_ends rfl rfl sound.world own)
    exact fresh_of_ended
  · have ends := Stage.next_ends (g := .inMemory rules policy threshold invoker) rfl sound.world own
      (not_exists.mp last)
    obtain ⟨beside, _, fresh'⟩ := (Act.ends_of_on_ok on).mp ends
    refine (Bool.forall_bool' i).mpr ⟨fun running => ?_, fun running => ?_⟩
    · show (Function.update r.stage i stage i).Fresh world id
      rw [Function.update_self]
      refine fresh' (fresh i fun settled => running ?_)
      exact (Function.update_of_ne (Bool.not_ne_self i) ..).trans settled
    · show (Function.update r.stage i stage (!i)).Fresh world id
      rw [Function.update_of_ne (Bool.not_ne_self i)]
      refine (fresh (!i) fun settled => running ?_).congr beside.jobs
      show Function.update r.stage i stage (!!i) = .ended
      rw [Bool.not_not] at settled ⊢
      rw [settled] at on
      cases on
      exact Function.update_self ..

theorem Open.step (h : Open rules policy threshold id s r)
    (step : Step rules policy threshold id (fun _ _ => True) r r') :
    Open rules policy threshold id s r' ∨ Spoilt id r' := by
  -- a change that does not suit was overtaken by the other one
  have overtaken {i : Bool} (unsuited : ¬ (r.stage i).Suits r.world id) : r.stage (!i) = .ended := by
    by_contra running
    exact unsuited (h.fresh i running).suits
  cases step with
  | @tick now later =>
    have on : Step rules policy threshold id (fun w s => s.Suits w id) r ⟨{ r.world with now }, r.stage⟩ := .tick later
    exact .inl ⟨h.reach.tail on, h.sound.step on, fun i running => (h.fresh i running).congr rfl⟩
  | @go i stage world invoker _ on =>
    have own := h.sound.own i
    by_cases suits : (r.stage i).Suits r.world id
    · have suited : Step rules policy threshold id (fun w s => s.Suits w id) r
          ⟨world, Function.update r.stage i stage⟩ := .go suits on
      exact .inl ⟨h.reach.tail suited, h.sound.step suited, fresh_of_next h.sound h.fresh on⟩
    · obtain ⟨p, job, ready, stored, unsuited⟩ := Stage.exists_of_not_suits suits
      rw [ready] at on own
      obtain ⟨rfl, changed, _⟩ := (Act.ends_of_on_ok on).mp (Stage.last_ends rfl rfl h.sound.world own)
      refine .inr ⟨ended_update (overtaken suits), fun agrees => ?_⟩
      exact unsuited ((changed job stored).suits_of_agrees agrees)
  | @refuse i e world invoker _ on whole =>
    by_cases suits : (r.stage i).Suits r.world id
    · have suited : Step rules policy threshold id (fun w s => s.Suits w id) r
          ⟨world, Function.update r.stage i .ended⟩ := .refuse suits on whole
      exact .inl ⟨h.reach.tail suited, h.sound.step suited, fresh_of_ended⟩
    · obtain ⟨p, job, ready, stored, _⟩ := Stage.exists_of_not_suits suits
      have own := h.sound.own i
      rw [ready] at on own
      rcases (Act.ends_of_on_error on).mp (Stage.last_ends rfl rfl h.sound.world own) with final | ⟨gone, _⟩
      · rw [whole] at final
        cases final
      · rw [stored] at gone
        cases gone

theorem Spoilt.step (h : Spoilt id r) (step : Step rules policy threshold id (fun _ _ => True) r r') :
    Spoilt id r' := by
  obtain ⟨settled, spoilt⟩ := h
  cases step with
  | tick => exact ⟨settled, spoilt⟩
  | @go i stage world invoker _ on =>
    rw [settled i] at on
    cases on
    exact ⟨ended_update (settled _), spoilt⟩
  | @refuse i e world invoker _ on =>
    rw [settled i] at on
    cases on

theorem open_or_spoilt (h : s.Sound id) (fresh : ∀ i, s.stage (!i) ≠ .ended → (s.stage i).Fresh s.world id)
    (run : Reach rules policy threshold id (fun _ _ => True) s r) :
    Open rules policy threshold id s r ∨ Spoilt id r := by
  induction run with
  | refl => exact .inl ⟨.refl, h, fresh⟩
  | tail _ step ih =>
    rcases ih with so_far | spoilt
    · exact so_far.step step
    · exact .inr (spoilt.step step)

/-- Two changes of one job that are asked for when the store and the queue are in step, with their steps in any order,
leave the records of the job's key as its row asks for just when each of them suits the job that is stored when it
comes to its last step. -/
theorem agrees_iff_suited {rules : ClaimRules} {policy : SchedulePolicy} {threshold : Nat} {id : Identifier} {w : Memory}
    {m : Bool → Mutation} {r : Race Bool} (h : w.InStep)
    (run : Reach rules policy threshold id (fun _ _ => True) ⟨w, fun i => .asked (m i)⟩ r) :
    r.world.Agrees id ↔
      Reach rules policy threshold id (fun w s => s.Suits w id) ⟨w, fun i => .asked (m i)⟩ r := by
  have sound : Sound id ⟨w, fun i : Bool => .asked (m i)⟩ := ⟨h, fun _ => trivial⟩
  constructor
  · intro agrees
    rcases open_or_spoilt sound (fun _ _ => trivial) run with suited | spoilt
    · exact suited.reach
    · exact absurd agrees spoilt.2
  · intro suited
    exact (inStep_of_reach sound suited).agrees id

/-! ## Races (used by the theorems below) -/

/-- Two changes are asked of the job that was created first. -/
def asked (one other : Mutation) : Race Bool := ⟨createdSite.world, fun i => .asked (if i then other else one)⟩

/-- The race after the next step of one of the changes. -/
def after (r : Race Bool) (i : Bool) : Race Bool :=
  match ((r.stage i).next Pass.obligingEngine (.generated 1)).on r.world with
  | (.ok stage, world) => ⟨world, Function.update r.stage i stage⟩
  | (.error _, _) => r

/-- Each of these steps is taken. -/
def Takes (r : Race Bool) : List Bool → Prop
  | [] => True
  | i :: steps =>
    (((r.stage i).next Pass.obligingEngine (.generated 1)).on r.world).1.isOk = true ∧ (r.after i).Takes steps

instance decidableTakes : (r : Race Bool) → (steps : List Bool) → Decidable (r.Takes steps)
  | _, [] => isTrue trivial
  | r, i :: steps => @instDecidableAnd _ _ _ (decidableTakes (r.after i) steps)

theorem reach_foldl {r : Race Bool} (steps : List Bool) (h : r.Takes steps) :
    Reach {} {} 3 (.generated 1) (fun _ _ => True) r (steps.foldl after r) := by
  induction steps generalizing r with
  | nil => exact .refl
  | cons i steps ih =>
    obtain ⟨ok, rest⟩ := h
    refine .head ?_ (ih rest)
    unfold after
    cases on : ((r.stage i).next Pass.obligingEngine (.generated 1)).on r.world with
    | mk out world =>
      rw [on] at ok
      cases out with
      | ok stage => exact .go trivial on
      | error e => cases ok

def everyMinutes (minutes : Nat) : Mutation := .update "e" { schedule := some (.interval minutes) }

/-- Both changes read the job before any of them takes effect: one gives it another name, the other disables it. -/
def renamedAndDisabled : Race Bool :=
  [false, false, true, true, false, true].foldl after
    (asked (.update "e" { name := some "b" }) (.update "e" { enabled := some false }))

theorem agrees_after_renaming :
    createdSite.world.InStep ∧ (∀ i, renamedAndDisabled.stage i = .ended) ∧
      renamedAndDisabled.world.queue.repeats.values = [] ∧
      Reach {} {} 3 (.generated 1) (fun w s => s.Suits w (.generated 1))
        (asked (.update "e" { name := some "b" }) (.update "e" { enabled := some false })) renamedAndDisabled := by
  refine ⟨Pass.inStep_createdSite, by decide +kernel, by decide +kernel, ?_⟩
  refine (agrees_iff_suited Pass.inStep_createdSite (reach_foldl [false, false, true, true, false, true] ?_)).mp ?_
  · decide +kernel
  · decide +kernel

/-- A job that is deleted as it was read before it was moved keeps the record of the move, and of a job that is moved
twice as it was read before any move both records stay. -/
theorem stale_changes_leave_records :
    createdSite.world.InStep ∧
      (∃ r, Reach {} {} 3 (.generated 1) (fun _ _ => True) (asked (everyMinutes 10) (.delete "e")) r ∧
        (∀ i, r.stage i = .ended) ∧ ¬ r.world.Agrees (.generated 1) ∧ r.world.jobs.get? (.generated 1) = none ∧
        r.world.queue.repeats.values.map (·.spec) = [.every 600000]) ∧
      (∃ r, Reach {} {} 3 (.generated 1) (fun _ _ => True) (asked (everyMinutes 10) (everyMinutes 15)) r ∧
        (∀ i, r.stage i = .ended) ∧ ¬ r.world.Agrees (.generated 1) ∧
        (r.world.jobs.get? (.generated 1)).map (·.schedule) = some (.interval 15) ∧
        r.world.queue.repeats.values.map (·.spec) = [.every 600000, .every 900000]) := by
  refine ⟨Pass.inStep_createdSite, ⟨_, reach_foldl [true, true, false, false, false, true] ?_, ?_⟩,
    ⟨_, reach_foldl [true, true, false, false, false, true] ?_, ?_⟩⟩
  · decide +kernel
  · decide +kernel
  · decide +kernel
  · decide +kernel

end Race

end Timetable
