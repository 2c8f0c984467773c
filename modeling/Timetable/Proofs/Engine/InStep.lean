import Timetable.Engine.Queueing
import Timetable.Proofs.Engine.World
import Timetable.Proofs.Identifier
import Timetable.Proofs.Queue.Records
import Timetable.Proofs.Schedule.Plan
import Timetable.Proofs.Store.Local

/-!
# The store and the queue in step

`InStep` says that the queue is sound and that its records are those that the enabled jobs ask for, one for each.
A job that is put into the queue, taken out, changed or deleted changes the records of its own key only, so it is
enough to see what that key has before and after:
* `Engine.enqueue_ends`, `Engine.dequeue_ends`, `Engine.move_as_planned`, `Engine.move_ends`: the queue's side;
* `Engine.applyUpdate_ends`, `Engine.applyDelete_ends`: both sides.
-/

namespace Timetable

open World LocalQueue

/-- What a job asks of the queue's records. -/
def Job.wants (j : Job) : Option RepeatSpec := if j.isEnabled then j.schedule.spec? else none

theorem Job.wants_eq_some_iff {job : Job} {spec : RepeatSpec} :
    job.wants = some spec ↔ job.isEnabled = true ∧ job.schedule.spec? = some spec := by
  unfold Job.wants
  split <;> simp_all

/-- The records are those that the enabled jobs ask for. -/
structure InStep (clock : Instant) (q : LocalQueue) (jobs : Table Identifier Job) : Prop where
  sound : Sound clock q
  ownId : ∀ {id job}, jobs.get? id = some job → job.id = id
  accepted : ∀ {id job}, jobs.get? id = some job → job.schedule.Accepted
  records : ∀ {key spec}, q.Has key spec ↔
    ∃ id job, jobs.get? id = some job ∧ job.queueKey = key ∧ job.wants = some spec

/-- A world whose queue and store are kept in memory. -/
abbrev Memory := World LocalQueue (StoreState LocalStore)

def World.InStep (w : Memory) : Prop := Timetable.InStep w.now w.queue w.jobs

namespace InStep

variable {clock now : Instant} {q q' : LocalQueue} {jobs jobs' : Table Identifier Job}
  {id : Identifier} {spec : RepeatSpec}

theorem mono (h : InStep clock q jobs) (hle : clock ≤ now) : InStep now q jobs :=
  { h with sound := h.sound.mono hle }

/-- The records under the key of an identifier are what its job asks for. -/
theorem has_key (h : InStep clock q jobs) (id : Identifier) (spec : RepeatSpec) :
    q.Has id.text spec ↔ (jobs.get? id).bind Job.wants = some spec := by
  rw [h.records, Option.bind_eq_some_iff]
  constructor
  · rintro ⟨id', job, hj, hk, hw⟩
    obtain rfl : id' = id := (h.ownId hj).symm.trans (Identifier.text_injective hk)
    exact ⟨job, hj, hw⟩
  · rintro ⟨job, hj, hw⟩
    exact ⟨id, job, hj, congrArg Identifier.text (h.ownId hj), hw⟩

/-- The queue may change as long as it has the same records. -/
theorem withQueue (h : InStep clock q jobs) (hs : Sound clock q')
    (same : ∀ key spec, q'.Has key spec ↔ q.Has key spec) : InStep clock q' jobs :=
  { h with sound := hs, records := (same _ _).trans h.records }

/-- One job may change as long as the records of its key follow. -/
theorem change (h : InStep clock q jobs) (job? : Option Job) (hs : Sound clock q')
    (hjobs : ∀ id', jobs'.get? id' = if id = id' then job? else jobs.get? id')
    (hjob : ∀ job, job? = some job → job.id = id ∧ job.schedule.Accepted)
    (has : ∀ key spec, q'.Has key spec ↔
      if id.text = key then job?.bind Job.wants = some spec else q.Has key spec) :
    InStep clock q' jobs' where
  sound := hs
  ownId {id' job} hj := by
    rw [hjobs] at hj
    split at hj
    · next hid => exact hid ▸ (hjob job hj).1
    · exact h.ownId hj
  accepted {id' job} hj := by
    rw [hjobs] at hj
    split at hj
    · exact (hjob job hj).2
    · exact h.accepted hj
  records {key spec} := by
    rw [has]
    split
    · next hk =>
      rw [Option.bind_eq_some_iff]
      constructor
      · rintro ⟨job, hj, hw⟩
        refine ⟨id, job, by rw [hjobs, if_pos rfl, hj], ?_, hw⟩
        rw [Job.queueKey, (hjob job hj).1, hk]
      · rintro ⟨id', job, hj, hk', hw⟩
        rw [hjobs] at hj
        split at hj
        · exact ⟨job, hj, hw⟩
        · next ne =>
          have own := h.ownId hj
          exact absurd (Identifier.text_injective (hk.trans (own ▸ hk'.symm))) ne
    · next hk =>
      rw [h.records]
      refine exists_congr fun id' => exists_congr fun job => ⟨?_, ?_⟩
      · rintro ⟨hj, hk', hw⟩
        refine ⟨?_, hk', hw⟩
        rw [hjobs, if_neg]
        · exact hj
        · rintro rfl
          exact hk (by rw [← hk', Job.queueKey, h.ownId hj])
      · rintro ⟨hj, hk', hw⟩
        rw [hjobs] at hj
        split at hj
        · exact absurd (by rw [← hk', Job.queueKey, (hjob job hj).1]) hk
        · exact ⟨hj, hk', hw⟩

/-- A new job comes with the records that it asks for. -/
theorem add {job : Job} (h : InStep clock q jobs) (fresh : jobs.get? job.id = none)
    (ha : job.schedule.Accepted) (hs : Sound clock q')
    (has : ∀ key spec, q'.Has key spec ↔
      (job.queueKey = key ∧ job.wants = some spec) ∨ q.Has key spec) :
    InStep clock q' (jobs.set job.id job) := by
  refine h.change (some job) hs (jobs.get?_set _ · _) ?_ fun key spec => ?_
  · rintro _ ⟨⟩
    exact ⟨rfl, ha⟩
  · rw [has]
    split
    · next hk =>
      subst hk
      have own := h.has_key job.id spec
      rw [fresh, Option.bind_none] at own
      simp [own, Job.queueKey]
    · next hk => simp [hk, Job.queueKey]

end InStep

/-! ## One job in the queue -/

namespace Engine

variable {g : Engine LocalQueue (StoreState LocalStore) (Transaction LocalStore)}
  {rules : ClaimRules} {w w' : Memory} {job old new : Job}

/-- The queue of a world was changed, so that it has the given records. -/
structure QueueMoved (w w' : Memory) (has : String → RepeatSpec → Prop) : Prop where
  now : w'.now = w.now
  jobs : w'.jobs = w.jobs
  sound : Sound w'.now w'.queue
  has : ∀ key spec, w'.queue.Has key spec ↔ has key spec

theorem enqueue_ends (hg : g.queue = workQueue rules) (h : Sound w.now w.queue)
    (ha : job.schedule.Accepted) :
    (g.enqueue job).Ends w
      (fun _ w' => QueueMoved w w' fun key spec =>
        (job.queueKey = key ∧ job.schedule.spec? = some spec) ∨ w.queue.Has key spec)
      fun e _ => e = .outOfRange := by
  simp only [enqueue, Act.ends_bind, ends_time, hg]
  cases hp : queuePlan job.schedule w.now with
  | repeating spec =>
    have hs := queuePlan_eq_repeating_iff.mp hp
    refine ends_onQueue.mpr ((addRepeating_ends h (ha.usable hs) job.toJson).mono ?_ fun _ _ he => he)
    rintro _ q' ⟨sound, has⟩
    refine ⟨rfl, rfl, sound, fun key spec' => ?_⟩
    simp only [hs, Option.some.injEq]
    exact has key spec'
  | delayed millis =>
    have hs : job.schedule.spec? = none := spec?_eq_none w.now (by simp [hp])
    refine ends_onQueue.mpr ((addDelayed_ends h millis job.toJson).mono ?_ fun _ _ he => he)
    rintro _ q' ⟨sound, same⟩
    refine ⟨rfl, rfl, sound, fun key spec => ?_⟩
    simp only [hs, reduceCtorEq, and_false, false_or]
    exact has_of_repeats_eq same
  | expired =>
    have hs : job.schedule.spec? = none := spec?_eq_none w.now (by simp [hp])
    refine Act.ends_pure.mpr ⟨rfl, rfl, h, fun key spec => ?_⟩
    simp only [hs, reduceCtorEq, and_false, false_or]

theorem dequeue_ends (hg : g.queue = workQueue rules) (h : Sound w.now w.queue)
    (ha : job.schedule.Accepted) :
    (g.dequeue job).Ends w
      (fun _ w' => QueueMoved w w' fun key spec =>
        w.queue.Has key spec ∧ ¬ (job.queueKey = key ∧ job.schedule.spec? = some spec))
      fun _ _ => False := by
  simp only [dequeue, Act.ends_bind, ends_time, hg]
  have delayed (hs : job.schedule.spec? = none) :
      (onQueue (removeDelayed job.queueKey)).Ends w
        (fun _ w' => QueueMoved w w' fun key spec =>
          w.queue.Has key spec ∧ ¬ (job.queueKey = key ∧ job.schedule.spec? = some spec))
        fun _ _ => False := by
    refine ends_onQueue.mpr ((removeDelayed_ends h).mono ?_ fun _ _ he => he)
    rintro _ q' ⟨sound, same⟩
    refine ⟨rfl, rfl, sound, fun key spec => ?_⟩
    simp only [hs, reduceCtorEq, and_false, not_false_eq_true, and_true]
    exact has_of_repeats_eq same
  cases hp : queuePlan job.schedule w.now with
  | repeating spec =>
    have hs := queuePlan_eq_repeating_iff.mp hp
    refine ends_onQueue.mpr ((removeRepeating_ends h (ha.usable hs).colonless).mono ?_
      fun _ _ he => he)
    rintro _ q' ⟨sound, has⟩
    refine ⟨rfl, rfl, sound, fun key spec' => ?_⟩
    simp only [hs, Option.some.injEq]
    exact has key spec'
  | delayed millis => exact delayed (spec?_eq_none w.now (by simp [hp]))
  | expired => exact delayed (spec?_eq_none w.now (by simp [hp]))

/-- What was queued for a job that is gone is taken out, which touches no record. -/
theorem dequeue_gone_ends (hg : g.queue = workQueue rules) (h : w.InStep)
    (gone : w.jobs.get? job.id = none) :
    (g.dequeue job).Ends w (fun _ w' => w'.InStep ∧ w'.jobs = w.jobs) fun _ _ => False := by
  simp only [dequeue, Act.ends_bind, ends_time, hg]
  have delayed : (onQueue (removeDelayed job.queueKey)).Ends w
      (fun _ w' => w'.InStep ∧ w'.jobs = w.jobs) fun _ _ => False := by
    refine ends_onQueue.mpr ((removeDelayed_ends h.sound).mono ?_ fun _ _ he => he)
    rintro _ q' ⟨sound, same⟩
    exact ⟨h.withQueue sound fun key spec => has_of_repeats_eq same, rfl⟩
  cases queuePlan job.schedule w.now with
  | repeating spec =>
    have absent : w.queue.repeats.get? (repeatField job.queueKey spec) = none := by
      refine Option.eq_none_iff_forall_ne_some.mpr fun r hr => ?_
      obtain ⟨id, job', hj, hk, _⟩ := h.records.mp ⟨_, r, hr, rfl, rfl⟩
      -- the schedule may be anything, so only the length of keys tells where they end
      have key : job'.queueKey = job.queueKey := by
        refine hk.trans (repeatField_key ?_ (h.sound.ownField hr))
        rw [← hk, Job.queueKey, Job.queueKey, Identifier.length_toList_text,
          Identifier.length_toList_text]
      have same : id = job.id := (h.ownId hj).symm.trans (Identifier.text_injective key)
      rw [same, gone] at hj
      cases hj
    refine ends_onQueue.mpr ((Act.ends_of_on_ok (removeRepeating_absent absent)).mpr ?_)
    exact ⟨h, rfl⟩
  | delayed millis => exact delayed
  | expired => exact delayed

/-! ## A change of a job -/

theorem QueueMoved.refl (h : Sound w.now w.queue) : QueueMoved w w w.queue.Has :=
  ⟨rfl, rfl, h, fun _ _ => Iff.rfl⟩

theorem QueueMoved.congr {has has' : String → RepeatSpec → Prop} (h : QueueMoved w w' has)
    (same : ∀ key spec, has key spec ↔ has' key spec) : QueueMoved w w' has' :=
  { h with has := fun key spec => (h.has key spec).trans (same key spec) }

/-- A move of entries takes out the record of the old schedule and puts in that of the new one, as planned. -/
theorem move_as_planned (hg : g.queue = workQueue rules) (h : Sound w.now w.queue) (plan : ChangePlan)
    (was : old.schedule.Accepted) (ha : new.schedule.Accepted) :
    (g.move plan old new).Ends w
      (fun _ w' => QueueMoved w w' fun key spec =>
        (plan.addNew = true ∧ new.queueKey = key ∧ new.schedule.spec? = some spec) ∨
          (w.queue.Has key spec ∧
            ¬ (plan.removeOld = true ∧ old.queueKey = key ∧ old.schedule.spec? = some spec)))
      fun e _ => e = .outOfRange := by
  obtain ⟨removeOld, addNew⟩ := plan
  have second {w₁ : Memory} (first : QueueMoved w w₁ fun key spec => w.queue.Has key spec ∧
        ¬ (removeOld = true ∧ old.queueKey = key ∧ old.schedule.spec? = some spec)) :
      (if addNew then g.enqueue new else pure ()).Ends w₁
        (fun _ w' => QueueMoved w w' fun key spec =>
          (addNew = true ∧ new.queueKey = key ∧ new.schedule.spec? = some spec) ∨
            (w.queue.Has key spec ∧
              ¬ (removeOld = true ∧ old.queueKey = key ∧ old.schedule.spec? = some spec)))
        fun e _ => e = .outOfRange := by
    cases addNew with
    | false => exact Act.ends_pure.mpr (first.congr (by simp))
    | true =>
      refine (enqueue_ends hg first.sound ha).mono (fun _ w' moved => ?_) fun _ _ e => e
      refine ⟨moved.now.trans first.now, moved.jobs.trans first.jobs, moved.sound, fun key spec => ?_⟩
      rw [moved.has, first.has, eq_self, true_and]
  cases removeOld with
  | false => exact second ((QueueMoved.refl h).congr (by simp))
  | true =>
    refine Act.ends_bind.mpr (Act.ends_discard.mpr ((dequeue_ends hg h was).mono ?_ fun _ _ => False.elim))
    exact fun _ w₁ moved => second (moved.congr (by simp))

/-- A planned move leaves the records of the job's key as the new definition asks. -/
theorem move_ends (hg : g.queue = workQueue rules) (h : w.InStep)
    (hs : w.jobs.get? old.id = some old) (ha : new.schedule.Accepted) (hid : new.id = old.id) :
    (g.move (ChangePlan.between old new) old new).Ends w
      (fun _ w' => QueueMoved w w' fun key spec =>
        if old.id.text = key then new.wants = some spec else w.queue.Has key spec)
      fun e _ => e = .outOfRange := by
  refine (move_as_planned hg h.sound (.between old new) (h.accepted hs) ha).mono (fun _ w' moved => ?_) fun _ _ e => e
  have own (spec : RepeatSpec) : w.queue.Has old.id.text spec ↔
      old.isEnabled = true ∧ old.schedule.spec? = some spec := by
    rw [h.has_key, hs, Option.bind_some, Job.wants_eq_some_iff]
  have key : new.queueKey = old.id.text := congrArg Identifier.text hid
  have oldKey : old.queueKey = old.id.text := rfl
  refine moved.congr fun k spec => ?_
  rw [key, oldKey]
  split
  · next hk =>
    subst hk
    rw [own, Job.wants_eq_some_iff, ChangePlan.between]
    cases old.isEnabled <;> cases new.isEnabled
    · simp
    · simp
    · simp
    · by_cases same : old.schedule = new.schedule
      · simp [same]
      · simp [same]
  · next hk => simp [hk]

/-- A change of a stored job, in the store and in the queue. -/
theorem applyUpdate_ends (hg : g.queue = workQueue rules)
    (hs : g.store = LocalStore.jobStore noStoreFaults) (h : w.InStep)
    (hold : w.jobs.get? old.id = some old) {changes : JobChanges}
    (ha : ∀ s, changes.schedule = some s → s.Accepted) :
    (g.applyUpdate old changes).Ends w
      (fun _ w' => w'.InStep ∧ w'.jobs = w.jobs.set old.id (changes.applyAt w.now old))
      fun e _ => e.isOutOfRange = true := by
  simp only [applyUpdate, Act.ends_bind, ends_time, hs, storing, queueing, attempting,
    Act.ends_mapError, Act.ends_attemptUnless]
  rw [Act.ends_of_on_ok (onStore_openTransaction_on _ _),
    Act.ends_of_on_ok (inTransaction_updateJob_on hold _)]
  have accepted : (changes.applyAt w.now old).schedule.Accepted := by
    show (changes.schedule.getD old.schedule).Accepted
    cases hc : changes.schedule with
    | none => exact h.accepted hold
    | some s => exact ha s hc
  have moves := move_ends (w := w.sentOne.sentOne) hg h hold accepted rfl
  refine moves.mono (fun _ w' moved => ?_) fun e _ he => ?_
  · rw [Act.ends_of_on_ok (onStore_commit_on _ _), Act.ends_pure]
    refine ⟨?_, rfl⟩
    show Timetable.InStep w'.now w'.queue (w.jobs.set old.id (changes.applyAt w.now old))
    rw [show w'.now = w.now from moved.now]
    refine InStep.change h (some (changes.applyAt w.now old)) ?_ (w.jobs.get?_set _ · _) ?_
      moved.has
    · exact moved.now ▸ moved.sound
    · rintro _ ⟨⟩
      exact ⟨rfl, accepted⟩
  · subst he
    simp [EngineError.isOutOfRange]

/-- The deletion of a stored job, in the store and in the queue. -/
theorem applyDelete_ends (hg : g.queue = workQueue rules)
    (hs : g.store = LocalStore.jobStore noStoreFaults) (h : w.InStep)
    (hold : w.jobs.get? old.id = some old) :
    (g.applyDelete old).Ends w (fun _ w' => w'.InStep ∧ w'.jobs = w.jobs.erase old.id)
      fun _ _ => False := by
  have stored : w.store.rows.jobs.contains old.id = true := Table.contains_iff.mpr ⟨old, hold⟩
  simp only [applyDelete, Act.ends_bind, ends_time, hs, storing, queueing, attempting,
    Act.ends_mapError, Act.ends_attemptUnless, Act.ends_discard]
  rw [Act.ends_of_on_ok (onStore_openTransaction_on _ _),
    Act.ends_of_on_ok (inTransaction_deleteJob_on stored _)]
  have taken := dequeue_ends (w := w.sentOne.sentOne) hg h.sound (h.accepted hold)
  refine taken.mono (fun _ w' moved => ?_) fun _ _ => False.elim
  rw [Act.ends_of_on_ok (onStore_commit_on _ _), Act.ends_pure]
  refine ⟨?_, rfl⟩
  show Timetable.InStep w'.now w'.queue (w.jobs.erase old.id)
  rw [show w'.now = w.now from moved.now]
  refine InStep.change h none (moved.now ▸ moved.sound) (w.jobs.get?_erase _)
    (fun _ h => by cases h) fun key spec => ?_
  have has : w'.queue.Has key spec ↔
      w.queue.Has key spec ∧ ¬ (old.queueKey = key ∧ old.schedule.spec? = some spec) :=
    moved.has key spec
  rw [has]
  split
  · next hk =>
    subst hk
    have own := h.has_key old.id spec
    rw [hold, Option.bind_some, Job.wants_eq_some_iff] at own
    simp [own, Job.queueKey]
  · next hk => simp [hk, Job.queueKey]

end Engine

end Timetable
