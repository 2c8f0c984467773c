import Timetable.Proofs.Engine.Runs
import Timetable.Proofs.Schedule.Delay

/-!
# Accepted schedules take effect

A job that is created, or changed in a way that puts it into the queue anew, is `Awaited` afterwards: its record waits
for the first fire from now on, or its single entry for its instant, and nobody ever claimed that
(`accepted_schedules_take_effect`).

All single entries of a job share one identifier, and one that is at work is neither taken out nor replaced. So a job
that is to run once is only queued if no other single entry of it is left (`Job.Roomy`). Where one is left the change is
accepted and nothing is queued for it (`reschedule_of_claimed_job_is_lost`).
-/

namespace Timetable

open World LocalQueue

/-! ## What is queued anew -/

/-- An entry is stored and was never claimed. -/
structure LocalQueue.Unclaimed (q : LocalQueue) (e : StoredEntry) : Prop where
  stored : q.entries.get? e.id = some e
  free : q.active.contains e.id = false
  never : e.processedOn = none

/-- What the queue holds of a job that is put into it at some time, and when it fires: a record that waits for the first
fire after that time, with its instance, or a single entry less than a millisecond before the instant of the job. -/
inductive Job.Awaited (now : Instant) (q : LocalQueue) (job : Job) : Option Instant → Prop
  | repeating {spec : RepeatSpec} {r : RepeatRecord} :
    job.schedule.spec? = some spec → q.repeats.get? (repeatField job.queueKey spec) = some r →
    r.key = job.queueKey → r.spec = spec → spec.nextAfter now = .ok r.next →
    (∀ t, r.next = some t → ∃ e, q.Unclaimed e ∧ e.id = instanceId job.queueKey spec t ∧ e.key = job.queueKey ∧
      e.repeats = some spec ∧ e.fireAt = t) →
    Awaited now q job r.next
  | once {at_ : Instant} {e : StoredEntry} :
    job.schedule = .onTime at_ → q.Unclaimed e → e.id = singleId job.queueKey → e.key = job.queueKey →
    e.repeats = none → at_.nanos - Instant.nanosPerMilli < e.fireAt.nanos → e.fireAt.nanos ≤ at_.nanos →
    Awaited now q job (some e.fireAt)

/-- Nothing of what a job asks for is queued yet. -/
structure Job.Roomy (q : LocalQueue) (job : Job) : Prop where
  record : ∀ spec, job.schedule.spec? = some spec → ¬ q.Has job.queueKey spec
  entry : job.schedule.spec? = none → q.entries.get? (singleId job.queueKey) = none

section

variable {now : Instant} {q : LocalQueue} {key : String} {spec : RepeatSpec}

/-- A record that is added anew waits for the first fire from now on. -/
theorem LocalQueue.addRepeating_anew_ends (h : Sound now q) (hu : spec.Usable) (anew : ¬ q.Has key spec)
    (payload : Json) :
    (addRepeating now key spec payload).Ends q
      (fun _ q' => Sound now q' ∧ ∃ r, q'.repeats.get? (repeatField key spec) = some r ∧ r.key = key ∧ r.spec = spec ∧
        spec.nextAfter now = .ok r.next)
      fun e _ => e = .outOfRange := by
  have absent : q.repeats.get? (repeatField key spec) = none := by
    rw [h.has_of_colonless hu.colonless, Option.isSome_iff_ne_none, not_not] at anew
    exact anew
  simp only [addRepeating, Act.ends_bind, Act.ends_get, absent, Act.ends_ofExcept, Act.ends_set]
  constructor
  · intro r created
    obtain ⟨same, fires⟩ := RepeatRecord.advance_eq_ok created
    obtain ⟨hk, hs, -⟩ := RepeatRecord.chain_eq_iff.mp same
    have field : r.field = repeatField key spec := by rw [RepeatRecord.field, hk, hs]
    refine ⟨h.create absent hu.countable created, r, ?_, hk, hs, fires⟩
    rw [putRecord_repeats, if_pos field]
  · intro e failed
    exact (RepeatRecord.advance_eq_error (r := ⟨key, spec, payload, none⟩) hu failed).1

/-- A single entry that is added anew is stored as it was asked for. -/
theorem LocalQueue.addDelayed_anew_ends (h : Sound now q) (anew : q.entries.get? (singleId key) = none)
    (delay : Nat) (payload : Json) :
    (addDelayed now key delay payload).Ends q
      (fun _ q' => Sound now q' ∧ ∃ fireAt, now.addMillis? (signedWord delay) = some fireAt ∧
        q'.entries.get? (singleId key) = some (.single key fireAt payload))
      fun e _ => e = .outOfRange := by
  unfold addDelayed
  cases reached : now.addMillis? (signedWord delay) with
  | none => exact Act.ends_throw.mpr rfl
  | some fireAt =>
    refine Act.ends_modify.mpr ⟨h.addSingle key fireAt payload, fireAt, rfl, ?_⟩
    exact insertIfAbsent_entries_eq_some.mpr (.inr ⟨anew, rfl, rfl⟩)

end

namespace Engine

variable {g : Engine LocalQueue (StoreState LocalStore) (Transaction LocalStore)} {rules : ClaimRules}
  {w w' : Memory} {job old new : Job} {next : Option Instant}

/-- The engine names the time that a job is awaited at. -/
theorem nextExecutionAt_of_awaited (hg : g.queue = workQueue rules) (h : Sound w.now w.queue)
    (ahead : queuePlan job.schedule w.now ≠ .expired) (awaited : job.Awaited w.now w.queue next) :
    ((g.nextExecutionAt job).on w).1 = .ok next := by
  have named {α : Type} {x : Act QueueError Memory α} {a : α} (ends : x.Ends w (fun a' _ => a' = a) fun _ _ => False) :
      (x.on w).1 = .ok a := by
    cases on : (x.on w).1 with
    | ok a' => exact congrArg Except.ok (ends.1 a' on)
    | error e => exact (ends.2 e on).elim
  refine named ?_
  simp only [nextExecutionAt, Act.ends_bind, ends_time, hg]
  cases awaited with
  | @repeating spec r hs hr hk hspec _ _ =>
    rw [queuePlan_eq_repeating_iff.mpr hs]
    refine Act.ends_bind.mpr (ends_onQueue.mpr ((Act.ends_of_on_ok (listRepeating_on _)).mpr ?_))
    have found : w.queue.repeats.values.find? (isRecordOf job.queueKey spec) = some r := by
      have listed : r ∈ w.queue.repeats.values := Table.mem_values_iff.mpr ⟨_, hr⟩
      have asked : isRecordOf job.queueKey spec r = true := by simp [isRecordOf, hk, hspec]
      cases hf : w.queue.repeats.values.find? (isRecordOf job.queueKey spec) with
      | none => exact absurd asked (List.find?_eq_none.mp hf r listed)
      | some r' =>
        -- records are told apart by key and specification
        have asked' := List.find?_some hf
        simp only [isRecordOf, Bool.and_eq_true, beq_iff_eq] at asked'
        obtain ⟨f, hr'⟩ := Table.mem_values_iff.mp (List.mem_of_find?_eq_some hf)
        have field : f = repeatField job.queueKey spec := by
          rw [← h.ownField hr', RepeatRecord.field, asked'.1, asked'.2]
        rw [field, hr] at hr'
        exact hr'.symm
    exact Act.ends_pure.mpr (by rw [found, Option.bind_some])
  | @once at_ e hs unclaimed hid _ _ _ _ =>
    have entry : (getEntry w.now job.queueKey).on w.queue = (.ok (some (w.queue.withState w.now e)), w.queue) := by
      simp only [getEntry, Act.on_bind, Act.on_get, Act.on_pure, ← hid, unclaimed.stored, Option.map_some]
    have idle : (w.queue.withState w.now e).state ≠ .active := by
      simp only [withState, stateOf, unclaimed.free, Bool.false_eq_true, if_false, pendingState]
      split <;> simp
    cases plan : queuePlan job.schedule w.now with
    | repeating spec =>
      have := queuePlan_eq_repeating_iff.mp plan
      rw [hs] at this
      cases this
    | expired => exact absurd plan ahead
    | delayed millis =>
      refine Act.ends_bind.mpr (ends_onQueue.mpr ((Act.ends_of_on_ok entry).mpr (Act.ends_pure.mpr ?_)))
      have kept : (some (w.queue.withState w.now e)).filter (·.state != .active) = some (w.queue.withState w.now e) :=
        Option.filter_eq_some_iff.mpr ⟨rfl, bne_iff_ne.mpr idle⟩
      rw [kept]
      rfl

/-- Whatever is put into the queue with nothing in its way is awaited. -/
theorem enqueue_awaited (hg : g.queue = workQueue rules) (h : Sound w.now w.queue) (ha : job.schedule.Accepted)
    (roomy : job.Roomy w.queue) (ahead : queuePlan job.schedule w.now ≠ .expired) (clock : w.now.Storable)
    (time : ∀ at_, job.schedule = .onTime at_ → at_.Storable) :
    (g.enqueue job).Ends w (fun _ w' => ∃ next, job.Awaited w.now w'.queue next) fun _ _ => True := by
  simp only [enqueue, Act.ends_bind, ends_time, hg]
  have never {q : LocalQueue} {e : StoredEntry} (sound : Sound w.now q) (stored : q.entries.get? e.id = some e)
      (new : e.processedOn = none) : q.Unclaimed e := ⟨stored, sound.not_held stored new, new⟩
  cases plan : queuePlan job.schedule w.now with
  | expired => exact absurd plan ahead
  | repeating spec =>
    have hs := queuePlan_eq_repeating_iff.mp plan
    refine ends_onQueue.mpr ((addRepeating_anew_ends h (ha.usable hs) (roomy.record spec hs) _).mono ?_
      fun _ _ _ => trivial)
    rintro _ q' ⟨sound, r, hr, hk, hspec, fires⟩
    refine ⟨r.next, .repeating hs hr hk hspec fires fun t ht => ?_⟩
    obtain ⟨e, he, hek, hes, het, new⟩ := sound.current hr ht
    have own := sound.ownId he
    exact ⟨e, never sound (own ▸ he) new, by rw [own, hk, hspec], hek.trans hk, hspec ▸ hes, het⟩
  | delayed millis =>
    have hs : job.schedule.spec? = none := spec?_eq_none w.now (by simp [plan])
    refine ends_onQueue.mpr ((addDelayed_anew_ends h (roomy.entry hs) millis _).mono ?_ fun _ _ _ => trivial)
    rintro _ q' ⟨sound, fireAt, reached, stored⟩
    cases schedule : job.schedule with
    | onTime at_ =>
      rw [schedule, queuePlan] at plan
      split at plan
      · cases plan
      · next positive =>
        cases plan
        obtain ⟨low, high⟩ := clock.delay_ends (time at_ schedule) (not_le.mp positive) reached
        have unclaimed : q'.Unclaimed (.single job.queueKey fireAt job.toJson) := never sound stored rfl
        exact ⟨some fireAt, .once schedule unclaimed rfl rfl rfl low high⟩
    | _ => simp [schedule, Schedule.spec?] at hs

/-- The single entry of a job is gone once the job is taken out of the queue, unless it is at work or the job
repeats. -/
theorem dequeue_entry_ends (hg : g.queue = workQueue rules) (h : Sound w.now w.queue)
    (gone : w.queue.entries.get? (singleId job.queueKey) = none ∨
      job.schedule.spec? = none ∧ w.queue.active.contains (singleId job.queueKey) = false) :
    (g.dequeue job).Ends w (fun _ w' => w'.queue.entries.get? (singleId job.queueKey) = none) fun _ _ => False := by
  simp only [dequeue, Act.ends_bind, ends_time, hg]
  have delayed : (onQueue (removeDelayed job.queueKey)).Ends w
      (fun _ w' => w'.queue.entries.get? (singleId job.queueKey) = none) fun _ _ => False := by
    have on := removeDelayed_on job.queueKey w.queue
    refine ends_onQueue.mpr ?_
    split at on
    · next kept =>
      refine (Act.ends_of_on_ok on).mpr ?_
      rcases gone with none | ⟨-, free⟩
      · exact none
      · rw [free, Bool.false_or, Bool.not_eq_true'] at kept
        exact Table.contains_eq_false_iff.mp kept
    · refine (Act.ends_of_on_ok on).mpr ?_
      show (w.queue.entries.erase _).get? _ = none
      rw [Table.get?_erase, if_pos rfl]
  cases plan : queuePlan job.schedule w.now with
  | delayed millis => exact delayed
  | expired => exact delayed
  | repeating spec =>
    have hs := queuePlan_eq_repeating_iff.mp plan
    have none : w.queue.entries.get? (singleId job.queueKey) = none := by
      rcases gone with none | ⟨single, -⟩
      · exact none
      · rw [hs] at single
        cases single
    refine ends_onQueue.mpr ?_
    cases hr : w.queue.repeats.get? (repeatField job.queueKey spec) with
    | none => exact (Act.ends_of_on_ok (removeRepeating_absent hr)).mpr none
    | some r =>
      refine (Act.ends_of_on_ok (removeRepeating_on h hr)).mpr ?_
      refine Option.eq_none_iff_forall_ne_some.mpr fun e he => ?_
      rw [(eraseChain_entries_eq_some.mp he).1] at none
      cases none

/-- No single entry of a job is left once its old definition is taken out of the queue. -/
def Vacant (q : LocalQueue) (old : Job) : Prop :=
  q.entries.get? (singleId old.queueKey) = none ∨
    old.isEnabled = true ∧ old.schedule.spec? = none ∧ q.active.contains (singleId old.queueKey) = false

/-- A change that puts a job into the queue anew, for an instant ahead if it runs once, and with no other single entry
in its way. -/
structure Requeues (w : Memory) (old new : Job) : Prop where
  adds : (ChangePlan.between old new).addNew = true
  vacant : new.schedule.spec? = none → Vacant w.queue old
  ahead : queuePlan new.schedule w.now ≠ .expired
  time : ∀ at_, new.schedule = .onTime at_ → at_.Storable

theorem move_awaited (hg : g.queue = workQueue rules) (h : w.InStep) (hs : w.jobs.get? old.id = some old)
    (ha : new.schedule.Accepted) (hid : new.id = old.id) (clock : w.now.Storable) (requeues : Requeues w old new) :
    (g.move (ChangePlan.between old new) old new).Ends w (fun _ w' => ∃ next, new.Awaited w.now w'.queue next)
      fun _ _ => True := by
  have key : new.queueKey = old.queueKey := congrArg Identifier.text hid
  have own (spec : RepeatSpec) : w.queue.Has old.queueKey spec ↔ old.wants = some spec := by
    rw [Job.queueKey, h.has_key, hs, Option.bind_some]
  have enqueued {w₁ : Memory} (sound : Sound w₁.now w₁.queue) (same : w₁.now = w.now) (roomy : new.Roomy w₁.queue) :
      (g.enqueue new).Ends w₁ (fun _ w' => ∃ next, new.Awaited w.now w'.queue next) fun _ _ => True :=
    same ▸ enqueue_awaited hg sound ha roomy (same ▸ requeues.ahead) (same ▸ clock) requeues.time
  have enabled : new.isEnabled = true := by
    have adds := requeues.adds
    cases he : old.isEnabled <;> cases hn : new.isEnabled <;> simp_all [ChangePlan.between]
  cases he : old.isEnabled with
  | false =>
    have plan : ChangePlan.between old new = ⟨false, true⟩ := by simp [ChangePlan.between, he, enabled]
    have adds : g.move ⟨false, true⟩ old new = g.enqueue new := by simp [move]
    rw [plan, adds]
    refine enqueued h.sound rfl ⟨fun spec _ held => ?_, fun single => ?_⟩
    · rw [key, own, Job.wants_eq_some_iff, he] at held
      cases held.1
    · rcases requeues.vacant single with none | ⟨old', -⟩
      · rwa [key]
      · rw [he] at old'
        cases old'
  | true =>
    have plan : ChangePlan.between old new = ⟨true, true⟩ := by
      have adds := requeues.adds
      by_cases same : old.schedule = new.schedule
      · simp [ChangePlan.between, he, enabled, same] at adds
      · simp [ChangePlan.between, he, enabled, same]
    have removed : (g.dequeue old).Ends w (fun _ w₁ => QueueMoved w w₁ fun key spec =>
        w.queue.Has key spec ∧ ¬ (old.queueKey = key ∧ old.schedule.spec? = some spec)) fun _ _ => False :=
      dequeue_ends hg h.sound (h.accepted hs)
    rw [plan]
    refine Act.ends_bind.mpr (Act.ends_discard.mpr ?_)
    by_cases single : new.schedule.spec? = none
    · have gone : (g.dequeue old).Ends w (fun _ w₁ => w₁.queue.entries.get? (singleId old.queueKey) = none)
          fun _ _ => False :=
        dequeue_entry_ends hg h.sound ((requeues.vacant single).imp_right And.right)
      refine (removed.and gone).mono (fun _ w₁ moved => ?_) fun _ _ => False.elim ∘ And.left
      refine enqueued moved.1.sound moved.1.now ⟨fun spec hs => ?_, fun _ => ?_⟩
      · rw [single] at hs
        cases hs
      · rw [key]
        exact moved.2
    · refine removed.mono (fun _ w₁ moved => ?_) fun _ _ => False.elim
      refine enqueued moved.sound moved.now ⟨fun spec _ held => ?_, fun none => absurd none single⟩
      -- the records of the job were those of its old definition, which are gone
      rw [key, moved.has, own, Job.wants_eq_some_iff] at held
      exact held.2 ⟨rfl, held.1.2⟩

theorem applyUpdate_awaited (hg : g.queue = workQueue rules) (hs : g.store = LocalStore.jobStore noStoreFaults)
    (h : w.InStep) (hold : w.jobs.get? old.id = some old) {changes : JobChanges}
    (ha : (changes.applyAt w.now old).schedule.Accepted) (clock : w.now.Storable) :
    (g.applyUpdate old changes).Ends w
      (fun new w' => w'.now = w.now ∧ (Requeues w old new → ∃ next, new.Awaited w.now w'.queue next))
      fun _ _ => True := by
  let new := changes.applyAt w.now old
  have moves : (g.move (ChangePlan.between old new) old new).Ends w.sentOne.sentOne (fun _ w' =>
      w'.now = w.now ∧ (Requeues w old new → ∃ next, new.Awaited w.now w'.queue next)) fun _ _ => True := by
    have moved := move_ends (w := w.sentOne.sentOne) hg h hold ha rfl
    by_cases requeues : Requeues w old new
    · have awaited := move_awaited (w := w.sentOne.sentOne) hg h hold ha rfl clock
        ⟨requeues.adds, requeues.vacant, requeues.ahead, requeues.time⟩
      exact (moved.and awaited).mono (fun _ _ both => ⟨both.1.now, fun _ => both.2⟩) fun _ _ _ => trivial
    · exact moved.mono (fun _ _ moved => ⟨moved.now, fun r => absurd r requeues⟩) fun _ _ _ => trivial
  simp only [applyUpdate, Act.ends_bind, ends_time, hs, storing, queueing, attempting, Act.ends_mapError,
    Act.ends_attemptUnless]
  rw [Act.ends_of_on_ok (onStore_openTransaction_on _ _), Act.ends_of_on_ok (inTransaction_updateJob_on hold _)]
  refine moves.mono (fun _ w' moved => ?_) fun e w' _ => ?_
  · rw [Act.ends_of_on_ok (onStore_commit_on _ _), Act.ends_pure]
    exact moved
  · split
    · trivial
    · exact ⟨fun _ _ => Act.ends_throw.mpr trivial, fun _ _ => trivial⟩

/-! ## Requests -/

theorem updateJob_awaited (hg : g.queue = workQueue rules) (hs : g.store = LocalStore.jobStore noStoreFaults)
    (h : w.InStep) (clock : w.now.Storable) (environment : String) (id : Identifier) (r : UpdateJobRequest) :
    (g.updateJob environment id r).Ends w
      (fun new w' => w'.now = w.now ∧ ∃ old, w.jobs.get? id = some old ∧
        (Requeues w old new → ∃ next, new.Awaited w.now w'.queue next)) fun _ _ => True := by
  simp only [updateJob, Act.ends_bind]
  refine (getJob_ends hs).mono (fun old w₁ hold => ?_) fun _ _ _ => trivial
  obtain ⟨rfl, hold⟩ := hold
  have own : old.id = id := h.ownId hold
  rw [ends_time]
  refine Act.ends_ofExcept.mpr ⟨fun changes hc => ?_, fun _ _ => trivial⟩
  have accepted : (changes.applyAt w.now old).schedule.Accepted := by
    show (changes.schedule.getD old.schedule).Accepted
    cases hs : changes.schedule with
    | none => exact h.accepted hold
    | some s => exact accepted_of_changes hc hs
  refine (applyUpdate_awaited (w := w.sentOne) hg hs h (own ▸ hold) accepted clock).mono ?_ fun _ _ e => e
  rintro new w' ⟨now, awaited⟩
  exact ⟨now, old, hold, fun r => awaited ⟨r.adds, r.vacant, r.ahead, r.time⟩⟩

theorem createJob_awaited (hg : g.queue = workQueue rules) (hs : g.store = LocalStore.jobStore noStoreFaults)
    (h : w.InStep) (clock : w.now.Storable) (fresh : w.jobs.get? (.generated (w.store.issued + 1)) = none)
    (unused : w.queue.entries.get? (singleId (Identifier.generated (w.store.issued + 1)).text) = none)
    (environment : String) (r : CreateJobRequest) :
    (g.createJob environment r).Ends w
      (fun job w' => w'.now = w.now ∧ (job.isEnabled = true → queuePlan job.schedule w.now ≠ .expired →
        (∀ at_, job.schedule = .onTime at_ → at_.Storable) → ∃ next, job.Awaited w.now w'.queue next))
      fun _ _ => True := by
  simp only [createJob, Act.ends_bind, ends_time, Act.ends_ofExcept, hs, storing, queueing, attempting,
    Act.ends_mapError]
  refine ⟨fun new hnew => ?_, fun _ _ => trivial⟩
  rw [Act.ends_of_on_ok (onStore_createJob_on _ _ _)]
  let job := new.store (.generated (w.store.issued + 1)) w.now
  have accepted : job.schedule.Accepted := accepted_of_newJob hnew
  have roomy : job.Roomy w.queue := by
    refine ⟨fun spec _ held => ?_, fun _ => unused⟩
    have none := (h.has_key (.generated (w.store.issued + 1)) spec).mp held
    rw [fresh] at none
    cases none
  cases he : (new.store (.generated (w.store.issued + 1)) w.now).isEnabled with
  | false =>
    rw [if_neg Bool.false_ne_true]
    refine Act.ends_bind.mpr (Act.ends_pure.mpr (Act.ends_pure.mpr ⟨rfl, fun enabled => ?_⟩))
    rw [he] at enabled
    cases enabled
  | true =>
    have enqueued := enqueue_ends (w := w.stored w.now new) hg h.sound accepted
    have awaits : (g.enqueue job).Ends (w.stored w.now new) (fun _ w' => w'.now = w.now ∧
        (queuePlan job.schedule w.now ≠ .expired → (∀ at_, job.schedule = .onTime at_ → at_.Storable) →
          ∃ next, job.Awaited w.now w'.queue next)) fun e _ => e = .outOfRange := by
      by_cases both : queuePlan job.schedule w.now ≠ .expired ∧ ∀ at_, job.schedule = .onTime at_ → at_.Storable
      · have awaited := enqueue_awaited (w := w.stored w.now new) hg h.sound accepted roomy both.1 clock both.2
        exact (enqueued.and awaited).mono (fun _ _ h => ⟨h.1.now, fun _ _ => h.2⟩) fun _ _ h => h.1
      · exact enqueued.mono (fun _ _ moved => ⟨moved.now, fun a b => absurd ⟨a, b⟩ both⟩) fun _ _ h => h
    simp only [if_true, Act.ends_bind, Act.ends_discard, Act.ends_attemptUnless, Act.ends_mapError, Act.ends_pure]
    refine awaits.mono (fun _ w' h => ⟨h.1, fun _ => h.2⟩) ?_
    rintro _ w' rfl
    simp [EngineError.isOutOfRange]

end Engine

/-! ## Reached sites -/

/-- The identifier that is handed out next is that of no stored job and of no single entry. -/
structure Site.Unused (s : Site) : Prop where
  job : s.world.jobs.get? s.nextId = none
  entry : s.world.queue.entries.get? (singleId s.nextId.text) = none

/-- Whatever was done before, a job that is created and enabled, or changed and put into the queue anew, is awaited
there, and the engine names the time. A job that runs once has to lie ahead and to find no other single entry. -/
theorem accepted_schedules_take_effect {rules : ClaimRules} {policy : SchedulePolicy} {threshold : Nat} {t₀ : Instant}
    {s : Site} (run : Site.Reached rules policy threshold t₀ s) (clock : s.world.now.Storable) (invoker : Invoker) :
    let g := Engine.inMemory rules policy threshold invoker
    (∀ environment r job w', s.Unused → (g.createJob environment r).on s.world = (.ok job, w') →
      job.isEnabled = true → queuePlan job.schedule s.world.now ≠ .expired →
      (∀ at_, job.schedule = .onTime at_ → at_.Storable) →
      ∃ next, job.Awaited s.world.now w'.queue next ∧ ((g.nextExecutionAt job).on w').1 = .ok next) ∧
    ∀ environment id r new w', (g.updateJob environment id r).on s.world = (.ok new, w') →
      ∃ old, s.world.jobs.get? id = some old ∧ (Engine.Requeues s.world old new →
        ∃ next, new.Awaited s.world.now w'.queue next ∧ ((g.nextExecutionAt new).on w').1 = .ok next) := by
  intro g
  have inStep : s.world.InStep := (Site.InStep.of_reached run).world
  have named {w' : Memory} {job : Job} {next : Option Instant} (later : w'.InStep) (now : w'.now = s.world.now)
      (ahead : queuePlan job.schedule s.world.now ≠ .expired) (awaited : job.Awaited s.world.now w'.queue next) :
      ((g.nextExecutionAt job).on w').1 = .ok next :=
    Engine.nextExecutionAt_of_awaited rfl later.sound (now.symm ▸ ahead) (now.symm ▸ awaited)
  constructor
  · intro environment r job w' unused on enabled ahead time
    have ends := (Engine.createJob_ends (g := g) rfl rfl inStep unused.job r).and
      (Engine.createJob_awaited rfl rfl inStep clock unused.job unused.entry environment r)
    obtain ⟨later, now, awaits⟩ := (Act.ends_of_on_ok on).mp ends
    obtain ⟨next, awaited⟩ := awaits enabled ahead time
    exact ⟨next, awaited, named later.inStep now ahead awaited⟩
  · intro environment id r new w' on
    have ends := (Engine.updateJob_ends (g := g) rfl rfl inStep r).and
      (Engine.updateJob_awaited rfl rfl inStep clock environment id r)
    obtain ⟨later, now, old, stored, awaits⟩ := (Act.ends_of_on_ok on).mp ends
    refine ⟨old, stored, fun requeues => ?_⟩
    obtain ⟨next, awaited⟩ := awaits requeues
    exact ⟨next, awaited, named later.inStep now requeues.ahead awaited⟩

section

open Engine

/-! ## Changes while a fire is at work (used by the theorems below) -/

def obliged : Engine LocalQueue (StoreState LocalStore) (Transaction LocalStore) := .inMemory {} {} 3 .obliging

/-- The job that was created, on another schedule. -/
def rescheduledJob (schedule : Schedule) (updatedAt : Instant) : Job where
  id := .generated 1
  environment := "e"
  name := "a"
  schedule
  functions := [{ functionId := "f" }]
  executionType := .sequential
  status := .enabled
  createdAt := .ofMillis 0
  updatedAt

def reschedule (schedule : Schedule) (s : Site) : Except EngineError Job × Memory :=
  (obliged.updateJob "e" (.generated 1) { schedule := some schedule }).on s.world

/-- A job whose first fire is at work after five minutes is changed to run every ten minutes, and awaited at the
tenth. -/
theorem rescheduled_while_claimed :
    (reschedule (.interval 10) claimedSite).1 = .ok (rescheduledJob (.interval 10) (.ofMillis 300000)) ∧
      (reschedule (.interval 10) claimedSite).2.queue.active.size = 1 ∧
      (rescheduledJob (.interval 10) (.ofMillis 300000)).Awaited (.ofMillis 300000)
        (reschedule (.interval 10) claimedSite).2.queue (some (.ofMillis 600000)) := by
  have returned : (reschedule (.interval 10) claimedSite).1 =
      .ok (rescheduledJob (.interval 10) (.ofMillis 300000)) := by decide +kernel
  obtain ⟨old, stored, awaits⟩ := (accepted_schedules_take_effect reached_claimedSite (by decide +kernel)
    .obliging).2 _ _ _ _ _ (Prod.ext returned rfl)
  have before : claimedSite.world.jobs.get? (.generated 1) =
      some (rescheduledJob (.interval 5) (.ofMillis 0)) := by decide +kernel
  obtain rfl := Option.some.inj (before.symm.trans stored)
  obtain ⟨next, awaited, named⟩ := awaits ⟨by decide, nofun, by decide, nofun⟩
  have time : ((obliged.nextExecutionAt (rescheduledJob (.interval 10) (.ofMillis 300000))).on
      (reschedule (.interval 10) claimedSite).2).1 = .ok (some (.ofMillis 600000)) := by decide +kernel
  obtain rfl := Except.ok.inj (named.symm.trans time)
  have clock : claimedSite.world.now = .ofMillis 300000 := by decide +kernel
  rw [clock] at awaited
  exact ⟨returned, by decide +kernel, awaited⟩

/-- A job that was to run after one minute. -/
def onceCreatedSite : Site :=
  (Site.start (.ofMillis 0)).after (.create "e" { everyFiveMinutes with schedule := .onTime (.ofMillis 60000) })

/-- It is at work. -/
def onceClaimedSite : Site := Site.after (.claimDue 1) ⟨{ onceCreatedSite.world with now := .ofMillis 60000 }, []⟩

/-- While its one run is at work, a job is put off to the second minute. The change is accepted, the entry of the old
instant stays, and nothing is queued for the new one. -/
theorem reschedule_of_claimed_job_is_lost :
    let new := rescheduledJob (.onTime (.ofMillis 120000)) (.ofMillis 60000)
    let out := reschedule new.schedule onceClaimedSite
    Site.Reached {} {} 3 (.ofMillis 0) onceClaimedSite ∧ out.1 = .ok new ∧ new.isEnabled = true ∧
      (∃ old, onceClaimedSite.world.jobs.get? new.id = some old ∧ (ChangePlan.between old new).addNew = true) ∧
      queuePlan new.schedule onceClaimedSite.world.now = .delayed 60000 ∧
      out.2.queue.entries.values.map (·.fireAt) = [.ofMillis 60000] ∧
      ((obliged.nextExecutionAt new).on out.2).1 = .ok none := by
  intro new out
  have create : Site.Step {} {} 3 (.start (.ofMillis 0)) onceCreatedSite :=
    Site.step_after ⟨rfl, fun _ _ h => by cases h⟩ (by decide +kernel)
  have run : Site.Reached {} {} 3 (.ofMillis 0) onceClaimedSite := by
    refine .tail (.tail (.tail .refl create) (.tick ?_)) (Site.step_after trivial ?_)
    · decide +kernel
    · decide +kernel
  have before : onceClaimedSite.world.jobs.get? new.id =
      some (rescheduledJob (.onTime (.ofMillis 60000)) (.ofMillis 0)) := by decide +kernel
  refine ⟨run, ?_, rfl, ⟨_, before, by decide⟩, ?_, ?_, ?_⟩
  · decide +kernel
  · decide +kernel
  · decide +kernel
  · decide +kernel

end

end Timetable
