import Timetable.Proofs.Engine.SecondPass

/-!
# Reconciliation finds every orphan

After a pass that comes to its end every enabled job whose schedule was accepted, and whose instant is not past, is in
the queue: a record repeats just its specification, or its single entry is stored (`reconcile_restores_orphans`).
Whatever is left of another schedule of the job does not count, except that an entry of its key that repeats is taken
for its single entry.
-/

namespace Timetable

open World

namespace QueueContents

variable {c before : QueueContents} {now : Instant} {job : Job}

/-- A record repeats what the schedule of a job asks for; or its single entry is stored, if that runs once. -/
def Holds (c : QueueContents) (now : Instant) (job : Job) : Prop :=
  match queuePlan job.schedule now with
  | .repeating spec => ∃ f r, c.record f = some r ∧ r.key = job.queueKey ∧ r.spec = spec
  | .delayed _ | .expired => (c.entry (singleId job.queueKey)).isSome

theorem Answered.hasKey (h : Answered now before c job) (once : job.schedule.spec? = none)
    (ahead : queuePlan job.schedule now ≠ .expired) : c.HasKey job.queueKey := by
  cases plan : queuePlan job.schedule now with
  | expired => exact absurd plan ahead
  | delayed millis => exact ((answered_delayed plan).mp h).1
  | repeating spec => cases once.symm.trans (queuePlan_eq_repeating_iff.mp plan)

/-- What was accepted can be queued. -/
theorem Answered.hasLive {spec : RepeatSpec} (h : Answered now before c job) (accepted : job.schedule.Accepted)
    (repeats : job.schedule.spec? = some spec) : c.HasLive job.queueKey spec := by
  rcases (answered_repeating (queuePlan_eq_repeating_iff.mpr repeats)).mp h with live | ⟨_, e, refused, final⟩
  · exact live
  · exact absurd (RepeatRecord.advance_eq_error (r := ⟨_, spec, _, none⟩) (accepted.usable repeats) refused).1 final

theorem Answered.holds (h : Answered now before c job) (accepted : job.schedule.Accepted)
    (ahead : queuePlan job.schedule now ≠ .expired)
    (single : job.schedule.spec? = none → before.Singly job.queueKey ∨ (c.entry (singleId job.queueKey)).isSome) :
    c.Holds now job := by
  unfold Holds
  cases plan : queuePlan job.schedule now with
  | expired => exact absurd plan ahead
  | delayed millis =>
    have once : job.schedule.spec? = none := spec?_eq_none now fun spec repeats => by
      rw [plan] at repeats
      cases repeats
    exact (single once).elim ((answered_delayed plan).mp h).2 id
  | repeating spec =>
    obtain ⟨f, r, hr, key, same, _⟩ := h.hasLive accepted (queuePlan_eq_repeating_iff.mp plan)
    exact ⟨f, r, hr, key, same⟩

/-- The record in the field of an accepted job was its own before late claims were given up. -/
theorem Recovered.owns {late : String → Prop} (h : before.Recovered late c) (tidy : c.Tidy)
    (accepted : job.schedule.Accepted) : before.Owns job := by
  intro spec r repeats hr
  have owns : c.Owns job := tidy.owns fun spec repeats => (accepted.usable repeats).colonless
  exact owns spec r repeats (h.record ▸ hr)

end QueueContents

namespace Engine

open QueueContents

variable {σ ω ρ τ β : Type} {Q : CalmQueue σ ω} {S : CalmStore ρ τ β} {g : Engine σ ρ τ} {w w' : World σ ρ}
  {Settled : ω → Prop} {job : Job} {jobs : List Job}

/-- A job is found in the queue if it holds what the schedule asks for. -/
theorem isQueued_holds (lawful : Q.Lawful w.now Settled) (hg : g.queue = Q.queue) (settled : Settled (Q.held w.queue)) :
    (g.isQueued job).Ends w (fun found _ => found = true ↔ (Q.seen w.queue).Holds w.now job) fun _ _ => False := by
  simp only [isQueued, Act.ends_bind, ends_time, hg]
  unfold Holds
  cases plan : queuePlan job.schedule w.now with
  | repeating spec =>
    refine Act.ends_bind.mpr (ends_onQueue.mpr ((lawful.listRepeating settled).mono ?_ fun _ _ h => h))
    rintro records q ⟨_, mem⟩
    refine Act.ends_pure.mpr ?_
    simp only [List.any_eq_true, mem, isRecordOf, Bool.and_eq_true, beq_iff_eq]
    exact ⟨fun ⟨r, ⟨f, hr⟩, key, same⟩ => ⟨f, r, hr, key, same⟩, fun ⟨f, r, hr, key, same⟩ => ⟨r, ⟨f, hr⟩, key, same⟩⟩
  | delayed millis | expired =>
    refine Act.ends_bind.mpr (ends_onQueue.mpr ((lawful.getEntry job.queueKey settled).mono ?_ fun _ _ h => h))
    rintro entry q ⟨_, found⟩
    exact Act.ends_pure.mpr (by rw [found])

/-- After a pass, which comes to its end if the calendar reaches what the schedules ask for, every accepted job is
queued, unless it is to run once and was taken for queued: an entry of its key that repeats was stored before, but not
its single entry. -/
theorem reconcile_restores_orphans (hQ : Q.Implemented) (hS : S.Implemented) (hg : g.queue = Q.queue)
    (hs : g.store = S.store) (clock : w.now.Storable) (reached : Q.Reached w.now (Q.held w.queue))
    (listed : S.enabled (S.rows w.store) = .ok jobs) (takes : ∀ job ∈ jobs, Q.Takes job) :
    g.reconcile.Ends w
      (fun _ w' => w'.now = w.now ∧ ∀ job ∈ jobs, job.schedule.Accepted → queuePlan job.schedule w.now ≠ .expired →
        (job.schedule.spec? = none → (Q.seen w'.queue).HasKey job.queueKey) ∧
        (g.isQueued job).Ends w' (fun found _ => (found = true ↔ (Q.seen w'.queue).Holds w.now job) ∧
          ((job.schedule.spec? = none → (Q.seen w.queue).Singly job.queueKey ∨
            ((Q.seen w.queue).entry (singleId job.queueKey)).isSome) → found = true)) fun _ _ => False)
      fun _ _ => ∃ job ∈ jobs, ¬ job.schedule.InReach w.now := by
  obtain ⟨Settled, lawful⟩ := hQ.lawful reached
  refine (reconcile_restores lawful hS.lawful hg hs reached clock listed takes).mono ?_ fun _ _ ⟨_, late, _⟩ => late
  rintro _ w' ⟨now, _, q, settled, recovered, restored, answered⟩
  refine ⟨now, fun job mem accepted ahead => ?_⟩
  have done := answered job mem (recovered.owns (lawful.tidy settled) accepted)
  have finds : (g.isQueued job).Ends w' (fun found _ => found = true ↔ (Q.seen w'.queue).Holds w'.now job) _ :=
    isQueued_holds (now.symm ▸ lawful) hg restored.settled
  rw [now] at finds
  -- a single entry that was stored before the pass is not taken out by it
  refine ⟨fun once => done.hasKey once ahead, finds.mono (fun _ _ iff => ⟨iff, fun single => ?_⟩) fun _ _ h => h⟩
  exact iff.mpr (done.holds accepted ahead fun once => (single once).imp id fun stored =>
    restored.restores.grows.isSome_entry (recovered.entry ▸ stored))

/-! ## Jobs of which something else is queued -/

/-- What a job left that ran every five minutes. -/
def leftOver : LocalQueue :=
  (((LocalQueue.workQueue {}).ask (.ofMillis 0)
    (.addRepeating (jobOn 1 (.interval 5)).queueKey (.every 300000) .null)).on {}).2

theorem reached_leftOver : (CalmQueue.memory {}).Reached (.ofMillis 0) leftOver :=
  ⟨fun _ _ _ _ => True, .ofMillis 0, .ofMillis 0, .step .start trivial⟩

/-- A job now runs every ten minutes, and another one once. -/
def orphans : List Job := [jobOn 1 (.interval 10), jobOn 2 (.onTime (.ofMillis 60000))]

theorem orphans_are_queued :
    (obligingInMemory.reconcile.on (worldOf (.ofMillis 0) leftOver orphans)).1 = .ok ⟨1, 1, 0⟩ ∧
      ∀ job ∈ orphans, (obligingInMemory.isQueued job).Ends
        (obligingInMemory.reconcile.on (worldOf (.ofMillis 0) leftOver orphans)).2 (fun found _ => found = true)
        fun _ _ => False := by
  have takes : ∀ job ∈ orphans, (CalmQueue.memory {}).Takes job := by
    simp only [orphans, List.forall_mem_cons]
    exact ⟨⟨show 10 < 4294967296 by decide, trivial⟩, ⟨trivial, trivial⟩, nofun⟩
  have pass := reconcile_restores_orphans (g := obligingInMemory) (w := worldOf (.ofMillis 0) leftOver orphans)
    (.memory {}) .memory rfl rfl (by decide) reached_leftOver (by decide +kernel) takes
  have report : (obligingInMemory.reconcile.on (worldOf (.ofMillis 0) leftOver orphans)).1 = .ok ⟨1, 1, 0⟩ := by
    decide +kernel
  obtain ⟨_, found⟩ := pass.1 _ report
  have single : leftOver.contents.Singly (jobOn 2 (.onTime (.ofMillis 60000))).queueKey := fun id e stored key => by
    have others : leftOver.entries.values.all (·.key != (jobOn 2 (.onTime (.ofMillis 60000))).queueKey) = true := by
      decide +kernel
    simpa [key] using List.all_eq_true.mp others e (Table.mem_values_iff.mpr ⟨id, stored⟩)
  have fit : ∀ job ∈ orphans, job.schedule.Accepted ∧ queuePlan job.schedule (.ofMillis 0) ≠ .expired ∧
      (job.schedule.spec? = none → leftOver.contents.Singly job.queueKey ∨
        (leftOver.contents.entry (singleId job.queueKey)).isSome) := by
    simp only [orphans, List.forall_mem_cons]
    exact ⟨⟨⟨by decide, by decide⟩, by decide, nofun⟩, ⟨trivial, by decide, fun _ => .inl single⟩, nofun⟩
  refine ⟨report, fun job mem => ?_⟩
  obtain ⟨accepted, ahead, alone⟩ := fit job mem
  exact (found job mem accepted ahead).2.mono (fun _ _ ⟨_, queued⟩ => queued alone) fun _ _ h => h

/-- Both exceptions are needed: an entry that is left of a job when it repeated is taken for its single entry, and in
the last second of the calendar a pass breaks off. -/
theorem orphans_left_out :
    (∃ w, ∃ job ∈ w.store.rows.enabledJobs, (CalmQueue.memory {}).Reached w.now w.queue ∧ job.schedule.Accepted ∧
      queuePlan job.schedule w.now ≠ .expired ∧ (obligingInMemory.reconcile.on w).1 = .ok ⟨0, 0, 0⟩ ∧
      ((obligingInMemory.isQueued job).on (obligingInMemory.reconcile.on w).2).1 = .ok false) ∧
    ∃ w, ∃ job ∈ w.store.rows.enabledJobs, (CalmQueue.memory {}).Reached w.now w.queue ∧ job.schedule.Accepted ∧
      queuePlan job.schedule w.now ≠ .expired ∧ (obligingInMemory.reconcile.on w).1 = .error (.queue .outOfRange) ∧
      ((obligingInMemory.isQueued job).on (obligingInMemory.reconcile.on w).2).1 = .ok false := by
  constructor
  · let once := jobOn 1 (.onTime (.ofMillis 60000))
    exact ⟨worldOf (.ofMillis 0) leftOver [once], once, by decide +kernel, reached_leftOver, trivial, by decide,
      by decide +kernel, by decide +kernel⟩
  · let hourly := jobOn 1 (.periodical "0 0 * * * *")
    have parsed : (parseExpression "0 0 * * * *").isOk = true := by decide +kernel
    have accepted : hourly.schedule.Accepted := by
      show ∃ p, parseExpression "0 0 * * * *" = .ok p
      cases read : parseExpression "0 0 * * * *" with
      | ok p => exact ⟨p, rfl⟩
      | error e =>
        rw [read] at parsed
        cases parsed
    exact ⟨worldOf ⟨8210266876799, 0⟩ {} [hourly], hourly, by decide +kernel,
      ⟨fun _ _ _ _ => True, .ofMillis 0, .ofMillis 0, .start⟩, accepted, by decide, by decide +kernel,
      by decide +kernel⟩

end Engine

end Timetable
