import Mathlib.Data.List.Nodup
import Mathlib.Logic.Relation
import Timetable.Proofs.Engine.Dispatch

/-!
# Runs of an engine in memory

An engine whose queue and store are kept in memory does one operation after the other, in any order: what is asked
of jobs, the dispatch of entries and the recording of what came of it, reconciliation, and what workers ask of the
queue. Entries may be any, their claims may be given up at any time, and functions may answer as they like, anew
every time.

Two conditions make up a run. An operation comes to its end, so the calendar does not break it off. And an
identifier that is handed out is a new one: the engine draws them at random, and a run may be longer than there are
identifiers, so this does not follow from how they are drawn.

Every run leaves as many records as there are enabled jobs that repeat, one for each, and every record that waits
for a fire has the entry of that fire (`recorded_jobs_of_run`).
-/

namespace Timetable

open World LocalQueue

/-- An engine whose queue and store are kept in memory and never fail. -/
def Engine.inMemory (rules : ClaimRules) (policy : SchedulePolicy) (threshold : Nat)
    (invoker : Invoker) : Engine LocalQueue (StoreState LocalStore) (Transaction LocalStore) where
  queue := workQueue rules
  store := LocalStore.jobStore noStoreFaults
  invoker := invoker
  policy := policy
  threshold := threshold

/-! ## Operations -/

/-- An operation of the engine, or what workers ask of its queue. -/
inductive Operation where
  | create (environment : String) (request : CreateJobRequest)
  | update (environment : String) (id : Identifier) (request : UpdateJobRequest)
  | delete (environment : String) (id : Identifier)
  | reconcile
  | process (entry : StoredEntry)
  /-- Records what came of a dispatch. -/
  | completed (entry : StoredEntry) (outcome : DispatchOutcome) (finishedOn : Instant)
  /-- Records that a dispatch was broken off. -/
  | failed (entry : StoredEntry) (finishedOn : Instant)
  | claimDue (limit : Nat)
  | renewLease (entry : StoredEntry)
  | recoverStalled
  | finish (entry : StoredEntry)

/-- A world, and what came of the dispatches so far. -/
structure Site where
  world : Memory
  outcomes : List (StoredEntry × DispatchOutcome) := []

namespace Site

variable {rules : ClaimRules} {policy : SchedulePolicy} {threshold : Nat} {invoker : Invoker}
  {s s' : Site} {op : Operation} {t₀ : Instant}

/-- Nothing is stored or queued, and nothing was done. -/
def start (t₀ : Instant) : Site := ⟨{ now := t₀, queue := {}, store := { rows := {} } }, []⟩

/-- The identifier that is handed out next. -/
def nextId (s : Site) : Identifier := .generated (s.world.store.issued + 1)

/-- The next identifier is not that of a stored job, nor of one that a dispatch found gone. -/
structure Fresh (s : Site) : Prop where
  notStored : s.world.jobs.get? s.nextId = none
  notGone : ∀ e queued, (e, .jobGone) ∈ s.outcomes → Engine.payloadJob e = .ok queued →
    queued.id ≠ s.nextId

end Site

namespace Operation

open Engine

/-- Does something that is no dispatch. -/
def silent {α : Type} (x : Act DispatchError Memory α) :
    Act DispatchError Memory (List (StoredEntry × DispatchOutcome)) := do
  discard x
  return []

/-- Does an operation; what came of a dispatch, if it was one. -/
def act (g : Engine LocalQueue (StoreState LocalStore) (Transaction LocalStore)) :
    Operation → Act DispatchError Memory (List (StoredEntry × DispatchOutcome))
  | create environment r => silent (engaging (g.createJob environment r))
  | update environment id r => silent (engaging (g.updateJob environment id r))
  | delete environment id => silent (engaging (g.deleteJob environment id))
  | reconcile => silent (engaging g.reconcile)
  | process e => do return [(e, ← g.process e)]
  | completed e outcome finishedOn => silent (g.completed e outcome finishedOn)
  | failed e finishedOn => silent (g.failed e finishedOn)
  | claimDue limit => do
    silent (engaging (queueing (onQueue (g.queue.claimDue (← time) limit))))
  | renewLease e => do silent (engaging (queueing (onQueue (g.queue.renewLease e (← time)))))
  | recoverStalled => do silent (engaging (queueing (onQueue (g.queue.recoverStalled (← time)))))
  | finish e => silent (engaging (queueing (onQueue (g.queue.finish e))))

/-- What an operation asks of the site: a new identifier for a new job, and a dispatch that took place for what
is recorded as its outcome. -/
def Allowed (s : Site) : Operation → Prop
  | create _ _ => s.Fresh
  | completed e outcome _ => (e, outcome) ∈ s.outcomes
  | _ => True

end Operation

namespace Site

/-- Time passes, or an operation comes to its end, whether it succeeds or not. -/
inductive Step (rules : ClaimRules) (policy : SchedulePolicy) (threshold : Nat) : Site → Site → Prop
  | tick {s : Site} {now : Instant} :
    s.world.now ≤ now → Step rules policy threshold s ⟨{ s.world with now }, s.outcomes⟩
  | succeed {s : Site} {world : Memory} {op : Operation} {invoker : Invoker}
      {news : List (StoredEntry × DispatchOutcome)} :
    op.Allowed s → (op.act (.inMemory rules policy threshold invoker)).on s.world = (.ok news, world) →
    Step rules policy threshold s ⟨world, news ++ s.outcomes⟩
  | fail {s : Site} {world : Memory} {op : Operation} {invoker : Invoker} {e : DispatchError} :
    op.Allowed s → (op.act (.inMemory rules policy threshold invoker)).on s.world = (.error e, world) →
    e.isOutOfRange = false → Step rules policy threshold s ⟨world, s.outcomes⟩

/-- The sites that a run may reach. -/
def Reached (rules : ClaimRules) (policy : SchedulePolicy) (threshold : Nat) (t₀ : Instant)
    (s : Site) : Prop :=
  Relation.ReflTransGen (Step rules policy threshold) (start t₀) s

/-- The job of an entry is gone. -/
def Gone (w : Memory) (e : StoredEntry) : Prop :=
  ∃ queued, Engine.payloadJob e = .ok queued ∧ w.jobs.get? queued.id = none

/-- The store and the queue are in step, and jobs that were found gone did not come back. -/
structure InStep (s : Site) : Prop where
  world : s.world.InStep
  gone : ∀ {e}, (e, .jobGone) ∈ s.outcomes → Gone s.world e

end Site

namespace Engine

open Site

variable {rules : ClaimRules} {policy : SchedulePolicy} {threshold : Nat} {invoker : Invoker}
  {s s' : Site} {op : Operation} {new new' : Identifier → Prop} {w w' : Memory}

theorem Later.mono (h : Later new w w') (sub : ∀ id, new id → new' id) : Later new' w w' :=
  ⟨h.inStep, fun {id} ne => h.absent (mt (sub id) ne)⟩

theorem Later.gone {e : StoredEntry} (h : Later new w w') (gone : Gone w e)
    (ne : ∀ queued, payloadJob e = .ok queued → ¬ new queued.id) : Gone w' e := by
  obtain ⟨queued, hq, absent⟩ := gone
  exact ⟨queued, hq, h.absent (ne queued hq) absent⟩

/-- A request to the queue that leaves its records as they are. -/
theorem queueing_ends {α : Type} {x : Act QueueError LocalQueue α} (h : w.InStep)
    (hx : x.Ends w.queue
      (fun _ q => Sound w.now q ∧ ∀ key spec, q.Has key spec ↔ w.queue.Has key spec)
      fun e _ => e = .outOfRange) :
    (engaging (queueing (onQueue x))).Ends w (fun _ w' => Later (fun _ => False) w w')
      fun e _ => e.isOutOfRange = true := by
  refine Act.ends_mapError.mpr (Act.ends_mapError.mpr (ends_onQueue.mpr (hx.mono ?_ ?_)))
  · rintro _ q ⟨sound, same⟩
    exact .of_jobs_eq (Timetable.InStep.withQueue h sound same) rfl
  · rintro _ q rfl
    rfl

/-- What an operation leaves that comes to its end. -/
structure Ended (s : Site) (news : List (StoredEntry × DispatchOutcome)) (w' : Memory) : Prop where
  later : Later (fun id => s.Fresh ∧ id = s.nextId) s.world w'
  gone : ∀ {e}, (e, .jobGone) ∈ news → Gone w' e

theorem Ended.of_later (h : Later (fun _ => False) s.world w') : Ended s [] w' :=
  ⟨h.mono fun _ => False.elim, by simp⟩

theorem silent_ends {α : Type} {x : Act DispatchError Memory α}
    (h : x.Ends s.world (fun _ w' => Ended s [] w')
      fun e w' => e.isOutOfRange = true ∨ Ended s [] w') :
    (Operation.silent x).Ends s.world (Ended s) fun e w' => e.isOutOfRange = true ∨ Ended s [] w' :=
  Act.ends_bind.mpr (Act.ends_discard.mpr (h.mono (fun _ _ h => Act.ends_pure.mpr h) fun _ _ h => h))

/-- Every operation ends in step, unless the calendar breaks it off. -/
theorem act_ends (h : s.InStep) (allowed : op.Allowed s) :
    (op.act (inMemory rules policy threshold invoker)).Ends s.world (Ended s)
      fun e w' => e.isOutOfRange = true ∨ Ended s [] w' := by
  have inStep := h.world
  cases op with
  | create environment r =>
    have fresh : s.Fresh := allowed
    refine silent_ends (Act.ends_mapError.mpr ?_)
    refine (createJob_ends rfl rfl inStep fresh.notStored r).mono (fun _ w' later => ?_) ?_
    · exact ⟨later.mono fun _ same => ⟨fresh, same⟩, by simp⟩
    · rintro e w' (final | rfl)
      · exact .inl final
      · exact .inr (.of_later (.of_jobs_eq inStep rfl))
  | update environment id r =>
    refine silent_ends (Act.ends_mapError.mpr ((updateJob_ends rfl rfl inStep r).mono ?_ ?_))
    · exact fun _ _ => .of_later
    · exact fun _ _ => Or.imp_right .of_later
  | delete environment id =>
    refine silent_ends (Act.ends_mapError.mpr ((deleteJob_ends rfl rfl inStep).mono ?_ ?_))
    · exact fun _ _ => .of_later
    · exact fun _ _ later => .inr (.of_later later)
  | reconcile =>
    refine silent_ends (Act.ends_mapError.mpr ((reconcile_ends rfl rfl inStep).mono ?_ ?_))
    · exact fun _ _ => .of_later
    · exact fun _ _ => .inl
  | process e =>
    refine Act.ends_bind.mpr ((process_ends rfl).mono ?_ ?_)
    · rintro outcome w' ⟨same, gone⟩
      refine Act.ends_pure.mpr ⟨(same.later inStep).mono fun _ => False.elim, fun {e'} he => ?_⟩
      simp only [List.mem_singleton, Prod.mk.injEq] at he
      exact he.1 ▸ gone he.2.symm
    · exact fun _ w' same => .inr (.of_later (same.later inStep))
  | completed e outcome finishedOn =>
    have recorded : (e, outcome) ∈ s.outcomes := allowed
    refine silent_ends ((completed_ends rfl rfl inStep ?_ finishedOn).mono ?_ ?_)
    · rintro rfl
      exact h.gone recorded
    · exact fun _ _ => .of_later
    · exact fun _ _ => False.elim
  | failed e finishedOn =>
    refine silent_ends ((failed_ends rfl rfl inStep finishedOn).mono ?_ ?_)
    · exact fun _ _ => .of_later
    · exact fun _ _ => Or.imp_right .of_later
  | claimDue limit =>
    refine Act.ends_bind.mpr (ends_time.mpr (silent_ends ?_))
    refine (queueing_ends inStep (claimDue_ends inStep.sound limit)).mono ?_ fun _ _ => .inl
    exact fun _ _ => .of_later
  | renewLease e =>
    refine Act.ends_bind.mpr (ends_time.mpr (silent_ends ?_))
    refine (queueing_ends inStep ((renewLease_ends inStep.sound e).mono ?_ fun _ _ he => he)).mono ?_
      fun _ _ => .inl
    · rintro _ q ⟨sound, same⟩
      exact ⟨sound, fun key spec => has_of_repeats_eq same⟩
    · exact fun _ _ => .of_later
  | recoverStalled =>
    refine Act.ends_bind.mpr (ends_time.mpr (silent_ends ?_))
    refine (queueing_ends inStep ((Act.ends_of_on_ok (recoverStalled_on _ _)).mpr ?_)).mono ?_
      fun _ _ => .inl
    · exact ⟨inStep.sound.recover, fun key spec => has_of_repeats_eq rfl⟩
    · exact fun _ _ => .of_later
  | finish e =>
    refine silent_ends ((queueing_ends inStep ((finish_ends inStep.sound e).mono ?_ ?_)).mono ?_
      fun _ _ => .inl)
    · rintro _ q ⟨sound, same⟩
      exact ⟨sound, fun key spec => has_of_repeats_eq same⟩
    · exact fun _ _ => False.elim
    · exact fun _ _ => .of_later

end Engine

namespace Site

variable {rules : ClaimRules} {policy : SchedulePolicy} {threshold : Nat} {t₀ : Instant} {s s' : Site}

theorem inStep_start (t₀ : Instant) : (start t₀).InStep where
  world :=
    { sound := Sound.empty t₀
      ownId := fun hj => by cases hj
      accepted := fun hj => by cases hj
      records := by simp [start, Has, World.jobs] }
  gone h := by cases h

theorem InStep.ended (h : s.InStep) {news : List (StoredEntry × DispatchOutcome)} {w' : Memory}
    (ended : Engine.Ended s news w') : InStep ⟨w', news ++ s.outcomes⟩ where
  world := ended.later.inStep
  gone {e} he := by
    rcases List.mem_append.mp he with he | he
    · exact ended.gone he
    · refine ended.later.gone (h.gone he) ?_
      rintro queued hq ⟨fresh, same⟩
      exact fresh.notGone e queued he hq same

theorem InStep.step (h : s.InStep) (step : Step rules policy threshold s s') : s'.InStep := by
  cases step with
  | tick hle =>
    exact ⟨Timetable.InStep.mono h.world hle, h.gone⟩
  | succeed allowed on => exact h.ended ((Act.ends_of_on_ok on).mp (Engine.act_ends h allowed))
  | fail allowed on whole =>
    rcases (Act.ends_of_on_error on).mp (Engine.act_ends h allowed) with final | ended
    · rw [whole] at final
      cases final
    · exact h.ended ended

theorem InStep.of_reached (h : Reached rules policy threshold t₀ s) : s.InStep := by
  induction h with
  | refl => exact inStep_start t₀
  | tail _ step ih => exact ih.step step

end Site

/-! ## Records and jobs -/

/-- The key under which an enabled job that repeats is recorded, and what it repeats. -/
def Job.repeats? (now : Instant) (job : Job) : Option (String × RepeatSpec) :=
  if job.isEnabled then
    match queuePlan job.schedule now with
    | .repeating spec => some (job.id.text, spec)
    | _ => none
  else none

theorem Job.repeats?_eq_some_iff {now : Instant} {job : Job} {key : String} {spec : RepeatSpec} :
    job.repeats? now = some (key, spec) ↔ job.queueKey = key ∧ job.wants = some spec := by
  rw [Job.wants_eq_some_iff]
  unfold Job.repeats? Job.queueKey
  cases job.isEnabled with
  | false => simp
  | true =>
    cases hp : queuePlan job.schedule now with
    | repeating spec' => simp [queuePlan_eq_repeating_iff.mp hp]
    | delayed millis => simp [spec?_eq_none now (s := job.schedule) (by simp [hp])]
    | expired => simp [spec?_eq_none now (s := job.schedule) (by simp [hp])]

section

variable {clock : Instant} {q : LocalQueue} {jobs : Table Identifier Job}

/-- No two records are of the same key and specification. -/
theorem LocalQueue.Sound.nodup_chains (h : Sound clock q) :
    (q.repeats.values.map fun r => (r.key, r.spec)).Nodup := by
  refine List.Nodup.of_map (fun p => repeatField p.1 p.2) ?_
  have fields : (q.repeats.values.map fun r => (r.key, r.spec)).map (fun p => repeatField p.1 p.2) =
      q.repeats.keys := by
    rw [Table.values, Table.keys, List.map_map, List.map_map]
    exact List.map_congr_left fun p hp => h.ownField (Table.mem_pairs_iff.mp hp)
  rw [fields]
  exact q.repeats.nodup

/-- No two jobs ask for the same record. -/
theorem InStep.nodup_wanted (h : InStep clock q jobs) (now : Instant) :
    (jobs.values.filterMap (Job.repeats? now)).Nodup := by
  rw [List.Nodup, List.pairwise_filterMap, Table.values, List.pairwise_map]
  refine (List.pairwise_map.mp jobs.nodup).imp_of_mem ?_
  rintro ⟨id, job⟩ ⟨id', job'⟩ hm hm' ne p hp _ hp' rfl
  obtain ⟨key, spec⟩ := p
  have own : job.id = id := h.ownId (Table.mem_pairs_iff.mp hm)
  have own' : job'.id = id' := h.ownId (Table.mem_pairs_iff.mp hm')
  obtain ⟨hk, _⟩ := Job.repeats?_eq_some_iff.mp hp
  obtain ⟨hk', _⟩ := Job.repeats?_eq_some_iff.mp hp'
  exact ne (own.symm.trans ((Identifier.text_injective (hk.trans hk'.symm)).trans own'))

theorem InStep.perm (h : InStep clock q jobs) (now : Instant) :
    (q.repeats.values.map fun r => (r.key, r.spec)).Perm
      (jobs.values.filterMap (Job.repeats? now)) := by
  refine (List.perm_ext_iff_of_nodup h.sound.nodup_chains (h.nodup_wanted now)).mpr ?_
  rintro ⟨key, spec⟩
  have left : (key, spec) ∈ (q.repeats.values.map fun r => (r.key, r.spec)) ↔ q.Has key spec := by
    simp only [List.mem_map, Table.mem_values_iff, Prod.mk.injEq]
    constructor
    · rintro ⟨r, ⟨f, hr⟩, hk, hs⟩
      exact ⟨f, r, hr, hk, hs⟩
    · rintro ⟨f, r, hr, hk, hs⟩
      exact ⟨r, ⟨f, hr⟩, hk, hs⟩
  rw [left, h.records, List.mem_filterMap]
  simp only [Table.mem_values_iff, Job.repeats?_eq_some_iff]
  constructor
  · rintro ⟨id, job, hj, hw⟩
    exact ⟨job, ⟨id, hj⟩, hw⟩
  · rintro ⟨job, ⟨id, hj⟩, hw⟩
    exact ⟨id, job, hj, hw⟩

end

/-- Whatever was done, there is one record for each enabled job that repeats and no other, and a record that waits
for a fire has the entry of that fire stored, which nobody claims or ever claimed. -/
theorem recorded_jobs_of_run {rules : ClaimRules} {policy : SchedulePolicy} {threshold : Nat}
    {t₀ : Instant} {s : Site} (run : Site.Reached rules policy threshold t₀ s) :
    (s.world.queue.repeats.values.map fun r => (r.key, r.spec)).Perm
        (s.world.jobs.values.filterMap (Job.repeats? s.world.now)) ∧
      ∀ r ∈ s.world.queue.repeats.values, ∀ t, r.next = some t →
        ∃ e, s.world.queue.entries.get? (instanceId r.key r.spec t) = some e ∧
          e.id = instanceId r.key r.spec t ∧ e.key = r.key ∧ e.repeats = some r.spec ∧
          e.fireAt = t ∧ s.world.queue.active.contains e.id = false ∧ e.processedOn = none := by
  have inStep := (Site.InStep.of_reached run).world
  refine ⟨InStep.perm inStep _, fun r hr t hn => ?_⟩
  obtain ⟨f, hr⟩ := Table.mem_values_iff.mp hr
  exact inStep.sound.chained.current f r t hr hn

/-! ## A run (used by the theorem below) -/

/-- A job that runs every five minutes. -/
def everyFiveMinutes : CreateJobRequest where
  name := "a"
  schedule := .interval 5
  functions := [{ functionId := "f" }]
  executionType := .sequential

/-- The site after an operation that is no dispatch. -/
def Site.after (op : Operation) (s : Site) : Site :=
  ⟨((op.act (.inMemory {} {} 3 .obliging)).on s.world).2, s.outcomes⟩

theorem Site.step_after {op : Operation} {s : Site} (allowed : op.Allowed s)
    (silent : ((op.act (.inMemory {} {} 3 .obliging)).on s.world).1 = .ok []) :
    Site.Step {} {} 3 s (s.after op) :=
  .succeed allowed (Prod.ext silent rfl)

/-- The job was created at the start of 1970. -/
def createdSite : Site := (Site.start (.ofMillis 0)).after (.create "e" everyFiveMinutes)

/-- Its first fire was claimed five minutes later. -/
def claimedSite : Site :=
  Site.after (.claimDue 1) ⟨{ createdSite.world with now := .ofMillis 300000 }, []⟩

theorem reached_claimedSite : Site.Reached {} {} 3 (.ofMillis 0) claimedSite := by
  have create : Site.Step {} {} 3 (.start (.ofMillis 0)) createdSite :=
    Site.step_after ⟨rfl, fun _ _ h => by cases h⟩ (by decide +kernel)
  refine .tail (.tail (.tail .refl create) (.tick ?_)) (Site.step_after trivial ?_)
  · decide +kernel
  · decide +kernel

/-- While the first fire of a job is at work, its record waits for the second. -/
theorem recorded_after_first_claim :
    Site.Reached {} {} 3 (.ofMillis 0) claimedSite ∧
      claimedSite.world.queue.active.size = 1 ∧
      claimedSite.world.queue.repeats.values.map (·.next) = [some (.ofMillis 600000)] ∧
      (claimedSite.world.queue.repeats.values.map fun r => (r.key, r.spec)).Perm
        (claimedSite.world.jobs.values.filterMap (Job.repeats? claimedSite.world.now)) :=
  ⟨reached_claimedSite, by decide +kernel, by decide +kernel, (recorded_jobs_of_run reached_claimedSite).1⟩

end Timetable
