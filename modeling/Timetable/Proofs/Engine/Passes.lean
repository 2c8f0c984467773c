import Timetable.Proofs.Engine.Runs

/-!
# Passes of reconciliation while jobs change

A pass gives up late claims, lists the enabled jobs, the entries and the records one after the other, and then puts
back what is missing, job by job as it was listed. Between two of these steps jobs may be changed or deleted
(`Pass.Step`). A pass that nothing comes between is one of these (`Pass.of_reconcile`).

While a pass looks around, from the list of jobs to that of the records, a change can leave it with a job that it
misses in the queue although nobody wants it there any more; it puts such a job back (`pass_restores_disabled_job`). A
change before or after makes no difference (`records_wanted_of_pass`): then no job with a record is missed, so only
single entries are put back.
-/

namespace Timetable

open World LocalQueue

/-- How far a pass is. -/
inductive PassStage where
  | begun
  | recovered
  | listedJobs (jobs : List Job)
  | listedEntries (jobs : List Job) (entries : List QueueEntry)
  /-- The jobs that are left to look at, with what was seen, and when. -/
  | restoring (seen : Survey) (now : Instant) (jobs : List Job)

namespace PassStage

/-- Whether a pass has listed the jobs and not yet the records. -/
def IsLooking : PassStage → Prop
  | listedJobs _ | listedEntries _ _ => True
  | _ => False

/-- Whether nothing is left to look at. -/
def HasEnded : PassStage → Prop
  | restoring _ _ [] => True
  | _ => False

instance : DecidablePred IsLooking
  | begun => isFalse id
  | recovered => isFalse id
  | listedJobs _ => isTrue trivial
  | listedEntries _ _ => isTrue trivial
  | restoring .. => isFalse id

instance : DecidablePred HasEnded
  | begun => isFalse id
  | recovered => isFalse id
  | listedJobs _ => isFalse id
  | listedEntries _ _ => isFalse id
  | restoring _ _ [] => isTrue trivial
  | restoring _ _ (_ :: _) => isFalse id

variable {σ ρ τ : Type}

/-- The next step of a pass. -/
def next (g : Engine σ ρ τ) : PassStage → Act EngineError (World σ ρ) PassStage
  | begun => do
    discard (Engine.queueing (onQueue (g.queue.recoverStalled (← time))))
    return recovered
  | recovered => return listedJobs (← Engine.storing (onStore g.store.listEnabledJobs))
  | listedJobs jobs => do
    let entries ← Engine.queueing (onQueue (g.queue.listEntries (← time) EntryState.all))
    return listedEntries jobs entries
  | listedEntries jobs entries => do
    let records ← Engine.queueing (onQueue g.queue.listRepeating)
    return restoring ⟨jobs, entries, records⟩ (← time) jobs
  | restoring seen now [] => return restoring seen now []
  | restoring seen now (job :: jobs) => do
    discard (g.restoreJob seen now job)
    return restoring seen now jobs

end PassStage

structure Pass where
  world : Memory
  stage : PassStage

namespace Pass

/-- The pass takes its next step, time passes, or a job is changed or deleted where `may` allows it. -/
inductive Step (g : Engine LocalQueue (StoreState LocalStore) (Transaction LocalStore))
    (may : PassStage → Prop) : Pass → Pass → Prop
  | pass {p : Pass} {stage : PassStage} {world : Memory} :
    (p.stage.next g).on p.world = (.ok stage, world) → Step g may p ⟨world, stage⟩
  | tick {p : Pass} {now : Instant} : p.world.now ≤ now → Step g may p ⟨{ p.world with now }, p.stage⟩
  | update {p : Pass} {environment : String} {id : Identifier} {r : UpdateJobRequest}
      {out : Except EngineError Job} {world : Memory} :
    may p.stage → (g.updateJob environment id r).on p.world = (out, world) →
    (∀ e, out = .error e → e.isOutOfRange = false) → Step g may p ⟨world, p.stage⟩
  | delete {p : Pass} {environment : String} {id : Identifier} {out : Except EngineError Unit}
      {world : Memory} :
    may p.stage → (g.deleteJob environment id).on p.world = (out, world) → Step g may p ⟨world, p.stage⟩

abbrev Reach (g : Engine LocalQueue (StoreState LocalStore) (Transaction LocalStore))
    (may : PassStage → Prop) : Pass → Pass → Prop :=
  Relation.ReflTransGen (Step g may)

variable {g : Engine LocalQueue (StoreState LocalStore) (Transaction LocalStore)} {rules : ClaimRules}
  {may : PassStage → Prop} {p p' : Pass} {w w' : Memory} {s : Survey} {now : Instant} {job : Job}

/-! ## A pass alone -/

theorem reach_restoreJobs {jobs : List Job} {kinds : List Restoration}
    (h : (g.restoreJobs s now jobs).on w = (.ok kinds, w')) :
    Reach g may ⟨w, .restoring s now jobs⟩ ⟨w', .restoring s now []⟩ := by
  induction jobs generalizing w kinds with
  | nil =>
    cases h
    exact .refl
  | cons job jobs ih =>
    obtain ⟨kind, w₁, one, h⟩ := Act.on_bind_eq_ok.mp h
    obtain ⟨kinds', w₂, rest, h⟩ := Act.on_bind_eq_ok.mp h
    cases h
    refine .head (.pass ?_) (ih rest)
    rw [PassStage.next, Act.on_bind, Act.on_discard, one]
    rfl

/-- A pass that nothing comes between takes the steps of one. -/
theorem of_reconcile {report : ReconcileReport} (h : g.reconcile.on w = (.ok report, w')) :
    ∃ w₁ s now f, Reach g may ⟨w, .begun⟩ ⟨w₁, .restoring s now []⟩ ∧ w' = tell f w₁ := by
  simp only [Engine.reconcile, Engine.survey, Act.on_bind_eq_ok] at h
  obtain ⟨_, _, time, _, w₁, recover, seen, w₂, ⟨jobs, w₃, list, _, _, time', entries, w₄, listed, records, w₅,
    recorded, look⟩, _, _, time'', kinds, w₆, restore, _, _, tell, h⟩ := h
  cases time
  cases time'
  cases time''
  cases look
  cases tell
  cases h
  refine ⟨w₆, ⟨jobs, entries, records⟩, w₂.now, _, ?_, rfl⟩
  have begun : (PassStage.begun.next g).on w = (.ok .recovered, w₁) := by
    refine Act.on_bind_eq_ok.mpr ⟨_, _, rfl, Act.on_bind_eq_ok.mpr ⟨(), w₁, ?_, rfl⟩⟩
    rw [Act.on_discard, recover]
    rfl
  have jobsListed : (PassStage.recovered.next g).on w₁ = (.ok (.listedJobs jobs), w₃) :=
    Act.on_bind_eq_ok.mpr ⟨_, _, list, rfl⟩
  have entriesListed : ((PassStage.listedJobs jobs).next g).on w₃ = (.ok (.listedEntries jobs entries), w₄) :=
    Act.on_bind_eq_ok.mpr ⟨_, _, rfl, Act.on_bind_eq_ok.mpr ⟨_, _, listed, rfl⟩⟩
  have recordsListed : ((PassStage.listedEntries jobs entries).next g).on w₄ =
      (.ok (.restoring ⟨jobs, entries, records⟩ w₂.now jobs), w₂) :=
    Act.on_bind_eq_ok.mpr ⟨_, _, recorded, Act.on_bind_eq_ok.mpr ⟨_, _, rfl, rfl⟩⟩
  exact .head (.pass begun) (.head (.pass jobsListed) (.head (.pass entriesListed)
    (.head (.pass recordsListed) (reach_restoreJobs restore))))

/-! ## What a pass sees -/

/-- What a pass knows at some stage of a world that did not change while it looked around. -/
def Fits (w : Memory) : PassStage → Prop
  | .begun | .recovered => True
  | .listedJobs jobs => ∀ job ∈ jobs, w.jobs.get? job.id = some job ∧ job.isEnabled = true
  | .listedEntries jobs entries =>
    (∀ job ∈ jobs, w.jobs.get? job.id = some job ∧ job.isEnabled = true) ∧
      ∀ id e, w.queue.entries.get? id = some e → ∃ seen ∈ entries, seen.entry = e
  | .restoring s now jobs => ∀ job ∈ jobs, s.lacks? now job ≠ some .repeating

/-- A job whose record is there is not missed. -/
theorem not_lacks (h : w.InStep) (stored : w.jobs.get? job.id = some job) (enabled : job.isEnabled = true)
    (records : s.records = w.queue.repeats.values)
    (entries : ∀ id e, w.queue.entries.get? id = some e → ∃ seen ∈ s.entries, seen.entry = e) :
    s.lacks? now job ≠ some .repeating := by
  unfold Survey.lacks?
  cases plan : queuePlan job.schedule now with
  | repeating spec =>
    have wants : job.wants = some spec :=
      Job.wants_eq_some_iff.mpr ⟨enabled, queuePlan_eq_repeating_iff.mp plan⟩
    obtain ⟨f, r, hr, hk, hs⟩ := h.records.mpr ⟨_, job, stored, rfl, wants⟩
    have live : s.isLive r = true := by
      unfold Survey.isLive
      cases fire : r.currentInstance with
      | none => rfl
      | some e =>
        obtain ⟨t, hn, rfl⟩ := Option.map_eq_some_iff.mp fire
        obtain ⟨e, he, _⟩ := h.sound.waits hr hn
        obtain ⟨seen, mem, rfl⟩ := entries _ _ he
        have held : s.holdsEntry (instanceId r.key r.spec t) = true :=
          List.any_eq_true.mpr ⟨seen, mem, beq_iff_eq.mpr (h.sound.ownId he)⟩
        simp only [StoredEntry.ofFire, held, Bool.true_or]
    have holds : s.holdsLive job.queueKey spec = true := by
      refine List.any_eq_true.mpr ⟨r, records ▸ Table.mem_values_iff.mpr ⟨f, hr⟩, ?_⟩
      simp [live, hk, hs]
    simp [holds]
  | delayed millis =>
    dsimp only
    split <;> simp
  | expired => simp

theorem restoreJob_ends (hg : g.queue = workQueue rules) (h : w.InStep)
    (seen : s.lacks? now job ≠ some .repeating) :
    (g.restoreJob s now job).Ends w (fun _ w' => w'.InStep) fun _ _ => True := by
  unfold Engine.restoreJob
  cases lacks : s.lacks? now job with
  | none => exact Act.ends_pure.mpr h
  | some kind =>
    cases kind with
    | repeating => exact absurd lacks seen
    | single =>
      -- a single entry touches no record
      have once : job.schedule.spec? = none := by
        refine spec?_eq_none now fun spec plan => ?_
        simp only [Survey.lacks?, plan] at lacks
        split at lacks <;> cases lacks
      have accepted : job.schedule.Accepted := by
        cases hs : job.schedule with
        | onTime _ => trivial
        | _ =>
          rw [hs] at once
          cases once
      simp only [Act.ends_bind, Engine.attempting, Engine.queueing, Act.ends_attemptUnless, Act.ends_mapError]
      refine (Engine.enqueue_ends hg h.sound accepted).mono (fun _ w' moved => ?_) fun e w' he => ?_
      · refine Act.ends_pure.mpr ?_
        show InStep w'.now w'.queue w'.jobs
        rw [moved.now, moved.jobs]
        refine InStep.withQueue h (moved.now ▸ moved.sound) fun key spec => (moved.has key spec).trans ?_
        simp [once]
      · subst he
        simp [EngineError.isOutOfRange]

/-! ## Passes that are not disturbed while they look around -/

/-- A step of the pass itself. -/
theorem next_ends (hg : g.queue = workQueue rules) (hs : g.store = LocalStore.jobStore noStoreFaults)
    (h : w.InStep) {stage : PassStage} (fits : Fits w stage) :
    (stage.next g).Ends w (fun stage' w' => w'.InStep ∧ Fits w' stage') fun _ _ => True := by
  cases stage with
  | begun =>
    simp only [PassStage.next, Act.ends_bind, World.ends_time, Act.ends_discard, Engine.queueing, hg,
      Act.ends_mapError, Act.ends_pure]
    refine World.ends_onQueue.mpr ((Act.ends_of_on_ok (recoverStalled_on _ _)).mpr ⟨?_, trivial⟩)
    exact InStep.withQueue h h.sound.recover fun key spec => has_of_repeats_eq rfl
  | recovered =>
    simp only [PassStage.next, Act.ends_bind, Engine.storing, hs, Act.ends_mapError, Act.ends_pure]
    rw [Act.ends_of_on_ok (onStore_listEnabledJobs_on _)]
    refine ⟨h, fun job mem => ?_⟩
    simp only [LocalStore.enabledJobs, List.mem_filter, Table.mem_values_iff] at mem
    obtain ⟨⟨id, stored⟩, enabled⟩ := mem
    exact ⟨h.ownId stored ▸ stored, enabled⟩
  | listedJobs jobs =>
    simp only [PassStage.next, Act.ends_bind, World.ends_time, Engine.queueing, hg, Act.ends_mapError,
      Act.ends_pure]
    refine World.ends_onQueue.mpr ((Act.ends_of_on_ok (listEntries_on _ _ _)).mpr ⟨h, fits, ?_⟩)
    intro id e stored
    refine ⟨w.queue.withState w.now e, List.mem_filter.mpr ⟨List.mem_map_of_mem ?_, ?_⟩, rfl⟩
    · exact Table.mem_values_iff.mpr ⟨id, stored⟩
    · cases (w.queue.withState w.now e).state <;> rfl
  | listedEntries jobs entries =>
    obtain ⟨stored, seen⟩ := fits
    simp only [PassStage.next, Act.ends_bind, World.ends_time, Engine.queueing, hg, Act.ends_mapError,
      Act.ends_pure]
    refine World.ends_onQueue.mpr ((Act.ends_of_on_ok (listRepeating_on _)).mpr ⟨h, fun job mem => ?_⟩)
    exact not_lacks h (stored job mem).1 (stored job mem).2 rfl seen
  | restoring s now jobs =>
    cases jobs with
    | nil => exact Act.ends_pure.mpr ⟨h, fits⟩
    | cons job jobs =>
      simp only [PassStage.next, Act.ends_bind, Act.ends_discard, Act.ends_pure]
      refine (restoreJob_ends hg h (fits job List.mem_cons_self)).mono (fun _ w' h' => ?_) fun _ _ e => e
      exact ⟨h', fun job' mem => fits job' (List.mem_cons_of_mem _ mem)⟩

/-- What a pass knows does not depend on the world unless it looks around. -/
theorem Fits.of_not_isLooking {stage : PassStage} (h : Fits w stage) (quiet : ¬ stage.IsLooking) :
    Fits w' stage := by
  cases stage with
  | listedJobs | listedEntries => exact absurd trivial quiet
  | _ => exact h

theorem inStep_step (hg : g.queue = workQueue rules) (hs : g.store = LocalStore.jobStore noStoreFaults)
    (h : p.world.InStep) (fits : Fits p.world p.stage) (step : Step g (fun stage => ¬ stage.IsLooking) p p') :
    p'.world.InStep ∧ Fits p'.world p'.stage := by
  cases step with
  | pass on => exact (Act.ends_of_on_ok on).mp (next_ends hg hs h fits)
  | tick later =>
    refine ⟨Timetable.InStep.mono h later, ?_⟩
    obtain ⟨world, stage⟩ := p
    cases stage <;> exact fits
  | @update environment id r out world quiet on whole =>
    refine ⟨?_, fits.of_not_isLooking quiet⟩
    have ends : (g.updateJob environment id r).Ends _ _ _ := Engine.updateJob_ends hg hs h r
    cases out with
    | ok job => exact ((Act.ends_of_on_ok on).mp ends).inStep
    | error e =>
      rcases (Act.ends_of_on_error on).mp ends with final | later
      · exact absurd final (by simp [whole e rfl])
      · exact later.inStep
  | @delete environment id out world quiet on =>
    refine ⟨?_, fits.of_not_isLooking quiet⟩
    have ends : (g.deleteJob environment id).Ends _ _ _ := Engine.deleteJob_ends hg hs h
    cases out with
    | ok _ => exact ((Act.ends_of_on_ok on).mp ends).inStep
    | error e => exact ((Act.ends_of_on_error on).mp ends).inStep

/-- A pass leaves every record with an enabled job whose schedule asks for just that, as long as no job is changed or
deleted while it looks around. -/
theorem records_wanted_of_pass (hg : g.queue = workQueue rules)
    (hs : g.store = LocalStore.jobStore noStoreFaults) (h : w.InStep)
    (run : Reach g (fun stage => ¬ stage.IsLooking) ⟨w, .begun⟩ p) :
    ∀ r ∈ p.world.queue.repeats.values, ∃ job ∈ p.world.jobs.values,
      job.queueKey = r.key ∧ job.isEnabled = true ∧ queuePlan job.schedule p.world.now = .repeating r.spec := by
  have inStep : p.world.InStep ∧ Fits p.world p.stage := by
    induction run with
    | refl => exact ⟨h, trivial⟩
    | tail _ step ih => exact inStep_step hg hs ih.1 ih.2 step
  intro r mem
  obtain ⟨f, hr⟩ := Table.mem_values_iff.mp mem
  obtain ⟨id, job, stored, key, wants⟩ := inStep.1.records.mp ⟨f, r, hr, rfl, rfl⟩
  obtain ⟨enabled, spec⟩ := Job.wants_eq_some_iff.mp wants
  exact ⟨job, Table.mem_values_iff.mpr ⟨id, stored⟩, key, enabled, queuePlan_eq_repeating_iff.mpr spec⟩

/-! ## A pass that is disturbed (used by the theorems below) -/

def obligingEngine : Engine LocalQueue (StoreState LocalStore) (Transaction LocalStore) :=
  .inMemory {} {} 3 .obliging

/-- The pass after its next step. -/
def go (p : Pass) : Pass :=
  match (p.stage.next obligingEngine).on p.world with
  | (.ok stage, world) => ⟨world, stage⟩
  | (.error _, _) => p

/-- The job that was created first is disabled. -/
def disable (p : Pass) : Pass :=
  ⟨((obligingEngine.updateJob "e" (.generated 1) { enabled := some false }).on p.world).2, p.stage⟩

theorem step_go (ok : ((p.stage.next obligingEngine).on p.world).1.isOk = true) :
    Step obligingEngine may p p.go := by
  unfold go
  cases on : (p.stage.next obligingEngine).on p.world with
  | mk out world =>
    cases out with
    | ok stage => exact .pass on
    | error e => simp [on, Except.isOk, Except.toBool] at ok

theorem step_disable (allowed : may p.stage)
    (ok : ((obligingEngine.updateJob "e" (.generated 1) { enabled := some false }).on p.world).1.isOk = true) :
    Step obligingEngine may p p.disable := by
  unfold disable
  cases on : (obligingEngine.updateJob "e" (.generated 1) { enabled := some false }).on p.world with
  | mk out world =>
    refine .update allowed on fun e he => ?_
    subst he
    rw [on] at ok
    cases ok

theorem inStep_createdSite : createdSite.world.InStep := by
  have create : Site.Step {} {} 3 (.start (.ofMillis 0)) createdSite :=
    Site.step_after ⟨rfl, fun _ _ h => by cases h⟩ (by decide +kernel)
  exact (Site.InStep.of_reached (.tail .refl create)).world

/-- The pass begins with a job in the queue, and has listed the jobs. -/
def lookingPass : Pass := (go ⟨createdSite.world, .begun⟩).go

/-- A record is there when everything is listed, and then the job is disabled. -/
theorem records_wanted_after_disable :
    lookingPass.go.go.world.queue.repeats.values ≠ [] ∧
      ∀ p ∈ [lookingPass.go.go, lookingPass.go.go.disable.go], ∀ r ∈ p.world.queue.repeats.values,
        ∃ job ∈ p.world.jobs.values, job.queueKey = r.key ∧ job.isEnabled = true ∧
          queuePlan job.schedule p.world.now = .repeating r.spec := by
  have looked : Reach obligingEngine (fun stage => ¬ stage.IsLooking) ⟨createdSite.world, .begun⟩ lookingPass :=
    .tail (.tail .refl (step_go (by decide +kernel))) (step_go (by decide +kernel))
  have listed : Reach obligingEngine (fun stage => ¬ stage.IsLooking) ⟨createdSite.world, .begun⟩ lookingPass.go.go :=
    .tail (.tail looked (step_go (by decide +kernel))) (step_go (by decide +kernel))
  refine ⟨by decide +kernel, fun p mem => ?_⟩
  refine records_wanted_of_pass (g := obligingEngine) rfl rfl inStep_createdSite ?_
  obtain rfl | rfl : p = lookingPass.go.go ∨ p = lookingPass.go.go.disable.go := by simpa using mem
  · exact listed
  · exact .tail (.tail listed (step_disable (by decide +kernel) (by decide +kernel))) (step_go (by decide +kernel))

/-- A job that is disabled while the pass looks around is put back into the queue. -/
theorem pass_restores_disabled_job :
    createdSite.world.InStep ∧
      ∃ p : Pass, Reach obligingEngine (fun _ => True) ⟨createdSite.world, .begun⟩ p ∧
        p.stage.HasEnded ∧
        ∃ r ∈ p.world.queue.repeats.values, ∃ job ∈ p.world.jobs.values,
          job.queueKey = r.key ∧ job.isEnabled = false := by
  have looked : Reach obligingEngine (fun _ => True) ⟨createdSite.world, .begun⟩ lookingPass :=
    .tail (.tail .refl (step_go (by decide +kernel))) (step_go (by decide +kernel))
  have listed : Reach obligingEngine (fun _ => True) ⟨createdSite.world, .begun⟩ lookingPass.disable.go.go :=
    .tail (.tail (.tail looked (step_disable trivial (by decide +kernel))) (step_go (by decide +kernel)))
      (step_go (by decide +kernel))
  refine ⟨inStep_createdSite, lookingPass.disable.go.go.go, .tail listed (step_go (by decide +kernel)), ?_, ?_⟩
  · decide +kernel
  · decide +kernel

end Pass

end Timetable
