import Timetable.Proofs.Engine.Owned
import Timetable.Proofs.Engine.TakesEffect

/-!
# Disabled jobs

As long as a job is not enabled, no entry that is handed out makes a dispatch run its functions, whatever else is done and
however late the dispatch is (`disabled_job_does_not_run`): a claim drops the fires of a record that was taken out.

A single entry has no record. If it is at work when its job is disabled, it is not taken out, and when its lease is over
it is handed out like any other. So the theorem asks that no claimed single entry of the job is left, and
`disabled_job_runs_after_lost_claim` shows what happens otherwise.
-/

namespace Timetable

open World LocalQueue

/-- A dispatch of an entry runs the functions of a job. -/
def Engine.RunsJob (g : Engine LocalQueue (StoreState LocalStore) (Transaction LocalStore)) (e : StoredEntry)
    (w : Memory) (id : Identifier) : Prop :=
  ∃ job results w', (g.process e).on w = (.ok (.completed job results), w') ∧ job.id = id

namespace Site

variable {rules : ClaimRules} {policy : SchedulePolicy} {threshold : Nat} {t₀ t₁ : Instant} {s s' s'' : Site}
  {id : Identifier}

/-- A job is disabled, or not stored. -/
def Off (id : Identifier) (s : Site) : Prop := s.world.scene.Off id

/-- A run goes on while a job is not enabled. -/
def Idles (rules : ClaimRules) (policy : SchedulePolicy) (threshold : Nat) (id : Identifier) : Site → Site → Prop :=
  Relation.ReflTransGen fun s s' => Onward rules policy threshold s s' ∧ s'.Off id

/-- While a job is not enabled, no single entry is queued for it, unless a claimed one was left. -/
theorem bare_of_idles (visited : Visited rules policy threshold t₀ s) (off : s.Off id)
    (unclaimed : ∀ e, s.world.queue.entries.get? (singleId id.text) = some e → e.processedOn = none)
    (idles : Idles rules policy threshold id s s') :
    Visited rules policy threshold t₀ s' ∧ s'.Off id ∧ s'.world.scene.Bare id := by
  induction idles with
  | refl =>
    have owned := owned_of_visited visited
    refine ⟨visited, off, Scene.bare_of_absent owned.sound (Option.eq_none_iff_forall_ne_some.mpr fun e stored => ?_)⟩
    -- what nobody claimed is there for an enabled job
    have repeats : e.repeats = none := by
      cases repeats : e.repeats with
      | none => rfl
      | some spec =>
        exact absurd ((owned.sound.ownId stored).symm.trans ((owned.sound.made stored).fire spec repeats).2.1)
          singleId_ne_instanceId
    obtain ⟨id', job, hj, key, enabled, -⟩ := owned.filled.single stored repeats (unclaimed e stored)
    have keys := ((owned.sound.made stored).single repeats).symm.trans (owned.sound.ownId stored)
    obtain rfl : id' = id := (owned.ownId hj).symm.trans (Identifier.text_injective (key.trans (singleId_inj keys)))
    exact Bool.false_ne_true ((off job hj).symm.trans enabled)
  | tail _ step ih =>
    obtain ⟨run, off, bare⟩ := ih
    have goes := (step.1.goes (InStep.of_visited run)).2
    exact ⟨.tail run step.1, step.2, bare.goes (owned_of_visited run) off goes step.2⟩

end Site

namespace Engine

variable {g : Engine LocalQueue (StoreState LocalStore) (Transaction LocalStore)} {e : StoredEntry} {w : Memory}
  {id : Identifier}

/-- A dispatch runs the job that the payload names, if any. -/
theorem payload_of_runsJob (hs : g.store = LocalStore.jobStore noStoreFaults)
    (ownId : ∀ {id job}, w.jobs.get? id = some job → job.id = id) (runs : g.RunsJob e w id) :
    ∃ queued, payloadJob e = .ok queued ∧ queued.id = id := by
  obtain ⟨job, results, w', on, rfl⟩ := runs
  refine (?_ : (g.process e).Ends w (fun outcome _ => ∀ job results, outcome = .completed job results →
    ∃ queued, payloadJob e = .ok queued ∧ queued.id = job.id) fun _ _ => True).1 _ (by rw [on]) job results rfl
  simp only [process, present, Act.ends_bind, Act.ends_ofExcept, engaging, storing, hs, Act.ends_mapError]
  refine ⟨fun queued payload => ?_, fun _ _ => trivial⟩
  rw [Act.ends_of_on_ok (onStore_findJobById_on _ _)]
  cases stored : w.jobs.get? queued.id with
  | none => exact Act.ends_pure.mpr (Act.ends_pure.mpr fun _ _ never => by cases never)
  | some job =>
    simp only [Act.ends_bind, Act.ends_mapError, Act.ends_ofExcept, Act.ends_pure, implies_true, and_true]
    refine fun _ _ => ⟨fun outcome ran job' results same => ?_, fun _ _ => trivial⟩
    rw [same] at ran
    cases ran
    exact ⟨queued, payload, (ownId stored).symm⟩

/-- The job that a dispatch ran. -/
def ran (g : Engine LocalQueue (StoreState LocalStore) (Transaction LocalStore)) (e : StoredEntry) (w : Memory) :
    Option Identifier :=
  match ((g.process e).on w).1 with
  | .ok (.completed job _) => some job.id
  | _ => none

theorem runsJob_of_ran (h : g.ran e w = some id) : g.RunsJob e w id := by
  unfold ran at h
  split at h
  · next job results on => exact ⟨job, results, _, Prod.ext on rfl, Option.some.inj h⟩
  · cases h

end Engine

/-- While a job is not enabled, nothing that is handed out runs it, unless a claimed single entry was left. -/
theorem disabled_job_does_not_run {rules : ClaimRules} {policy : SchedulePolicy} {threshold : Nat} {t₀ t₁ : Instant}
    {s s' s'' : Site} {id : Identifier} {limit : Nat} {out : List StoredEntry} {q : LocalQueue} {e : StoredEntry}
    (visited : Site.Visited rules policy threshold t₀ s) (off : s.Off id)
    (unclaimed : ∀ e, s.world.queue.entries.get? (singleId id.text) = some e → e.processedOn = none)
    (idles : Site.Idles rules policy threshold id s s')
    (claim : (claimDue rules s'.world.now limit).on s'.world.queue = (.ok out, q)) (mem : e ∈ out)
    (later : Site.Visited rules policy threshold t₁ s'') (invoker : Invoker) :
    ¬ (Engine.inMemory rules policy threshold invoker).RunsJob e s''.world id := by
  intro runs
  obtain ⟨visited', off', bare⟩ := Site.bare_of_idles visited off unclaimed idles
  obtain ⟨queued, payload, rfl⟩ := Engine.payload_of_runsJob rfl (Site.owned_of_visited later).ownId runs
  have owned := Site.owned_of_visited visited'
  have read : Job.ofJson? e.payload = some queued := by
    unfold Engine.payloadJob at payload
    split at payload
    · next job read => rw [read, Except.ok.inj payload]
    · cases payload
  have filled : s'.world.queue.Filled Job.Carried fun e => e.key ≠ queued.id.text :=
    ⟨owned.filled.record, owned.filled.entry, bare.single⟩
  obtain ⟨carried, single, recorded⟩ := (Act.ends_of_on_ok claim).mp
    (claimDue_hands (fun _ _ other => other) filled owned.sound owned.sound.tidy limit) e mem
  obtain ⟨job, key, same⟩ := carried
  rw [same] at read
  have key : e.key = queued.id.text := by rw [← key, Job.queueKey, Job.id_of_ofJson? read]
  cases repeats : e.repeats with
  | none => exact single repeats key
  | some spec =>
    -- a fire is handed out with a record, and only an enabled job has one
    have has : s'.world.queue.Has e.key spec := recorded spec repeats
    rw [key, (Site.InStep.of_visited visited').world.has_key] at has
    obtain ⟨job, stored, wants⟩ := Option.bind_eq_some_iff.mp has
    exact Bool.false_ne_true ((off' job stored).symm.trans (Job.wants_eq_some_iff.mp wants).1)

section

open Engine

/-! ## Claims after a job was disabled (used by the theorems below) -/

theorem Site.off_of_map {s : Site} {id : Identifier} (h : (s.world.jobs.get? id).map Job.isEnabled = some false) :
    s.Off id := fun job stored => by
  have stored : s.world.jobs.get? id = some job := stored
  rw [stored] at h
  exact Option.some.inj h

/-- What a claim hands out at a site, if it comes to its end. -/
def Site.dueAt (s : Site) : List StoredEntry :=
  (((claimDue {} s.world.now s.world.queue.entries.size).on s.world.queue).1.toOption).getD []

theorem Site.claim_of_dueAt {s : Site} {ids : List String} (h : s.dueAt.map (·.id) = ids) (some : ids ≠ []) :
    ∃ q, (claimDue {} s.world.now s.world.queue.entries.size).on s.world.queue = (.ok s.dueAt, q) := by
  unfold dueAt at h ⊢
  cases on : (claimDue {} s.world.now s.world.queue.entries.size).on s.world.queue with
  | mk r q =>
    cases r with
    | ok out => exact ⟨q, rfl⟩
    | error e =>
      rw [on] at h
      exact absurd h.symm some

/-- The job whose first fire is at work is disabled, after a second job was created. -/
def firstDisabledSite : Site :=
  Site.after (.update "e" (.generated 1) { enabled := some false })
    (claimedSite.after (.create "e" { everyFiveMinutes with schedule := .onTime (.ofMillis 400000) }))

/-- The second job is due. -/
def secondDueSite : Site := ⟨{ firstDisabledSite.world with now := .ofMillis 400000 }, firstDisabledSite.outcomes⟩

theorem visited_firstDisabledSite : Site.Visited {} {} 3 (.ofMillis 0) firstDisabledSite := by
  have second : Site.Step {} {} 3 claimedSite
      (claimedSite.after (.create "e" { everyFiveMinutes with schedule := .onTime (.ofMillis 400000) })) :=
    Site.step_after ⟨by decide +kernel, fun _ _ h => by cases h⟩ (by decide +kernel)
  have disabled : Site.Step {} {} 3 _ firstDisabledSite := Site.step_after trivial (by decide +kernel)
  exact Site.Reached.visited (.tail (.tail reached_claimedSite second) disabled)

/-- The entry of the second job is handed out, and does not run the first, whose fire is still at work. -/
theorem second_job_runs_while_first_is_disabled :
    firstDisabledSite.world.queue.active.size = 1 ∧
      (secondDueSite.world.jobs.get? (.generated 1)).map Job.isEnabled = some false ∧
      secondDueSite.dueAt.map (·.key) = [(Identifier.generated 2).text] ∧
      ∀ e ∈ secondDueSite.dueAt, ¬ (inMemory {} {} 3 .obliging).RunsJob e secondDueSite.world (.generated 1) := by
  have later : Site.Onward {} {} 3 firstDisabledSite secondDueSite := .step (.tick (by decide +kernel))
  have off : firstDisabledSite.Off (.generated 1) := Site.off_of_map (by decide +kernel)
  have off' : secondDueSite.Off (.generated 1) := off
  have unclaimed : firstDisabledSite.world.queue.entries.get? (singleId (Identifier.generated 1).text) = none := by
    decide +kernel
  refine ⟨by decide +kernel, by decide +kernel, by decide +kernel, fun e mem => ?_⟩
  obtain ⟨q, claim⟩ := Site.claim_of_dueAt (s := secondDueSite) rfl (by decide +kernel)
  exact disabled_job_does_not_run visited_firstDisabledSite off (by simp [unclaimed]) (.single ⟨later, off'⟩) claim mem
    (visited_firstDisabledSite.tail later) .obliging

/-- A job that runs once is disabled while its entry is at work. -/
def onceDisabledSite : Site := onceClaimedSite.after (.update "e" (.generated 1) { enabled := some false })

/-- The lease of that claim is over. -/
def onceLostSite : Site := ⟨{ onceDisabledSite.world with now := .ofMillis 360000 }, onceDisabledSite.outcomes⟩

/-- Nobody finished the entry that was at work when its job was disabled. When its lease is over it is handed out again,
and a dispatch runs the disabled job. -/
theorem disabled_job_runs_after_lost_claim :
    Site.Reached {} {} 3 (.ofMillis 0) onceLostSite ∧
      (onceDisabledSite.world.jobs.get? (.generated 1)).map Job.isEnabled = some false ∧
      (onceLostSite.world.jobs.get? (.generated 1)).map Job.isEnabled = some false ∧
      onceLostSite.dueAt.map (·.id) = [singleId (Identifier.generated 1).text] ∧
      ∃ e ∈ onceLostSite.dueAt, (inMemory {} {} 3 .obliging).RunsJob e onceLostSite.world (.generated 1) := by
  have create : Site.Step {} {} 3 (.start (.ofMillis 0)) onceCreatedSite :=
    Site.step_after ⟨rfl, fun _ _ h => by cases h⟩ (by decide +kernel)
  have claim : Site.Step {} {} 3 _ onceClaimedSite := Site.step_after trivial (by decide +kernel)
  have disable : Site.Step {} {} 3 _ onceDisabledSite := Site.step_after trivial (by decide +kernel)
  have run : Site.Reached {} {} 3 (.ofMillis 0) onceLostSite := by
    refine .tail (.tail (.tail (.tail (.tail .refl create) (.tick ?_)) claim) disable) (.tick ?_)
    · decide +kernel
    · decide +kernel
  refine ⟨run, by decide +kernel, by decide +kernel, by decide +kernel, ?_⟩
  have ran : onceLostSite.dueAt.map (fun e => (inMemory {} {} 3 .obliging).ran e onceLostSite.world) =
      [some (.generated 1)] := by decide +kernel
  obtain ⟨e, mem, ran⟩ := List.mem_map.mp (ran ▸ List.mem_singleton_self (some (Identifier.generated 1)))
  exact ⟨e, mem, runsJob_of_ran ran⟩

end

end Timetable
