import Timetable.Proofs.Engine.Disabled
import Timetable.Proofs.Engine.Recorded

/-!
# Runs and what they hand out

A `Shift` is the site of a run beside the entries that its claims have handed out. A run is as before but for two things:
claims note what they hand out, and what is dispatched was handed out. Reading changes nothing and is left out.

Entries are handed out with a job of their key, so a dispatch runs that job (`Shift.Grounded`). An execution is only ever
added for a job that an entry was handed out for (`Shift.Step.tells`).
-/

namespace Timetable

open World LocalQueue

/-! ## Histories -/

namespace Engine

variable {g : Engine LocalQueue (StoreState LocalStore) (Transaction LocalStore)} {w : Memory} {e : StoredEntry}
  {id : Identifier} {environment : String}

theorem createJob_keeps (hs : g.store = LocalStore.jobStore noStoreFaults) (r : CreateJobRequest) :
    Keeps w (g.createJob environment r) := by
  simp only [Keeps, createJob, Act.ends_bind, ends_time, Act.ends_ofExcept, hs, storing, Act.ends_mapError]
  refine ⟨fun new _ => ?_, fun _ _ => trivial⟩
  rw [Act.ends_of_on_ok (onStore_createJob_on _ _ _)]
  have enqueued : Spares (queueing (g.enqueue (new.store (.generated (w.store.issued + 1)) w.now))) :=
    Spares.mapError (enqueue_spares _)
  split
  · exact Act.ends_bind.mpr ((enqueued.attempting.discard.keeps (w := w.stored w.now new)).mono
      (fun _ _ same => Act.ends_pure.mpr same) fun _ _ same => same)
  · exact Act.ends_pure.mpr rfl

theorem restoreJobs_spares {ρ τ : Type} (g : Engine σ ρ τ) (s : Survey) (now : Instant) (jobs : List Job) :
    Spares (g.restoreJobs s now jobs) := by
  induction jobs with
  | nil => exact spares_pure []
  | cons job jobs ih =>
    have one : Spares (g.restoreJob s now job) := by
      unfold restoreJob
      cases s.lacks? now job with
      | none => exact spares_pure none
      | some kind =>
        have enqueued : Spares (queueing (g.enqueue job)) := Spares.mapError (enqueue_spares job)
        refine enqueued.attempting.bind fun done => ?_
        cases done <;> exact spares_pure _
    exact one.bind fun kind => ih.bind fun kinds => spares_pure _

/-- Nothing was written to the store, and no identifier was drawn. -/
structure SameRows (w w' : Memory) : Prop where
  rows : w'.store.rows = w.store.rows
  issued : w'.store.issued = w.store.issued

theorem SameRows.trans {w₁ w₂ : Memory} (h : SameRows w w₁) (h' : SameRows w₁ w₂) : SameRows w w₂ :=
  ⟨h'.rows.trans h.rows, h'.issued.trans h.issued⟩

/-- An action that reads the store and does not write to it. -/
def Reads {ε α : Type} (w : Memory) (x : Act ε Memory α) : Prop :=
  x.Ends w (fun _ w' => SameRows w w') fun _ w' => SameRows w w'

theorem Spares.reads {ε α : Type} {x : Act ε Memory α} (hx : Spares x) : Reads w x :=
  Act.ends_iff_forall.mpr ⟨congrArg (·.rows) (hx w), congrArg (·.issued) (hx w)⟩

theorem Reads.keeps {ε α : Type} {x : Act ε Memory α} (h : Reads w x) : Keeps w x :=
  Act.Ends.mono h (fun _ _ same => congrArg (·.executions) same.rows) fun _ _ same => congrArg (·.executions) same.rows

/-- What goes on after nothing was written. -/
theorem Reads.after {ε α : Type} {x : Act ε Memory α} {w₁ : Memory} (h : Reads w₁ x) (before : SameRows w w₁) :
    x.Ends w₁ (fun _ w' => SameRows w w') fun _ w' => SameRows w w' :=
  Act.Ends.mono h (fun _ _ => before.trans) fun _ _ => before.trans

theorem reconcile_reads (hs : g.store = LocalStore.jobStore noStoreFaults) : Reads w g.reconcile := by
  simp only [Reads, reconcile, survey, Act.ends_bind, ends_time, hs, queueing, storing, Act.ends_mapError,
    Act.ends_pure, Act.ends_modify]
  refine ((spares_onQueue _).reads (w := w)).mono (fun _ w₁ same₁ => ?_) fun _ _ same => same
  rw [Act.ends_of_on_ok (onStore_listEnabledJobs_on _)]
  have same₁ : SameRows w w₁.sentOne := same₁.trans ⟨rfl, rfl⟩
  refine ((spares_onQueue _).reads.after same₁).mono (fun _ w₂ same₂ => ?_) fun _ _ same => same
  refine ((spares_onQueue _).reads.after same₂).mono (fun _ w₃ same₃ => ?_) fun _ _ same => same
  exact ((restoreJobs_spares g _ _ _).reads.after same₃).mono (fun _ _ same => same.trans ⟨rfl, rfl⟩) fun _ _ same => same

theorem play_spares {ρ τ : Type} (g : Engine σ ρ τ) (job : Job) : Spares (g.running job).play := by
  have told {marks : List (Nat × (World σ ρ → World σ ρ))} (tells : ∀ m ∈ marks, ∀ w, (m.2 w).store = w.store)
      (w : World σ ρ) : (marks.foldl (fun w m => m.2 w) w).store = w.store := by
    induction marks generalizing w with
    | nil => rfl
    | cons m marks ih =>
      have rest := ih (fun m' mem => tells m' (List.mem_cons_of_mem _ mem)) (m.2 w)
      exact rest.trans (tells m List.mem_cons_self w)
  intro w
  refine told (fun m mem w => ?_) w
  obtain ⟨c, -, rfl⟩ := List.mem_map.mp mem
  rfl

theorem process_reads (hs : g.store = LocalStore.jobStore noStoreFaults) : Reads w (g.process e) := by
  have looked : SameRows w w.sentOne := ⟨rfl, rfl⟩
  simp only [Reads, process, present, Act.ends_bind, Act.ends_ofExcept, engaging, storing, hs, Act.ends_mapError]
  refine ⟨fun queued _ => ?_, fun _ _ => ⟨rfl, rfl⟩⟩
  rw [Act.ends_of_on_ok (onStore_findJobById_on _ _)]
  cases w.jobs.get? queued.id with
  | none => exact Act.ends_pure.mpr (Act.ends_pure.mpr looked)
  | some job =>
    simp only [Act.ends_bind, Act.ends_mapError, Act.ends_ofExcept, Act.ends_pure]
    exact ⟨fun _ _ => (play_spares g job).reads.after looked, fun _ _ => looked⟩

/-- An action that adds no execution. -/
def Sheds {ε α : Type} (w : Memory) (x : Act ε Memory α) : Prop :=
  x.Ends w (fun _ w' => w'.history ⊆ w.history) fun _ w' => w'.history ⊆ w.history

theorem Keeps.sheds {ε α : Type} {x : Act ε Memory α} (h : Keeps w x) : Sheds w x :=
  Act.Ends.mono h (fun _ _ same => same ▸ List.Subset.refl _) fun _ _ same => same ▸ List.Subset.refl _

theorem applyDelete_sheds (hs : g.store = LocalStore.jobStore noStoreFaults) (job : Job) :
    Sheds w (g.applyDelete job) := by
  have taken : ∃ b t, t.working.executions ⊆ w.history ∧
      (inTransaction ⟨w.store.rows, w.now⟩ ((LocalStore.jobStore noStoreFaults).inside.deleteJob job.id)).on w.sentOne =
        (.ok (b, t), w.sentOne.sentOne) := by
    cases stored : w.store.rows.jobs.contains job.id with
    | true => exact ⟨_, _, fun _ => List.mem_of_mem_filter, inTransaction_deleteJob_on stored _⟩
    | false => exact ⟨_, _, List.Subset.refl _, inTransaction_deleteJob_gone stored _⟩
  obtain ⟨b, t, sub, on⟩ := taken
  have dequeued : Spares (queueing (g.dequeue job)) := Spares.mapError (dequeue_spares job)
  simp only [Sheds, applyDelete, Act.ends_bind, ends_time, hs, storing, Act.ends_mapError]
  rw [Act.ends_of_on_ok (onStore_openTransaction_on _ _), Act.ends_of_on_ok on]
  refine (dequeued.discard.keeps (w := w.sentOne.sentOne)).mono (fun _ w₁ _ => ?_) fun _ w₁ same => ?_
  · simp only [attempting, Act.ends_attemptUnless, Act.ends_mapError]
    rw [Act.ends_of_on_ok (onStore_commit_on _ _)]
    exact Act.ends_pure.mpr sub
  · rw [same]
    exact List.Subset.refl _

theorem deleteJob_sheds (hs : g.store = LocalStore.jobStore noStoreFaults) :
    Sheds w (g.deleteJob environment id) := by
  refine Act.ends_bind.mpr ((getJob_ends hs).mono (fun job w₁ found => ?_) fun _ w₁ same => ?_)
  · rw [found.1]
    exact applyDelete_sheds (w := w.sentOne) hs job
  · rw [same]
    exact List.Subset.refl _

theorem updateJob_sheds (hs : g.store = LocalStore.jobStore noStoreFaults) (r : UpdateJobRequest) :
    Sheds w (g.updateJob environment id r) := by
  refine Act.ends_bind.mpr ((getJob_ends hs).mono (fun job w₁ found => ?_) fun _ w₁ same => ?_)
  · rw [found.1, Act.ends_bind, ends_time, Act.ends_bind]
    refine Act.ends_ofExcept.mpr ⟨fun changes _ => ?_, fun _ _ => List.Subset.refl _⟩
    exact (applyUpdate_keeps (w := w.sentOne) hs job changes).sheds
  · rw [same]
    exact List.Subset.refl _

theorem deleteExecutions_sheds (hs : g.store = LocalStore.jobStore noStoreFaults) :
    Sheds w (g.deleteExecutions environment id) := by
  refine Act.ends_bind.mpr (Act.ends_discard.mpr ((getJob_ends hs).mono (fun job w₁ found => ?_) fun _ w₁ same => ?_))
  · rw [found.1, hs]
    refine Act.ends_mapError.mpr (ends_onStore.mpr ⟨fun _ _ _ => ?_, fun _ _ _ => ?_⟩) <;> exact List.mem_of_mem_filter
  · rw [same]
    exact List.Subset.refl _

theorem deleteExecution_sheds (hs : g.store = LocalStore.jobStore noStoreFaults) (execution : Identifier) :
    Sheds w (g.deleteExecution environment id execution) := by
  refine Act.ends_bind.mpr (Act.ends_discard.mpr ((getJob_ends hs).mono (fun job w₁ found => ?_) fun _ w₁ same => ?_))
  · rw [found.1, hs, Act.ends_bind]
    refine Act.ends_mapError.mpr (ends_onStore.mpr ⟨fun found _ => ?_, fun _ _ _ => List.mem_of_mem_filter⟩)
    dsimp only
    split
    · exact Act.ends_throw.mpr fun _ => List.mem_of_mem_filter
    · exact Act.ends_pure.mpr fun _ => List.mem_of_mem_filter
  · rw [same]
    exact List.Subset.refl _

end Engine

/-! ## Shifts -/

/-- A site, and what was handed out so far. -/
structure Shift where
  site : Site
  handed : List StoredEntry := []

namespace Shift

abbrev world (x : Shift) : Memory := x.site.world

def start (t₀ : Instant) : Shift := ⟨.start t₀, []⟩

/-- What may be done beside claims: a dispatch is of an entry that was handed out. -/
def May (x : Shift) : Operation → Prop
  | .claimDue _ => False
  | .process e | .failed e _ => e ∈ x.handed
  | op => op.Allowed x.site

/-- Time passes, an operation comes to its end, a claim hands out some entries, or a history is cleared. -/
inductive Step (rules : ClaimRules) (policy : SchedulePolicy) (threshold : Nat) : Shift → Shift → Prop
  | tick {x : Shift} {now : Instant} :
    x.world.now ≤ now → Step rules policy threshold x ⟨⟨{ x.world with now }, x.site.outcomes⟩, x.handed⟩
  | claim {x : Shift} {limit : Nat} {out : List StoredEntry} {q : LocalQueue} :
    (claimDue rules x.world.now limit).on x.world.queue = (.ok out, q) →
    Step rules policy threshold x ⟨⟨x.world.putQueue q, x.site.outcomes⟩, x.handed ++ out⟩
  | succeed {x : Shift} {op : Operation} {invoker : Invoker} {world : Memory}
      {news : List (StoredEntry × DispatchOutcome)} :
    x.May op → (op.act (.inMemory rules policy threshold invoker)).on x.world = (.ok news, world) →
    Step rules policy threshold x ⟨⟨world, news ++ x.site.outcomes⟩, x.handed⟩
  | fail {x : Shift} {op : Operation} {invoker : Invoker} {world : Memory} {e : DispatchError} :
    x.May op → (op.act (.inMemory rules policy threshold invoker)).on x.world = (.error e, world) →
    e.isOutOfRange = false → Step rules policy threshold x ⟨⟨world, x.site.outcomes⟩, x.handed⟩
  | clearedAll {x : Shift} (environment : String) (id : Identifier) : Step rules policy threshold x
    ⟨⟨(((Engine.inMemory rules policy threshold .obliging).deleteExecutions environment id).on x.world).2,
      x.site.outcomes⟩, x.handed⟩
  | clearedOne {x : Shift} (environment : String) (id execution : Identifier) : Step rules policy threshold x
    ⟨⟨(((Engine.inMemory rules policy threshold .obliging).deleteExecution environment id execution).on x.world).2,
      x.site.outcomes⟩, x.handed⟩

/-- The shifts that a run may reach. -/
def Reached (rules : ClaimRules) (policy : SchedulePolicy) (threshold : Nat) (t₀ : Instant) (x : Shift) : Prop :=
  Relation.ReflTransGen (Step rules policy threshold) (start t₀) x

variable {rules : ClaimRules} {policy : SchedulePolicy} {threshold : Nat} {invoker : Invoker} {t₀ : Instant}
  {x x' : Shift} {op : Operation} {news : List (StoredEntry × DispatchOutcome)} {world : Memory}

theorem allowed_of_may (h : x.May op) : op.Allowed x.site := by
  cases op <;> first | exact h | trivial

theorem Step.onward (step : Step rules policy threshold x x') : Site.Onward rules policy threshold x.site x'.site := by
  cases step with
  | tick later => exact .step (.tick later)
  | @claim limit out q on =>
    let g := Engine.inMemory rules policy threshold .obliging
    have asks : (Engine.engaging (Engine.queueing (onQueue (g.queue.claimDue x.world.now limit)))).on x.world =
        (.ok out, x.world.putQueue q) := by
      have on : (g.queue.claimDue x.world.now limit).on x.world.queue = (.ok out, q) := on
      rw [Engine.engaging, Act.on_mapError, Engine.queueing, Act.on_mapError, onQueue, Act.on_zoom, on]
      rfl
    have claims : ((Operation.claimDue limit).act g).on x.world = (.ok [], x.world.putQueue q) := by
      refine Act.on_bind_eq_ok.mpr ⟨x.world.now, x.world, rfl, Act.on_bind_eq_ok.mpr ⟨(), x.world.putQueue q, ?_, rfl⟩⟩
      rw [Act.on_discard, asks]
      rfl
    have allowed : (Operation.claimDue limit).Allowed x.site := trivial
    exact .step (.succeed allowed claims)
  | succeed may on => exact .step (.succeed (allowed_of_may may) on)
  | fail may on whole => exact .step (.fail (allowed_of_may may) on whole)
  | clearedAll environment id => exact .clearedAll environment id
  | clearedOne environment id execution => exact .clearedOne environment id execution

theorem visited_of_reached (h : Reached rules policy threshold t₀ x) : Site.Visited rules policy threshold t₀ x.site :=
  h.lift site fun _ _ => Step.onward

/-! ## What is dispatched -/

/-- An entry was handed out for a job. -/
def HandedFor (x : Shift) (id : Identifier) : Prop := ∃ e ∈ x.handed, e.key = id.text

/-- Entries were handed out with jobs of their keys, and what was dispatched was handed out, for the job that ran. -/
structure Grounded (x : Shift) : Prop where
  carried : ∀ e ∈ x.handed, Job.Carried e.key e.payload
  dispatched : ∀ e outcome, (e, outcome) ∈ x.site.outcomes → e ∈ x.handed
  ran : ∀ e job results, (e, .completed job results) ∈ x.site.outcomes → x.HandedFor job.id

theorem Grounded.handedFor (h : x.Grounded) {e : StoredEntry} (mem : e ∈ x.handed) {queued : Job}
    (payload : Engine.payloadJob e = .ok queued) : x.HandedFor queued.id := by
  obtain ⟨job, key, same⟩ := h.carried e mem
  have read : Job.ofJson? e.payload = some queued := by
    unfold Engine.payloadJob at payload
    split at payload
    · next job read => rw [read, Except.ok.inj payload]
    · cases payload
  rw [same] at read
  exact ⟨e, mem, by rw [← key, Job.queueKey, Job.id_of_ofJson? read]⟩

theorem eq_nil_of_silent {α : Type} {y : Act DispatchError Memory α} {w : Memory}
    (on : (Operation.silent y).on w = (.ok news, world)) : news = [] := by
  obtain ⟨_, _, _, ended⟩ := Act.on_bind_eq_ok.mp on
  cases ended
  rfl

/-- Only a dispatch has an outcome. -/
theorem process_of_news {g : Engine LocalQueue (StoreState LocalStore) (Transaction LocalStore)} {w : Memory}
    (on : (op.act g).on w = (.ok news, world)) {e : StoredEntry} {outcome : DispatchOutcome}
    (mem : (e, outcome) ∈ news) : op = .process e ∧ (g.process e).on w = (.ok outcome, world) := by
  have idle {α : Type} {y : Act DispatchError Memory α} {w' : Memory}
      (on : (Operation.silent y).on w' = (.ok news, world)) : False := by
    rw [eq_nil_of_silent on] at mem
    cases mem
  cases op with
  | process e' =>
    obtain ⟨outcome', _, ran, ended⟩ := Act.on_bind_eq_ok.mp on
    cases ended
    obtain ⟨rfl, rfl⟩ := Prod.mk.inj (List.mem_singleton.mp mem)
    exact ⟨rfl, ran⟩
  | claimDue | renewLease | recoverStalled =>
    obtain ⟨_, _, _, on⟩ := Act.on_bind_eq_ok.mp on
    exact (idle on).elim
  | _ => exact (idle on).elim

theorem Grounded.step (visited : Site.Visited rules policy threshold t₀ x.site) (h : x.Grounded)
    (step : Step rules policy threshold x x') : x'.Grounded := by
  cases step with
  | claim on =>
    have owned := Site.owned_of_visited visited
    have hands := (Act.ends_of_on_ok on).mp
      (claimDue_hands (fun _ _ _ => nofun) owned.filled owned.sound owned.sound.tidy _)
    refine ⟨fun e mem => ?_, fun e outcome mem => ?_, fun e job results mem => ?_⟩
    · rcases List.mem_append.mp mem with before | now
      · exact h.carried e before
      · exact (hands e now).1
    · exact List.mem_append_left _ (h.dispatched e outcome mem)
    · obtain ⟨e', before, key⟩ := h.ran e job results mem
      exact ⟨e', List.mem_append_left _ before, key⟩
  | @succeed op invoker world news may on =>
    refine ⟨h.carried, fun e outcome mem => ?_, fun e job results mem => ?_⟩
    · rcases List.mem_append.mp mem with now | before
      · obtain ⟨rfl, -⟩ := process_of_news on now
        exact may
      · exact h.dispatched e outcome before
    rcases List.mem_append.mp mem with now | before
    · obtain ⟨rfl, ran⟩ := process_of_news on now
      have owned := Site.owned_of_visited visited
      obtain ⟨queued, payload, same⟩ := Engine.payload_of_runsJob rfl owned.ownId ⟨job, results, world, ran, rfl⟩
      exact same ▸ h.handedFor may payload
    · exact h.ran e job results before
  | _ => exact ⟨h.carried, h.dispatched, h.ran⟩

theorem grounded_of_reached (h : Reached rules policy threshold t₀ x) : x.Grounded := by
  induction h with
  | refl =>
    exact ⟨fun _ mem => absurd mem List.not_mem_nil, fun _ _ mem => absurd mem List.not_mem_nil,
      fun _ _ _ mem => absurd mem List.not_mem_nil⟩
  | tail run step ih => exact ih.step (visited_of_reached run) step

/-! ## What is recorded -/

/-- Every execution was there before, or is of a job that an entry was handed out for. -/
def Tells (x : Shift) (w : Memory) : Prop := ∀ y ∈ w.history, y ∈ x.world.history ∨ x.HandedFor y.jobId

theorem tells_of_appends {new : NewExecution} (h : Engine.Appends new x.world world) (handed : x.HandedFor new.jobId) :
    x.Tells world := by
  intro y mem
  unfold Engine.Appends at h
  split at h
  · obtain ⟨id, appended⟩ := h
    rw [appended] at mem
    rcases List.mem_append.mp mem with before | now
    · exact .inl before
    · rw [List.mem_singleton.mp now]
      exact .inr handed
  · exact .inl (h ▸ mem)

theorem tells_of_sheds {ε α : Type} {y : Act ε Memory α} (h : Engine.Sheds x.world y) :
    y.Ends x.world (fun _ w' => x.Tells w') fun _ w' => x.Tells w' :=
  h.mono (fun _ _ sub _ mem => .inl (sub mem)) fun _ _ sub _ mem => .inl (sub mem)

theorem act_tells {g : Engine LocalQueue (StoreState LocalStore) (Transaction LocalStore)}
    (hs : g.store = LocalStore.jobStore noStoreFaults) (h : x.Grounded) (may : x.May op) :
    x.Tells ((op.act g).on x.world).2 := by
  have sheds {α : Type} {y : Act EngineError Memory α} (h : Engine.Sheds x.world y) :
      (Operation.silent (Engine.engaging y)).Ends x.world (fun _ w' => x.Tells w') fun _ w' => x.Tells w' :=
    Operation.ends_silent (Act.ends_mapError.mpr (tells_of_sheds h))
  have asks {α : Type} (y : Act QueueError LocalQueue α) :
      (Operation.silent (Engine.engaging (Engine.queueing (onQueue y)))).Ends x.world
        (fun _ w' => x.Tells w') fun _ w' => x.Tells w' :=
    sheds (Engine.Spares.keeps (Engine.Spares.mapError (Engine.spares_onQueue y))).sheds
  refine Act.ends_iff_forall.mp ?_
  cases op with
  | create environment r => exact sheds (Engine.createJob_keeps hs r).sheds
  | update environment id r => exact sheds (Engine.updateJob_sheds hs r)
  | delete environment id => exact sheds (Engine.deleteJob_sheds hs)
  | reconcile => exact sheds (Engine.reconcile_reads hs).keeps.sheds
  | process e =>
    refine Act.ends_bind.mpr ((tells_of_sheds (Engine.process_reads hs).keeps.sheds).mono ?_ fun _ _ tells => tells)
    exact fun _ _ tells => Act.ends_pure.mpr tells
  | completed e outcome finishedOn =>
    refine Operation.ends_silent ?_
    cases outcome with
    | completed job results =>
      have ran : x.HandedFor job.id := h.ran e job results may
      have tells : x.Tells ((g.completed e (.completed job results) finishedOn).on x.world).2 :=
        tells_of_appends (Engine.completed_appends hs job results finishedOn) ran
      exact Act.ends_iff_forall.mpr tells
    | jobGone =>
      have kept : Engine.Keeps x.world (g.completed e .jobGone finishedOn) := Engine.jobGone_keeps finishedOn
      exact tells_of_sheds kept.sheds
  | failed e finishedOn =>
    refine Operation.ends_silent ?_
    have mem : e ∈ x.handed := may
    cases payload : Engine.payloadJob e with
    | ok queued =>
      have tells : x.Tells ((g.failed e finishedOn).on x.world).2 :=
        tells_of_appends (Engine.failed_appends hs payload finishedOn) (h.handedFor mem payload)
      exact Act.ends_iff_forall.mpr tells
    | error failure =>
      refine Act.ends_bind.mpr (Act.ends_ofExcept.mpr ⟨fun queued read => ?_, fun _ _ _ => .inl⟩)
      cases payload.symm.trans read
  | claimDue limit => exact may.elim
  | renewLease e => exact Act.ends_bind.mpr (ends_time.mpr (asks _))
  | recoverStalled => exact Act.ends_bind.mpr (ends_time.mpr (asks _))
  | finish e => exact asks _

theorem Step.tells (h : x.Grounded) (step : Step rules policy threshold x x') : x.Tells x'.world := by
  cases step with
  | tick | claim => exact fun _ mem => .inl mem
  | @succeed op invoker world news may on =>
    have tells := act_tells (g := .inMemory rules policy threshold invoker) rfl h may
    rw [on] at tells
    exact tells
  | @fail op invoker world e may on =>
    have tells := act_tells (g := .inMemory rules policy threshold invoker) rfl h may
    rw [on] at tells
    exact tells
  | clearedAll environment id =>
    exact Act.ends_iff_forall.mp (tells_of_sheds (Engine.deleteExecutions_sheds rfl))
  | clearedOne environment id execution =>
    exact Act.ends_iff_forall.mp (tells_of_sheds (Engine.deleteExecution_sheds rfl execution))

end Shift

end Timetable
