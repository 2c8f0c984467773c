import Timetable.Proofs.Engine.Calls
import Timetable.Proofs.Engine.Owned
import Timetable.Proofs.Engine.Shifts

/-!
# Nothing is held under identifiers that were not handed out

Jobs and executions draw their identifiers from one source. What an operation adds to the store is a job under an
identifier that it draws, or executions of a stored job (`World.Adds`, `Operation.act_adds`). What it puts into the queue
belongs to a stored job too (`Scene.Vacant`).

So in every state that a run reaches there is nothing under an identifier that was not handed out: no job, no execution,
and neither an entry nor a record of its key (`Site.nothing_held`). Deleted jobs may well leave something behind, which a
new job would find if its identifier were drawn a second time (`World.NextIsNew`).
-/

namespace Timetable

open World LocalQueue

namespace World

variable {w w₁ w' : Memory} {id : Identifier}

/-- An identifier was handed out as one of the first `n`, but not as one of the first `m`. -/
def HandedOut (m n : Nat) (id : Identifier) : Prop := ∃ k, m < k ∧ k ≤ n ∧ id = .generated k

/-- The next identifier was not handed out before. -/
def NextIsNew (w : Memory) : Prop := ¬ HandedOut 0 w.store.issued (.generated (w.store.issued + 1))

/-- An identifier is that of a job, or was handed out since. -/
def Known (w w' : Memory) (id : Identifier) : Prop :=
  w.jobs.contains id = true ∨ HandedOut w.store.issued w'.store.issued id

/-- New jobs have identifiers that were handed out in between, and new executions are of jobs that were there or came in
between. -/
structure Adds (w w' : Memory) : Prop where
  issued : w.store.issued ≤ w'.store.issued
  jobs : ∀ id, w'.jobs.contains id = true → Known w w' id
  history : ∀ x ∈ w'.history, x ∈ w.history ∨ Known w w' x.jobId

namespace Adds

theorem of_eq (issued : w.store.issued ≤ w'.store.issued) (jobs : w'.jobs = w.jobs) (history : w'.history = w.history) :
    Adds w w' :=
  ⟨issued, fun _ stored => .inl (jobs ▸ stored), fun _ mem => .inl (history ▸ mem)⟩

theorem of_store (same : w'.store = w.store) : Adds w w' :=
  .of_eq (by rw [same]) (congrArg (·.rows.jobs) same) (congrArg (·.rows.executions) same)

theorem refl (w : Memory) : Adds w w := .of_store rfl

theorem sentOne (w : Memory) : Adds w w.sentOne := .of_eq le_rfl rfl rfl

theorem trans (h : Adds w w₁) (h' : Adds w₁ w') : Adds w w' := by
  have sooner {id : Identifier} (found : Known w w₁ id) : Known w w' id :=
    found.imp_right fun ⟨k, after, upTo, own⟩ => ⟨k, after, upTo.trans h'.issued, own⟩
  have later {id : Identifier} (found : Known w₁ w' id) : Known w w' id := by
    rcases found with stored | ⟨k, after, upTo, own⟩
    · exact sooner (h.jobs id stored)
    · exact .inr ⟨k, h.issued.trans_lt after, upTo, own⟩
  refine ⟨h.issued.trans h'.issued, fun id stored => later (h'.jobs id stored), fun x mem => ?_⟩
  rcases h'.history x mem with before | found
  · exact (h.history x before).imp_right sooner
  · exact .inr (later found)

end Adds

end World

/-! ## What operations add -/

namespace Engine

variable {g : Engine LocalQueue (StoreState LocalStore) (Transaction LocalStore)} {rules : ClaimRules}
  {environment : String} {id : Identifier} {w w₁ : Memory} {e : StoredEntry} {ε α : Type}

/-- An action that adds no more than that, however it ends. -/
def AddsOnly (w : Memory) (x : Act ε Memory α) : Prop := x.Ends w (fun _ w' => Adds w w') fun _ w' => Adds w w'

theorem Reads.addsOnly {x : Act ε Memory α} (hx : Reads w x) : AddsOnly w x := by
  have none {w' : Memory} (same : SameRows w w') : Adds w w' :=
    .of_eq same.issued.ge (congrArg (·.jobs) same.rows) (congrArg (·.executions) same.rows)
  exact Act.Ends.mono hx (fun _ _ => none) fun _ _ => none

theorem Spares.addsOnly {x : Act ε Memory α} (hx : Spares x) : AddsOnly w x := hx.reads.addsOnly

/-- What goes on after more was added. -/
theorem AddsOnly.after {x : Act ε Memory α} (hx : AddsOnly w₁ x) (before : Adds w w₁) :
    x.Ends w₁ (fun _ w' => Adds w w') fun _ w' => Adds w w' :=
  hx.mono (fun _ _ => before.trans) fun _ _ => before.trans

theorem createJob_adds (hs : g.store = LocalStore.jobStore noStoreFaults) (r : CreateJobRequest) :
    AddsOnly w (g.createJob environment r) := by
  simp only [AddsOnly, createJob, Act.ends_bind, ends_time, hs, storing, Act.ends_mapError]
  refine Act.ends_ofExcept.mpr ⟨fun new _ => ?_, fun _ _ => .refl w⟩
  rw [Act.ends_of_on_ok (onStore_createJob_on _ _ _)]
  have stored : Adds w (w.stored w.now new) := by
    refine ⟨Nat.le_succ _, fun id held => ?_, fun _ mem => .inl mem⟩
    have held : (w.jobs.set (.generated (w.store.issued + 1)) _).contains id = true := held
    rw [Table.contains, Table.get?_set] at held
    split at held
    · next same => exact .inr ⟨_, Nat.lt_succ_self _, le_rfl, same.symm⟩
    · exact .inl held
  split
  · have enqueued : Spares (queueing (g.enqueue (new.store (.generated (w.store.issued + 1)) w.now))) :=
      Spares.mapError (enqueue_spares _)
    refine Act.ends_bind.mpr ((enqueued.attempting.discard.addsOnly.after stored).mono ?_ fun _ _ added => added)
    exact fun _ _ added => Act.ends_pure.mpr added
  · exact Act.ends_pure.mpr stored

/-- A call that names a job adds nothing: what it changes is held under the identifier of that job. -/
theorem ask_adds (hg : g.queue = workQueue rules) (hs : g.store = LocalStore.jobStore noStoreFaults) (h : w.InStep)
    (c : JobCall) : AddsOnly w (c.ask g environment id) := by
  refine Act.ends_iff_forall.mpr ?_
  by_cases mine : w.Owns environment id
  · obtain ⟨job, stored, own⟩ := mine
    obtain rfl : job.id = id := h.ownId stored
    have ready : (ofJob False environment job.id).inv w.sentOne :=
      ⟨h.sound.tidy, fun _ found => by cases stored.symm.trans found; exact own⟩
    obtain ⟨issued, others⟩ := (c.within_serve hg hs own (h.accepted stored)).frame ready
    have held : w.jobs.contains job.id = true := Table.contains_iff.mpr ⟨job, stored⟩
    rw [c.ask_found hs stored own rfl]
    refine ⟨issued, fun id found => ?_, fun x mem => ?_⟩
    · by_cases same : id = job.id
      · exact .inl (same ▸ held)
      · have kept := congrArg JobShare.job (others id same)
        exact .inl ((congrArg Option.isSome kept).symm.trans found)
    · by_cases same : x.jobId = job.id
      · exact .inr (.inl (same ▸ held))
      · have own : x ∈ (World.share _ x.jobId).executions := mem_executions.mpr ⟨mem, rfl⟩
        rw [others x.jobId same] at own
        exact .inl (mem_executions.mp own).1
  · rw [c.ask_missing hs mine]
    exact .sentOne w

theorem record_adds (hs : g.store = LocalStore.jobStore noStoreFaults) (new : NewExecution) :
    (g.record new).Ends w (fun _ w' => Adds w w' ∧ Beside w w') fun _ _ => False := by
  refine Act.Ends.mono (Act.Ends.and (E := fun _ _ => True) ?_ (record_ends hs new)) (fun _ _ h => h) fun _ _ h => h.2
  simp only [record, Act.ends_bind, ends_time, engaging, storing, hs, Act.ends_mapError]
  cases stored : w.jobs.contains new.jobId with
  | true =>
    rw [Act.ends_of_on_ok (onStore_createExecution_stored w.now stored)]
    simp only [Act.ends_bind, Act.ends_modify, Act.ends_pure]
    refine ⟨Nat.le_succ _, fun id held => .inl held, fun x mem => ?_⟩
    rcases List.mem_append.mp mem with before | now
    · exact .inl before
    · rw [List.mem_singleton.mp now]
      exact .inr (.inl stored)
  | false =>
    rw [Act.ends_of_on_ok (onStore_createExecution_gone w.now stored)]
    exact Act.ends_pure.mpr (.sentOne w)

theorem disableIfFailing_adds (hg : g.queue = workQueue rules) (hs : g.store = LocalStore.jobStore noStoreFaults)
    (h : w.InStep) (id : Identifier) : AddsOnly w (g.disableIfFailing id) := by
  have twice : w.sentOne.sentOne.InStep := h
  have sent : Adds w w.sentOne.sentOne := (Adds.sentOne w).trans (.sentOne _)
  unfold AddsOnly disableIfFailing
  split
  · exact Act.ends_pure.mpr (.refl w)
  simp only [Act.ends_bind, storing, hs, Act.ends_mapError]
  rw [Act.ends_of_on_ok (onStore_recentExecutions_on _ _ _)]
  split
  · exact Act.ends_pure.mpr (.sentOne w)
  rw [Act.ends_bind, Act.ends_mapError, Act.ends_of_on_ok (onStore_findJobById_on _ _)]
  cases w.sentOne.jobs.get? id with
  | none => exact Act.ends_pure.mpr sent
  | some job =>
    dsimp only
    split
    · simp only [disable, Act.ends_bind, Act.ends_discard, Act.ends_modify]
      refine ((ask_adds hg hs twice (.update { enabled := some false })).after sent).mono ?_ fun _ _ added => added
      exact fun _ w₁ added => added.trans (.of_store rfl)
    · exact Act.ends_pure.mpr sent

theorem completed_adds (hs : g.store = LocalStore.jobStore noStoreFaults) (outcome : DispatchOutcome)
    (finishedOn : Instant) : AddsOnly w (g.completed e outcome finishedOn) := by
  cases outcome with
  | completed job results =>
    exact Act.ends_discard.mpr ((record_adds hs _).mono (fun _ _ recorded => recorded.1) fun _ _ => False.elim)
  | jobGone =>
    refine Act.ends_bind.mpr (Act.ends_ofExcept.mpr ⟨fun queued _ => ?_, fun _ _ => .refl w⟩)
    exact (Spares.discard (Spares.mapError (Spares.mapError (dequeue_spares queued)))).addsOnly

theorem failed_adds (hg : g.queue = workQueue rules) (hs : g.store = LocalStore.jobStore noStoreFaults)
    (h : w.InStep) (finishedOn : Instant) : AddsOnly w (g.failed e finishedOn) := by
  simp only [AddsOnly, failed, Act.ends_bind, Act.ends_ofExcept]
  refine ⟨fun job _ => ?_, fun _ _ => .refl w⟩
  refine (record_adds hs _).mono (fun saved w₁ recorded => ?_) fun _ _ => False.elim
  obtain ⟨added, beside⟩ := recorded
  cases saved with
  | false => exact Act.ends_pure.mpr added
  | true => exact Act.ends_mapError.mpr ((disableIfFailing_adds hg hs (beside.later h).inStep job.id).after added)

end Engine

namespace Operation

open Engine

variable {rules : ClaimRules} {policy : SchedulePolicy} {threshold : Nat} {invoker : Invoker} {s : Site}

theorem act_adds (h : s.world.InStep) (op : Operation) :
    AddsOnly s.world (op.act (inMemory rules policy threshold invoker)) := by
  have asks {α : Type} (x : Act QueueError LocalQueue α) :
      AddsOnly s.world (silent (engaging (queueing (onQueue x)))) :=
    ends_silent (Spares.addsOnly (Spares.mapError (Spares.mapError (spares_onQueue x))))
  cases op with
  | create environment r => exact ends_silent (Act.ends_mapError.mpr (createJob_adds rfl r))
  | update environment id r => exact ends_silent (Act.ends_mapError.mpr (ask_adds rfl rfl h (.update r)))
  | delete environment id => exact ends_silent (Act.ends_mapError.mpr (ask_adds rfl rfl h .delete))
  | reconcile => exact ends_silent (Act.ends_mapError.mpr (reconcile_reads rfl).addsOnly)
  | process e =>
    refine Act.ends_bind.mpr (Act.Ends.mono (process_reads rfl).addsOnly (fun _ _ added => ?_) fun _ _ added => added)
    exact Act.ends_pure.mpr added
  | completed e outcome finishedOn => exact ends_silent (completed_adds rfl outcome finishedOn)
  | failed e finishedOn => exact ends_silent (failed_adds rfl rfl h finishedOn)
  | claimDue limit => exact Act.ends_bind.mpr (ends_time.mpr (asks _))
  | renewLease e => exact Act.ends_bind.mpr (ends_time.mpr (asks _))
  | recoverStalled => exact Act.ends_bind.mpr (ends_time.mpr (asks _))
  | finish e => exact asks _

end Operation

/-! ## What is queued -/

namespace Scene

variable {rules : ClaimRules} {s s' : Scene} {id : Identifier}

/-- Nothing is stored or queued under an identifier. -/
structure Vacant (id : Identifier) (s : Scene) : Prop where
  stored : s.jobs.get? id = none
  queued : s.queue.Filled (fun key _ => key ≠ id.text) fun _ => True

namespace Vacant

/-- A stored job has another key. -/
theorem other (h : s.Vacant id) {job : Job} (stored : s.jobs.get? job.id = some job) : job.queueKey ≠ id.text := by
  intro key
  obtain rfl := Identifier.text_injective key
  cases h.stored.symm.trans stored

theorem still (h : s.Vacant id) (owned : s.Owned) (still : Still rules s s') : s'.Vacant id := by
  refine ⟨jobs_eq_of_still still ▸ h.stored, ?_⟩
  cases still with
  | passed later => exact h.queued
  | asked request asked =>
    exact ask_filled (fun _ _ _ => trivial) h.queued owned.sound.tidy request (fills_of_workers asked)
  | @restored id' job stored enabled =>
    obtain rfl := owned.ownId stored
    exact h.queued.put owned.sound.tidy (owned.accepted stored) (h.other stored) fun _ _ => trivial
  | @cleared job _ => exact h.queued.withdraw s.now job

theorem turn (h : s.Vacant id) (owned : s.Owned) (turn : Turn s s') (stored : s'.jobs.get? id = none) :
    s'.Vacant id := by
  refine ⟨stored, ?_⟩
  cases turn with
  | @created job fresh accepted =>
    dsimp only
    split
    · refine h.queued.put owned.sound.tidy accepted (fun key => ?_) fun _ _ => trivial
      obtain rfl := Identifier.text_injective key
      simp at stored
    · exact h.queued
  | @changed old new before same accepted =>
    refine h.queued.moved owned.sound accepted (fun key => ?_) fun _ _ _ => trivial
    exact h.other before (by rwa [Job.queueKey, ← same])
  | @deleted job before => exact h.queued.withdraw s.now job

theorem goes (h : s.Vacant id) (owned : s.Owned) (goes : Goes rules s s') (stored : s'.jobs.get? id = none) :
    s'.Vacant id := by
  obtain ⟨s₁, stills, last⟩ := goes
  have before : s₁.Vacant id ∧ s₁.Owned := by
    clear last
    induction stills with
    | refl => exact ⟨h, owned⟩
    | tail _ event ih => exact ⟨ih.1.still ih.2 event, ih.2.still event⟩
  rcases last with rfl | last
  · exact before.1
  · exact before.1.turn before.2 last stored

end Vacant

end Scene

theorem LocalQueue.share_of_filled {q : LocalQueue} {key : String} {S : StoredEntry → Prop}
    (h : q.Filled (fun k _ => k ≠ key) S) : q.share key = {} := by
  have entry (id : String) : q.ownEntry key id = none :=
    Option.filter_eq_none_iff.mpr fun e stored own => h.entry stored (beq_iff_eq.mp own)
  refine Share.ext (funext entry) (funext fun f => ?_) (funext fun id => ?_)
  · exact Option.filter_eq_none_iff.mpr fun r stored own => h.record stored (beq_iff_eq.mp own)
  · show (q.ownEntry key id).bind _ = none
    rw [entry]
    rfl

/-! ## Runs -/

namespace Site

variable {rules : ClaimRules} {policy : SchedulePolicy} {threshold : Nat} {t₀ : Instant} {s s' : Site} {id : Identifier}

theorem Onward.adds (h : s.InStep) (onward : Onward rules policy threshold s s') : Adds s.world s'.world := by
  cases onward with
  | step step =>
    cases step with
    | tick => exact .of_store rfl
    | succeed _ on => exact (Act.ends_of_on_ok on).mp (Operation.act_adds h.world _)
    | fail _ on _ => exact (Act.ends_of_on_error on).mp (Operation.act_adds h.world _)
  | clearedAll environment id => exact Act.ends_iff_forall.mp (Engine.ask_adds rfl rfl h.world .deleteExecutions)
  | clearedOne environment id execution =>
    exact Act.ends_iff_forall.mp (Engine.ask_adds rfl rfl h.world (.deleteExecution execution))

/-- Nothing is held under an identifier that was not handed out. -/
theorem nothing_held (visited : Visited rules policy threshold t₀ s) (id : Identifier)
    (new : ¬ HandedOut 0 s.world.store.issued id) : s.world.share id = {} := by
  have vacant : s.world.scene.Vacant id ∧ ∀ x ∈ s.world.history, x.jobId ≠ id := by
    induction visited with
    | refl => exact ⟨⟨rfl, .empty⟩, fun _ mem => absurd mem List.not_mem_nil⟩
    | @tail s s' run onward ih =>
      have inStep := InStep.of_visited run
      have adds := onward.adds inStep
      obtain ⟨vacant, history⟩ := ih fun ⟨k, after, upTo, own⟩ => new ⟨k, after, upTo.trans adds.issued, own⟩
      have unknown : ¬ Known s.world s'.world id := by
        rintro (stored | ⟨k, after, upTo, own⟩)
        · obtain ⟨job, stored⟩ := Table.contains_iff.mp stored
          cases vacant.stored.symm.trans stored
        · exact new ⟨k, by omega, upTo, own⟩
      have stored : s'.world.jobs.get? id = none :=
        Table.contains_eq_false_iff.mp (Bool.eq_false_iff.mpr fun held => unknown (adds.jobs id held))
      refine ⟨vacant.goes (owned_of_visited run) (onward.goes inStep).2 stored, ?_⟩
      rintro x mem rfl
      exact (adds.history x mem).elim (fun before => history x before rfl) unknown
  have executions : s.world.history.filter (·.jobId == id) = [] :=
    List.filter_eq_nil_iff.mpr fun x mem own => vacant.2 x mem (beq_iff_eq.mp own)
  exact JobShare.ext vacant.1.stored executions (share_of_filled vacant.1.queued)

end Site

end Timetable
