import Timetable.Proofs.Engine.Healing
import Timetable.Proofs.Queue.Inverse

/-!
# Dequeueing undoes enqueueing

A job that is put into the queue and taken out again, at whatever time, leaves every table of the queue as it was
(`Engine.dequeue_inverts_enqueue`). The removal goes by the plan of its own time; what was planned as delayed may have
expired by then. Yet the time plays no part in it: one schedule has the same removal at all times (`Engine.takeOut`).

The queue must have no entry of the job, and no record in its field. A record of another key in that field would be
taken for the job's own, given the job's payload and then removed (`Engine.foreign_record_is_lost`).
-/

namespace Timetable

theorem CalmQueue.Implemented.gains_refl {σ ω : Type} {Q : CalmQueue σ ω} (h : Q.Implemented) (key : String) (x : ω) :
    Gains key Q x x := by
  cases h with
  | memory rules => exact .memory ⟨.refl, .refl, rfl⟩
  | shared rules => exact .shared ⟨.refl, .refl, .refl, rfl, rfl⟩

namespace Engine

open World

variable {σ ω ρ τ : Type} {Q : CalmQueue σ ω} {g : Engine σ ρ τ} {w : World σ ρ} {job : Job} {clock : Instant}

/-- What takes a job out of the queue at all times. -/
def takeOut (g : Engine σ ρ τ) (job : Job) : Act QueueError σ Bool :=
  match job.schedule.spec? with
  | some spec => g.queue.removeRepeating job.queueKey spec
  | none => g.queue.removeDelayed job.queueKey

theorem takeOut_of_spec {spec : RepeatSpec} (hs : job.schedule.spec? = some spec) :
    g.takeOut job = g.queue.removeRepeating job.queueKey spec := by
  rw [takeOut, hs]

theorem takeOut_of_none (hs : job.schedule.spec? = none) : g.takeOut job = g.queue.removeDelayed job.queueKey := by
  rw [takeOut, hs]

theorem dequeue_ends_iff {P : Bool → World σ ρ → Prop} {E : QueueError → World σ ρ → Prop} :
    (g.dequeue job).Ends w P E ↔ (onQueue (g.takeOut job)).Ends w P E := by
  simp only [dequeue, Act.ends_bind, ends_time]
  cases plan : queuePlan job.schedule w.now with
  | repeating spec => rw [takeOut_of_spec (queuePlan_eq_repeating_iff.mp plan)]
  | delayed millis => rw [takeOut_of_none (spec?_eq_none w.now (by simp [plan]))]
  | expired => rw [takeOut_of_none (spec?_eq_none w.now (by simp [plan]))]

/-- Nothing lies in the queue where a job would be put. -/
structure Unqueued (c : QueueContents) (job : Job) : Prop where
  lacks : c.Lacks job.queueKey
  free : ∀ spec, job.schedule.spec? = some spec → c.record (repeatField job.queueKey spec) = none

/-- Whenever the job is taken out, the queue is as it was before, nothing else is touched, and there was something to
take out if the queue had changed. -/
def DequeueRestores (Q : CalmQueue σ ω) (g : Engine σ ρ τ) (job : Job) (w w' : World σ ρ) : Prop :=
  ∀ t, (g.dequeue job).Ends { w' with now := t }
    (fun removed w'' => (∃ q, w'' = { w with now := t, queue := q } ∧ Q.held q = Q.held w.queue) ∧
      (removed = true ↔ Q.held w'.queue ≠ Q.held w.queue))
    fun _ _ => False

/-- What comes of putting in a job: what is new in the queue has its key, nothing is new if the job has expired, and
taking the job out restores the queue. -/
structure Enqueued (Q : CalmQueue σ ω) (g : Engine σ ρ τ) (job : Job) (w w' : World σ ρ) : Prop where
  gains : CalmQueue.Gains job.queueKey Q (Q.held w.queue) (Q.held w'.queue)
  same_iff : Q.held w'.queue = Q.held w.queue ↔ queuePlan job.schedule w.now = .expired
  restores : DequeueRestores Q g job w w'

theorem dequeueRestores_of_reverts {q : σ} (reverts : Q.Reverts (g.takeOut job) (Q.held w.queue) q) :
    DequeueRestores Q g job w (w.putQueue q) := fun _ =>
  dequeue_ends_iff.mpr (ends_onQueue.mpr (reverts.mono
    (fun _ q' ⟨restored, answer⟩ => ⟨⟨q', rfl, restored⟩, answer⟩) fun _ _ h => h))

theorem enqueued_of_returns {add : Act QueueError σ Unit} (waits : queuePlan job.schedule w.now ≠ .expired)
    (returns : Q.Returns job.queueKey add (g.takeOut job) w.queue) :
    (onQueue add).Ends w (fun _ w' => Enqueued Q g job w w')
      fun _ w' => Q.held w'.queue = Q.held w.queue ∧ DequeueRestores Q g job w w' := by
  refine ends_onQueue.mpr (returns.mono ?_ ?_)
  · rintro _ q ⟨changed, gains, reverts⟩
    exact ⟨gains, iff_of_false changed waits, dequeueRestores_of_reverts reverts⟩
  · rintro _ q ⟨same, reverts⟩
    exact ⟨same, dequeueRestores_of_reverts reverts⟩

/-- Whatever was put in for a job, taking the job out at any time restores the queue. A job that cannot be put in leaves
the queue as it was. -/
theorem dequeue_inverts_enqueue (hQ : Q.Implemented) (hg : g.queue = Q.queue)
    (reached : Q.Reached clock (Q.held w.queue)) (takes : Q.Takes job) (unqueued : Unqueued (Q.seen w.queue) job) :
    (g.enqueue job).Ends w (fun _ w' => Enqueued Q g job w w')
      fun _ w' => Q.held w'.queue = Q.held w.queue ∧ DequeueRestores Q g job w w' := by
  have revertible := hQ.revertible reached unqueued.lacks
  simp only [enqueue, Act.ends_bind, ends_time]
  cases plan : queuePlan job.schedule w.now with
  | repeating spec =>
    have hs := queuePlan_eq_repeating_iff.mp plan
    refine enqueued_of_returns (by simp [plan]) ?_
    rw [takeOut_of_spec hs, hg]
    exact revertible.repeating (takes.narrow.word hs) takes.keeps (unqueued.free spec hs)
  | delayed millis =>
    refine enqueued_of_returns (by simp [plan]) ?_
    rw [takeOut_of_none (spec?_eq_none w.now (by simp [plan])), hg]
    exact revertible.delayed w.now millis job.toJson
  | expired =>
    have restores : DequeueRestores Q g job w (w.putQueue w.queue) := by
      refine dequeueRestores_of_reverts ?_
      rw [takeOut_of_none (spec?_eq_none w.now (by simp [plan])), hg]
      exact revertible.nothing
    exact Act.ends_pure.mpr ⟨hQ.gains_refl _ _, iff_of_true rfl plan, restores⟩

/-! ## Beside another job -/

/-- A queue with the chain of one job has nothing of another. -/
theorem unqueued_chainSince : Unqueued (SharedQueue.contents (chainSince (.ofMillis 0)).keys)
    (jobOn 2 (.onTime (.ofMillis 60000))) := by
  refine ⟨fun id e stored own => ?_, nofun⟩
  have kept := CalmQueue.kept_of_reached (reached_chainSince (show (Instant.ofMillis 0).Storable by decide))
  have ids : ∀ p ∈ (chainSince (.ofMillis 0)).keys.entries.pairs,
      p.1 = instanceId (jobOn 1 (.interval 5)).queueKey (.every 300000) (.ofMillis 300000) := by decide +kernel
  obtain ⟨text, at_, -⟩ := Option.bind_eq_some_iff.mp stored
  obtain rfl := ids _ (Table.mem_pairs_iff.mpr at_)
  have colonless : (RepeatSpec.every 300000).Colonless := trivial
  have first : e.key = (jobOn 1 (.interval 5)).queueKey := SharedQueue.key_of_instanceId kept colonless stored
  exact absurd (first.symm.trans own) (by decide)

/-- A job that waits for an instant is taken out after that instant, beside the chain of another job. -/
theorem passed_instant_is_taken_out :
    let job := jobOn 2 (.onTime (.ofMillis 60000))
    let w := worldOf (.ofMillis 0) (chainSince (.ofMillis 0)) [jobOn 1 (.interval 5), job]
    let w' := ((obligingShared.enqueue job).on w).2
    Enqueued (.shared {}) obligingShared job w w' ∧ w'.queue.keys ≠ w.queue.keys ∧
      ((obligingShared.dequeue job).on { w' with now := .ofMillis 120000 }).1 = .ok true ∧
      ((obligingShared.dequeue job).on { w' with now := .ofMillis 120000 }).2.queue.keys = w.queue.keys := by
  intro job w w'
  have takes : (CalmQueue.shared {}).Takes job := CalmQueue.Implemented.takes (.shared {}) trivial nofun
  have entered : ((obligingShared.enqueue job).on w).1 = .ok () := by decide +kernel
  have enqueued : Enqueued (.shared {}) obligingShared job w w' := (dequeue_inverts_enqueue (w := w) (.shared {}) rfl
    (reached_chainSince (by decide)) takes unqueued_chainSince).1 () entered
  have waits : queuePlan job.schedule w.now ≠ .expired := by decide
  clear_value w' w job
  have changed : w'.queue.keys ≠ w.queue.keys := fun same => waits (enqueued.same_iff.mp same)
  obtain ⟨restored, failed⟩ := enqueued.restores (.ofMillis 120000)
  refine ⟨enqueued, changed, ?_⟩
  cases answer : ((obligingShared.dequeue job).on { w' with now := .ofMillis 120000 }).1 with
  | error e => exact (failed e answer).elim
  | ok removed =>
    obtain ⟨⟨q, left, same⟩, found⟩ := restored removed answer
    rw [found.mpr changed, left]
    exact ⟨rfl, same⟩

/-- A record of one key that lies in the field of a job. -/
def intruded : Memory :=
  worldOf (.ofMillis 0)
    (((LocalQueue.workQueue {}).ask (.ofMillis 0)
      (.addRepeating ((Identifier.generated 1).text ++ "::cron:b") (.every 300000) .null)).on {}).2 []

/-- The field of the job must be empty: the record of another key, which was there before, is lost. -/
theorem foreign_record_is_lost :
    let job := jobOn 1 (.periodical "b::every:300000")
    let w' := ((obligingInMemory.enqueue job).on intruded).2
    (CalmQueue.memory {}).Reached intruded.now intruded.queue ∧ intruded.queue.contents.Lacks job.queueKey ∧
      (∀ f r, intruded.queue.repeats.get? f = some r → r.key ≠ job.queueKey) ∧ intruded.queue.repeats.size = 1 ∧
      ((obligingInMemory.enqueue job).on intruded).1 = .ok () ∧
      ((obligingInMemory.dequeue job).on w').1 = .ok true ∧
      ((obligingInMemory.dequeue job).on w').2.queue.repeats.size = 0 := by
  have run : (LocalQueue.workQueue {}).Run (fun _ _ _ _ => True) (.ofMillis 0) {} (.ofMillis 0) intruded.queue :=
    .step .start trivial
  have entries : ∀ p ∈ intruded.queue.entries.pairs, p.2.key ≠ (jobOn 1 (.periodical "b::every:300000")).queueKey := by
    decide +kernel
  have records : ∀ p ∈ intruded.queue.repeats.pairs, p.2.key ≠ (jobOn 1 (.periodical "b::every:300000")).queueKey := by
    decide +kernel
  refine ⟨⟨_, _, _, run⟩, fun id e stored => ?_, fun f r stored => ?_, by decide +kernel, by decide +kernel,
    by decide +kernel, by decide +kernel⟩
  · exact entries _ (Table.mem_pairs_iff.mpr stored)
  · exact records _ (Table.mem_pairs_iff.mpr stored)

end Engine

end Timetable
