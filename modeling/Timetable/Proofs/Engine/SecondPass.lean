import Timetable.Proofs.Engine.Restoring
import Timetable.Proofs.Engine.Runs
import Timetable.Proofs.Queue.SharedCalm

/-!
# A second pass of reconciliation

A pass leaves the store alone, and with it every record and every entry that was there. A second pass at the same
instant does nothing, also for jobs whose schedule is invalid or has no further occurrence, and whatever was coalesced
in the first (`reconcile_idempotent`).

Two conditions cannot be left out. The calendar must reach the next second and the instants of the schedules, or a pass
breaks off; and the record in the field of a job must be its own (`QueueContents.Owns`), or each pass counts the job as
put back. Only a job whose expression is invalid can find another record in its field (`QueueContents.Tidy.owns`).
-/

namespace Timetable

/-! ## What passes leave -/

/-- Records, with their next fires, and entries are still there. -/
structure QueueContents.Retained (c c' : QueueContents) : Prop where
  record : ∀ {f r}, c.record f = some r → ∃ r', c'.record f = some r' ∧ r'.key = r.key ∧ r'.spec = r.spec ∧
    r'.next = r.next
  entry : ∀ {id e}, c.entry id = some e → c'.entry id = some e

theorem QueueContents.Recovered.retained {late : String → Prop} {c c₁ c₂ : QueueContents} (h : c.Recovered late c₁)
    (grows : c₁.Grows c₂) : c.Retained c₂ :=
  ⟨fun hr => grows.record (h.record ▸ hr), fun he => grows.entry (h.entry ▸ he)⟩

/-- Both queues take jobs with payloads of up to 100 levels. -/
theorem CalmQueue.Implemented.takes {σ ω : Type} {Q : CalmQueue σ ω} {job : Job} (h : Q.Implemented)
    (narrow : job.schedule.Narrow) (storable : job.Storable) : Q.Takes job := by
  cases h with
  | memory rules => exact ⟨narrow, trivial⟩
  | shared rules => exact ⟨narrow, storable.keepable_of_narrow narrow⟩

namespace Engine

variable {σ ω ρ τ β : Type} {Q : CalmQueue σ ω} {S : CalmStore ρ τ β} {g : Engine σ ρ τ} {w w' : World σ ρ}
  {jobs : List Job}

/-- The store is as it was, and whatever was in the queue is still there. -/
structure Additive (Q : CalmQueue σ ω) (S : CalmStore ρ τ β) (w w' : World σ ρ) : Prop where
  rows : S.rows w'.store = S.rows w.store
  retained : (Q.seen w.queue).Retained (Q.seen w'.queue)

/-- The store and the queue are as they were. -/
structure Unchanged (Q : CalmQueue σ ω) (S : CalmStore ρ τ β) (w w' : World σ ρ) : Prop where
  rows : S.rows w'.store = S.rows w.store
  held : Q.held w'.queue = Q.held w.queue

/-- A pass only adds. It comes to its end if the calendar reaches what the schedules ask for, and a second one at the
same instant then reports nothing and changes nothing. -/
theorem reconcile_idempotent (hQ : Q.Implemented) (hS : S.Implemented) (hg : g.queue = Q.queue) (hs : g.store = S.store)
    (clock : w.now.Storable) (reached : Q.Reached w.now (Q.held w.queue))
    (listed : S.enabled (S.rows w.store) = .ok jobs) (takes : ∀ job ∈ jobs, Q.Takes job) :
    g.reconcile.Ends w
      (fun _ w' => Additive Q S w w' ∧ w'.now = w.now ∧
        ((∀ job ∈ jobs, (Q.seen w.queue).Owns job) →
          g.reconcile.Ends w' (fun report w'' => report = ⟨0, 0, 0⟩ ∧ Unchanged Q S w' w'') fun _ _ => False))
      fun _ w' => Additive Q S w w' ∧ ∃ job ∈ jobs, ¬ job.schedule.InReach w.now := by
  obtain ⟨Settled, lawful⟩ := hQ.lawful reached
  refine (reconcile_restores lawful hS.lawful hg hs reached clock listed takes).mono ?_ ?_
  · rintro _ w' ⟨now, rows, q, _, recovered, restored, answered⟩
    refine ⟨⟨rows, recovered.retained restored.restores.grows⟩, now, fun owns => ?_⟩
    have again := reconcile_rests (now.symm ▸ lawful) hS.lawful hg hs restored.settled (rows.symm ▸ listed) takes
      (now.symm ▸ fun job mem => answered job mem (owns job mem))
    exact again.mono (fun _ _ ⟨nothing, _, rows', held⟩ => ⟨nothing, rows', held⟩) fun _ _ h => h
  · rintro _ w' ⟨_, late, rows, q, _, recovered, restored⟩
    exact ⟨⟨rows, recovered.retained restored.restores.grows⟩, late⟩

/-! ## Jobs that were lost from the queue -/

def obligingInMemory : Engine LocalQueue (StoreState LocalStore) (Transaction LocalStore) := .inMemory {} {} 3 .obliging

def jobOn (n : Nat) (schedule : Schedule) : Job where
  id := .generated n
  environment := "e"
  name := "a"
  schedule
  functions := []
  executionType := .sequential
  status := .enabled
  createdAt := .ofMillis 0
  updatedAt := .ofMillis 0

/-- The store holds some jobs, whatever is in the queue. -/
def worldOf {σ : Type} (now : Instant) (queue : σ) (jobs : List Job) : World σ (StoreState LocalStore) where
  now
  queue
  store := { rows := { jobs := jobs.foldl (fun stored job => stored.set job.id job) .empty } }

/-- Two jobs are not in the queue, and only one of them can be queued. -/
def lostJobs : Memory := worldOf (.ofMillis 0) {} [jobOn 1 (.interval 5), jobOn 2 (.periodical "never")]

theorem second_pass_after_lost_jobs :
    (obligingInMemory.reconcile.on lostJobs).1 = .ok ⟨1, 0, 0⟩ ∧
      Additive (.memory {}) .memory lostJobs (obligingInMemory.reconcile.on lostJobs).2 ∧
      obligingInMemory.reconcile.Ends (obligingInMemory.reconcile.on lostJobs).2
        (fun report w' => report = ⟨0, 0, 0⟩ ∧
          Unchanged (.memory {}) .memory (obligingInMemory.reconcile.on lostJobs).2 w')
        fun _ _ => False := by
  have takes : ∀ job ∈ [jobOn 1 (.interval 5), jobOn 2 (.periodical "never")], (CalmQueue.memory {}).Takes job := by
    simp only [List.forall_mem_cons]
    exact ⟨⟨show 5 < 4294967296 by decide, trivial⟩, ⟨trivial, trivial⟩, nofun⟩
  have passes := reconcile_idempotent (g := obligingInMemory) (w := lostJobs)
    (.memory {}) .memory rfl rfl (by decide) ⟨fun _ _ _ _ => True, .ofMillis 0, .ofMillis 0, .start⟩
    (by decide +kernel) takes
  have first : (obligingInMemory.reconcile.on lostJobs).1 = .ok ⟨1, 0, 0⟩ := by decide +kernel
  obtain ⟨additive, _, again⟩ := passes.1 _ first
  refine ⟨first, additive, again fun job _ spec r _ stored => ?_⟩
  cases stored

/-- Both conditions are needed: in the last second of the calendar a pass breaks off, and a record of another key in the
field of a job has each pass count the job as put back. -/
theorem reconcile_breaks_off_or_repeats :
    (∃ w, (CalmQueue.memory {}).Reached w.now w.queue ∧
      (obligingInMemory.reconcile.on w).1 = .error (.queue .outOfRange)) ∧
    ∃ w, (CalmQueue.memory {}).Reached w.now w.queue ∧
      (obligingInMemory.reconcile.on w).1 = .ok ⟨1, 0, 0⟩ ∧
      (obligingInMemory.reconcile.on (obligingInMemory.reconcile.on w).2).1 = .ok ⟨1, 0, 0⟩ := by
  constructor
  · exact ⟨worldOf ⟨8210266876799, 0⟩ {} [jobOn 1 (.periodical "0 0 * * * *")],
      ⟨fun _ _ _ _ => True, .ofMillis 0, .ofMillis 0, .start⟩, by decide +kernel⟩
  · let foreign : QueueRequest := .addRepeating ((Identifier.generated 1).text ++ "::cron:b") (.every 300000) .null
    exact ⟨worldOf (.ofMillis 0) (((LocalQueue.workQueue {}).ask (.ofMillis 0) foreign).on {}).2
        [jobOn 1 (.periodical "b::every:300000")],
      ⟨fun _ _ _ _ => True, .ofMillis 0, .ofMillis 0, .step .start trivial⟩, by decide +kernel, by decide +kernel⟩

end Engine

end Timetable
