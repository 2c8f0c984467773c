import Timetable.Proofs.Engine.Undo

/-!
# Deletions that fail

A deletion that fails leaves the rows as they were. A job that was queued is still queued, with two exceptions: the
record was taken out and its entry was not, or the deletion failed at its commit and there is no fire left for which the
job could be put back.
-/

namespace Timetable

open World Placement

/-- The record of a job is stored with its current entry, or its single entry is pending. -/
structure Job.Waiting (j : Job) (c : QueueContents) : Prop where
  queued : j.placement.Queued c
  pending : j.schedule.spec? = none → c.claimed (singleId j.queueKey) = false

namespace Job

variable {j : Job} {now : Instant} {c c' c'' : QueueContents}

/-- What was waiting is out of the queue once it is taken out. -/
theorem Waiting.not_held_of_left (h : j.Waiting c) (left : j.placement.Left c c') : ¬ j.placement.Held c' := by
  cases hs : j.schedule.spec? with
  | none =>
    have free := h.pending hs
    rw [j.placement_of_none hs] at left ⊢
    have gone : c'.entry (singleId j.queueKey) = none := by
      refine (left.gone _ rfl).resolve_right fun taken => ?_
      rw [left.claimed, free] at taken
      cases taken
    exact Option.not_isSome_iff_eq_none.mpr gone
  | some spec =>
    rw [j.placement_of_spec hs] at left ⊢
    exact left.not_held rfl

/-- What was taken out is put back. -/
theorem Waiting.put_back (h : j.Waiting c) (left : j.placement.Left c c') (put : j.Put now c' c'')
    (ahead : j.schedule.FiresAhead now) : j.Waiting c'' := by
  refine ⟨put.queued ahead (h.not_held_of_left left), fun hs => ?_⟩
  have entered := put.resolve_left fun expired => ahead.single expired.1
  rw [entered.claimed, left.claimed]
  exact h.pending hs

end Job

namespace Engine

variable {σ ρ : Type} {Q : FaultyQueue σ} {S : FaultyStore ρ} {g : Engine σ (StoreState ρ) (Transaction ρ)}
  {w : World σ (StoreState ρ)} {environment : String} {job : Job}

/-- Whether what a deletion takes out of the queue can be put back: the removal is not cut short, and if the commit
fails there is a fire ahead. -/
structure Undoable (Q : FaultyQueue σ) (S : FaultyStore ρ) (w : World σ (StoreState ρ)) (job : Job) : Prop where
  whole : job.schedule.spec? ≠ none → ¬ Q.Cuts w.queue
  ahead : S.Commits ∨ job.schedule.FiresAhead w.now

/-- After a deletion that failed the job and its executions are stored as before, and if the job was queued, it still is,
where that can be undone. -/
theorem failed_delete_undone (hQ : Q.Implemented) (hS : S.Implemented) (h : Attempt Q S g w environment job) :
    (g.deleteJob environment job.id).Ends w (fun _ _ => True) fun e w' => e.isOutOfRange = true ∨
      w'.store.rows = w.store.rows ∧ (job.isEnabled = true → Undoable Q S w job →
        job.Waiting (Q.contents w.queue) → job.Waiting (Q.contents w'.queue)) := by
  obtain ⟨Inv, law⟩ := hQ.lawful h.reached
  have lawful := hS.lawful
  have inv := law.reached h.reached
  simp only [deleteJob, applyDelete, getJob, Act.ends_bind, h.store, storing, queueing, attempting, Act.ends_mapError,
    Act.ends_discard, Act.ends_attemptUnless]
  refine ends_onStore.mpr ((lawful.findJob environment job.id).mono ?_ fun e s rows => .inr ⟨rows, fun _ _ => id⟩)
  rintro found s₁ ⟨rows₁, read⟩
  rw [h.found] at read
  cases read
  refine Act.ends_pure.mpr (ends_time.mpr (ends_onStore.mpr ((lawful.openTransaction _).mono ?_ fun e s rows =>
    .inr ⟨rows.trans rows₁, fun _ _ => id⟩)))
  rintro t s₂ ⟨rows₂, -⟩
  refine ends_inTransaction.mpr ((lawful.deleteJob _).mono ?_ fun e s rows => .inr ⟨(rows.trans rows₂).trans rows₁, fun _ _ => id⟩)
  rintro found ⟨t, s₃⟩ rows₃
  have rows : s₃.rows = w.store.rows := (rows₃.trans rows₂).trans rows₁
  refine ends_dequeue (w := ((w.putStore s₁).putStore s₂).putStore s₃) law h.queue inv h.accepted
    (fun _ q went left => ?_) fun e q broke => ?_
  · refine ends_onStore.mpr ((lawful.commit t).mono (fun _ _ _ => Act.ends_pure.mpr trivial) ?_)
    rintro e s₄ ⟨kept, fails⟩
    have calm := went.calm (h.once.resolve_right fails)
    rw [if_neg (show ¬ (EngineError.store e).isOutOfRange = true by simp [EngineError.isOutOfRange])]
    cases enabled : job.isEnabled with
    | false =>
      rw [if_neg Bool.false_ne_true]
      exact Act.ends_throw.mpr (.inr ⟨kept.trans rows, fun on => (Bool.false_ne_true on).elim⟩)
    | true =>
      rw [if_pos rfl]
      simp only [Act.ends_bind, Act.ends_discard, Act.ends_attemptUnless, Act.ends_mapError]
      refine ends_enqueue (w := (w.putQueue q).putStore s₄) law h.queue went.inv h.accepted h.storable
        (fun q' _ put => ?_) fun e' q' broke => ?_
      · refine Act.ends_throw.mpr (.inr ⟨kept.trans rows, fun _ undoable waiting => ?_⟩)
        exact waiting.put_back left put (undoable.ahead.resolve_left fails)
      · rw [broke.late calm]
        exact .inl rfl
  · rcases broke with rfl | ⟨_, _, _, same | ⟨cuts, only, _⟩⟩
    · exact .inl rfl
    · exact .inr ⟨rows, fun _ _ waiting => same ▸ waiting⟩
    · exact .inr ⟨rows, fun _ undoable => absurd cuts (undoable.whole only.repeats)⟩

/-- The first job is to be deleted. -/
def removal : Act EngineError (World (Metered LocalQueue) (StoreState LocalStore)) Unit :=
  uncommitting.deleteJob "e" (.generated 1)

/-- A job that runs every five minutes is put back when its deletion is not committed. -/
theorem put_back_after_failed_commit :
    let job := firstJob (.interval 5) .enabled
    let w := World.queueing job (.addRepeating job.queueKey (.every 300000) job.toJson) (.ofMillis 0) (.ofMillis 0)
    (removal.on w).1 = .error (.store LocalStore.commitRejected) ∧ (removal.on w).2.store.rows = w.store.rows ∧
      job.Waiting (removal.on w).2.queue.state.contents := by
  intro job w
  have failed : (removal.on w).1 = .error (.store LocalStore.commitRejected) := by decide +kernel
  have queued : job.placement.Queued w.queue.state.contents :=
    ⟨instanceId job.queueKey (.every 300000) (.ofMillis 300000), by decide +kernel, by decide +kernel⟩
  have ahead : (Schedule.interval 5).FiresAhead (.ofMillis 0) := by
    refine ⟨by decide +kernel, ?_⟩
    rintro _ ⟨⟩
    decide +kernel
  have accepted : (Schedule.interval 5).Accepted := ⟨by decide, by decide⟩
  have attempt : Attempt (.memory {} 0 .outOfRange) (.memory failingCommits) uncommitting w "e" job :=
    attempt_queueing (accepted.usable rfl) le_rfl accepted
  have undone := failed_delete_undone (.memory {} 0 .outOfRange) (.memory failingCommits) attempt
  have ends : removal.Ends w _ _ := undone
  have undoable : Undoable (.memory {} 0 .outOfRange) (.memory failingCommits) w job := ⟨fun _ => id, .inr ahead⟩
  have waiting : job.Waiting w.queue.state.contents := ⟨queued, nofun⟩
  have kept := (ends.2 _ failed).resolve_left nofun
  exact ⟨failed, kept.1, kept.2 rfl undoable waiting⟩

/-- The record of the first job, which was put into the shared keyspace at the start of 1970. -/
def recorded : Link :=
  ⟨(((SharedQueue.workQueue {} (.single 9 "")).addRepeating (.ofMillis 0) (Identifier.generated 1).text (.every 300000)
    (.obj [])).on {}).2.keys, 0⟩

/-- The first job is to be deleted, and the third command fails. -/
def brokenRemoval : Act EngineError (World Link (StoreState LocalStore)) Unit :=
  (Engine.backedBy (.shared {} 2 "") (.memory noStoreFaults)).deleteJob "e" (.generated 1)

/-- A job that is due runs no more once the commit of its deletion fails. And a removal of which the third command fails
has taken out the record, which nothing puts back. -/
theorem deletions_half_undone :
    (let job := firstJob (.onTime (.ofMillis 60000)) .enabled
      let w := World.queueing job (.addDelayed job.queueKey 60000 job.toJson) (.ofMillis 0) (.ofMillis 60000)
      Attempt (.memory {} 0 .outOfRange) (.memory failingCommits) uncommitting w "e" job ∧ job.isEnabled = true ∧
        job.Waiting w.queue.state.contents ∧ (removal.on w).1 = .error (.store LocalStore.commitRejected) ∧
        ¬ job.Waiting (removal.on w).2.queue.state.contents) ∧
    (let job := firstJob (.interval 5) .enabled
      let w := World.holding job (.ofMillis 0) recorded
      let field := repeatField job.queueKey (.every 300000)
      Attempt (.shared {} 2 "") (.memory noStoreFaults) (.backedBy (.shared {} 2 "") (.memory noStoreFaults)) w "e" job ∧
        job.isEnabled = true ∧ w.queue.keys.repeats.contains field = true ∧
        w.queue.keys.entries.contains (instanceId job.queueKey (.every 300000) (.ofMillis 300000)) = true ∧
        (brokenRemoval.on w).1 = .error (.queue (CommandFaults.single 2 "").error) ∧
        (brokenRemoval.on w).2.queue.keys.repeats.contains field = false) := by
  constructor
  · intro job w
    have queued : job.placement.Queued w.queue.state.contents := queued_single_iff.mpr (by decide +kernel)
    have free : w.queue.state.contents.claimed (singleId job.queueKey) = false := by decide +kernel
    have out : ((removal.on w).2.queue.state.contents.entry (singleId job.queueKey)).isSome = false := by decide +kernel
    refine ⟨attempt_queueing trivial (by decide) trivial, rfl, ⟨queued, fun _ => free⟩, by decide +kernel, ?_⟩
    rintro ⟨waiting, -⟩
    rw [queued_single_iff.mp waiting] at out
    cases out
  · intro job w field
    have accepted : (Schedule.interval 5).Accepted := ⟨by decide, by decide⟩
    have reached : (FaultyQueue.shared {} 2 "").Reached (.ofMillis 0) recorded :=
      ⟨by decide, .single 9 "", .ofMillis 0, .ofMillis 0, _, CommandFaults.whole_single 9 "", le_rfl,
        .step (r := .addRepeating (Identifier.generated 1).text (.every 300000) (.obj [])) .start
          ⟨le_rfl, by decide, (accepted.usable rfl).countable, trivial, by decide⟩, rfl⟩
    exact ⟨attempt_firstJob reached (.inr fun _ => rfl) accepted, rfl, by decide +kernel, by decide +kernel,
      by decide +kernel, by decide +kernel⟩

end Engine

end Timetable
