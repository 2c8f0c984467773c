import Timetable.Proofs.Engine.Events
import Timetable.Proofs.Queue.Filled

/-!
# What is queued belongs to its job

In every scene of a run the payload of an entry or a record is a job of its key, so a dispatch finds the job by the payload
or by the key alike (`Job.id_of_ofJson?`). A single entry that nobody ever claimed is there for an enabled job that runs
once (`Scene.Owned`, which every event keeps). One that was claimed may outlive that: it is not taken out while it is at
work. But none comes back for a job that is not enabled (`Scene.Bare`).
-/

namespace Timetable

open LocalQueue

/-! ## Payloads -/

/-- The payload under a key is a job that is queued under it. -/
def Job.Carried (key : String) (payload : Json) : Prop := ∃ job : Job, job.queueKey = key ∧ payload = job.toJson

theorem Job.id_of_ofJson? {job queued : Job} (h : Job.ofJson? job.toJson = some queued) : queued.id = job.id := by
  have record : Json.record? ["id", "environmentId", "name", "schedule", "functions", "executionType", "status",
      "createdAt", "updatedAt"] job.toJson = some [.given (.ofIdentifier job.id), .given (.str job.environment),
        .given (.str job.name), .given job.schedule.toJson, .given (.ofList FunctionSpec.toJson job.functions),
        .given job.executionType.toJson, .given job.status.toJson, .given (.ofInstant job.createdAt),
        .given (.ofInstant job.updatedAt)] := by
    simp [Job.toJson, Json.record?, Json.occurrences, Json.member?, Json.Slot.ofMember]
  have read : Json.identifier? (.ofIdentifier job.id) = some job.id := Identifier.ofText?_text job.id
  simp only [Job.ofJson?, record, Json.Slot.required, read, Option.bind_eq_bind, Option.bind_some,
    Option.bind_eq_some_iff] at h
  obtain ⟨_, _, _, _, _, _, _, _, _, _, _, _, _, _, _, _, h⟩ := h
  rw [← Option.some.inj h]

/-! ## Putting in and withdrawing -/

namespace LocalQueue

variable {C : String → Json → Prop} {S : StoredEntry → Prop} {now : Instant} {q : LocalQueue} {job : Job}

theorem Sound.put (h : Sound now q) (accepted : job.schedule.Accepted) : Sound now (q.put now job) := by
  unfold LocalQueue.put
  cases plan : queuePlan job.schedule now with
  | repeating spec =>
    exact addRepeating_sound h (accepted.usable (queuePlan_eq_repeating_iff.mp plan)).countable job.toJson
  | delayed millis => exact addDelayed_sound h millis job.toJson
  | expired => exact h

theorem Sound.withdraw (h : Sound now q) (job : Job) : Sound now (q.withdraw now job) := by
  unfold LocalQueue.withdraw
  cases queuePlan job.schedule now with
  | repeating spec => exact removeRepeating_sound h
  | delayed _ | expired => exact removeDelayed_sound h

theorem Sound.moved {new : Job} (h : Sound now q) (old : Job) (accepted : new.schedule.Accepted) :
    Sound now (q.moved now old new) :=
  moved_keeps (fun kept => kept.put accepted) (fun kept => kept.withdraw old) h

namespace Filled

theorem put (h : q.Filled C S) (tidy : q.Tidy) (accepted : job.schedule.Accepted) (own : C job.queueKey job.toJson)
    (single : job.schedule.spec? = none → ∀ fireAt, S (.single job.queueKey fireAt job.toJson)) :
    (q.put now job).Filled C S := by
  unfold LocalQueue.put
  cases plan : queuePlan job.schedule now with
  | repeating spec => exact h.addRepeating tidy (accepted.usable (queuePlan_eq_repeating_iff.mp plan)).colonless own
  | delayed millis => exact h.addDelayed own (single (spec?_eq_none now (by simp [plan]))) millis
  | expired => exact h

theorem withdraw (h : q.Filled C S) (now : Instant) (job : Job) : (q.withdraw now job).Filled C S := by
  unfold LocalQueue.withdraw
  cases queuePlan job.schedule now with
  | repeating spec => exact h.removeRepeating job.queueKey spec
  | delayed _ | expired => exact h.removeDelayed job.queueKey

theorem moved {old new : Job} (h : q.Filled C S) (sound : Sound now q) (accepted : new.schedule.Accepted)
    (own : C new.queueKey new.toJson)
    (single : new.isEnabled = true → new.schedule.spec? = none → ∀ fireAt, S (.single new.queueKey fireAt new.toJson)) :
    (q.moved now old new).Filled C S := by
  have adds {q : LocalQueue} (h : q.Filled C S) (sound : Sound now q) (enabled : new.isEnabled = true) :
      (q.put now new).Filled C S := h.put sound.tidy accepted own (single enabled)
  unfold LocalQueue.moved ChangePlan.between
  cases old.isEnabled <;> cases enabled : new.isEnabled
  · exact h
  · exact adds h sound enabled
  · exact h.withdraw now old
  · dsimp only
    split
    · exact h
    · exact adds (h.withdraw now old) (sound.withdraw old) enabled

end Filled

/-- Workers put nothing in. -/
theorem fills_of_workers {C : String → Json → Prop} {S : StoredEntry → Prop} {request : QueueRequest}
    (asked : request.OfWorkers) : request.Fills C S := by
  cases request <;> trivial

/-- A job that runs once leaves no single entry behind, unless it was claimed. -/
theorem Sound.withdrawn (h : Sound now q) (once : job.schedule.spec? = none) {id : String} {e : StoredEntry}
    (stored : (q.withdraw now job).entries.get? id = some e) (repeats : e.repeats = none)
    (never : e.processedOn = none) : e.key ≠ job.queueKey := by
  intro key
  have sound := h.withdraw job
  have own : id = singleId job.queueKey := by
    rw [← sound.ownId stored, (sound.made stored).single repeats, key]
  subst own
  have removed : q.withdraw now job = ((removeDelayed job.queueKey).on q).2 := by
    unfold LocalQueue.withdraw
    cases plan : queuePlan job.schedule now with
    | repeating spec => cases once.symm.trans (queuePlan_eq_repeating_iff.mp plan)
    | delayed _ | expired => rfl
  rw [removed, removeDelayed_on] at stored
  split at stored
  · next kept =>
    have free := h.not_held stored never
    simp only [free, Bool.false_or, Bool.not_eq_true', Table.contains_eq_false_iff] at kept
    rw [kept] at stored
    cases stored
  · simp [eraseEntry] at stored

end LocalQueue

/-! ## Scenes of a run -/

/-- An entry that nobody claimed is there for a stored job that runs once and is enabled. -/
def StoredEntry.Wanted (jobs : Table Identifier Job) (e : StoredEntry) : Prop :=
  e.processedOn = none → ∃ id job, jobs.get? id = some job ∧ job.queueKey = e.key ∧ job.isEnabled = true ∧
    job.schedule.spec? = none

/-- It is there for another job. -/
def StoredEntry.WantedBut (id : Identifier) (jobs : Table Identifier Job) (e : StoredEntry) : Prop :=
  e.processedOn = none → ∃ id' job, id' ≠ id ∧ jobs.get? id' = some job ∧ job.queueKey = e.key ∧
    job.isEnabled = true ∧ job.schedule.spec? = none

namespace Scene

variable {rules : ClaimRules} {s s' : Scene} {id : Identifier} {old new job : Job}

/-- What is queued belongs to its job. -/
structure Owned (s : Scene) : Prop where
  sound : Sound s.now s.queue
  ownId : ∀ {id job}, s.jobs.get? id = some job → job.id = id
  accepted : ∀ {id job}, s.jobs.get? id = some job → job.schedule.Accepted
  filled : s.queue.Filled Job.Carried (StoredEntry.Wanted s.jobs)

theorem owned_empty (t : Instant) : Owned ⟨t, {}, .empty⟩ where
  sound := Sound.empty t
  ownId h := by cases h
  accepted h := by cases h
  filled := .empty

theorem carried (job : Job) : Job.Carried job.queueKey job.toJson := ⟨job, rfl, rfl⟩

namespace Owned

/-- Without what is queued for a job, the entries that nobody claimed are there for others. -/
theorem withdraw (h : s.Owned) (stored : s.jobs.get? old.id = some old) :
    (s.queue.withdraw s.now old).Filled Job.Carried (StoredEntry.WantedBut old.id s.jobs) := by
  have filled := h.filled.withdraw s.now old
  refine ⟨filled.record, filled.entry, fun {k e} he repeats never => ?_⟩
  obtain ⟨id, job, hj, key, enabled, once⟩ := filled.single he repeats never
  refine ⟨id, job, ?_, hj, key, enabled, once⟩
  rintro rfl
  obtain rfl : old = job := Option.some.inj (stored.symm.trans hj)
  exact h.sound.withdrawn once he repeats never key.symm

theorem disabled (h : s.Owned) (stored : s.jobs.get? old.id = some old) (off : old.isEnabled = false) :
    s.queue.Filled Job.Carried (StoredEntry.WantedBut old.id s.jobs) := by
  refine h.filled.mono (fun _ _ => id) fun e wanted never => ?_
  obtain ⟨id, job, hj, key, enabled, once⟩ := wanted never
  refine ⟨id, job, ?_, hj, key, enabled, once⟩
  rintro rfl
  obtain rfl : old = job := Option.some.inj (stored.symm.trans hj)
  rw [off] at enabled
  cases enabled

theorem wanted_of_but {e : StoredEntry} {jobs : Table Identifier Job} (h : e.WantedBut id s.jobs)
    (same : ∀ id', id' ≠ id → jobs.get? id' = s.jobs.get? id') : e.Wanted jobs := by
  intro never
  obtain ⟨id', job, ne, hj, rest⟩ := h never
  exact ⟨id', job, (same id' ne).trans hj, rest⟩

/-- Moving the entries of a job as its change asks. -/
theorem moved (h : s.Owned) (stored : s.jobs.get? old.id = some old) (same : new.id = old.id)
    (accepted : new.schedule.Accepted) :
    (s.queue.moved s.now old new).Filled Job.Carried (StoredEntry.Wanted (s.jobs.set old.id new)) := by
  have others (id : Identifier) (ne : id ≠ old.id) : (s.jobs.set old.id new).get? id = s.jobs.get? id := by
    simp [ne.symm]
  have adds {q : LocalQueue} (sound : Sound s.now q) (enabled : new.isEnabled = true)
      (filled : q.Filled Job.Carried (StoredEntry.WantedBut old.id s.jobs)) :
      (q.put s.now new).Filled Job.Carried (StoredEntry.Wanted (s.jobs.set old.id new)) := by
    refine (filled.mono (fun _ _ => id) fun e wanted => wanted_of_but wanted others).put sound.tidy accepted (carried new) ?_
    exact fun once _ _ => ⟨old.id, new, by simp, rfl, enabled, once⟩
  have stays {q : LocalQueue} (filled : q.Filled Job.Carried (StoredEntry.WantedBut old.id s.jobs)) :
      q.Filled Job.Carried (StoredEntry.Wanted (s.jobs.set old.id new)) :=
    filled.mono (fun _ _ => id) fun e wanted => wanted_of_but wanted others
  unfold LocalQueue.moved ChangePlan.between
  cases was : old.isEnabled <;> cases is : new.isEnabled
  · exact stays (h.disabled stored was)
  · exact adds h.sound is (h.disabled stored was)
  · exact stays (h.withdraw stored)
  · dsimp only
    split
    · next schedules =>
      -- the entry stays where it is, and the job still wants it
      refine h.filled.mono (fun _ _ => id) fun e wanted never => ?_
      obtain ⟨id, job, hj, key, enabled, once⟩ := wanted never
      by_cases own : id = old.id
      · subst own
        obtain rfl : old = job := Option.some.inj (stored.symm.trans hj)
        exact ⟨old.id, new, by simp, (congrArg Identifier.text same).trans key, is, schedules ▸ once⟩
      · exact ⟨id, job, (others id own).trans hj, key, enabled, once⟩
    · exact adds (h.sound.withdraw old) is (h.withdraw stored)

theorem jobs_set (h : s.Owned) (own : job.id = id) (accepted : job.schedule.Accepted) {id' : Identifier} {job' : Job}
    (hj : (s.jobs.set id job).get? id' = some job') : job'.id = id' ∧ job'.schedule.Accepted := by
  rw [Table.get?_set] at hj
  split at hj
  · next same =>
    cases hj
    exact ⟨own.trans same, accepted⟩
  · exact ⟨h.ownId hj, h.accepted hj⟩

theorem still (h : s.Owned) (still : Still rules s s') : s'.Owned := by
  have claimed (e : StoredEntry) (now : Instant) (_ : e.Wanted s.jobs) :
      StoredEntry.Wanted s.jobs { e with processedOn := some now } := nofun
  cases still with
  | passed later => exact { h with sound := h.sound.mono later }
  | asked request asked =>
    have countable : request.Countable := by
      cases request <;> first | exact trivial | exact asked.elim
    exact { h with
      sound := ask_sound h.sound le_rfl countable
      filled := ask_filled claimed h.filled h.sound.tidy request (fills_of_workers asked) }
  | @restored id job stored enabled =>
    exact { h with
      sound := h.sound.put (h.accepted stored)
      filled := h.filled.put h.sound.tidy (h.accepted stored) (carried job)
        fun once _ _ => ⟨id, job, stored, rfl, enabled, once⟩ }
  | @cleared job _ => exact { h with sound := h.sound.withdraw job, filled := h.filled.withdraw s.now job }

theorem turn (h : s.Owned) (turn : Turn s s') : s'.Owned := by
  cases turn with
  | @created job fresh accepted =>
    have others (id : Identifier) (ne : id ≠ job.id) : (s.jobs.set job.id job).get? id = s.jobs.get? id := by
      simp [ne.symm]
    have before : s.queue.Filled Job.Carried (StoredEntry.Wanted (s.jobs.set job.id job)) := by
      refine h.filled.mono (fun _ _ => id) fun e wanted never => ?_
      obtain ⟨id, job', hj, rest⟩ := wanted never
      refine ⟨id, job', (others id ?_).trans hj, rest⟩
      rintro rfl
      rw [fresh] at hj
      cases hj
    refine ⟨?_, fun hj => (h.jobs_set rfl accepted hj).1, fun hj => (h.jobs_set rfl accepted hj).2, ?_⟩
    · dsimp only
      split
      · exact h.sound.put accepted
      · exact h.sound
    · dsimp only
      split
      · next enabled =>
        exact before.put h.sound.tidy accepted (carried job) fun once _ _ => ⟨job.id, job, by simp, rfl, enabled, once⟩
      · exact before
  | @changed old new stored same accepted =>
    exact ⟨h.sound.moved old accepted, fun hj => (h.jobs_set same accepted hj).1,
      fun hj => (h.jobs_set same accepted hj).2, h.moved stored same accepted⟩
  | @deleted job stored =>
    have kept {id : Identifier} {job' : Job} (hj : (s.jobs.erase job.id).get? id = some job') :
        s.jobs.get? id = some job' := by
      rw [Table.get?_erase, Option.ite_none_left_eq_some] at hj
      exact hj.2
    refine ⟨h.sound.withdraw job, fun hj => h.ownId (kept hj), fun hj => h.accepted (kept hj), ?_⟩
    refine (h.withdraw stored).mono (fun _ _ => id) fun e wanted => wanted_of_but wanted fun id ne => ?_
    rw [Table.get?_erase, if_neg ne.symm]

/-- What putting in the jobs that are stored before or after and taking jobs out keeps, everything keeps that follows a
request. -/
theorem keeps {P : LocalQueue → Prop} (h : s.Owned) (follows : Follows s s')
    (put : ∀ {q job}, P q → job.schedule.Accepted →
      s.jobs.get? job.id = some job ∨ s'.jobs.get? job.id = some job → P (q.put s'.now job))
    (withdraw : ∀ {q} (job : Job), P q → P (q.withdraw s'.now job)) (start : P s.queue) : P s'.queue := by
  obtain ⟨now, s₁, -, mends, last⟩ := follows
  obtain rfl : s'.now = now := now_eq_of_mends mends last
  have mended : P s₁.queue ∧ s₁.now = s'.now ∧ s₁.jobs = s.jobs := by
    clear last
    induction mends with
    | refl => exact ⟨start, rfl, rfl⟩
    | @tail s₁ s₂ _ event ih =>
      obtain ⟨kept, now, jobs⟩ := ih
      cases event with
      | @restored id job stored _ =>
        rw [jobs] at stored
        refine ⟨?_, now, jobs⟩
        rw [now]
        exact put kept (h.accepted stored) (.inl (h.ownId stored ▸ stored))
      | @cleared job _ =>
        refine ⟨?_, now, jobs⟩
        rw [now]
        exact withdraw job kept
  obtain ⟨kept, now, jobs⟩ := mended
  rcases last with rfl | turn
  · exact kept
  · cases turn with
    | @created job _ accepted =>
      dsimp only
      split
      · exact put kept accepted (.inr (by simp))
      · exact kept
    | @changed old new stored same accepted =>
      exact moved_keeps (fun kept => put kept accepted (.inr (by simp [same]))) (withdraw old) kept
    | @deleted job stored => exact withdraw job kept

end Owned

/-! ## Jobs that are not enabled -/

/-- A job is disabled, or not stored. -/
def Off (id : Identifier) (s : Scene) : Prop := ∀ job, s.jobs.get? id = some job → job.isEnabled = false

/-- No single entry is queued for a job. -/
def Bare (id : Identifier) (s : Scene) : Prop := s.queue.Filled (fun _ _ => True) fun e => e.key ≠ id.text

theorem bare_of_absent (sound : Sound s.now s.queue) (absent : s.queue.entries.get? (singleId id.text) = none) :
    s.Bare id where
  record _ := trivial
  entry _ := trivial
  single {k e} stored repeats key := by
    have own : k = singleId id.text := by
      rw [← sound.ownId stored, (sound.made stored).single repeats, key]
    rw [own, absent] at stored
    cases stored

namespace Bare

theorem still (h : s.Bare id) (owned : s.Owned) (off : s.Off id) (still : Still rules s s') : s'.Bare id := by
  cases still with
  | passed later => exact h
  | asked request asked =>
    exact ask_filled (fun _ _ other => other) h owned.sound.tidy request (fills_of_workers asked)
  | @restored id' job stored enabled =>
    refine LocalQueue.Filled.put h owned.sound.tidy (owned.accepted stored) trivial fun _ _ key => ?_
    obtain rfl : id' = id := (owned.ownId stored).symm.trans (Identifier.text_injective key)
    exact Bool.false_ne_true ((off job stored).symm.trans enabled)
  | @cleared job _ => exact LocalQueue.Filled.withdraw h s.now job

theorem turn (h : s.Bare id) (owned : s.Owned) (off : s'.Off id) (turn : Turn s s') : s'.Bare id := by
  cases turn with
  | @created job fresh accepted =>
    unfold Bare
    dsimp only
    split
    · next enabled =>
      refine LocalQueue.Filled.put h owned.sound.tidy accepted trivial fun _ _ key => ?_
      obtain rfl := Identifier.text_injective key
      exact Bool.false_ne_true ((off job (by simp)).symm.trans enabled)
    · exact h
  | @changed old new stored same accepted =>
    refine LocalQueue.Filled.moved h owned.sound accepted trivial fun enabled _ _ key => ?_
    obtain rfl := Identifier.text_injective key
    exact Bool.false_ne_true ((off new (by simp [same])).symm.trans enabled)
  | @deleted job stored => exact LocalQueue.Filled.withdraw h s.now job

theorem goes (h : s.Bare id) (owned : s.Owned) (off : s.Off id) (goes : Goes rules s s') (off' : s'.Off id) :
    s'.Bare id := by
  obtain ⟨s₁, stills, last⟩ := goes
  have before : s₁.Bare id ∧ s₁.Owned ∧ s₁.Off id := by
    clear last
    induction stills with
    | refl => exact ⟨h, owned, off⟩
    | tail _ event ih =>
      obtain ⟨bare, owned, off⟩ := ih
      refine ⟨bare.still owned off event, owned.still event, fun job stored => off job ?_⟩
      rwa [jobs_eq_of_still event] at stored
  rcases last with rfl | last
  · exact before.1
  · exact before.1.turn before.2.1 off' last

end Bare

end Scene

/-! ## Runs -/

namespace Site

variable {rules : ClaimRules} {policy : SchedulePolicy} {threshold : Nat} {t₀ : Instant} {s s' : Site}

theorem owned_of_visited (h : Visited rules policy threshold t₀ s) : s.world.scene.Owned := by
  induction h with
  | refl => exact Scene.owned_empty t₀
  | tail run onward ih => exact ((onward.goes (InStep.of_visited run)).2).induction Scene.Owned.still Scene.Owned.turn ih

end Site

end Timetable
