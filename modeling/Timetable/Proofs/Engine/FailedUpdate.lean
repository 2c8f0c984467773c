import Timetable.Proofs.Engine.Undo

/-!
# Updates that fail

An update that fails leaves the stored job as it was. What it leaves of the queue is said by two theorems:
* `Engine.job_stays_queued`: a job that was queued is queued afterwards, if its schedule still fires;
* `Engine.no_residue`: nothing of the new definition is left, unless the one command that fails is the one that puts
  the new entry in, after its record was stored.
-/

namespace Timetable

open Placement

/-! ## Placements beside each other -/

namespace Placement

variable {p q : Placement} {c c' : QueueContents} {now : Instant}

/-- Whether nothing of one placement belongs to another one. -/
structure Apart (p q : Placement) : Prop where
  record : ∀ f, p.field? = some f → q.field? ≠ some f
  entry : ∀ id, p.IsFire id → ¬ q.IsFire id

/-- Repetitions of one key in different ways do not meet, nor do they meet a single execution. -/
theorem apart_of_ne {key : String} {spec : RepeatSpec} {spec? : Option RepeatSpec} (usable : spec.Usable)
    (usable' : ∀ spec', spec? = some spec' → spec'.Usable) (ne : spec? ≠ some spec) :
    Apart ⟨key, some spec⟩ ⟨key, spec?⟩ := by
  constructor
  · rintro _ ⟨⟩ same
    obtain ⟨spec', rfl, field⟩ := field?_eq_some_iff.mp same
    exact ne (congrArg some (repeatField_inj (usable' spec' rfl).colonless usable.colonless field).2)
  · rintro id ⟨t, rfl⟩ fire
    cases spec? with
    | none => exact singleId_ne_instanceId fire.symm
    | some spec' =>
      obtain ⟨t', same⟩ := fire
      exact ne (congrArg some (instanceId_inj usable.colonless (usable' spec' rfl).colonless same).2.1.symm)

/-- What is still held is queued: there is no record without its entry. -/
def Mended (p : Placement) (c : QueueContents) : Prop := p.Held c → p.Queued c

theorem mended_single (key : String) (c : QueueContents) : Mended ⟨key, none⟩ c := fun held => ⟨_, rfl, held⟩

/-- As long as the record is the same and its entry is kept. -/
theorem Mended.congr (h : p.Mended c) (record : ∀ f, p.field? = some f → c'.record f = c.record f)
    (kept : ∀ id, p.IsFire id → (c.entry id).isSome → (c'.entry id).isSome) : p.Mended c' := by
  obtain ⟨key, spec⟩ := p
  cases spec with
  | none => exact mended_single key c'
  | some spec =>
    intro held
    have before : (c.record (repeatField key spec)).isSome := by
      rw [← record _ rfl]
      exact held
    obtain ⟨id, current, stored⟩ := h before
    exact ⟨id, (current?_eq record).trans current, kept id (isFire_of_current current) stored⟩

theorem Mended.recordOnly (h : p.Mended c) (apart : Apart p q) (only : q.RecordOnly c c') : p.Mended c' :=
  h.congr (fun f own => only.others f (apart.record f own)) fun _ _ stored => only.entry ▸ stored

theorem Mended.entered {fires : Instant → Prop} (h : p.Mended c) (apart : Apart p q) (entered : q.Entered now fires c c') :
    p.Mended c' := by
  refine h.congr (fun f own => entered.others f (apart.record f own)) fun id _ stored => ?_
  obtain ⟨e, he⟩ := Option.isSome_iff_exists.mp stored
  exact Option.isSome_iff_exists.mpr ⟨e, entered.kept id e he⟩

theorem Mended.left (h : p.Mended c) (apart : Apart p q) (left : q.Left c c') : p.Mended c' :=
  h.congr (fun f own => left.others f (apart.record f own)) fun id fire stored =>
    left.kept id (apart.entry id fire) ▸ stored

theorem mended_of_left (h : p.Left c c') : p.Mended c' := by
  obtain ⟨key, spec⟩ := p
  cases spec with
  | none => exact mended_single key c'
  | some spec => exact fun held => absurd held (h.not_held rfl)

end Placement

variable {old new : Job} {now : Instant} {c c' : QueueContents}

/-- The new definition of a job does not meet the old one, unless both execute once. -/
theorem Job.apart_placement {spec : RepeatSpec} (hs : old.schedule.spec? = some spec) (key : new.queueKey = old.queueKey)
    (accepted : old.schedule.Accepted) (accepted' : new.schedule.Accepted) (ne : old.schedule ≠ new.schedule) :
    Apart old.placement new.placement := by
  have usable := accepted.usable hs
  rw [old.placement_of_spec hs, Job.placement, key]
  refine apart_of_ne usable (fun spec' hs' => accepted'.usable hs') fun same => ne ?_
  exact Schedule.eq_of_spec?_eq (hs.trans same.symm) (hs ▸ nofun)

theorem Job.Restored.queued (h : old.Restored now c c') (mended : old.placement.Mended c)
    (ahead : old.schedule.FiresAhead now) : old.placement.Queued c' := by
  rcases h with ⟨held, rfl⟩ | ⟨out, put⟩
  · exact mended held
  · exact put.queued ahead out

namespace Engine

variable {σ ρ : Type} {Q : FaultyQueue σ} {S : FaultyStore ρ} {g : Engine σ (StoreState ρ) (Transaction ρ)}
  {w : World σ (StoreState ρ)} {environment : String}

/-! ## The old definition -/

/-- On the way of a change that fails, no record of the old definition is without its entry. -/
theorem stages_of_queued (queued : old.placement.Queued c) (ahead : old.schedule.FiresAhead now) {adds cut : Prop}
    (apart : adds → old.isEnabled = true → old.schedule.spec? ≠ none → Apart old.placement new.placement)
    (enabled : old.isEnabled = true) :
    Stages old new.placement now adds cut c old.placement.Mended old.placement.Mended old.placement.Queued := by
  have beside (hadds : adds) : (∀ c, old.placement.Mended c) ∨ Apart old.placement new.placement := by
    by_cases hs : old.schedule.spec? = none
    · exact .inl fun c => old.placement_of_none hs ▸ mended_single _ c
    · exact .inr (apart hadds enabled hs)
  refine ⟨?_, ?_, ?_, ?_, ?_, ?_, ?_, ?_, ?_⟩
  · exact fun _ => queued
  · exact fun _ left => mended_of_left left
  · exact fun _ _ out held => absurd held out
  · exact id
  · exact fun _ hadds mended entered => (beside hadds).elim (fun all => all _) (mended.entered · entered)
  · exact fun hadds _ mended only => (beside hadds).elim (fun all => all _) (mended.recordOnly · only)
  · exact fun hadds mended left => (beside hadds).elim (fun all => all _) (mended.left · left)
  · exact fun _ mended _ restored => restored.queued mended ahead
  · exact fun disabled => absurd enabled (by simp [disabled])

/-- A job that was queued is still queued after an update that failed, and the queue says so, unless it fails itself. -/
theorem job_stays_queued (hQ : Q.Implemented) (hS : S.Implemented) (h : Attempt Q S g w environment old)
    {r : UpdateJobRequest} (hr : r.Storable) (enabled : old.isEnabled = true)
    (queued : old.placement.Queued (Q.contents w.queue)) (ahead : old.schedule.FiresAhead w.now) :
    (g.updateJob environment old.id r).Ends w (fun _ _ => True) fun e w' => e.isOutOfRange = true ∨
      w'.store.rows = w.store.rows ∧ old.placement.Queued (Q.contents w'.queue) ∧
        (g.isQueued old).Ends w' (fun answer _ => answer = true) fun e _ => e = .outOfRange ∨ ¬ Q.Calm w'.queue := by
  obtain ⟨Inv, law⟩ := hQ.lawful h.reached
  refine (updateJob_fails law hS.lawful h hr (B := fun _ => old.placement.Mended) fun changes _ accepted =>
    stages_of_queued queued ahead (fun adds enabled repeats => ?_) enabled).mono (fun _ _ _ => trivial) ?_
  · obtain ⟨spec, hs⟩ := Option.ne_none_iff_exists'.mp repeats
    exact Job.apart_placement hs rfl h.accepted accepted (ChangePlan.ne_of_addNew adds enabled)
  rintro e w' (late | ⟨now, rows, inv, final⟩)
  · exact .inl late
  have after : old.placement.Queued (Q.contents w'.queue) := by
    rcases final with same | queued'
    · exact same ▸ queued
    · exact queued'
  refine .inr ⟨rows, after, ends_isQueued (now ▸ law) h.queue inv h.accepted (fun answer _ _ _ held => ?_) ?_⟩
  · exact held.mpr after.held
  · exact fun e _ broke => broke.imp_right And.left

/-- The first job is to run every ten minutes. -/
def toTenMinutes : Act EngineError (World (Metered LocalQueue) (StoreState LocalStore)) Job :=
  uncommitting.updateJob "e" (.generated 1) { schedule := some (.interval 10) }

/-- A job that runs every five minutes is put back when the change is not committed. -/
theorem stays_queued_after_failed_commit :
    let job := firstJob (.interval 5) .enabled
    let w := World.queueing job (.addRepeating job.queueKey (.every 300000) job.toJson) (.ofMillis 0) (.ofMillis 0)
    (toTenMinutes.on w).1 = .error (.store LocalStore.commitRejected) ∧
      (toTenMinutes.on w).2.store.rows = w.store.rows ∧
      job.placement.Queued (toTenMinutes.on w).2.queue.state.contents := by
  intro job w
  have failed : (toTenMinutes.on w).1 = .error (.store LocalStore.commitRejected) := by decide +kernel
  have queued : job.placement.Queued w.queue.state.contents :=
    ⟨instanceId job.queueKey (.every 300000) (.ofMillis 300000), by decide +kernel, by decide +kernel⟩
  have ahead : (Schedule.interval 5).FiresAhead (.ofMillis 0) := by
    refine ⟨by decide +kernel, ?_⟩
    rintro _ ⟨⟩
    decide +kernel
  have accepted : (Schedule.interval 5).Accepted := ⟨by decide, by decide⟩
  have attempt : Attempt (.memory {} 0 .outOfRange) (.memory failingCommits) uncommitting w "e" job :=
    attempt_queueing (accepted.usable rfl) le_rfl accepted
  have ends : toTenMinutes.Ends w _ _ := job_stays_queued (.memory {} 0 .outOfRange) (.memory failingCommits) attempt
    (r := { schedule := some (.interval 10) }) nofun rfl queued ahead
  obtain ⟨rows, queued', -⟩ := (ends.2 _ failed).resolve_left nofun
  exact ⟨failed, rows, queued'⟩

/-- Where only a fire of the past is queued, the change takes it out, and no fire is left to be put back. -/
theorem overdue_last_fire_is_lost :
    let job := firstJob (.periodical "0 0 0 2 1,2 * 2024") .enabled
    let spec := RepeatSpec.cron "0 0 0 2 1,2 * 2024"
    let w := World.queueing job (.addRepeating job.queueKey spec job.toJson) (.ofMillis 1704067200000)
      (.ofMillis 1709251200000)
    Attempt (.memory {} 0 .outOfRange) (.memory failingCommits) uncommitting w "e" job ∧ job.isEnabled = true ∧
      job.placement.Queued w.queue.state.contents ∧
      (toTenMinutes.on w).1 = .error (.store LocalStore.commitRejected) ∧
      ¬ job.placement.Queued (toTenMinutes.on w).2.queue.state.contents := by
  intro job spec w
  have parsed : (parseExpression "0 0 0 2 1,2 * 2024").isOk = true := by decide +kernel
  have accepted : (Schedule.periodical "0 0 0 2 1,2 * 2024").Accepted := by
    cases pattern : parseExpression "0 0 0 2 1,2 * 2024" with
    | ok p => exact ⟨p, pattern⟩
    | error e =>
      rw [pattern] at parsed
      cases parsed
  have queued : job.placement.Queued w.queue.state.contents :=
    ⟨instanceId job.queueKey spec (.ofMillis 1704153600000), by decide +kernel, by decide +kernel⟩
  have out : job.placement.current? (toTenMinutes.on w).2.queue.state.contents = none := by decide +kernel
  refine ⟨attempt_queueing (accepted.usable rfl) (by decide) accepted, rfl, queued, by decide +kernel, ?_⟩
  rintro ⟨id, current, -⟩
  rw [out] at current
  cases current

end Engine

/-! ## The new definition -/

/-- The records of a job's key are those of its definition. -/
def Job.OwnsRecords (j : Job) (c : QueueContents) : Prop :=
  ∀ f, (∃ r, c.record f = some r ∧ r.key = j.queueKey) ↔ j.isEnabled = true ∧ j.placement.field? = some f

/-- There are no records of a job's key but those of its definition, and no pending entries but those of before. -/
structure Job.Clean (j : Job) (c₀ c : QueueContents) : Prop where
  record : ∀ f r, c.record f = some r → r.key = j.queueKey → j.isEnabled = true ∧ j.placement.field? = some f
  entry : ∀ id e, c.entry id = some e → c.claimed id = false → c₀.entry id = some e
  claimed : c.claimed = c₀.claimed

/-- As `Job.Clean`, but for what is queued in a place. -/
structure Job.CleanBut (j : Job) (p : Placement) (c₀ c : QueueContents) : Prop where
  record : ∀ f r, c.record f = some r → r.key = j.queueKey →
    j.isEnabled = true ∧ j.placement.field? = some f ∨ p.field? = some f
  entry : ∀ id e, c.entry id = some e → c.claimed id = false → c₀.entry id = some e ∨ p.current? c = some id
  claimed : c.claimed = c₀.claimed

/-- The records of a job's key are those of its definition, and so is every pending entry that was not pending before. -/
structure Job.Recovered (j : Job) (now : Instant) (c₀ c : QueueContents) : Prop where
  record : j.OwnsRecords c
  entry : ∀ id e, c.entry id = some e → c.claimed id = false → c₀.entry id = some e ∧ c₀.claimed id = false ∨
    e.key = j.queueKey ∧ e.repeats = j.schedule.spec? ∧ j.schedule.Fires now e.fireAt

section

variable {p : Placement} {c₀ : QueueContents} {f : String}

/-- What is stored in the field of a job is of its key. -/
theorem Job.key_of_field (filed : c.Filed) (accepted : old.schedule.Accepted) (own : old.placement.field? = some f)
    (stored : (c.record f).isSome) : ∃ r, c.record f = some r ∧ r.key = old.queueKey := by
  obtain ⟨spec, hs, rfl⟩ := field?_eq_some_iff.mp own
  obtain ⟨r, hr⟩ := Option.isSome_iff_exists.mp stored
  obtain ⟨field, usable⟩ := filed _ r hr
  exact ⟨r, hr, (repeatField_inj usable.colonless (accepted.usable hs).colonless field).1⟩

namespace Job.Clean

theorem of_owns (own : old.OwnsRecords c) : old.Clean c c :=
  ⟨fun f r hr hk => (own f).mp ⟨r, hr, hk⟩, fun _ _ stored _ => stored, rfl⟩

theorem left (h : old.Clean c₀ c) (left : p.Left c c') : old.Clean c₀ c' := by
  refine ⟨fun f r hr hk => ?_, fun id e stored free => ?_, left.claimed.trans h.claimed⟩
  · by_cases here : p.field? = some f
    · rw [left.record f here] at hr
      cases hr
    · exact h.record f r ((left.others f here).symm.trans hr) hk
  · exact h.entry id e (left.old id e stored) (left.claimed ▸ free)

theorem entered {fires : Instant → Prop} (h : old.Clean c₀ c) (entered : p.Entered now fires c c') :
    old.CleanBut p c₀ c' := by
  refine ⟨fun f r hr hk => ?_, fun id e stored free => ?_, entered.claimed.trans h.claimed⟩
  · by_cases here : p.field? = some f
    · exact .inr here
    · exact .inl (h.record f r ((entered.others f here).symm.trans hr) hk)
  · rcases entered.new id e stored with before | ⟨current, -⟩
    · exact .inl (h.entry id e before (entered.claimed ▸ free))
    · exact .inr current

end Job.Clean

/-- What is taken out again leaves nothing of its own. -/
theorem Job.CleanBut.left (h : old.CleanBut p c₀ c) (left : p.Left c c') : old.Clean c₀ c' := by
  refine ⟨fun f r hr hk => ?_, fun id e stored free => ?_, left.claimed.trans h.claimed⟩
  · by_cases here : p.field? = some f
    · rw [left.record f here] at hr
      cases hr
    · exact (h.record f r ((left.others f here).symm.trans hr) hk).resolve_right here
  · -- the entry of the place itself is gone, or claimed and so not pending
    refine (h.entry id e (left.old id e stored) (left.claimed ▸ free)).resolve_right fun current => ?_
    rcases left.gone id current with gone | taken
    · rw [gone] at stored
      cases stored
    · rw [free] at taken
      cases taken

/-- What was clean and holds the record of the job is recovered. -/
theorem Job.Clean.recovered (h : old.Clean c₀ c) (held : ∀ f, old.isEnabled = true → old.placement.field? = some f →
    ∃ r, c.record f = some r ∧ r.key = old.queueKey) : old.Recovered now c₀ c :=
  ⟨fun f => ⟨fun ⟨r, hr, hk⟩ => h.record f r hr hk, fun own => held f own.1 own.2⟩,
    fun id e stored free => .inl ⟨h.entry id e stored free, h.claimed ▸ free⟩⟩

theorem Job.Restored.recovered (restored : old.Restored now c c') (h : old.Clean c₀ c) (filed : c'.Filed)
    (accepted : old.schedule.Accepted) (enabled : old.isEnabled = true) : old.Recovered now c₀ c' := by
  rcases restored with ⟨held, rfl⟩ | ⟨-, ⟨expired, rfl⟩ | entered⟩
  · refine h.recovered fun f _ own => Job.key_of_field filed accepted own ?_
    obtain ⟨spec, hs, rfl⟩ := field?_eq_some_iff.mp own
    simp only [Held, hs] at held
    exact held
  · refine h.recovered fun f _ own => ?_
    obtain ⟨spec, hs, -⟩ := field?_eq_some_iff.mp own
    rw [queuePlan_eq_repeating_iff.mpr hs] at expired
    cases expired
  · refine ⟨fun f => ⟨?_, fun own => Job.key_of_field filed accepted own.2 (entered.record f own.2)⟩, ?_⟩
    · rintro ⟨r, hr, hk⟩
      by_cases here : old.placement.field? = some f
      · exact ⟨enabled, here⟩
      · exact h.record f r ((entered.others f here).symm.trans hr) hk
    · intro id e stored free
      rw [entered.claimed] at free
      rcases entered.new id e stored with before | ⟨-, hk, hs, fires⟩
      · exact .inl ⟨h.entry id e before free, h.claimed ▸ free⟩
      · exact .inr ⟨hk, hs, fires⟩

end

namespace Engine

variable {σ ρ : Type} {Q : FaultyQueue σ} {S : FaultyStore ρ} {g : Engine σ (StoreState ρ) (Transaction ρ)}
  {w : World σ (StoreState ρ)} {environment : String}

/-- On the way of a change that fails, nothing is there of the new definition but while it is added. -/
theorem stages_of_owned (own : old.OwnsRecords c) (accepted : old.schedule.Accepted) {adds cut : Prop}
    (uncut : new.schedule.spec? ≠ none → ¬ cut) :
    Stages old new.placement now adds cut c (old.Clean c) (old.CleanBut new.placement c) (old.Recovered now c) := by
  have start := Job.Clean.of_owns own
  refine ⟨start, ?_, ?_, ?_, ?_, ?_, ?_, ?_, ?_⟩
  · exact fun _ left => start.left left
  · intro c' enabled only _
    refine ⟨fun f r hr hk => ?_, fun id e stored free => only.entry ▸ stored, only.claimed⟩
    by_cases here : old.placement.field? = some f
    · exact ⟨enabled, here⟩
    · exact start.record f r ((only.others f here).symm.trans hr) hk
  · exact fun clean => ⟨fun f r hr hk => .inl (clean.record f r hr hk),
      fun id e stored free => .inl (clean.entry id e stored free), clean.claimed⟩
  · exact fun _ _ clean entered => clean.entered entered
  · exact fun _ cut _ only => absurd cut (uncut only.repeats)
  · exact fun _ clean left => clean.left left
  · exact fun enabled clean filed restored => restored.recovered clean filed accepted enabled
  · exact fun disabled clean => clean.recovered fun f enabled => absurd enabled (by simp [disabled])

/-- Where the records of a job's key are those of its definition, they are so after an update that failed, and every
pending entry was pending before or is of that definition, unless the one command that fails is the last one of putting
the new definition in. -/
theorem no_residue (hQ : Q.Implemented) (hS : S.Implemented) (h : Attempt Q S g w environment old)
    {r : UpdateJobRequest} (hr : r.Storable) (own : old.OwnsRecords (Q.contents w.queue))
    (uncut : (r.schedule.getD old.schedule).spec? ≠ none → ¬ Q.Cuts (g.cleared old w)) :
    (g.updateJob environment old.id r).Ends w (fun _ _ => True) fun e w' => e.isOutOfRange = true ∨
      old.Recovered w.now (Q.contents w.queue) (Q.contents w'.queue) := by
  obtain ⟨Inv, law⟩ := hQ.lawful h.reached
  refine (updateJob_fails law hS.lawful h hr (B := fun changes =>
    old.CleanBut (changes.applyTo old).placement (Q.contents w.queue)) fun changes checked _ =>
      stages_of_owned own h.accepted ?_).mono (fun _ _ _ => trivial) ?_
  · rw [← schedule_of_changes checked] at uncut
    exact uncut
  rintro e w' (late | ⟨-, -, -, same | recovered⟩)
  · exact .inl late
  · refine .inr ⟨same ▸ own, fun id e stored free => .inl ?_⟩
    rw [same] at stored free
    exact ⟨stored, free⟩
  · exact .inr recovered

/-- The first job is to run every ten minutes from now on, and one command fails. -/
def enableTenMinutes (n : Nat) : Act EngineError (World Link (StoreState LocalStore)) Job :=
  (Engine.backedBy (.shared {} n "") (.memory noStoreFaults)).updateJob "e" (.generated 1)
    { schedule := some (.interval 10), enabled := some true }

theorem attempt_enabling (n : Nat) : Attempt (.shared {} n "") (.memory noStoreFaults)
    (.backedBy (.shared {} n "") (.memory noStoreFaults)) (.holding (firstJob (.interval 5) .disabled) (.ofMillis 0) {}) "e"
    (firstJob (.interval 5) .disabled) :=
  attempt_firstJob ⟨by decide, .single 0 "", .ofMillis 0, .ofMillis 0, {}, CommandFaults.whole_single 0 "", le_rfl, .start,
    rfl⟩ (.inr fun _ => rfl) (show (Schedule.interval 5).Accepted from ⟨by decide, by decide⟩)

theorem ownsRecords_disabled (schedule : Schedule) :
    (firstJob schedule .disabled).OwnsRecords (SharedQueue.contents {}) := by
  refine fun f => ⟨?_, ?_⟩
  · rintro ⟨r, ⟨⟩, -⟩
  · rintro ⟨⟨⟩, -⟩

/-- Where the first command fails, no record is left. -/
theorem no_residue_of_first_command :
    let w := World.holding (firstJob (.interval 5) .disabled) (.ofMillis 0) ({} : Link)
    (∃ e, ((enableTenMinutes 0).on w).1 = .error (.queue e)) ∧
      (firstJob (.interval 5) .disabled).OwnsRecords (SharedQueue.contents ((enableTenMinutes 0).on w).2.queue.keys) := by
  intro w
  have failed : ((enableTenMinutes 0).on w).1 = .error (.queue (CommandFaults.single 0 "").error) := by decide +kernel
  have ends : (enableTenMinutes 0).Ends w _ _ := no_residue (.shared {} 0 "") (.memory noStoreFaults) (attempt_enabling 0)
    (r := { schedule := some (.interval 10), enabled := some true }) nofun (ownsRecords_disabled _)
    fun _ (cut : 0 + 2 = 0) => by omega
  have recovered := (ends.2 _ failed).resolve_left nofun
  exact ⟨⟨_, failed⟩, recovered.record⟩

/-- Where the third command fails, the record of the new definition stays, though the job is still disabled. -/
theorem record_left_behind :
    let job := firstJob (.interval 5) .disabled
    let w := World.holding job (.ofMillis 0) ({} : Link)
    Attempt (.shared {} 2 "") (.memory noStoreFaults) (.backedBy (.shared {} 2 "") (.memory noStoreFaults)) w "e" job ∧
      job.OwnsRecords (SharedQueue.contents w.queue.keys) ∧
      (∃ e, ((enableTenMinutes 2).on w).1 = .error (.queue e)) ∧
      ((enableTenMinutes 2).on w).2.store.rows = w.store.rows ∧
      ((enableTenMinutes 2).on w).2.queue.keys.repeats.contains (repeatField job.queueKey (.every 600000)) = true := by
  intro job w
  have failed : ((enableTenMinutes 2).on w).1 = .error (.queue (CommandFaults.single 2 "").error) := by decide +kernel
  exact ⟨attempt_enabling 2, ownsRecords_disabled _, ⟨_, failed⟩, by decide +kernel, by decide +kernel⟩

end Engine

end Timetable
