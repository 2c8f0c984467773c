import Timetable.Engine.Reconciliation
import Timetable.Proofs.Engine.World
import Timetable.Proofs.Identifier
import Timetable.Proofs.Job.Storable
import Timetable.Proofs.Queue.Calm
import Timetable.Proofs.Schedule.Plan
import Timetable.Proofs.Store.Faulty

/-!
# A pass of reconciliation in which nothing fails

A pass only adds to what is left once late claims are given up, and afterwards every enabled job is `Answered`: what its
plan asks for is in the queue, or its schedule cannot be queued (`Engine.reconcile_restores`). A pass that finds every
job answered does nothing (`Engine.reconcile_rests`).

A job is told apart by the field of its record. Only a specification that cannot be queued, because colons are in its
expression, can share that field with a record of another key (`QueueContents.Owns`).
-/

namespace Timetable

open World

/-! ## What a pass looks for -/

namespace QueueContents

variable {c c' c'' before : QueueContents} {now : Instant} {key : String} {spec : RepeatSpec} {r : RepeatRecord}
  {job other : Job}

/-- The entry for the next fire of a record is stored, or an entry of its key is at work; nothing if there is no next
fire. -/
def Live (c : QueueContents) (r : RepeatRecord) : Prop :=
  ∀ t, r.next = some t → (c.entry (instanceId r.key r.spec t)).isSome ∨
    ∃ id e, c.entry id = some e ∧ c.claimed id = true ∧ e.key = r.key

def HasLive (c : QueueContents) (key : String) (spec : RepeatSpec) : Prop :=
  ∃ f r, c.record f = some r ∧ r.key = key ∧ r.spec = spec ∧ c.Live r

def HasKey (c : QueueContents) (key : String) : Prop := ∃ id e, c.entry id = some e ∧ e.key = key

/-- No entry of a key repeats. -/
def Singly (c : QueueContents) (key : String) : Prop := ∀ id e, c.entry id = some e → e.key = key → e.repeats = none

/-- What the plan of a job asks for is in the queue, or its schedule cannot be queued. The single entry of a job may be
missing if there were fires of its key before. -/
def Answered (now : Instant) (before c : QueueContents) (job : Job) : Prop :=
  match queuePlan job.schedule now with
  | .repeating spec => c.HasLive job.queueKey spec ∨ c.record (repeatField job.queueKey spec) = none ∧
    ∃ e, RepeatRecord.create job.queueKey spec job.toJson now = .error e ∧ e ≠ .outOfRange
  | .delayed _ => c.HasKey job.queueKey ∧ (before.Singly job.queueKey → (c.entry (singleId job.queueKey)).isSome)
  | .expired => True

/-- No record of another key or specification lies in the field of a job. -/
def Owns (c : QueueContents) (job : Job) : Prop :=
  ∀ spec r, job.schedule.spec? = some spec → c.record (repeatField job.queueKey spec) = some r →
    r.key = job.queueKey ∧ r.spec = spec

theorem Grows.isSome_entry {id : String} (h : Grows c c') (stored : (c.entry id).isSome) : (c'.entry id).isSome := by
  obtain ⟨e, he⟩ := Option.isSome_iff_exists.mp stored
  exact Option.isSome_iff_exists.mpr ⟨e, h.entry he⟩

theorem Grows.live {r' : RepeatRecord} (h : Grows c c') (live : c.Live r) (key : r'.key = r.key)
    (spec : r'.spec = r.spec) (next : r'.next = r.next) : c'.Live r' := fun t ht => by
  rw [key, spec]
  refine (live t (next ▸ ht)).imp h.isSome_entry ?_
  rintro ⟨id, e, stored, claimed, same⟩
  exact ⟨id, e, h.entry stored, h.claimed ▸ claimed, same⟩

theorem Grows.hasLive (h : Grows c c') : c.HasLive key spec → c'.HasLive key spec := by
  rintro ⟨f, r, hr, rfl, rfl, live⟩
  obtain ⟨r', hr', key, spec, next⟩ := h.record hr
  exact ⟨f, r', hr', key, spec, h.live live key spec next⟩

theorem Grows.hasKey (h : Grows c c') : c.HasKey key → c'.HasKey key := by
  rintro ⟨id, e, he, same⟩
  exact ⟨id, e, h.entry he, same⟩

theorem answered_of_expired (plan : queuePlan job.schedule now = .expired) : Answered now before c job := by
  rw [Answered, plan]
  trivial

theorem answered_delayed {millis : Nat} (plan : queuePlan job.schedule now = .delayed millis) :
    Answered now before c job ↔
      c.HasKey job.queueKey ∧ (before.Singly job.queueKey → (c.entry (singleId job.queueKey)).isSome) := by
  rw [Answered, plan]

theorem answered_repeating (plan : queuePlan job.schedule now = .repeating spec) :
    Answered now before c job ↔ c.HasLive job.queueKey spec ∨ c.record (repeatField job.queueKey spec) = none ∧
      ∃ e, RepeatRecord.create job.queueKey spec job.toJson now = .error e ∧ e ≠ .outOfRange := by
  rw [Answered, plan]

/-- What was answered stays so, whatever is added, unless a record that is not live comes into an empty field. -/
theorem Answered.grow (h : Answered now before c job) (grows : Grows c c')
    (field : ∀ spec, queuePlan job.schedule now = .repeating spec → c.record (repeatField job.queueKey spec) = none →
      c'.HasLive job.queueKey spec ∨ c'.record (repeatField job.queueKey spec) = none) :
    Answered now before c' job := by
  cases plan : queuePlan job.schedule now with
  | expired => exact answered_of_expired plan
  | delayed millis =>
    obtain ⟨held, single⟩ := (answered_delayed plan).mp h
    exact (answered_delayed plan).mpr ⟨grows.hasKey held, fun singly => grows.isSome_entry (single singly)⟩
  | repeating spec =>
    refine (answered_repeating plan).mpr ?_
    rcases (answered_repeating plan).mp h with live | ⟨absent, refused⟩
    · exact .inl (grows.hasLive live)
    · exact (field spec plan absent).imp_right fun absent => ⟨absent, refused⟩

/-- Jobs share a field only with what is the same for both. -/
theorem same_of_field {spec spec' : RepeatSpec} (h : repeatField job.queueKey spec = repeatField other.queueKey spec') :
    job.queueKey = other.queueKey ∧ spec = spec' := by
  have length : job.queueKey.toList.length = other.queueKey.toList.length := by
    rw [Job.queueKey, Job.queueKey, Identifier.length_toList_text, Identifier.length_toList_text]
  have key := repeatField_key length h
  refine ⟨key, RepeatSpec.id_injective (String.toList_inj.mp ?_)⟩
  have chars := congrArg String.toList h
  simpa [repeatField, key] using chars

theorem Chained.hasLive (h : Chained now job.queueKey spec c c') (owns : c'.Owns job)
    (hs : job.schedule.spec? = some spec) (hr : c'.record (repeatField job.queueKey spec) = some r) :
    c'.HasLive job.queueKey spec := by
  obtain ⟨key, same⟩ := owns spec r hs hr
  exact ⟨_, r, hr, key, same, fun t next => .inl (h.current hr next)⟩

/-! ## What a pass adds -/

/-- What there was stays, jobs keep their fields, and what was answered stays so. -/
structure Restores (now : Instant) (c c' : QueueContents) : Prop where
  grows : Grows c c'
  owns : ∀ {job}, c.Owns job → c'.Owns job
  answered : ∀ {before job}, c.Owns job → Answered now before c job → Answered now before c' job

theorem Restores.refl (now : Instant) (c : QueueContents) : Restores now c c :=
  ⟨.refl c, fun h => h, fun _ h => h⟩

theorem Restores.trans (h : Restores now c c') (h' : Restores now c' c'') : Restores now c c'' :=
  ⟨h.grows.trans h'.grows, fun owns => h'.owns (h.owns owns),
    fun owns answered => h'.answered (h.owns owns) (h.answered owns answered)⟩

theorem Chained.record_isSome (h : Chained now key spec c c') : ∃ r, c'.record (repeatField key spec) = some r := by
  cases before : c.record (repeatField key spec) with
  | none =>
    obtain ⟨r, hr, _⟩ := h.made before
    exact ⟨r, hr⟩
  | some r =>
    obtain ⟨r', hr', _⟩ := h.grows.record before
    exact ⟨r', hr'⟩

/-- A job that is chained leaves others their fields. -/
theorem Chained.owns (h : Chained now job.queueKey spec c c') (owns : c.Owns other) : c'.Owns other := by
  intro spec' r' hs' hr'
  by_cases same : repeatField job.queueKey spec = repeatField other.queueKey spec'
  · cases before : c.record (repeatField other.queueKey spec') with
    | some r =>
      obtain ⟨r'', hr'', hk, hs, _⟩ := h.grows.record before
      obtain rfl := Option.some.inj (hr'.symm.trans hr'')
      obtain ⟨key, spec⟩ := owns spec' r hs' before
      exact ⟨hk.trans key, hs.trans spec⟩
    | none =>
      rw [← same] at before hr'
      obtain ⟨r, hr, hk, hs, _⟩ := h.made before
      obtain rfl := Option.some.inj (hr'.symm.trans hr)
      obtain ⟨key, spec⟩ := same_of_field same
      exact ⟨hk.trans key, hs.trans spec⟩
  · exact owns spec' r' hs' (h.others same ▸ hr')

theorem Chained.restores (h : Chained now job.queueKey spec c c') : Restores now c c' := by
  refine ⟨h.grows, h.owns, fun {before other} owned answered => answered.grow h.grows fun spec' plan absent => ?_⟩
  -- another job is given a record only if it asks for the same
  by_cases same : repeatField job.queueKey spec = repeatField other.queueKey spec'
  · have owns := h.owns owned
    obtain ⟨key, rfl⟩ := same_of_field same
    rw [key] at h
    obtain ⟨r, hr⟩ := h.record_isSome
    exact .inl (h.hasLive owns (queuePlan_eq_repeating_iff.mp plan) hr)
  · exact .inr ((h.others same).trans absent)

theorem restores_of_inserted {e : StoredEntry} (h : Placement.Inserted e c c') : Restores now c c' where
  grows := grows_of_inserted h
  owns owned spec r hs hr := owned spec r hs (h.record ▸ hr)
  answered _ answered := answered.grow (grows_of_inserted h) fun _ _ absent => .inr (h.record ▸ absent)

/-- No record but its own lies in the field of a job whose expression has no colons. -/
theorem Tidy.owns (h : c.Tidy) (colonless : ∀ spec, job.schedule.spec? = some spec → spec.Colonless) : c.Owns job :=
  fun spec _ hs hr => repeatField_inj (h.colonless hr) (colonless spec hs) (h.ownField hr)

end QueueContents

/-! ## What a pass sees -/

/-- A survey shows what is in a queue. -/
structure Survey.Sees (s : Survey) (c : QueueContents) : Prop where
  entries : c.Shows s.entries
  records : ∀ r, r ∈ s.records ↔ ∃ f, c.record f = some r

namespace Survey.Sees

variable {s : Survey} {c : QueueContents} {key : String} {spec : RepeatSpec} {r : RepeatRecord}

theorem holdsKey_iff (sees : s.Sees c) : s.holdsKey key = true ↔ c.HasKey key := by
  simp only [holdsKey, List.any_eq_true, beq_iff_eq]
  constructor
  · rintro ⟨shown, mem, same⟩
    exact ⟨_, shown.entry, (sees.entries.stored shown mem).1, same⟩
  · rintro ⟨id, e, he, same⟩
    obtain ⟨shown, mem, rfl⟩ := sees.entries.all he
    exact ⟨shown, mem, same⟩

theorem holdsEntry_iff (sees : s.Sees c) (tidy : c.Tidy) {id : String} :
    s.holdsEntry id = true ↔ (c.entry id).isSome := by
  simp only [holdsEntry, List.any_eq_true, beq_iff_eq]
  constructor
  · rintro ⟨shown, mem, rfl⟩
    exact Option.isSome_iff_exists.mpr ⟨_, (sees.entries.stored shown mem).1⟩
  · intro there
    obtain ⟨e, he⟩ := Option.isSome_iff_exists.mp there
    obtain ⟨shown, mem, rfl⟩ := sees.entries.all he
    exact ⟨shown, mem, tidy.ownId he⟩

theorem keyIsActive_iff (sees : s.Sees c) (tidy : c.Tidy) :
    s.keyIsActive key = true ↔ ∃ id e, c.entry id = some e ∧ c.claimed id = true ∧ e.key = key := by
  simp only [keyIsActive, List.any_eq_true, Bool.and_eq_true, beq_iff_eq]
  constructor
  · rintro ⟨shown, mem, state, same⟩
    obtain ⟨he, claimed⟩ := sees.entries.stored shown mem
    exact ⟨_, shown.entry, he, claimed.mp state, same⟩
  · rintro ⟨id, e, he, claimed, same⟩
    obtain ⟨shown, mem, rfl⟩ := sees.entries.all he
    obtain rfl := tidy.ownId he
    exact ⟨shown, mem, (sees.entries.stored shown mem).2.mpr claimed, same⟩

theorem isLive_iff (sees : s.Sees c) (tidy : c.Tidy) : s.isLive r = true ↔ c.Live r := by
  unfold isLive QueueContents.Live RepeatRecord.currentInstance
  cases r.next with
  | none => simp
  | some t =>
    simp only [Option.map_some, Bool.or_eq_true, sees.holdsEntry_iff tidy, sees.keyIsActive_iff tidy]
    exact ⟨fun live u same => by cases same; exact live, fun live => live t rfl⟩

theorem holdsLive_iff (sees : s.Sees c) (tidy : c.Tidy) : s.holdsLive key spec = true ↔ c.HasLive key spec := by
  simp only [holdsLive, List.any_eq_true, Bool.and_eq_true, beq_iff_eq, sees.isLive_iff tidy, sees.records]
  constructor
  · rintro ⟨r, ⟨f, hr⟩, ⟨live, hk⟩, hs⟩
    exact ⟨f, r, hr, hk, RepeatSpec.id_injective hs, live⟩
  · rintro ⟨f, r, hr, hk, rfl, live⟩
    exact ⟨r, ⟨f, hr⟩, ⟨live, hk⟩, rfl⟩

end Survey.Sees

/-! ## What a schedule asks for -/

namespace Instant

variable {t now : Instant}

/-- A leap second at the end can only make a difference smaller. -/
theorem sinceNanos_le (ordinary : ¬ now.InLeapSecond) : t.sinceNanos now ≤ t.nanos - now.nanos := by
  have leap : t.leapBetween now ≤ 0 := by
    unfold leapBetween
    rw [if_neg ordinary]
    split_ifs <;> decide
  have : t.leapBetween now * nanosPerSecond ≤ 0 := Int.mul_nonpos_of_nonpos_of_nonneg leap (by decide)
  simp only [sinceNanos]
  omega

/-- A difference that lies ahead is cut to whole milliseconds. -/
theorem sinceMillis_mul_le (ahead : 0 < t.sinceMillis now) : t.sinceMillis now * nanosPerMilli ≤ t.sinceNanos now := by
  simp only [sinceMillis, nanosPerMilli] at ahead ⊢
  have nonneg : 0 ≤ t.sinceNanos now := by
    by_contra negative
    have : 0 ≤ (-t.sinceNanos now).tdiv 1000000 := Int.tdiv_nonneg (by omega) (by decide)
    rw [Int.neg_tdiv] at this
    omega
  rw [Int.tdiv_eq_ediv_of_nonneg nonneg]
  omega

end Instant

namespace Schedule

variable {s : Schedule} {now : Instant} {spec : RepeatSpec} {millis : Nat}

/-- The calendar reaches the next second, or the instant of the schedule. -/
def InReach (now : Instant) : Schedule → Prop
  | onTime at_ => at_.smoothed.Representable
  | _ => (now.add? Instant.nanosPerSecond).isSome

theorem Narrow.word (h : s.Narrow) (hs : s.spec? = some spec) : spec.Word := by
  cases s with
  | interval minutes =>
    cases hs
    have fits : minutes < 4294967296 := h
    simp only [RepeatSpec.Word, Json.wordLimit]
    omega
  | periodical expression =>
    cases hs
    trivial
  | onTime at_ => cases hs

/-- What is asked for repeats from now on, or never does. -/
theorem InReach.nextAfter (h : s.InReach now) (narrow : s.Narrow) (hs : s.spec? = some spec) :
    spec.nextAfter now ≠ .error .outOfRange := by
  have reaches (usable : spec.Usable) (reach : (now.add? Instant.nanosPerSecond).isSome) :
      spec.nextAfter now ≠ .error .outOfRange := fun late => by
    obtain ⟨next, fires⟩ := RepeatSpec.nextAfter_isOk usable reach
    rw [fires] at late
    cases late
  cases s with
  | interval minutes =>
    cases hs
    have fits : minutes < 4294967296 := narrow
    cases minutes with
    | zero => exact fun late => by simp [RepeatSpec.nextAfter] at late
    | succ n => exact reaches ⟨by omega, by omega⟩ h
  | periodical expression =>
    cases hs
    cases parsed : parseExpression expression with
    | ok p => exact reaches ⟨p, parsed⟩ h
    | error e =>
      intro late
      simp only [RepeatSpec.nextAfter, nextOccurrences, parsed] at late
      simp only [parseExpression] at parsed
      split at parsed <;> cases parsed
      cases late
  | onTime at_ => cases hs

/-- Whole milliseconds from now an instant within reach is not passed. -/
theorem InReach.addMillis? {at_ : Instant} (h : (onTime at_).InReach now) (clock : now.Storable)
    (plan : queuePlan (.onTime at_) now = .delayed millis) : now.addMillis? (signedWord millis) ≠ none := by
  obtain ⟨positive, rfl⟩ : 0 < at_.sinceMillis now ∧ (at_.sinceMillis now).toNat = millis := by
    simp only [queuePlan] at plan
    split at plan <;> cases plan
    exact ⟨by omega, rfl⟩
  have since := Instant.sinceNanos_le (t := at_) clock.ordinary
  have span := Instant.sinceMillis_mul_le positive
  obtain ⟨low, high⟩ := clock.representable
  obtain ⟨_, last⟩ : at_.smoothed.Representable := h
  have := now.nano.isLt
  simp only [Instant.smoothed, Instant.ofNanos, Instant.first, Instant.last] at low high last
  have fits : FitsWord (at_.sinceMillis now) := by
    simp only [FitsWord, Instant.nanos, Instant.nanosPerMilli, Instant.nanosPerSecond] at *
    omega
  rw [Int.toNat_of_nonneg positive.le, signedWord_of_fits fits]
  have reached : (now.plus (at_.sinceMillis now * Instant.nanosPerMilli)).Representable := by
    rw [Instant.plus_of_not_inLeapSecond clock.ordinary]
    simp only [Instant.Representable, Instant.ofNanos, Instant.first, Instant.last, Instant.nanos,
      Instant.nanosPerMilli, Instant.nanosPerSecond] at *
    omega
  rw [Instant.addMillis?, Instant.add?, if_pos reached]
  exact Option.some_ne_none _

end Schedule

/-- A queue can take a job. -/
structure CalmQueue.Takes {σ ω : Type} (Q : CalmQueue σ ω) (job : Job) : Prop where
  narrow : job.schedule.Narrow
  keeps : Q.Keeps job.toJson

/-! ## One job -/

namespace Engine

open QueueContents

variable {σ ω ρ τ β : Type} {Q : CalmQueue σ ω} {S : CalmStore ρ τ β} {g : Engine σ ρ τ} {w : World σ ρ}
  {Settled : ω → Prop} {s : Survey} {c : QueueContents} {job : Job} {jobs : List Job} {spec : RepeatSpec}

/-- What a pass may have made of a queue. -/
structure Restored (Q : CalmQueue σ ω) (Settled : ω → Prop) (now : Instant) (q q' : σ) : Prop where
  settled : Settled (Q.held q')
  restores : Restores now (Q.seen q) (Q.seen q')

theorem Restored.of_held {now : Instant} {q q' : σ} (settled : Settled (Q.held q)) (same : Q.held q' = Q.held q) :
    Restored Q Settled now q q' := by
  refine ⟨same ▸ settled, ?_⟩
  show Restores now (Q.contents (Q.held q)) (Q.contents (Q.held q'))
  rw [same]
  exact .refl now _

theorem Restored.trans {now : Instant} {q q' q'' : σ} (h : Restored Q Settled now q q')
    (h' : Restored Q Settled now q' q'') : Restored Q Settled now q q'' :=
  ⟨h'.settled, h.restores.trans h'.restores⟩

theorem isOutOfRange_queue {e : QueueError} (other : e ≠ .outOfRange) :
    EngineError.isOutOfRange (.queue e) = false := by
  cases e <;> first | rfl | exact absurd rfl other

theorem enqueue_restores (before : QueueContents) (lawful : Q.Lawful w.now Settled) (hg : g.queue = Q.queue)
    (settled : Settled (Q.held w.queue)) (clock : w.now.Storable) (takes : Q.Takes job) :
    (g.enqueue job).Ends w
      (fun _ w' => ∃ q, w' = w.putQueue q ∧ Restored Q Settled w.now w.queue q ∧
        ((Q.seen w.queue).Owns job → Answered w.now before (Q.seen q) job))
      fun e w' => ∃ q, w' = w.putQueue q ∧ Q.held q = Q.held w.queue ∧
        (e ≠ .outOfRange → Answered w.now before (Q.seen w.queue) job) ∧
        (e = .outOfRange → ¬ job.schedule.InReach w.now) := by
  simp only [enqueue, Act.ends_bind, ends_time, hg]
  cases plan : queuePlan job.schedule w.now with
  | expired =>
    exact Act.ends_pure.mpr ⟨w.queue, rfl, .of_held settled rfl, fun _ => answered_of_expired plan⟩
  | repeating spec =>
    have hs := queuePlan_eq_repeating_iff.mp plan
    refine ends_onQueue.mpr ((lawful.addRepeating _ _ _ settled (takes.narrow.word hs) takes.keeps).mono ?_ ?_)
    · rintro _ q ⟨settled', chained⟩
      refine ⟨q, rfl, ⟨settled', chained.restores⟩, fun owns => ?_⟩
      obtain ⟨r, hr⟩ := chained.record_isSome
      exact (answered_repeating plan).mpr (.inl (chained.hasLive (chained.owns owns) hs hr))
    · rintro e q ⟨same, absent, refused⟩
      refine ⟨q, rfl, same, fun final => (answered_repeating plan).mpr (.inr ⟨absent, e, refused, final⟩), ?_⟩
      rintro rfl reach
      refine reach.nextAfter takes.narrow hs ?_
      simp only [RepeatRecord.create, RepeatRecord.advance] at refused
      split at refused <;> simp_all
  | delayed millis =>
    refine ends_onQueue.mpr ((lawful.addDelayed _ _ _ settled takes.keeps).mono ?_ ?_)
    · rintro _ q ⟨settled', fireAt, inserted⟩
      refine ⟨q, rfl, ⟨settled', restores_of_inserted inserted⟩, fun _ => ?_⟩
      obtain ⟨e, he⟩ := Option.isSome_iff_exists.mp inserted.stored
      have own := (lawful.tidy settled').key_of_singleId he
      exact (answered_delayed plan).mpr ⟨⟨_, e, he, own⟩, fun _ => inserted.stored⟩
    · rintro e q ⟨same, rfl, late⟩
      refine ⟨q, rfl, same, fun final => absurd rfl final, fun _ reach => ?_⟩
      cases schedule : job.schedule with
      | onTime at_ =>
        rw [schedule] at reach plan
        exact reach.addMillis? clock plan late
      | interval minutes | periodical expression => simp [schedule, queuePlan] at plan

/-- What a survey does not miss, and what could be put back, is answered. -/
theorem restoreJob_restores (lawful : Q.Lawful w.now Settled) (hg : g.queue = Q.queue)
    (settled : Settled (Q.held w.queue)) (clock : w.now.Storable) (takes : Q.Takes job) (sees : s.Sees c)
    (tidy : c.Tidy) (grows : c.Grows (Q.seen w.queue)) :
    (g.restoreJob s w.now job).Ends w
      (fun _ w' => ∃ q, w' = w.putQueue q ∧ Restored Q Settled w.now w.queue q ∧
        ((Q.seen w.queue).Owns job → Answered w.now c (Q.seen q) job))
      fun e w' => ∃ q, w' = w.putQueue q ∧ Q.held q = Q.held w.queue ∧ e = .queue .outOfRange ∧
        ¬ job.schedule.InReach w.now := by
  unfold restoreJob
  cases lacks : s.lacks? w.now job with
  | none =>
    refine Act.ends_pure.mpr ⟨w.queue, rfl, .of_held settled rfl, fun _ => ?_⟩
    unfold Survey.lacks? at lacks
    cases plan : queuePlan job.schedule w.now with
    | expired => exact answered_of_expired plan
    | repeating spec =>
      simp only [plan, ite_eq_left_iff, reduceCtorEq, imp_false, not_not] at lacks
      exact (answered_repeating plan).mpr (.inl (grows.hasLive ((sees.holdsLive_iff tidy).mp lacks)))
    | delayed millis =>
      simp only [plan, ite_eq_left_iff, reduceCtorEq, imp_false, not_not] at lacks
      have held := sees.holdsKey_iff.mp lacks
      refine (answered_delayed plan).mpr ⟨grows.hasKey held, fun singly => ?_⟩
      -- an entry of this key that does not repeat is its single entry
      obtain ⟨id, e, he, key⟩ := held
      rcases tidy.named he with ⟨_, own⟩ | ⟨spec, repeats, _⟩
      · rw [tidy.ownId he, key] at own
        exact grows.isSome_entry (own ▸ he ▸ rfl)
      · rw [singly id e he key] at repeats
        cases repeats
  | some kind =>
    refine Act.ends_bind.mpr (Act.ends_attemptUnless.mpr (Act.ends_mapError.mpr
      ((enqueue_restores c lawful hg settled clock takes).mono ?_ ?_)))
    · rintro _ w' ⟨q, rfl, restored, answered⟩
      exact Act.ends_pure.mpr ⟨q, rfl, restored, answered⟩
    · rintro e w' ⟨q, rfl, same, answered, late⟩
      by_cases final : e = .outOfRange
      · subst final
        exact ⟨q, rfl, same, rfl, late rfl⟩
      · rw [isOutOfRange_queue final, if_neg Bool.false_ne_true]
        refine Act.ends_pure.mpr ⟨q, rfl, .of_held settled same, fun _ => ?_⟩
        rw [CalmQueue.seen, same]
        exact answered final

/-- What is answered already is left alone. -/
theorem restoreJob_rests (lawful : Q.Lawful w.now Settled) (hg : g.queue = Q.queue) (settled : Settled (Q.held w.queue))
    (takes : Q.Takes job) (sees : s.Sees (Q.seen w.queue))
    {before : QueueContents} (answered : Answered w.now before (Q.seen w.queue) job) :
    (g.restoreJob s w.now job).Ends w
      (fun kind w' => kind = none ∧ ∃ q, w' = w.putQueue q ∧ Q.held q = Q.held w.queue) fun _ _ => False := by
  have tidy := lawful.tidy settled
  unfold restoreJob
  cases lacks : s.lacks? w.now job with
  | none => exact Act.ends_pure.mpr ⟨rfl, w.queue, rfl, rfl⟩
  | some kind =>
    unfold Survey.lacks? at lacks
    cases plan : queuePlan job.schedule w.now with
    | expired => simp [plan] at lacks
    | delayed millis => simp [plan, sees.holdsKey_iff.mpr ((answered_delayed plan).mp answered).1] at lacks
    | repeating spec =>
      have missed : ¬ (Q.seen w.queue).HasLive job.queueKey spec := fun live => by
        simp [plan, (sees.holdsLive_iff tidy).mpr live] at lacks
      obtain ⟨absent, e, refused, final⟩ := ((answered_repeating plan).mp answered).resolve_left missed
      have word := takes.narrow.word (queuePlan_eq_repeating_iff.mp plan)
      refine Act.ends_bind.mpr (Act.ends_attemptUnless.mpr (Act.ends_mapError.mpr ?_))
      simp only [enqueue, Act.ends_bind, ends_time, hg, plan]
      refine ends_onQueue.mpr ((lawful.addRepeating _ _ _ settled word takes.keeps).mono ?_ ?_)
      · rintro _ q ⟨_, chained⟩
        -- a record would have been made only if there were a next fire
        obtain ⟨r, _, _, _, fires⟩ := chained.made absent
        simp [RepeatRecord.create, RepeatRecord.advance, fires] at refused
      · rintro e' q ⟨same, _, refused'⟩
        obtain rfl : e = e' := Except.error.inj (refused.symm.trans refused')
        rw [isOutOfRange_queue final, if_neg Bool.false_ne_true]
        exact Act.ends_pure.mpr ⟨rfl, q, rfl, same⟩

/-! ## All jobs -/

theorem restoreJobs_restores (lawful : Q.Lawful w.now Settled) (hg : g.queue = Q.queue)
    (settled : Settled (Q.held w.queue)) (clock : w.now.Storable) (takes : ∀ job ∈ jobs, Q.Takes job)
    (sees : s.Sees c) (tidy : c.Tidy) (grows : c.Grows (Q.seen w.queue)) :
    (g.restoreJobs s w.now jobs).Ends w
      (fun _ w' => ∃ q, w' = w.putQueue q ∧ Restored Q Settled w.now w.queue q ∧
        ∀ job ∈ jobs, (Q.seen w.queue).Owns job → Answered w.now c (Q.seen q) job)
      fun e w' => ∃ q, w' = w.putQueue q ∧ Restored Q Settled w.now w.queue q ∧ e = .queue .outOfRange ∧
        ∃ job ∈ jobs, ¬ job.schedule.InReach w.now := by
  -- the survey is not repeated: it still misses nothing, since jobs that are put back only add
  induction jobs generalizing w with
  | nil => exact Act.ends_pure.mpr ⟨w.queue, rfl, .of_held settled rfl, List.forall_mem_nil _⟩
  | cons job jobs ih =>
    obtain ⟨first, rest⟩ := List.forall_mem_cons.mp takes
    refine Act.ends_bind.mpr ((restoreJob_restores lawful hg settled clock first sees tidy grows).mono ?_ ?_)
    · rintro kind _ ⟨q, rfl, restored, answered⟩
      refine Act.ends_bind.mpr ((ih (w := w.putQueue q) lawful restored.settled clock rest
        (grows.trans restored.restores.grows)).mono ?_ ?_)
      · rintro kinds _ ⟨q', rfl, restored', others⟩
        refine Act.ends_pure.mpr ⟨q', rfl, restored.trans restored', List.forall_mem_cons.mpr ⟨fun own => ?_, ?_⟩⟩
        · exact restored'.restores.answered (restored.restores.owns own) (answered own)
        · exact fun job mem own => others job mem (restored.restores.owns own)
      · rintro e _ ⟨q', rfl, restored', rfl, job', mem, late⟩
        exact ⟨q', rfl, restored.trans restored', rfl, job', List.mem_cons_of_mem _ mem, late⟩
    · rintro e _ ⟨q, rfl, same, rfl, late⟩
      exact ⟨q, rfl, .of_held settled same, rfl, job, List.mem_cons_self, late⟩

theorem restoreJobs_rests (lawful : Q.Lawful w.now Settled) (hg : g.queue = Q.queue)
    (settled : Settled (Q.held w.queue)) (takes : ∀ job ∈ jobs, Q.Takes job) (sees : s.Sees (Q.seen w.queue))
    {before : QueueContents} (answered : ∀ job ∈ jobs, Answered w.now before (Q.seen w.queue) job) :
    (g.restoreJobs s w.now jobs).Ends w
      (fun kinds w' => kinds = [] ∧ ∃ q, w' = w.putQueue q ∧ Q.held q = Q.held w.queue) fun _ _ => False := by
  induction jobs generalizing w with
  | nil => exact Act.ends_pure.mpr ⟨rfl, w.queue, rfl, rfl⟩
  | cons job jobs ih =>
    obtain ⟨first, rest⟩ := List.forall_mem_cons.mp takes
    obtain ⟨done, others⟩ := List.forall_mem_cons.mp answered
    refine Act.ends_bind.mpr ((restoreJob_rests lawful hg settled first sees done).mono ?_ fun _ _ h => h)
    rintro kind _ ⟨rfl, q, rfl, same⟩
    have seen : Q.seen (w.putQueue q).queue = Q.seen w.queue := congrArg Q.contents same
    refine Act.ends_bind.mpr
      ((ih (w := w.putQueue q) lawful (same ▸ settled) rest (seen ▸ sees) (seen ▸ others)).mono ?_ fun _ _ h => h)
    rintro kinds _ ⟨rfl, q', rfl, same'⟩
    exact Act.ends_pure.mpr ⟨rfl, q', rfl, same'.trans same⟩

/-! ## The pass -/

theorem survey_sees (lawful : Q.Lawful w.now Settled) (hS : S.Lawful) (hg : g.queue = Q.queue) (hs : g.store = S.store)
    (settled : Settled (Q.held w.queue)) (listed : S.enabled (S.rows w.store) = .ok jobs) :
    g.survey.Ends w
      (fun s w' => w'.now = w.now ∧ S.rows w'.store = S.rows w.store ∧ Q.held w'.queue = Q.held w.queue ∧
        s.jobs = jobs ∧ s.Sees (Q.seen w.queue)) fun _ _ => False := by
  simp only [survey, hg, hs]
  refine Act.ends_bind.mpr (Act.ends_mapError.mpr (ends_onStore.mpr ((hS w.store).mono ?_ ?_)))
  · rintro jobs' store ⟨rows, listed'⟩
    obtain rfl : jobs = jobs' := Except.ok.inj (listed.symm.trans listed')
    refine Act.ends_bind.mpr (ends_time.mpr (Act.ends_bind.mpr (Act.ends_mapError.mpr (ends_onQueue.mpr
      ((lawful.listEntries settled).mono ?_ fun _ _ h => h)))))
    rintro entries q ⟨same, shows⟩
    have settled' : Settled (Q.held q) := same ▸ settled
    refine Act.ends_bind.mpr (Act.ends_mapError.mpr (ends_onQueue.mpr
      ((lawful.listRepeating settled').mono ?_ fun _ _ h => h)))
    rintro records q' ⟨same', mem⟩
    rw [CalmQueue.seen, same] at mem
    exact Act.ends_pure.mpr ⟨rfl, rows, same'.trans same, rfl, shows, mem⟩
  · rintro e store ⟨_, failed⟩
    cases listed.symm.trans failed

/-- A pass gives up late claims and adds what is missing; only the end of the calendar breaks it off. -/
theorem reconcile_restores (lawful : Q.Lawful w.now Settled) (hS : S.Lawful) (hg : g.queue = Q.queue)
    (hs : g.store = S.store) (reached : Q.Reached w.now (Q.held w.queue)) (clock : w.now.Storable)
    (listed : S.enabled (S.rows w.store) = .ok jobs) (takes : ∀ job ∈ jobs, Q.Takes job) :
    g.reconcile.Ends w
      (fun _ w' => w'.now = w.now ∧ S.rows w'.store = S.rows w.store ∧
        ∃ q, Settled (Q.held q) ∧ (Q.seen w.queue).Recovered (Q.Late (Q.held w.queue) w.now) (Q.seen q) ∧
          Restored Q Settled w.now q w'.queue ∧
          ∀ job ∈ jobs, (Q.seen w.queue).Owns job → Answered w.now (Q.seen w.queue) (Q.seen w'.queue) job)
      fun e w' => e = .queue .outOfRange ∧ (∃ job ∈ jobs, ¬ job.schedule.InReach w.now) ∧
        S.rows w'.store = S.rows w.store ∧
        ∃ q, Settled (Q.held q) ∧ (Q.seen w.queue).Recovered (Q.Late (Q.held w.queue) w.now) (Q.seen q) ∧
          Restored Q Settled w.now q w'.queue := by
  simp only [reconcile]
  refine Act.ends_bind.mpr (ends_time.mpr (Act.ends_bind.mpr (Act.ends_mapError.mpr (ends_onQueue.mpr ?_))))
  rw [hg]
  refine (lawful.recovers reached).mono ?_ fun _ _ h => h.elim
  rintro stalled q ⟨settled, recovered⟩
  refine Act.ends_bind.mpr
    ((survey_sees (w := w.putQueue q) lawful hS hg hs settled listed).mono ?_ fun _ _ h => h.elim)
  rintro seen w₁ ⟨now, rows, same, rfl, sees⟩
  -- the survey leaves the queue as the late claims left it, and the jobs are put back from there
  refine Act.ends_bind.mpr (ends_time.mpr (Act.ends_bind.mpr ?_))
  have now : w₁.now = w.now := now
  have rows : S.rows w₁.store = S.rows w.store := rows
  have settled₁ : Settled (Q.held w₁.queue) := same ▸ settled
  have first : Restored Q Settled w.now q w₁.queue := .of_held settled same
  have owns {job : Job} (owned : (Q.seen w.queue).Owns job) : (Q.seen w₁.queue).Owns job :=
    first.restores.owns fun spec r hs hr => owned spec r hs (recovered.record ▸ hr)
  have restores := restoreJobs_restores (w := w₁) (now ▸ lawful) hg settled₁ (now ▸ clock) takes sees
    (lawful.tidy settled) first.restores.grows
  rw [now] at restores
  rw [now]
  refine restores.mono ?_ ?_
  · rintro kinds _ ⟨q', rfl, restored, answered⟩
    refine Act.ends_bind.mpr (Act.ends_modify.mpr (Act.ends_pure.mpr
      ⟨now, rows, q, settled, recovered, first.trans restored, ?_⟩))
    intro job mem owned
    have done := answered job mem (owns owned)
    unfold Answered Singly at done ⊢
    rwa [← recovered.entry]
  · rintro e _ ⟨q', rfl, restored, rfl, late⟩
    exact ⟨rfl, late, rows, q, settled, recovered, first.trans restored⟩

/-- A pass that finds every job answered leaves everything as it is. -/
theorem reconcile_rests (lawful : Q.Lawful w.now Settled) (hS : S.Lawful) (hg : g.queue = Q.queue)
    (hs : g.store = S.store) (settled : Settled (Q.held w.queue)) (listed : S.enabled (S.rows w.store) = .ok jobs)
    (takes : ∀ job ∈ jobs, Q.Takes job) {before : QueueContents}
    (answered : ∀ job ∈ jobs, Answered w.now before (Q.seen w.queue) job) :
    g.reconcile.Ends w
      (fun report w' => report = ⟨0, 0, 0⟩ ∧ w'.now = w.now ∧ S.rows w'.store = S.rows w.store ∧
        Q.held w'.queue = Q.held w.queue) fun _ _ => False := by
  simp only [reconcile]
  refine Act.ends_bind.mpr (ends_time.mpr (Act.ends_bind.mpr (Act.ends_mapError.mpr (ends_onQueue.mpr ?_))))
  rw [hg]
  refine (lawful.recoverStalled settled).mono ?_ fun _ _ h => h.elim
  rintro stalled q ⟨rfl, none⟩
  have settled' : Settled (Q.held q) := none ▸ settled
  refine Act.ends_bind.mpr
    ((survey_sees (w := w.putQueue q) lawful hS hg hs settled' listed).mono ?_ fun _ _ h => h.elim)
  rintro seen w₁ ⟨now, rows, same, rfl, sees⟩
  have now : w₁.now = w.now := now
  have same : Q.held w₁.queue = Q.held w.queue := same.trans none
  have view : Q.seen w₁.queue = Q.seen w.queue := congrArg Q.contents same
  have sees : seen.Sees (Q.seen w₁.queue) := by
    rw [view, ← show Q.seen q = Q.seen w.queue from congrArg Q.contents none]
    exact sees
  have rests := restoreJobs_rests (w := w₁) (now ▸ lawful) hg (same ▸ settled) takes sees
    (by rw [view, now]; exact answered)
  refine Act.ends_bind.mpr (ends_time.mpr (Act.ends_bind.mpr (rests.mono ?_ fun _ _ h => h)))
  rintro kinds _ ⟨rfl, q', rfl, same'⟩
  exact Act.ends_bind.mpr (Act.ends_modify.mpr (Act.ends_pure.mpr ⟨rfl, now, rows, same'.trans same⟩))

end Engine

end Timetable
