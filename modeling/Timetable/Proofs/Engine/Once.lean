import Timetable.Proofs.Engine.Shifts
import Timetable.Proofs.Queue.Apart
import Timetable.Proofs.Queue.LocalDelivery
import Timetable.Proofs.Schedule.Delay

/-!
# Jobs that run once

An operation that enables a job puts it into the queue again, and so does the reconciler, each with the delay from its
own reading of the clock to the instant of the job. That nothing is handed out twice rests on the end of that delay: it is
less than a millisecond before the instant (`Storable.past_of_delay`), so whoever looks at the job when its entry is due
finds its instant past and plans nothing.

Of the single entry of a job and its instant, a run knows one of three things. Nothing was handed out, and what is queued
is due no earlier than the instant is past (`Shift.Waiting`); or the instant is past and what is still stored is at work
(`Shift.Spent`); or the instant was past before there was anything at all (`Shift.Missed`). A claim of due entries takes
the first to the second (`LocalQueue.Ahead.claimDue`), and every other step keeps what it finds.

The main result is `onTime_job_handed_out_once`. It needs an instant outside leap seconds: an instant in one counts as a
second earlier from the next minute on, so its entry is due a second before the instant is past
(`onTime_job_handed_out_twice_in_leap_second`).
-/

namespace Timetable

open World LocalQueue

/-! ## The single entry of a key -/

namespace LocalQueue

variable {rules : ClaimRules} {q q' : LocalQueue} {now : Instant} {job : Job} {key x : String} {e : StoredEntry}

/-- What putting a job in does to a queue: it puts a record, or a single entry that is due when its delay ends, or does
nothing. -/
theorem put_cases (q : LocalQueue) (now : Instant) (job : Job) :
    q.put now job = q ∨ (∃ r, q.put now job = q.putRecord r) ∨
      ∃ millis fireAt, queuePlan job.schedule now = .delayed millis ∧
        now.addMillis? (signedWord millis) = some fireAt ∧
        q.put now job = q.insertIfAbsent (.single job.queueKey fireAt job.toJson) := by
  unfold put
  cases queuePlan job.schedule now with
  | repeating spec =>
    dsimp only
    rw [addRepeating_on]
    cases q.repeats.get? (repeatField job.queueKey spec) with
    | some old => exact .inr (.inl ⟨_, rfl⟩)
    | none =>
      cases RepeatRecord.create job.queueKey spec job.toJson now with
      | ok r => exact .inr (.inl ⟨r, rfl⟩)
      | error failure => exact .inl rfl
  | delayed millis =>
    dsimp only
    unfold addDelayed
    cases reached : now.addMillis? (signedWord millis) with
    | none => exact .inl rfl
    | some fireAt => exact .inr (.inr ⟨millis, fireAt, rfl, reached, rfl⟩)
  | expired => exact .inl rfl

theorem put_active (q : LocalQueue) (now : Instant) (job : Job) : (q.put now job).active = q.active := by
  rcases q.put_cases now job with same | ⟨r, same⟩ | ⟨_, _, _, _, same⟩
  · rw [same]
  · rw [same, putRecord_active]
  · rw [same]
    rfl

/-- A job that is put in brings a single entry for its own key only. -/
theorem put_single (stored : (q.put now job).entries.get? (singleId key) = some e) :
    q.entries.get? (singleId key) = some e ∨ job.queueKey = key ∧ ∃ millis,
      queuePlan job.schedule now = .delayed millis ∧ now.addMillis? (signedWord millis) = some e.fireAt := by
  rcases q.put_cases now job with same | ⟨r, same⟩ | ⟨millis, fireAt, plan, reached, same⟩
  · exact .inl (same ▸ stored)
  · rw [same] at stored
    rcases putRecord_entries_eq_some.mp stored with before | ⟨_, _, _, own, _⟩
    · exact .inl before
    · exact absurd own singleId_ne_instanceId
  · rw [same] at stored
    rcases insertIfAbsent_entries_eq_some.mp stored with before | ⟨_, own, rfl⟩
    · exact .inl before
    · exact .inr ⟨singleId_inj own.symm, millis, plan, reached⟩

theorem withdraw_dropped (q : LocalQueue) (now : Instant) (job : Job) : Dropped q (q.withdraw now job) := by
  unfold withdraw
  cases queuePlan job.schedule now with
  | repeating spec => exact removeRepeating_dropped
  | delayed _ | expired => exact removeDelayed_dropped

/-- Nothing comes under an identifier, no claim is made there, and one in time is kept while its entry is stored. -/
structure Wanes (now : Instant) (x : String) (q q' : LocalQueue) : Prop where
  entry : ∀ e, q'.entries.get? x = some e → q.entries.get? x = some e
  claim : q'.active.contains x = true → q.active.contains x = true
  held : ∀ expiry, q.active.get? x = some expiry → now < expiry → q'.entries.contains x = true →
    q'.active.contains x = true

theorem Wanes.refl (now : Instant) (x : String) (q : LocalQueue) : Wanes now x q q :=
  ⟨fun _ h => h, id, fun expiry held _ _ => Table.contains_iff.mpr ⟨expiry, held⟩⟩

theorem Dropped.active (h : Dropped q q') : q'.active = q.active := by cases h <;> rfl

theorem Dropped.wanes (h : Dropped q q') (now : Instant) (x : String) : Wanes now x q q' := by
  cases h with
  | records repeats => exact ⟨fun _ h => h, id, fun expiry held _ _ => Table.contains_iff.mpr ⟨expiry, held⟩⟩
  | entry repeats free =>
    refine ⟨fun e stored => ?_, id, fun expiry held _ _ => Table.contains_iff.mpr ⟨expiry, held⟩⟩
    simp only [eraseEntry, Table.get?_erase, Option.ite_none_left_eq_some] at stored
    exact stored.2

theorem recover_wanes (q : LocalQueue) (now : Instant) (x : String) : Wanes now x q (q.recover now) := by
  refine ⟨fun _ h => h, fun held => ?_, fun expiry held inTime _ => ?_⟩
  · simp only [recover, Table.contains_iff, Table.get?_filter, Option.filter_eq_some_iff] at held ⊢
    obtain ⟨expiry, held, _⟩ := held
    exact ⟨expiry, held⟩
  · simp only [recover, Table.contains_iff, Table.get?_filter, Option.filter_eq_some_iff]
    exact ⟨expiry, held, by simpa using inTime⟩

theorem renewLease_wanes (e : StoredEntry) : Wanes now x q ((renewLease rules e now).on q).2 := by
  rw [renewLease_on]
  split
  · next holds =>
    cases now.add? rules.lease with
    | none => exact .refl now x q
    | some renewed =>
      refine ⟨fun _ h => h, fun held => ?_, fun expiry held _ _ => ?_⟩
      · simp only [Table.contains_set, Bool.or_eq_true, decide_eq_true_eq] at held
        rcases held with rfl | held
        · exact (holdsClaim_iff.mp holds).1
        · exact held
      · simp only [Table.contains_set, Bool.or_eq_true]
        exact .inr (Table.contains_iff.mpr ⟨expiry, held⟩)
  · exact .refl now x q

theorem finish_wanes (e : StoredEntry) : Wanes now x q ((finish e).on q).2 := by
  rw [finish_on]
  dsimp only
  split
  · refine ⟨fun _ stored => ?_, fun held => ?_, fun expiry held _ stored => ?_⟩
    · simp only [Table.get?_erase, Option.ite_none_left_eq_some] at stored
      exact stored.2
    · simp only [Table.contains_iff, Table.get?_erase, Option.ite_none_left_eq_some] at held ⊢
      obtain ⟨expiry, _, held⟩ := held
      exact ⟨expiry, held⟩
    · simp only [Table.contains_iff, Table.get?_erase, Option.ite_none_left_eq_some] at stored ⊢
      obtain ⟨_, other, _⟩ := stored
      exact ⟨expiry, other, held⟩
  · exact .refl now x q

/-- What workers ask, claims of due entries aside. -/
theorem ask_wanes {request : QueueRequest} (asked : request.OfWorkers) (other : ∀ limit, request ≠ .claimDue limit) :
    Wanes now x q (((workQueue rules).ask now request).on q).2 := by
  cases request with
  | claimDue limit => exact absurd rfl (other limit)
  | recoverStalled => exact recover_wanes q now x
  | renewLease e => exact renewLease_wanes e
  | finish e => exact finish_wanes e
  | _ => exact asked.elim

/-- A sound queue that holds nothing of a key. -/
structure Without (now : Instant) (key : String) (q : LocalQueue) : Prop where
  sound : Sound now q
  filled : q.Filled (fun k _ => k ≠ key) fun _ => True

theorem Without.put (h : q.Without now key) (accepted : job.schedule.Accepted)
    (expired : job.queueKey = key → queuePlan job.schedule now = .expired) : (q.put now job).Without now key := by
  refine ⟨h.sound.put accepted, ?_⟩
  by_cases own : job.queueKey = key
  · rw [LocalQueue.put, expired own]
    exact h.filled
  · exact h.filled.put h.sound.tidy accepted own fun _ _ => trivial

theorem Without.withdraw (h : q.Without now key) (job : Job) : (q.withdraw now job).Without now key :=
  ⟨h.sound.withdraw job, h.filled.withdraw now job⟩

/-- What is handed out was stored and is due. -/
theorem claimDue_due (sound : Sound now q) (limit : Nat) : (claimDue rules now limit).Ends q
    (fun out _ => ∀ c ∈ out, q.entries.contains c.id = true ∧ c.fireAt ≤ now) fun _ _ => True := by
  have recovered : (q.recover now).Tidy := sound.recover.tidy
  have turn {p : LocalQueue} {e : StoredEntry} (_ : True) (due : e ∈ (q.recover now).due now) (tidy : p.Tidy)
      (stored : p.entries.get? e.id = some e) (free : p.active.contains e.id = false) :
      (claimEntry rules now e).Ends p
        (fun out _ => True ∧ ∀ c, out = some c → q.entries.contains c.id = true ∧ c.fireAt ≤ now) fun _ _ => True := by
    refine (claimEntry_takes tidy stored free).mono (fun out p' taken => ⟨trivial, ?_⟩) fun _ _ _ => trivial
    rintro c rfl
    obtain ⟨rfl, -⟩ := taken.handed rfl
    obtain ⟨before, -, past⟩ := recovered.ownId.mem_due.mp due
    exact ⟨Table.contains_iff.mpr ⟨e, before⟩, past⟩
  simp only [claimDue, Act.ends_bind, Act.ends_modify, Act.ends_get]
  exact (claimEach_ends turn limit recovered recovered.takeable_due trivial).mono (fun _ _ h => h.2) fun _ _ h => h

/-! ## Before and after an instant -/

/-- Nobody claimed the single entry of a key, and when it is due an instant is past. -/
structure Ahead (at_ : Instant) (key : String) (q : LocalQueue) : Prop where
  free : q.active.contains (singleId key) = false
  late : ∀ e, q.entries.get? (singleId key) = some e → ∀ later : Instant, later.Storable → e.fireAt ≤ later →
    at_.Past later

/-- The single entry of a key is at work, if it is stored at all. -/
def Behind (key : String) (q : LocalQueue) : Prop :=
  q.entries.contains (singleId key) = true → q.active.contains (singleId key) = true

variable {at_ : Instant}

theorem Ahead.wanes (h : q.Ahead at_ key) (wanes : Wanes now (singleId key) q q') : q'.Ahead at_ key where
  free := Bool.eq_false_iff.mpr fun held => Bool.false_ne_true (h.free.symm.trans (wanes.claim held))
  late e stored := h.late e (wanes.entry e stored)

theorem Ahead.put (h : q.Ahead at_ key) (clock : now.Storable) (time : at_.Storable)
    (own : job.queueKey = key → job.schedule = .onTime at_) : (q.put now job).Ahead at_ key where
  free := by
    rw [put_active]
    exact h.free
  late e stored := by
    rcases put_single stored with before | ⟨key, millis, plan, reached⟩
    · exact h.late e before
    · rw [own key] at plan
      simp only [queuePlan] at plan
      split at plan
      · cases plan
      · next ahead =>
        cases plan
        intro later clock' due
        exact clock.past_of_delay time ahead reached clock' due

theorem Behind.wanes (h : q.Behind key) (inTime : ∀ expiry, q.active.get? (singleId key) = some expiry → now < expiry)
    (wanes : Wanes now (singleId key) q q') : q'.Behind key := by
  intro stored
  obtain ⟨e, he⟩ := Table.contains_iff.mp stored
  obtain ⟨expiry, held⟩ := Table.contains_iff.mp (h (Table.contains_iff.mpr ⟨e, wanes.entry e he⟩))
  exact wanes.held expiry held (inTime expiry held) stored

theorem Behind.put (h : q.Behind key) (past : at_.Past now)
    (own : job.queueKey = key → job.schedule = .onTime at_) : (q.put now job).Behind key := by
  intro stored
  obtain ⟨e, stored⟩ := Table.contains_iff.mp stored
  rw [put_active]
  rcases put_single stored with before | ⟨key, millis, plan, _⟩
  · exact h (Table.contains_iff.mpr ⟨e, before⟩)
  · rw [own key, (queuePlan_onTime at_ now).mpr past] at plan
    cases plan

theorem withdraw_wanes (q : LocalQueue) (now : Instant) (job : Job) : Wanes now x q (q.withdraw now job) :=
  (withdraw_dropped q now job).wanes now x

theorem Behind.withdraw (h : q.Behind key) (now : Instant) (job : Job) : (q.withdraw now job).Behind key := by
  intro stored
  obtain ⟨e, stored⟩ := Table.contains_iff.mp stored
  have before := h (Table.contains_iff.mpr ⟨e, (withdraw_wanes q now job).entry e stored⟩)
  rw [(withdraw_dropped q now job).active]
  exact before

/-! ### Claims -/

/-- Single entries of a key are stored in one place. -/
theorem Sound.filled_iff (sound : Sound now q) {S : StoredEntry → Prop} :
    q.Filled (fun _ _ => True) (fun e => e.key = key → e.id = singleId key ∧ S e) ↔
      ∀ e, q.entries.get? (singleId key) = some e → S e := by
  constructor
  · intro filled e stored
    exact (filled.single stored (sound.single stored) (sound.tidy.key_of_singleId stored)).2
  · intro all
    refine ⟨fun _ => trivial, fun _ => trivial, fun {id e} stored repeats own => ?_⟩
    have place : e.id = singleId key := own ▸ (sound.made stored).single repeats
    have here : id = singleId key := (sound.ownId stored).symm.trans place
    exact ⟨place, all e (here ▸ stored)⟩

variable {limit : Nat} {out : List StoredEntry}

/-- What a claim hands out for a key without records is its single entry, and what was known of that is still so. -/
theorem claimDue_single (sound : Sound now q) (once : ∀ spec, ¬ q.Has key spec) {S : StoredEntry → Prop}
    (claimed : ∀ e now, S e → S { e with processedOn := some now })
    (stored : ∀ e, q.entries.get? (singleId key) = some e → S e)
    (on : (claimDue rules now limit).on q = (.ok out, q')) :
    (∀ c ∈ out, c.key = key → c.id = singleId key ∧ S c ∧ q.entries.contains (singleId key) = true ∧ c.fireAt ≤ now) ∧
      ∀ e, q'.entries.get? (singleId key) = some e → S e := by
  have filled := sound.filled_iff.mpr stored
  have kept (e : StoredEntry) (now : Instant) (h : e.key = key → e.id = singleId key ∧ S e)
      (own : e.key = key) : e.id = singleId key ∧ S { e with processedOn := some now } :=
    ⟨(h own).1, claimed e now (h own).2⟩
  have hands := (Act.ends_of_on_ok on).mp (claimDue_hands kept filled sound sound.tidy limit)
  have due := (Act.ends_of_on_ok on).mp (claimDue_due sound limit)
  have keeps : Keeps rules now q ((claimDue rules now limit).on q) := claimDue_keeps sound limit
  have after : Filled _ _ ((claimDue rules now limit).on q).2 := filled.claimDue kept sound.tidy limit
  rw [on] at keeps after
  refine ⟨fun c mem own => ?_, keeps.sound.filled_iff.mp after⟩
  obtain ⟨-, single, recorded⟩ := hands c mem
  cases repeats : c.repeats with
  | none =>
    obtain ⟨place, known⟩ := single repeats own
    obtain ⟨before, past⟩ := due c mem
    exact ⟨place, known, place ▸ before, past⟩
  | some spec => exact absurd (own ▸ recorded spec repeats) (once spec)

/-- What is claimed after a claim was so before, or was handed out. -/
theorem active_of_claimDue (sound : Sound now q) (on : (claimDue rules now limit).on q = (.ok out, q'))
    (held : q'.active.contains x = true) : q.active.contains x = true ∨ x ∈ out.map (·.id) := by
  have recovered : (q.recover now).Tidy := sound.recover.tidy
  rw [claimDue_on] at on
  obtain ⟨through, -⟩ := (Act.ends_of_on_ok on).mp (claimEach_goesThrough limit recovered recovered.takeable_due)
  refine ((through.active x).mp held).imp_left fun held => ?_
  simp only [recover, Table.contains_iff, Table.get?_filter, Option.filter_eq_some_iff] at held ⊢
  obtain ⟨expiry, held, _⟩ := held
  exact ⟨expiry, held⟩

/-- Entries of one identifier are handed out once. -/
theorem length_filter_le_one {out : List StoredEntry} (nodup : (out.map (·.id)).Nodup)
    (place : ∀ c ∈ out, c.key = key → c.id = x) : (out.filter (·.key == key)).length ≤ 1 := by
  have all : ∀ id ∈ (out.filter (·.key == key)).map (·.id), id = x := by
    intro id mem
    obtain ⟨c, kept, rfl⟩ := List.mem_map.mp mem
    obtain ⟨handed, own⟩ := List.mem_filter.mp kept
    exact place c handed (beq_iff_eq.mp own)
  have same := List.eq_replicate_of_mem all
  have part : (out.filter (·.key == key)).Sublist out := List.filter_sublist
  have distinct := nodup.sublist (part.map (·.id))
  rw [same, List.nodup_replicate, List.length_map] at distinct
  exact distinct

theorem Behind.claimDue (h : q.Behind key) (sound : Sound now q) (once : ∀ spec, ¬ q.Has key spec)
    (inTime : ∀ expiry, q.active.get? (singleId key) = some expiry → now < expiry)
    (on : (claimDue rules now limit).on q = (.ok out, q')) : q'.Behind key ∧ ∀ c ∈ out, c.key ≠ key := by
  obtain ⟨-, steady, -, fresh⟩ := (Act.ends_of_on_ok on).mp (claimDue_steady sound.named limit)
  have live (stored : q.entries.contains (singleId key) = true) : q.Live now (singleId key) := by
    obtain ⟨expiry, held⟩ := Table.contains_iff.mp (h stored)
    exact ⟨stored, expiry, held, not_le.mpr (inTime expiry held)⟩
  constructor
  · intro stored'
    cases stored : q.entries.contains (singleId key) with
    | true =>
      have held := h stored
      rw [Table.contains, (steady _ (live stored)).lease]
      exact held
    | false =>
      -- where nothing was stored for the key, nothing is
      have absent : ∀ e, q.entries.get? (singleId key) = some e → False := fun e he => by
        rw [Table.contains_iff.mpr ⟨e, he⟩] at stored
        cases stored
      obtain ⟨e, he⟩ := Table.contains_iff.mp stored'
      exact ((claimDue_single sound once (fun _ _ => id) absent on).2 e he).elim
  · intro c mem own
    have single := claimDue_single (S := fun _ => True) sound once (fun _ _ => id) (fun _ _ => trivial) on
    obtain ⟨place, -, stored, -⟩ := single.1 c mem own
    exact (fresh c mem).2 (place ▸ live stored)

theorem Ahead.claimDue (h : q.Ahead at_ key) (sound : Sound now q) (once : ∀ spec, ¬ q.Has key spec)
    (clock : now.Storable) (on : (claimDue rules now limit).on q = (.ok out, q')) :
    q'.Ahead at_ key ∧ (∀ c ∈ out, c.key ≠ key) ∨
      q'.Behind key ∧ at_.Past now ∧ (out.filter (·.key == key)).length ≤ 1 := by
  obtain ⟨hands, late⟩ := claimDue_single sound once (fun _ _ => id) h.late on
  obtain ⟨named, -, nodup, fresh⟩ := (Act.ends_of_on_ok on).mp (claimDue_steady sound.named limit)
  have keeps : Keeps rules now q ((LocalQueue.claimDue rules now limit).on q) := claimDue_keeps sound limit
  rw [on] at keeps
  by_cases handed : ∃ c ∈ out, c.key = key
  · obtain ⟨c, mem, own⟩ := handed
    obtain ⟨place, past, -, due⟩ := hands c mem own
    obtain ⟨expiry, -, held⟩ := (fresh c mem).1.lease
    refine .inr ⟨fun _ => ?_, past now clock due, length_filter_le_one nodup fun c mem own => (hands c mem own).1⟩
    exact place ▸ Table.contains_iff.mpr ⟨expiry, held⟩
  · refine .inl ⟨⟨Bool.eq_false_iff.mpr fun held => ?_, late⟩, fun c mem own => handed ⟨c, mem, own⟩⟩
    rcases active_of_claimDue sound on held with before | now
    · exact Bool.false_ne_true (h.free.symm.trans before)
    · obtain ⟨c, mem, place⟩ := List.mem_map.mp now
      have stored : q'.entries.get? (singleId key) = some c := place ▸ (fresh c mem).1.entry
      exact handed ⟨c, mem, keeps.sound.tidy.key_of_singleId stored⟩

end LocalQueue

/-! ## Steps of a run -/

namespace Scene

variable {rules : ClaimRules} {s : Scene} {request : Option QueueRequest}

theorem Owned.asked (h : s.Owned) (asked : ∀ r, request = some r → r.OfWorkers) : (s.asked rules request).Owned := by
  cases request with
  | none => exact h
  | some r => exact h.still (.asked r (asked r rfl))

end Scene

namespace Shift

variable {rules : ClaimRules} {policy : SchedulePolicy} {threshold : Nat} {invoker : Invoker} {t₀ : Instant}
  {x x' : Shift} {op : Operation} {at_ : Instant} {id : Identifier}

/-- A request of workers that claims nothing new, if there is one. -/
def Quiet (request : Option QueueRequest) : Prop :=
  ∀ r, request = some r → r.OfWorkers ∧ ∀ limit, r ≠ .claimDue limit

theorem quiet_request (may : x.May op) : Quiet op.request? := by
  intro r asks
  refine ⟨Operation.ofWorkers_of_request? asks, fun limit claims => ?_⟩
  subst claims
  cases op <;> simp only [Operation.request?, Option.some.injEq, reduceCtorEq] at asks
  exact may

/-- A step claims what is due, or starts with a quiet request and hands out nothing. -/
theorem Step.scene (h : x.site.InStep) (step : Step rules policy threshold x x') :
    (∃ limit out q, (claimDue rules x.world.now limit).on x.world.queue = (.ok out, q) ∧
      x'.world = x.world.putQueue q ∧ x'.handed = x.handed ++ out) ∨
      ∃ request, Quiet request ∧ Scene.Follows (x.world.scene.asked rules request) x'.world.scene ∧
        x'.handed = x.handed := by
  have none : Quiet Option.none := fun _ never => by cases never
  cases step with
  | tick later => exact .inr ⟨.none, none, ⟨_, _, later, .refl, .inl rfl⟩, rfl⟩
  | claim on => exact .inl ⟨_, _, _, on, rfl, rfl⟩
  | succeed may on =>
    exact .inr ⟨_, quiet_request may, (Act.ends_of_on_ok on).mp (Operation.act_follows h (allowed_of_may may)), rfl⟩
  | fail may on whole =>
    have follows := (Act.ends_of_on_error on).mp (Operation.act_follows h (allowed_of_may may))
    exact .inr ⟨_, quiet_request may, follows.resolve_left (by simp [whole]), rfl⟩
  | clearedAll environment id =>
    have same := (Act.ends_iff_forall (P := fun w' : Memory => w'.scene = x.world.scene)).mp
      (Engine.deleteExecutions_scene (g := .inMemory rules policy threshold .obliging) rfl environment id)
    exact .inr ⟨.none, none, same ▸ .refl _, rfl⟩
  | clearedOne environment id execution =>
    have same := (Act.ends_iff_forall (P := fun w' : Memory => w'.scene = x.world.scene)).mp
      (Engine.deleteExecution_scene (g := .inMemory rules policy threshold .obliging) rfl environment id execution)
    exact .inr ⟨.none, none, same ▸ .refl _, rfl⟩

/-- What a step that hands out nothing keeps of the queue. -/
theorem keeps_queue {P : LocalQueue → Prop} {request : Option QueueRequest} (owned : x.world.scene.Owned)
    (quiet : Quiet request) (follows : Scene.Follows (x.world.scene.asked rules request) x'.world.scene)
    (asks : ∀ r, request = some r → P (((workQueue rules).ask x.world.now r).on x.world.queue).2)
    (put : ∀ {q job}, P q → job.schedule.Accepted →
      x.world.jobs.get? job.id = some job ∨ x'.world.jobs.get? job.id = some job → P (q.put x'.world.now job))
    (withdraw : ∀ {q} (job : Job), P q → P (q.withdraw x'.world.now job)) (start : P x.world.queue) :
    P x'.world.queue := by
  have asked : (x.world.scene.asked rules request).Owned := owned.asked fun r same => (quiet r same).1
  refine asked.keeps follows (fun kept accepted stored => put kept accepted ?_) withdraw ?_
  · cases request <;> exact stored
  · cases request with
    | none => exact start
    | some r => exact asks r rfl

/-- The clock shows an ordinary time, a job keeps its schedule, and the claim of its entry is in time. -/
structure Regular (at_ : Instant) (id : Identifier) (x : Shift) : Prop where
  clock : x.world.now.Storable
  schedule : ∀ job, x.world.jobs.get? id = some job → job.schedule = .onTime at_
  inTime : ∀ expiry, x.world.queue.active.get? (singleId id.text) = some expiry → x.world.now < expiry

instance (at_ : Instant) (id : Identifier) (x : Shift) : Decidable (x.Regular at_ id) :=
  decidable_of_iff (x.world.now.Storable ∧ (∀ job ∈ x.world.jobs.get? id, job.schedule = .onTime at_) ∧
      ∀ expiry ∈ x.world.queue.active.get? (singleId id.text), x.world.now < expiry)
    ⟨fun h => ⟨h.1, h.2.1, h.2.2⟩, fun h => ⟨h.clock, h.schedule, h.inTime⟩⟩

/-- What was handed out for a job. -/
def handedOf (x : Shift) (id : Identifier) : List StoredEntry := x.handed.filter (·.key == id.text)

theorem handedOf_eq_nil : x.handedOf id = [] ↔ ∀ e ∈ x.handed, e.key ≠ id.text := by
  simp [handedOf, List.filter_eq_nil_iff]

theorem handedOf_append {out : List StoredEntry} (h : x'.handed = x.handed ++ out) :
    x'.handedOf id = x.handedOf id ++ out.filter (·.key == id.text) := by
  rw [handedOf, h, List.filter_append, handedOf]

theorem filter_eq_nil {out : List StoredEntry} (none : ∀ c ∈ out, c.key ≠ id.text) :
    out.filter (·.key == id.text) = [] :=
  List.filter_eq_nil_iff.mpr fun c mem own => none c mem (beq_iff_eq.mp own)

/-- The entry of a job was not handed out, and when it is due an instant is past. -/
structure Waiting (at_ : Instant) (id : Identifier) (x : Shift) : Prop where
  queue : x.world.queue.Ahead at_ id.text
  handed : x.handedOf id = []

/-- An instant is past, the entry of a job was handed out once at most, and none is left that nobody claimed. -/
structure Spent (at_ : Instant) (id : Identifier) (x : Shift) : Prop where
  past : at_.Past x.world.now
  queue : x.world.queue.Behind id.text
  handed : (x.handedOf id).length ≤ 1

/-- An instant is past, and nothing is queued, was handed out or was recorded of a job. -/
structure Missed (at_ : Instant) (id : Identifier) (x : Shift) : Prop where
  past : at_.Past x.world.now
  queue : x.world.queue.Filled (fun key _ => key ≠ id.text) fun _ => True
  handed : x.handedOf id = []
  history : ∀ y ∈ x.world.history, y.jobId ≠ id

theorem now_le (h : x.site.InStep) (step : Step rules policy threshold x x') : x.world.now ≤ x'.world.now := by
  rcases step.scene h with ⟨_, _, _, _, same, _⟩ | ⟨request, _, follows, _⟩
  · rw [same]
    exact le_rfl
  · have later : (x.world.scene.asked rules request).now ≤ x'.world.now := follows.now_le
    cases request <;> exact later

theorem Regular.once (regular : x.Regular at_ id) (h : x.site.InStep) (spec : RepeatSpec) :
    ¬ x.world.queue.Has id.text spec := by
  intro has
  rw [h.world.has_key] at has
  obtain ⟨job, stored, wants⟩ := Option.bind_eq_some_iff.mp has
  obtain ⟨-, repeats⟩ := Job.wants_eq_some_iff.mp wants
  rw [regular.schedule job stored] at repeats
  cases repeats

theorem Regular.own (regular : x.Regular at_ id) (regular' : x'.Regular at_ id) {job : Job}
    (stored : x.world.jobs.get? job.id = some job ∨ x'.world.jobs.get? job.id = some job)
    (key : job.queueKey = id.text) : job.schedule = .onTime at_ := by
  obtain rfl := Identifier.text_injective key
  rcases stored with before | after
  · exact regular.schedule job before
  · exact regular'.schedule job after

section

variable (visited : Site.Visited rules policy threshold t₀ x.site) (regular : x.Regular at_ id)
  (regular' : x'.Regular at_ id) (taken : Step rules policy threshold x x')
include visited regular regular' taken

theorem Waiting.step (h : x.Waiting at_ id) (time : at_.Storable) : x'.Waiting at_ id ∨ x'.Spent at_ id := by
  have owned := Site.owned_of_visited visited
  have inStep := Site.InStep.of_visited visited
  rcases taken.scene inStep with ⟨limit, out, q, on, same, handed⟩ | ⟨request, quiet, follows, handed⟩
  · have all : x'.handedOf id = _ := handedOf_append handed
    rw [h.handed, List.nil_append] at all
    rcases h.queue.claimDue owned.sound (regular.once inStep) regular.clock on with ⟨ahead, none⟩ | ⟨behind, past, one⟩
    · exact .inl ⟨same ▸ ahead, all.trans (filter_eq_nil none)⟩
    · refine .inr ⟨same ▸ past, same ▸ behind, ?_⟩
      rw [all]
      exact one
  · have ahead : x'.world.queue.Ahead at_ id.text := by
      refine keeps_queue owned quiet follows (fun r asks => ?_) (fun kept _ stored => ?_) (fun job kept => ?_) h.queue
      · exact h.queue.wanes (ask_wanes (quiet r asks).1 (quiet r asks).2)
      · exact kept.put regular'.clock time (regular.own regular' stored)
      · exact kept.wanes (withdraw_wanes _ x'.world.now job)
    refine .inl ⟨ahead, ?_⟩
    rw [handedOf, handed]
    exact h.handed

theorem Spent.step (h : x.Spent at_ id) (minute : at_.EndsMinute) : x'.Spent at_ id := by
  have owned := Site.owned_of_visited visited
  have inStep := Site.InStep.of_visited visited
  have past := h.past.mono minute regular.clock regular'.clock (now_le inStep taken)
  rcases taken.scene inStep with ⟨limit, out, q, on, same, handed⟩ | ⟨request, quiet, follows, handed⟩
  · obtain ⟨behind, none⟩ := h.queue.claimDue owned.sound (regular.once inStep) regular.inTime on
    refine ⟨past, same ▸ behind, ?_⟩
    rw [handedOf_append handed, filter_eq_nil none, List.append_nil]
    exact h.handed
  · have behind : x'.world.queue.Behind id.text := by
      refine keeps_queue owned quiet follows (fun r asks => ?_) (fun kept _ stored => ?_) (fun job kept => ?_) h.queue
      · exact h.queue.wanes regular.inTime (ask_wanes (quiet r asks).1 (quiet r asks).2)
      · exact kept.put past (regular.own regular' stored)
      · exact kept.withdraw x'.world.now job
    refine ⟨past, behind, ?_⟩
    rw [handedOf, handed]
    exact h.handed

theorem Missed.step (h : x.Missed at_ id) (grounded : x.Grounded) (minute : at_.EndsMinute) : x'.Missed at_ id := by
  have owned := Site.owned_of_visited visited
  have inStep := Site.InStep.of_visited visited
  have past := h.past.mono minute regular.clock regular'.clock (now_le inStep taken)
  have history : ∀ y ∈ x'.world.history, y.jobId ≠ id := by
    rintro y mem rfl
    rcases taken.tells grounded y mem with before | ⟨e, handed, key⟩
    · exact h.history y before rfl
    · exact handedOf_eq_nil.mp h.handed e handed key
  have claimed (e : StoredEntry) (now : Instant) (_ : True) : True := trivial
  have later := now_le inStep taken
  rcases taken.scene inStep with ⟨limit, out, q, on, same, handed⟩ | ⟨request, quiet, follows, handed⟩
  · have hands := (Act.ends_of_on_ok on).mp (claimDue_hands claimed h.queue owned.sound owned.sound.tidy limit)
    have after : Filled _ _ ((claimDue rules x.world.now limit).on x.world.queue).2 :=
      h.queue.claimDue claimed owned.sound.tidy limit
    rw [on] at after
    refine ⟨past, same ▸ after, ?_, history⟩
    rw [handedOf_append handed, filter_eq_nil fun c mem => (hands c mem).1, List.append_nil]
    exact h.handed
  · have kept : x'.world.queue.Without x'.world.now id.text := by
      refine keeps_queue owned quiet follows (fun r asks => ?_) (fun kept accepted stored => ?_)
        (fun job kept => kept.withdraw job) ⟨owned.sound.mono later, h.queue⟩
      · have asked := owned.still (.asked r (quiet r asks).1 : Scene.Still rules x.world.scene _)
        refine ⟨asked.sound.mono later, ?_⟩
        exact ask_filled claimed h.queue owned.sound.tidy r (fills_of_workers (quiet r asks).1)
      · refine kept.put accepted fun own => ?_
        rw [regular.own regular' stored own]
        exact (queuePlan_onTime at_ _).mpr past
    refine ⟨past, kept.filled, ?_, history⟩
    rw [handedOf, handed]
    exact h.handed

end

/-! ## Runs in which a job keeps its instant -/

/-- An identifier is new: nothing is stored, queued or recorded under it, and nothing was handed out for it. -/
structure New (x : Shift) (id : Identifier) : Prop where
  stored : x.world.jobs.get? id = none
  queued : ∀ e ∈ x.world.queue.entries.values, e.key ≠ id.text
  handed : x.handedOf id = []
  recorded : ∀ y ∈ x.world.history, y.jobId ≠ id

namespace New

theorem fresh (h : x.New x.site.nextId) (grounded : x.Grounded) : x.site.Fresh where
  notStored := h.stored
  notGone e queued mem payload same := by
    obtain ⟨e', handed, key⟩ := grounded.handedFor (grounded.dispatched e .jobGone mem) payload
    exact handedOf_eq_nil.mp h.handed e' handed (same ▸ key)

theorem absent (h : x.New id) (owned : x.world.scene.Owned) : x.world.queue.entries.get? (singleId id.text) = none := by
  refine Option.eq_none_iff_forall_ne_some.mpr fun e stored => ?_
  exact h.queued e (Table.mem_values_iff.mpr ⟨_, stored⟩) (owned.sound.tidy.key_of_singleId stored)

theorem free (h : x.New id) (owned : x.world.scene.Owned) :
    x.world.queue.active.contains (singleId id.text) = false := by
  refine Bool.eq_false_iff.mpr fun held => ?_
  obtain ⟨e, stored, -⟩ := owned.sound.held held
  cases (h.absent owned).symm.trans stored

theorem regular (h : x.New id) (owned : x.world.scene.Owned) (clock : x.world.now.Storable) : x.Regular at_ id where
  clock := clock
  schedule job stored := by cases h.stored.symm.trans stored
  inTime expiry held := by
    have free := h.free owned
    rw [Table.contains_iff.mpr ⟨expiry, held⟩] at free
    cases free

theorem waiting (h : x.New id) (owned : x.world.scene.Owned) : x.Waiting at_ id where
  queue := ⟨h.free owned, fun e stored => by cases (h.absent owned).symm.trans stored⟩
  handed := h.handed

theorem missed (h : x.New id) (visited : Site.Visited rules policy threshold t₀ x.site) (past : at_.Past x.world.now) :
    x.Missed at_ id where
  past := past
  handed := h.handed
  history := h.recorded
  queue := by
    have queued {id' : String} {e : StoredEntry} (stored : x.world.queue.entries.get? id' = some e) : e.key ≠ id.text :=
      h.queued e (Table.mem_values_iff.mpr ⟨id', stored⟩)
    refine ⟨fun {f r} stored key => ?_, fun stored => queued stored, fun _ _ => trivial⟩
    -- only a stored job has a record
    have has : x.world.queue.Has id.text r.spec := ⟨f, r, stored, key, rfl⟩
    rw [(Site.InStep.of_visited visited).world.has_key] at has
    obtain ⟨job, stored, -⟩ := Option.bind_eq_some_iff.mp has
    cases h.stored.symm.trans stored

end New

/-- A run goes on while a job keeps its schedule and the claim of its entry is in time. -/
def Lasts (rules : ClaimRules) (policy : SchedulePolicy) (threshold : Nat) (at_ : Instant) (id : Identifier) :
    Shift → Shift → Prop :=
  Relation.ReflTransGen fun x x' => Step rules policy threshold x x' ∧ x'.Regular at_ id

/-- What every step keeps where a job keeps its schedule holds as long as it does. -/
theorem Lasts.induction {P : Shift → Prop} {x₀ : Shift} (h : Lasts rules policy threshold at_ id x₀ x)
    (reached : Reached rules policy threshold t₀ x₀) (regular : x₀.Regular at_ id)
    (step : ∀ {x x'}, Reached rules policy threshold t₀ x → x.Regular at_ id → x'.Regular at_ id →
      Step rules policy threshold x x' → P x → P x') (start : P x₀) : P x := by
  have all : Reached rules policy threshold t₀ x ∧ x.Regular at_ id ∧ P x := by
    induction h with
    | refl => exact ⟨reached, regular, start⟩
    | tail _ last ih =>
      obtain ⟨run, regular, kept⟩ := ih
      exact ⟨run.tail last.1, last.2, step run regular last.2 last.1 kept⟩
  exact all.2.2

theorem act_of_createJob {g : Engine LocalQueue (StoreState LocalStore) (Transaction LocalStore)} {environment : String}
    {r : CreateJobRequest} {job : Job} {w world : Memory}
    (create : (g.createJob environment r).on w = (.ok job, world)) :
    ((Operation.create environment r).act g).on w = (.ok [], world) := by
  refine Act.on_bind_eq_ok.mpr ⟨(), world, ?_, rfl⟩
  rw [Act.on_discard, Engine.engaging, Act.on_mapError, create]
  rfl

/-- The creation of a job that is to run once, as the first step of such a run. -/
theorem lasts_of_create {environment : String} {r : CreateJobRequest} {job : Job} {world : Memory}
    (reached : Reached rules policy threshold t₀ x) (clock : x.world.now.Storable) (new : x.New x.site.nextId)
    (create : ((Engine.inMemory rules policy threshold invoker).createJob environment r).on x.world = (.ok job, world))
    (once : r.schedule = .onTime at_) :
    job.id = x.site.nextId ∧ Lasts rules policy threshold at_ job.id x ⟨⟨world, x.site.outcomes⟩, x.handed⟩ := by
  have visited := visited_of_reached reached
  have inStep := Site.InStep.of_visited visited
  have owned := Site.owned_of_visited visited
  obtain ⟨own, schedule, -, same⟩ := (Act.ends_of_on_ok create).mp (Engine.createJob_scene rfl rfl inStep.world r)
  have may : x.May (.create environment r) := new.fresh (grounded_of_reached reached)
  have step : Step rules policy threshold x ⟨⟨world, x.site.outcomes⟩, x.handed⟩ :=
    .succeed may (act_of_createJob create)
  obtain ⟨now, queue, jobs⟩ := Scene.mk.inj same
  have active : world.queue.active = x.world.queue.active := by
    rw [queue]
    split
    · exact put_active _ _ _
    · rfl
  have regular := (new.regular owned clock : x.Regular at_ x.site.nextId)
  refine ⟨own, .single ⟨step, ⟨?_, fun job' stored => ?_, ?_⟩⟩⟩
  · show world.now.Storable
    rw [now]
    exact clock
  · have stored : world.jobs.get? job.id = some job' := stored
    rw [jobs, Table.get?_set, if_pos rfl] at stored
    rw [← Option.some.inj stored, schedule, once]
  · show ∀ expiry, world.queue.active.get? (singleId job.id.text) = some expiry → world.now < expiry
    rw [active, now, own]
    exact regular.inTime

end Shift

/-- While a job keeps its instant and the claim of its entry is in time, one entry at most is handed out for it. If the
instant was past when the job was created, or less than a millisecond ahead, nothing is ever queued for it or
recorded. -/
theorem onTime_job_handed_out_once {rules : ClaimRules} {policy : SchedulePolicy} {threshold : Nat} {invoker : Invoker}
    {t₀ at_ : Instant} {x₀ x : Shift} {environment : String} {r : CreateJobRequest} {job : Job} {world : Memory}
    (reached : Shift.Reached rules policy threshold t₀ x₀) (clock : x₀.world.now.Storable)
    (new : x₀.New x₀.site.nextId)
    (create : ((Engine.inMemory rules policy threshold invoker).createJob environment r).on x₀.world = (.ok job, world))
    (once : r.schedule = .onTime at_) (minute : at_.EndsMinute)
    (lasts : Shift.Lasts rules policy threshold at_ job.id ⟨⟨world, x₀.site.outcomes⟩, x₀.handed⟩ x) :
    (at_.Storable → (x.handedOf job.id).length ≤ 1) ∧
      (at_.sinceNanos x₀.world.now < Instant.nanosPerMilli →
        x.handedOf job.id = [] ∧ (∀ e ∈ x.world.queue.entries.values, e.key ≠ job.queueKey) ∧
          ∀ y ∈ x.world.history, y.jobId ≠ job.id) := by
  obtain ⟨own, created⟩ := Shift.lasts_of_create reached clock new create once
  have run : Shift.Lasts rules policy threshold at_ job.id x₀ x := created.trans lasts
  have visited := Shift.visited_of_reached reached
  have owned := Site.owned_of_visited visited
  rw [← own] at new
  have regular : x₀.Regular at_ job.id := new.regular owned clock
  constructor
  · intro time
    have phase : x.Waiting at_ job.id ∨ x.Spent at_ job.id := by
      refine Shift.Lasts.induction (P := fun x => x.Waiting at_ job.id ∨ x.Spent at_ job.id) run reached regular
        (fun reached regular regular' step phase => ?_) (.inl (new.waiting owned))
      have visited := Shift.visited_of_reached reached
      rcases phase with waiting | spent
      · exact waiting.step visited regular regular' step time
      · exact .inr (spent.step visited regular regular' step minute)
    rcases phase with waiting | spent
    · rw [waiting.handed]
      exact Nat.zero_le 1
    · exact spent.handed
  · intro past
    have missed : x.Missed at_ job.id := by
      refine run.induction reached regular (fun reached regular regular' step missed => ?_)
        (new.missed visited (Instant.past_iff.mpr past))
      have grounded := Shift.grounded_of_reached reached
      exact missed.step (Shift.visited_of_reached reached) regular regular' step grounded minute
    refine ⟨missed.handed, fun e mem => ?_, missed.history⟩
    obtain ⟨id, stored⟩ := Table.mem_values_iff.mp mem
    exact missed.queue.entry stored

/-! ## Two jobs that run once (used by the theorems below) -/

namespace Shift

/-- After an operation that is no dispatch. -/
def after (op : Operation) (x : Shift) : Shift := ⟨x.site.after op, x.handed⟩

/-- All that is due is claimed. -/
def claimed (x : Shift) : Shift :=
  match (claimDue {} x.world.now x.world.queue.entries.size).on x.world.queue with
  | (.ok out, q) => ⟨⟨x.world.putQueue q, x.site.outcomes⟩, x.handed ++ out⟩
  | (.error _, _) => x

/-- The clock shows a later time. -/
def atTime (now : Instant) (x : Shift) : Shift := ⟨⟨{ x.world with now }, x.site.outcomes⟩, x.handed⟩

variable {x x' : Shift} {op : Operation} {at_ : Instant} {id : Identifier}

theorem step_claimed (ok : ((claimDue {} x.world.now x.world.queue.entries.size).on x.world.queue).1.isOk = true) :
    Step {} {} 3 x x.claimed := by
  unfold claimed
  cases on : (claimDue {} x.world.now x.world.queue.entries.size).on x.world.queue with
  | mk result q =>
    rw [on] at ok
    cases result with
    | ok out => exact .claim on
    | error e => cases ok

/-- A job that is to run once, created at some time. -/
def created (now at_ : Instant) : Shift :=
  (start now).after (.create "e" { everyFiveMinutes with schedule := .onTime at_ })

theorem new_start (t₀ : Instant) : (start t₀).New (start t₀).site.nextId :=
  ⟨rfl, fun _ mem => absurd mem List.not_mem_nil, rfl, fun _ mem => absurd mem List.not_mem_nil⟩

/-- The job that is created at the start. -/
theorem create_start (t₀ at_ : Instant) (clock : t₀.Storable)
    (ok : (((Engine.inMemory {} {} 3 .obliging).createJob "e" { everyFiveMinutes with schedule := .onTime at_ }).on
      (start t₀).world).1.isOk = true) : ∃ job world,
    ((Engine.inMemory {} {} 3 .obliging).createJob "e" { everyFiveMinutes with schedule := .onTime at_ }).on
      (start t₀).world = (.ok job, world) ∧ job.id = .generated 1 ∧ created t₀ at_ = ⟨⟨world, []⟩, []⟩ := by
  cases create : ((Engine.inMemory {} {} 3 .obliging).createJob "e"
      { everyFiveMinutes with schedule := .onTime at_ }).on (start t₀).world with
  | mk result world =>
    rw [create] at ok
    cases result with
    | error e => cases ok
    | ok job =>
      have reached : Reached {} {} 3 t₀ (start t₀) := .refl
      refine ⟨job, world, rfl, (lasts_of_create reached clock (new_start t₀) create rfl).1, ?_⟩
      unfold created after Site.after
      rw [act_of_createJob create]
      rfl

/-- An operation goes well, and a job keeps its instant. -/
def Fits (at_ : Instant) (id : Identifier) (op : Operation) (x : Shift) : Prop :=
  ((op.act (.inMemory {} {} 3 .obliging)).on x.world).1 = .ok [] ∧ (x.after op).Regular at_ id

instance : Decidable (x.Fits at_ id op) := inferInstanceAs (Decidable (_ ∧ _))

theorem Lasts.after (h : Lasts {} {} 3 at_ id x x') (fits : x'.Fits at_ id op) (may : x'.May op) :
    Lasts {} {} 3 at_ id x (x'.after op) :=
  h.tail ⟨.succeed may (Prod.ext fits.1 rfl), fits.2⟩

theorem Lasts.atTime (h : Lasts {} {} 3 at_ id x x') {now : Instant}
    (fits : x'.world.now ≤ now ∧ (x'.atTime now).Regular at_ id) : Lasts {} {} 3 at_ id x (x'.atTime now) :=
  h.tail ⟨.tick fits.1, fits.2⟩

theorem Lasts.claimed (h : Lasts {} {} 3 at_ id x x')
    (fits : ((claimDue {} x'.world.now x'.world.queue.entries.size).on x'.world.queue).1.isOk = true ∧
      x'.claimed.Regular at_ id) : Lasts {} {} 3 at_ id x x'.claimed :=
  h.tail ⟨step_claimed fits.1, fits.2⟩

/-- What was handed out last is finished. -/
def finished (x : Shift) : Shift := x.after (.finish (x.handed.getLast?.getD default))

/-- The first job is enabled or disabled. -/
def switched (enabled : Bool) (x : Shift) : Shift := x.after (.update "e" (.generated 1) { enabled := some enabled })

/-- What is due at some time is claimed and finished, and the first job is disabled and enabled again. -/
def around (now : Instant) (x : Shift) : Shift := (((x.atTime now).claimed.finished.switched false).switched true)

theorem Lasts.around (h : Lasts {} {} 3 at_ (.generated 1) x x') (now : Instant)
    (late : x'.world.now ≤ now ∧ (x'.atTime now).Regular at_ (.generated 1))
    (claims : ((claimDue {} now x'.world.queue.entries.size).on x'.world.queue).1.isOk = true ∧
      (x'.atTime now).claimed.Regular at_ (.generated 1))
    (finishes : (x'.atTime now).claimed.Fits at_ (.generated 1)
      (.finish ((x'.atTime now).claimed.handed.getLast?.getD default)))
    (disables : (x'.atTime now).claimed.finished.Fits at_ (.generated 1)
      (.update "e" (.generated 1) { enabled := some false }))
    (enables : ((x'.atTime now).claimed.finished.switched false).Fits at_ (.generated 1)
      (.update "e" (.generated 1) { enabled := some true })) :
    Lasts {} {} 3 at_ (.generated 1) x (x'.around now) :=
  ((((h.atTime late).claimed claims).after finishes trivial).after disables trivial).after enables trivial

end Shift

open Shift

/-- A job is handed out when its instant comes, and when it is disabled and enabled afterwards it is not handed out
again. One whose instant was past is never handed out. -/
theorem onTime_job_handed_out_once_at_its_instant :
    (∃ x : Shift, x = ((created (.ofMillis 0) (.ofMillis 1000)).around (.ofMillis 1000)).around (.ofMillis 2000) ∧
      0 < (x.handedOf (.generated 1)).length ∧ (x.handedOf (.generated 1)).length ≤ 1) ∧
    ∃ x : Shift, x = (created (.ofMillis 1000) (.ofMillis 1000)).around (.ofMillis 2000) ∧
      x.world.jobs.contains (.generated 1) = true ∧ x.handedOf (.generated 1) = [] ∧
      (∀ e ∈ x.world.queue.entries.values, e.key ≠ (Identifier.generated 1).text) ∧
      ∀ y ∈ x.world.history, y.jobId ≠ .generated 1 := by
  constructor
  · obtain ⟨job, world, create, own, same⟩ := create_start (.ofMillis 0) (.ofMillis 1000)
      (by decide +kernel) (by decide +kernel)
    have start : Lasts {} {} 3 (.ofMillis 1000) (.generated 1) (created (.ofMillis 0) (.ofMillis 1000))
        (created (.ofMillis 0) (.ofMillis 1000)) := .refl
    have first := start.around (.ofMillis 1000) (by decide +kernel) (by decide +kernel) (by decide +kernel)
      (by decide +kernel) (by decide +kernel)
    have lasts := first.around (.ofMillis 2000) (by decide +kernel) (by decide +kernel) (by decide +kernel)
      (by decide +kernel) (by decide +kernel)
    refine ⟨_, rfl, by decide +kernel, ?_⟩
    rw [← own] at lasts ⊢
    generalize ((created (.ofMillis 0) (.ofMillis 1000)).around (.ofMillis 1000)).around (.ofMillis 2000) = x at lasts ⊢
    rw [same] at lasts
    exact (onTime_job_handed_out_once .refl (by decide +kernel) (new_start _) create rfl (by decide +kernel) lasts).1
      (by decide +kernel)
  · obtain ⟨job, world, create, own, same⟩ := create_start (.ofMillis 1000) (.ofMillis 1000)
      (by decide +kernel) (by decide +kernel)
    have start : Lasts {} {} 3 (.ofMillis 1000) (.generated 1) (created (.ofMillis 1000) (.ofMillis 1000))
        (created (.ofMillis 1000) (.ofMillis 1000)) := .refl
    have lasts := start.around (.ofMillis 2000) (by decide +kernel) (by decide +kernel) (by decide +kernel)
      (by decide +kernel) (by decide +kernel)
    refine ⟨_, rfl, by decide +kernel, ?_⟩
    rw [← own] at lasts ⊢
    generalize (created (.ofMillis 1000) (.ofMillis 1000)).around (.ofMillis 2000) = x at lasts ⊢
    rw [same] at lasts
    exact (onTime_job_handed_out_once .refl (by decide +kernel) (new_start _) create rfl (by decide +kernel) lasts).2
      (by decide +kernel)

/-- An instant in a leap second: the last of the first minute of the second day. -/
def leapInstant : Instant := ⟨86459, 1500000000, by decide⟩

/-- A job whose instant lies in a leap second is handed out twice: looked at from a later time of day the instant counts
as a second earlier, and once it is enabled again at that time it lies a second ahead. -/
theorem onTime_job_handed_out_twice_in_leap_second :
    Shift.Reached {} {} 3 ⟨3600, 0⟩ (start ⟨3600, 0⟩) ∧ (start ⟨3600, 0⟩).world.now.Storable ∧
      (start ⟨3600, 0⟩).New (start ⟨3600, 0⟩).site.nextId ∧ leapInstant.EndsMinute ∧
      ∃ job world x, ((Engine.inMemory {} {} 3 .obliging).createJob "e"
          { everyFiveMinutes with schedule := .onTime leapInstant }).on (start ⟨3600, 0⟩).world = (.ok job, world) ∧
        Shift.Lasts {} {} 3 leapInstant job.id ⟨⟨world, []⟩, []⟩ x ∧ (x.handedOf job.id).length = 2 := by
  obtain ⟨job, world, create, own, same⟩ := create_start ⟨3600, 0⟩ leapInstant
    (by decide +kernel) (by decide +kernel)
  have start : Lasts {} {} 3 leapInstant (.generated 1) (created ⟨3600, 0⟩ leapInstant)
      (created ⟨3600, 0⟩ leapInstant) := .refl
  have first := start.around (.ofMillis 86459500) (by decide +kernel) (by decide +kernel) (by decide +kernel)
    (by decide +kernel) (by decide +kernel)
  have lasts := first.around (.ofMillis 86460500) (by decide +kernel) (by decide +kernel) (by decide +kernel)
    (by decide +kernel) (by decide +kernel)
  refine ⟨.refl, by decide +kernel, new_start _, by decide +kernel, job, world,
    ((created ⟨3600, 0⟩ leapInstant).around (.ofMillis 86459500)).around (.ofMillis 86460500), create, ?_, ?_⟩
  · rw [own, ← same]
    exact lasts
  · rw [own]
    decide +kernel

end Timetable
