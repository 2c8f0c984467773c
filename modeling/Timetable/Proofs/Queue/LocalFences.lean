import Timetable.Proofs.Queue.Fences
import Timetable.Proofs.Queue.Turns

/-!
# The fence of the queue in memory

In the queue in memory a claim shows its time, and its lease ends later. An operation leaves a claim and its lease as
they are, takes the claim out, or starts a lease, and only for a claim that was held already or shows the time of the
operation (`LocalQueue.Awards`). So the queue fences off whoever shows an earlier time (`LocalQueue.fence`).
-/

namespace Timetable

namespace Instant

/-- Time passes, also within leap seconds. -/
theorem lt_plus {t : Instant} {span : Int} (h : 0 < span) : t < t.plus span := by
  obtain ⟨s, n⟩ := t
  have := n.isLt
  simp only [plus]
  split_ifs with hleap hwithin
  · -- still within the leap second
    simp only [InLeapSecond, nanos, nanosPerSecond, lt_iff, Fin.lt_def, val_nanosInto, true_and] at *
    omega
  all_goals
    simp only [InLeapSecond, nanos, ofNanos, nanosPerSecond, lt_iff, Fin.lt_def, val_nanosInto] at *
    omega

end Instant

namespace LocalQueue

variable {rules : ClaimRules} {now t : Instant} {q q' q'' : LocalQueue} {d e : StoredEntry} {limit : Nat}

/-- Some entry is claimed, and its lease is over. -/
def Overdue (e : StoredEntry) (now : Instant) (q : LocalQueue) : Prop :=
  ∃ expiry, q.active.get? e.id = some expiry ∧ expiry ≤ now

/-- A lease ends after it started. -/
theorem lt_leaseEnd {expiry : Instant} (lease : 0 < rules.lease) (inTime : now.add? rules.lease = some expiry) :
    now < expiry :=
  (Instant.add?_eq_some_iff.mp inTime).1 ▸ Instant.lt_plus lease

/-- Claims show identifier and time. -/
def signs : ClaimSigns LocalQueue where
  same := SameClaim
  held e q := q.Held e
  late := Overdue

/-- How a claim comes to be held after a step: it was, with the same lease, or its lease starts now. -/
def Awards (rules : ClaimRules) (now : Instant) (e : StoredEntry) (q q' : LocalQueue) : Prop :=
  q'.Held e → q.Held e ∧ q'.active.get? e.id = q.active.get? e.id ∨
    (q.Held e ∨ e.processedOn = some now) ∧
      ∃ expiry, now.add? rules.lease = some expiry ∧ q'.active.get? e.id = some expiry

namespace Awards

theorem refl (q : LocalQueue) : Awards rules now e q q := fun held => .inl ⟨held, rfl⟩

theorem trans (h : Awards rules now e q q') (h' : Awards rules now e q' q'') : Awards rules now e q q'' := by
  intro held
  rcases h' held with ⟨before, same⟩ | ⟨before | now_, lease⟩
  · rw [same]
    exact h before
  · exact .inr ⟨(h before).elim (fun was => .inl was.1) fun won => won.1, lease⟩
  · exact .inr ⟨.inr now_, lease⟩

/-- A step that starts no claim. -/
theorem of_still (stamped : e.processedOn = some t)
    (active : q'.active.contains e.id = true → q'.active.get? e.id = q.active.get? e.id)
    (entry : ∀ stored, q'.entries.get? e.id = some stored → stored.processedOn = some t →
      q.entries.get? e.id = some stored) : Awards rules now e q q' := by
  rintro ⟨held, stored, at_, time⟩
  have same := active held
  refine .inl ⟨⟨?_, stored, entry stored at_ (time.trans stamped), time⟩, same⟩
  rw [Table.contains, ← same]
  exact held

theorem of_records (repeats : Table String RepeatRecord) : Awards rules now e q { q with repeats } :=
  fun held => .inl ⟨held, rfl⟩

theorem eraseEntry (stamped : e.processedOn = some t) (id : String) : Awards rules now e q (q.eraseEntry id) := by
  refine .of_still stamped (fun _ => rfl) fun stored at_ _ => ?_
  simp only [LocalQueue.eraseEntry, Table.get?_erase, Option.ite_none_left_eq_some] at at_
  exact at_.2

theorem insertIfAbsent (stamped : e.processedOn = some t) (new : d.processedOn = none) :
    Awards rules now e q (q.insertIfAbsent d) := by
  refine .of_still stamped (fun _ => rfl) fun stored at_ time => ?_
  rcases insertIfAbsent_entries_eq_some.mp at_ with at_ | ⟨_, _, rfl⟩
  · exact at_
  · rw [new] at time
    cases time

theorem putRecord (stamped : e.processedOn = some t) (r : RepeatRecord) : Awards rules now e q (q.putRecord r) := by
  refine .of_still stamped (fun _ => by rw [putRecord_active]) fun stored at_ time => ?_
  rcases putRecord_entries_eq_some.mp at_ with at_ | ⟨_, _, _, _, rfl⟩
  · exact at_
  · cases time

theorem recover (stamped : e.processedOn = some t) : Awards rules now e q (q.recover now) := by
  refine .of_still stamped (fun held => ?_) fun stored at_ _ => at_
  obtain ⟨expiry, held⟩ := Table.contains_iff.mp held
  have before := held
  rw [LocalQueue.recover, Table.get?_filter, Option.filter_eq_some_iff] at before
  rw [held, before.1]

/-- Whoever claims an entry now shows this time. -/
theorem holdEntry {expiry : Instant} (inTime : now.add? rules.lease = some expiry) :
    Awards rules now e q (q.holdEntry { d with processedOn := some now } expiry) := by
  rintro ⟨held, stored, at_, time⟩
  by_cases same : d.id = e.id
  · simp only [LocalQueue.holdEntry, Table.get?_set, same, if_true, Option.some.injEq] at at_
    subst at_
    exact .inr ⟨.inr time.symm, expiry, inTime, by simp [LocalQueue.holdEntry, same]⟩
  · simp only [LocalQueue.holdEntry, Table.get?_set, Table.contains_set, same, if_false, decide_false, Bool.false_or]
      at held at_ ⊢
    exact .inl ⟨⟨held, stored, at_, time⟩, trivial⟩

theorem renewed {expiry : Instant} (claimed : q.active.contains d.id = true)
    (inTime : now.add? rules.lease = some expiry) :
    Awards rules now e q { q with active := q.active.set d.id expiry } := by
  rintro ⟨held, stored⟩
  by_cases same : d.id = e.id
  · exact .inr ⟨.inl ⟨same ▸ claimed, stored⟩, expiry, inTime, by simp [same]⟩
  · simp only [Table.contains_set, same, decide_false, Bool.false_or] at held
    exact .inl ⟨⟨held, stored⟩, by simp [same]⟩

theorem finished (stamped : e.processedOn = some t) (id : String) :
    Awards rules now e q { q with active := q.active.erase id, entries := q.entries.erase id } := by
  refine .of_still stamped (fun held => ?_) fun stored at_ _ => ?_
  · simp only [Table.contains_erase, Bool.and_eq_true, Bool.not_eq_true', decide_eq_false_iff_not] at held
    simp [held.1]
  · simp only [Table.get?_erase, Option.ite_none_left_eq_some] at at_
    exact at_.2

end Awards

theorem Dropped.awards (h : Dropped q q') (stamped : e.processedOn = some t) : Awards rules now e q q' := by
  cases h with
  | records repeats => exact .of_records repeats
  | entry repeats _ => exact .trans (.of_records repeats) (.eraseEntry stamped _)

/-! ## Operations -/

theorem claimEntry_awards (stamped : e.processedOn = some t) :
    (claimEntry rules now d).Ends q (fun _ => Awards rules now e q) fun _ => Awards rules now e q := by
  have erased : Awards rules now e q (q.eraseEntry d.id) := .eraseEntry stamped d.id
  refine claimEntry_leaves erased ?_ ?_ ?_
  · exact fun _ next _ _ _ => erased.trans (.putRecord stamped next)
  · exact fun _ _ => erased.trans (.of_records _)
  · exact fun p expiry before inTime => before.trans (.holdEntry inTime)

/-- What a claim does once late claims are given up. -/
theorem claimDue_awards (tidy : q.Tidy) (stamped : e.processedOn = some t) (limit : Nat) :
    Awards rules now e (q.recover now) ((claimDue rules now limit).on q).2 := by
  have recovered : (q.recover now).Tidy := tidy.recover.1
  have turn {p : LocalQueue} {d : StoredEntry} (before : Awards rules now e (q.recover now) p) :
      (claimEntry rules now d).Ends p (fun out p' => Awards rules now e (q.recover now) p' ∧ ∀ c, out = some c → True)
        fun _ p' => Awards rules now e (q.recover now) p' :=
    (claimEntry_awards stamped).mono (fun _ _ after => ⟨before.trans after, fun _ _ => trivial⟩) fun _ _ => before.trans
  rw [claimDue_on]
  refine (Act.ends_iff_forall (P := Awards rules now e (q.recover now))).mp ?_
  exact (claimEach_ends (fun before _ _ _ _ => turn before) limit recovered recovered.takeable_due (.refl _)).mono
    (fun _ _ h => h.1) fun _ _ h => h

/-- Nobody comes to hold a claim but by claiming an entry now, and no lease starts but now. -/
theorem ask_awards (tidy : q.Tidy) (stamped : e.processedOn = some t) (request : QueueRequest) :
    Awards rules now e q (((workQueue rules).ask now request).on q).2 := by
  cases request with
  | addRepeating key spec payload =>
    show Awards rules now e q ((addRepeating now key spec payload).on q).2
    rw [addRepeating_on]
    cases q.repeats.get? (repeatField key spec) with
    | some old => exact .putRecord stamped _
    | none =>
      cases RepeatRecord.create key spec payload now with
      | ok r => exact .putRecord stamped r
      | error failure => exact .refl q
  | addDelayed key delay payload =>
    show Awards rules now e q ((addDelayed now key delay payload).on q).2
    unfold addDelayed
    cases now.addMillis? (signedWord delay) with
    | none => exact .refl q
    | some fireAt => exact .insertIfAbsent stamped rfl
  | removeRepeating key spec =>
    have dropped : Dropped q ((removeRepeating key spec).on q).2 := removeRepeating_dropped
    exact dropped.awards stamped
  | removeDelayed key =>
    have dropped : Dropped q ((removeDelayed key).on q).2 := removeDelayed_dropped
    exact dropped.awards stamped
  | claimDue limit =>
    have recovered : Awards rules now e q (q.recover now) := .recover stamped
    exact recovered.trans (claimDue_awards tidy stamped limit)
  | renewLease f =>
    show Awards rules now e q ((renewLease rules f now).on q).2
    rw [renewLease_on]
    split
    · next held =>
      cases inTime : now.add? rules.lease with
      | none => exact .refl q
      | some expiry => exact .renewed (holdsClaim_iff.mp held).1 inTime
    · exact .refl q
  | recoverStalled => exact .recover stamped
  | finish f =>
    show Awards rules now e q ((finish f).on q).2
    rw [finish_on]
    split
    · exact .finished stamped f.id
    · exact .refl q
  | _ => exact .refl q

/-! ## The fence -/

theorem Steady.held (h : Steady e.id q q') (held : q.Held e) : q'.Held e := by
  obtain ⟨claimed, stored, at_, time⟩ := held
  refine ⟨?_, stored, (h.entry (Table.contains_iff.mpr ⟨stored, at_⟩)).trans at_, time⟩
  rwa [Table.contains, h.lease]

/-- A claim is held until it is finished, or given up when its lease is over. -/
theorem ask_held (tidy : q.Tidy) (held : q.Held e) (request : QueueRequest)
    (unfinished : ∀ f, SameClaim e f → request ≠ .finish f) (running : request.GivesUp → ¬ Overdue e now q) :
    (((workQueue rules).ask now request).on q).2.Held e := by
  have live (running : ¬ Overdue e now q) : q.Live now e.id := by
    obtain ⟨expiry, lease⟩ := Table.contains_iff.mp held.1
    exact ⟨tidy.held held.1, expiry, lease, fun passed => running ⟨expiry, lease, passed⟩⟩
  cases request with
  | addRepeating key spec payload => exact addRepeating_steady.held held
  | addDelayed key delay payload => exact addDelayed_steady.held held
  | removeRepeating key spec => exact (removeRepeating_dropped.steady held.1).held held
  | removeDelayed key => exact (removeDelayed_dropped.steady held.1).held held
  | claimDue limit =>
    have live := live (running trivial)
    have steady : Steady e.id q ((claimDue rules now limit).on q).2 := (Act.ends_iff_forall (P := Steady e.id q)).mp
      ((claimDue_steady tidy.ownId limit).mono (fun _ _ h => h.2.1 _ live) fun _ _ h => h.2 _ live)
    exact steady.held held
  | recoverStalled => exact (recover_steady (live (running trivial))).held held
  | renewLease f =>
    show ((renewLease rules f now).on q).2.Held e
    rw [renewLease_on]
    split
    · cases now.add? rules.lease with
      | none => exact held
      | some expiry => exact held.imp_left fun claimed => by simp [claimed]
    · exact held
  | finish f =>
    show ((finish f).on q).2.Held e
    rw [finish_on]
    split
    · next holds =>
      obtain ⟨_, stored, at_, time⟩ := holdsClaim_iff.mp holds
      obtain ⟨claimed, stored', at', time'⟩ := held
      have ne : f.id ≠ e.id := fun same => by
        rw [same, at'] at at_
        obtain rfl := Option.some.inj at_
        exact unfinished f ⟨same, time.symm.trans time'⟩ rfl
      exact ⟨by simp [ne, claimed], stored', by simp [ne, at'], time'⟩
    · exact held
  | _ => exact held

theorem fence (lease : 0 < rules.lease) (clock : Instant → Prop) :
    WorkQueue.Fence (workQueue rules) clock Tidy signs (fun u t => t < u) where
  step request tidy := (ask_tidy tidy request).1
  claim {now s limit out s' e} tidy _ on mem := by
    obtain ⟨_, _, _, claimed⟩ := (Act.ends_of_on_ok on).mp (claimDue_steady tidy.ownId limit)
    obtain ⟨time, entry, expiry, inTime, ends⟩ := (claimed e mem).1
    refine ⟨time, ⟨Table.contains_iff.mpr ⟨expiry, ends⟩, e, entry, rfl⟩, ?_⟩
    rintro u ⟨expiry', ends', passed⟩
    obtain rfl : expiry = expiry' := Option.some.inj (ends.symm.trans ends')
    exact lt_of_lt_of_le (lt_leaseEnd lease inTime) passed
  keep request tidy held unfinished running := ask_held tidy held request unfinished running
  lease {now s e t} request tidy _ stamped held u late := by
    obtain ⟨expiry, ends, passed⟩ := late
    rcases ask_awards tidy stamped request held with ⟨before, same⟩ | ⟨_, expiry', inTime, ends'⟩
    · exact .inr ⟨before, expiry, same ▸ ends, passed⟩
    · obtain rfl : expiry = expiry' := Option.some.inj (ends.symm.trans ends')
      exact .inl (lt_of_lt_of_le (lt_leaseEnd lease inTime) passed)
  won {now s e t} request tidy stamped later held := by
    rcases ask_awards tidy stamped request held with ⟨before, _⟩ | ⟨before | now_, _⟩
    · exact before
    · exact before
    · rw [stamped, Option.some.injEq] at now_
      exact absurd later (now_ ▸ lt_irrefl t)
  release {now s e t request answer s'} tidy stamped later gives late on held := by
    -- the claim is out once late claims are given up, and what is claimed after that shows a later time
    have recovered : ¬ (s.recover now).Held e := by
      obtain ⟨expiry, ends, passed⟩ := late
      rintro ⟨claimed, _⟩
      rw [recover, Table.contains, Table.get?_filter, ends] at claimed
      simp [Option.filter, passed] at claimed
    obtain rfl : (((workQueue rules).ask now request).on s).2 = s' := congrArg Prod.snd on
    cases request with
    | recoverStalled => exact recovered held
    | claimDue limit =>
      rcases claimDue_awards tidy stamped limit held with ⟨before, _⟩ | ⟨before | now_, _⟩
      · exact recovered before
      · exact recovered before
      · rw [stamped, Option.some.injEq] at now_
        exact absurd later (now_ ▸ lt_irrefl t)
    | _ => exact gives
  mono _ _ later le := lt_of_lt_of_le later le
  trans _ le later := lt_of_le_of_lt le later

/-! ## Who is heard -/

/-- A call with an entry renews its lease, and finishing with it takes the entry, its mark and its lease out. -/
structure Heard (rules : ClaimRules) (e : StoredEntry) (q : LocalQueue) : Prop where
  renew : ∀ now expiry, now.add? rules.lease = some expiry →
    (renewLease rules e now).on q = (.ok true, { q with active := q.active.set e.id expiry })
  finish : (finish e).on q = (.ok (), { q with active := q.active.erase e.id, entries := q.entries.erase e.id })

/-- Calls with an entry change nothing, and its lease is not renewed. -/
structure Ignored (rules : ClaimRules) (e : StoredEntry) (q : LocalQueue) : Prop where
  renew : ∀ now, (renewLease rules e now).on q = (.ok false, q)
  finish : (finish e).on q = (.ok (), q)

/-- The queue in memory fences off whoever shows a claim that was given up. -/
theorem fences (lease : 0 < rules.lease) (clock : Instant → Prop) :
    WorkQueue.Fences (workQueue rules) clock {} signs (Heard rules) (Ignored rules) := by
  refine .of_fence (fence lease clock) .empty (fun {e _ q} _ _ held => ?_) fun {e _ q} _ _ lost => ?_
  · have holds : q.holdsClaim e = true := holdsClaim_iff.mpr held
    exact ⟨fun now expiry inTime => by rw [renewLease_on, if_pos holds, inTime], by rw [finish_on, if_pos holds]⟩
  · have stale : ¬ q.holdsClaim e = true := mt holdsClaim_iff.mp lost
    exact ⟨fun now => by rw [renewLease_on, if_neg stale], by rw [finish_on, if_neg stale]⟩

end LocalQueue

end Timetable
