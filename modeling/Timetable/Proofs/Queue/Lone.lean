import Timetable.Proofs.Queue.Apart

/-!
# The chain of a key that nothing else uses

A key is used for one repetition and nothing else. Then the queue holds one record of it, the fire that the record waits
for, and earlier fires that were claimed (`LocalQueue.Lone`). Requests of other keys keep that (`LocalQueue.Lone.ask`).

A claim before the fire hands out nothing of the key, since earlier fires are left behind (`LocalQueue.Lone.claimDue_apart`).
From the fire on, and with no other fire of the key at work, it hands out that fire and nothing else of the key, and the
record moves on (`LocalQueue.Lone.claimDue_current`).
-/

namespace Timetable

namespace QueueRequest

/-- Whether a request adds and removes nothing under a key. -/
def Foreign (key : String) : QueueRequest → Prop
  | addRepeating key' _ _ | addDelayed key' _ _ | removeRepeating key' _ | removeDelayed key' => key' ≠ key
  | _ => True

/-- Whether a request removes the record of a field. -/
def Removes (field : String) : QueueRequest → Prop
  | removeRepeating key spec => repeatField key spec = field
  | _ => False

instance (key : String) (request : QueueRequest) : Decidable (request.Foreign key) := by
  cases request <;> unfold Foreign <;> infer_instance

instance (field : String) (request : QueueRequest) : Decidable (request.Removes field) := by
  cases request <;> unfold Removes <;> infer_instance

end QueueRequest

namespace LocalQueue

variable {rules : ClaimRules} {now : Instant} {q q' : LocalQueue} {key id : String} {spec : RepeatSpec}
  {stage : Option (Option Instant)} {u : Instant} {next : Option Instant} {W W' : StoredEntry → Prop}
  {e c : StoredEntry} {limit : Nat}

/-- What a queue holds of a key with one repetition. The stage is what its record waits for, if it has been added, and `W`
says which of its fires may be at work. -/
structure Lone (key : String) (spec : RepeatSpec) (stage : Option (Option Instant)) (W : StoredEntry → Prop)
    (q : LocalQueue) : Prop where
  tidy : q.Tidy
  record : ∀ f, q.ownRecord key f = if repeatField key spec = f then stage.map fun next => (spec, next) else none
  /-- A fire that was never claimed is the one that the record waits for; the others are earlier. -/
  entry : ∀ {id e}, q.ownEntry key id = some e → e.repeats = some spec ∧ ∃ next, stage = some next ∧
    (e.processedOn = none → next = some e.fireAt) ∧ (e.processedOn.isSome → ∀ t, next = some t → e.fireAt < t)
  current : ∀ {t}, stage = some (some t) →
    ∃ e, q.ownEntry key (instanceId key spec t) = some e ∧ e.fireAt = t ∧ e.processedOn = none
  held : ∀ {id e}, q.ownEntry key id = some e → q.active.contains id = true → e.processedOn.isSome ∧ W e

namespace Lone

theorem empty : Lone key spec none W {} where
  tidy := .empty
  record f := by simp [ownRecord]
  entry own := by simp [ownEntry] at own
  current none := by cases none
  held own := by simp [ownEntry] at own

theorem mono (h : Lone key spec stage W q) (sub : ∀ e, W e → W' e) : Lone key spec stage W' q :=
  ⟨h.tidy, h.record, h.entry, h.current, fun own held => (h.held own held).imp_right (sub _)⟩

theorem spared (h : Lone key spec stage W q) (spares : Spares key q q') (tidy : q'.Tidy) : Lone key spec stage W q' where
  tidy := tidy
  record f := (spares.record f).trans (h.record f)
  entry own := h.entry ((spares.entry _).symm.trans own)
  current waits := by
    obtain ⟨e, own, fires⟩ := h.current waits
    exact ⟨e, (spares.entry _).trans own, fires⟩
  held own held := by
    have before := (spares.entry _).symm.trans own
    exact h.held before (spares.active before held)

theorem recover (h : Lone key spec stage W q) (now : Instant) : Lone key spec stage W (q.recover now) :=
  h.spared (.recover now q) h.tidy.recover.1

/-- Whether there is a record of the key is whether its repetition has been added. -/
theorem record_iff (h : Lone key spec stage W q) {f : String} {r : RepeatRecord} (hr : q.repeats.get? f = some r)
    (own : r.key = key) : f = repeatField key spec ∧ r.spec = spec ∧ stage = some r.next := by
  have found := h.record f
  rw [ownRecord_eq_some.mpr ⟨r, hr, own, rfl, rfl⟩] at found
  split at found
  · next same =>
    obtain ⟨next, waits, pair⟩ := Option.map_eq_some_iff.mp found.symm
    cases pair
    exact ⟨same.symm, rfl, waits⟩
  · cases found

/-- The identifier of a fire. -/
theorem id_eq (h : Lone key spec stage W q) (own : q.ownEntry key id = some e) :
    e.id = id ∧ id = instanceId key spec e.fireAt ∧ e.fireAt.Whole := by
  obtain ⟨stored, rfl⟩ := ownEntry_eq_some.mp own
  obtain ⟨repeats, -⟩ := h.entry own
  obtain ⟨-, named, whole⟩ := h.tidy.fire stored repeats
  have own := h.tidy.ownId _ _ stored
  exact ⟨own, own.symm.trans named, whole⟩

/-- The fire that the record waits for was never claimed, and earlier ones were. -/
theorem fire (h : Lone key spec (some (some u)) W q) (own : q.ownEntry key id = some e) :
    e.repeats = some spec ∧ (e.processedOn = none → e.fireAt = u) ∧ (e.processedOn.isSome → e.fireAt < u) := by
  obtain ⟨repeats, _, waits, fresh, claimed⟩ := h.entry own
  cases waits
  exact ⟨repeats, fun is => (Option.some.inj (fresh is)).symm, fun is => claimed is u rfl⟩

/-- What the record does not wait for was claimed. -/
theorem claimed_of_ne (h : Lone key spec (some next) W q) (own : q.ownEntry key id = some e) (other : next ≠ some e.fireAt) :
    e.processedOn.isSome := by
  obtain ⟨-, _, waits, fresh, -⟩ := h.entry own
  cases waits
  by_contra unclaimed
  exact other (fresh (Option.not_isSome_iff_eq_none.mp unclaimed))

/-- With no fire at work, the key is not. -/
theorem keyIsActive_eq_false (h : Lone key spec stage (fun _ => False) q) : q.keyIsActive key = false :=
  Bool.eq_false_iff.mpr fun busy => by
    obtain ⟨id, f, active, there, own⟩ := keyIsActive_iff.mp busy
    exact (h.held (ownEntry_eq_some.mpr ⟨there, own⟩) active).2

/-- A claimed fire can be taken out once its claim is given up. -/
theorem eraseClaimed (h : Lone key spec stage W q) (free : q.active.contains id = false)
    (claimed : ∀ e, q.ownEntry key id = some e → e.processedOn.isSome) : Lone key spec stage W (q.eraseEntry id) where
  tidy := h.tidy.eraseEntry free
  record := h.record
  entry own := h.entry (before own)
  current {t} waits := by
    obtain ⟨e, own, fires, fresh⟩ := h.current waits
    refine ⟨e, ?_, fires, fresh⟩
    have ne : id ≠ instanceId key spec t := by
      rintro rfl
      simpa [fresh] using claimed e own
    simpa [ownEntry, eraseEntry, ne] using own
  held own := h.held (before own)
where
  before {id' e} (own : (q.eraseEntry id).ownEntry key id' = some e) : q.ownEntry key id' = some e := by
    simp only [ownEntry_eq_some, eraseEntry, Table.get?_erase, Option.ite_none_left_eq_some] at own ⊢
    exact ⟨own.1.2, own.2⟩

theorem finish (h : Lone key spec stage W q) (e : StoredEntry) :
    Lone key spec stage (fun e' => W e' ∧ e' ≠ e) ((LocalQueue.finish e).on q).2 := by
  rw [finish_on]
  dsimp only
  split
  · next held =>
    obtain ⟨held, -⟩ := holdsClaim_iff.mp held
    have released : Lone key spec stage W { q with active := q.active.erase e.id } :=
      h.spared (.withActive fun id held => by simp_all) (h.tidy.withActive fun id held => by simp_all)
    have gone : Lone key spec stage W (LocalQueue.eraseEntry { q with active := q.active.erase e.id } e.id) :=
      released.eraseClaimed (by simp) fun e' own => (h.held own held).1
    refine { gone with held := ?_ }
    intro id e' own held'
    obtain ⟨stored, rfl⟩ := ownEntry_eq_some.mp own
    simp only [Table.get?_erase, Option.ite_none_left_eq_some] at stored
    obtain ⟨ne, stored⟩ := stored
    simp only [Table.contains_erase, ne, decide_false, Bool.not_false, Bool.true_and] at held'
    obtain ⟨claimed, works⟩ := h.held (ownEntry_eq_some.mpr ⟨stored, rfl⟩) held'
    refine ⟨claimed, works, ?_⟩
    rintro rfl
    exact ne (h.tidy.ownId _ _ stored)
  · next lost =>
    refine { h with held := fun {id e'} own held => ?_ }
    obtain ⟨claimed, works⟩ := h.held own held
    refine ⟨claimed, works, ?_⟩
    rintro rfl
    obtain ⟨rfl, -⟩ := h.id_eq own
    exact lost (holdsClaim_iff.mpr ⟨held, e', (ownEntry_eq_some.mp own).1, rfl⟩)

/-! ## Moving on -/

/-- A record that waits for its next fire is put in where all fires of its key are earlier and claimed. -/
theorem putRecord (tidy : q.Tidy) (usable : spec.Usable)
    (record : ∀ f, repeatField key spec ≠ f → q.ownRecord key f = none)
    (earlier : ∀ {id e}, q.ownEntry key id = some e →
      e.repeats = some spec ∧ e.processedOn.isSome ∧ ∀ t, next = some t → e.fireAt < t)
    (held : ∀ {id e}, q.ownEntry key id = some e → q.active.contains id = true → W e)
    (fires : spec.nextAfter now = .ok next) (payload : Json) :
    Lone key spec (some next) W (q.putRecord ⟨key, spec, payload, next⟩) := by
  have whole (t : Instant) (waits : next = some t) : t.Whole := (RepeatSpec.nextAfter_firable (waits ▸ fires)).whole
  -- the next fire is later than all that are stored
  have absent (t : Instant) (waits : next = some t) : q.entries.get? (instanceId key spec t) = none :=
    Option.eq_none_iff_forall_ne_some.mpr fun e stored => by
      have own := tidy.key_of_instanceId usable.colonless stored
      obtain ⟨repeats, -, before⟩ := earlier (ownEntry_eq_some.mpr ⟨stored, own⟩)
      obtain ⟨-, named, whole'⟩ := tidy.fire stored repeats
      obtain ⟨-, -, millis⟩ := instanceId_inj usable.colonless usable.colonless
        (named.symm.trans (tidy.ownId _ _ stored))
      exact (before t waits).ne (Instant.eq_of_millis_eq whole' (whole t waits) millis)
  have found {id : String} {e : StoredEntry} (own : (q.putRecord ⟨key, spec, payload, next⟩).ownEntry key id = some e) :
      q.ownEntry key id = some e ∨
        q.entries.get? id = none ∧ ∃ t, next = some t ∧ e = .ofFire key spec t payload := by
    obtain ⟨stored, own⟩ := ownEntry_eq_some.mp own
    rcases putRecord_entries_eq_some.mp stored with before | ⟨absent, t, waits, -, rfl⟩
    · exact .inl (ownEntry_eq_some.mpr ⟨before, own⟩)
    · exact .inr ⟨absent, t, waits, rfl⟩
  refine ⟨tidy.putFound fires, fun f => ?_, fun {id e} own => ?_, fun {t} waits => ?_, ?_⟩
  · rw [ownRecord, putRecord_repeats]
    change Option.map _ (Option.filter _ (if repeatField key spec = f then _ else _)) = _
    split
    · simp [Option.filter_some]
    · next other => exact record f other
  · rcases found own with before | ⟨-, t, waits, rfl⟩
    · obtain ⟨repeats, claimed, before⟩ := earlier before
      exact ⟨repeats, next, rfl, fun fresh => by simp [fresh] at claimed, fun _ => before⟩
    · exact ⟨rfl, next, rfl, fun _ => waits, fun claimed => by cases claimed⟩
  · cases waits
    exact ⟨.ofFire key spec t payload,
      ownEntry_eq_some.mpr ⟨putRecord_entries_eq_some.mpr (.inr ⟨absent t rfl, t, rfl, rfl, rfl⟩), rfl⟩, rfl, rfl⟩
  · intro id e own active
    rw [putRecord_active] at active
    rcases found own with before | ⟨absent, -⟩
    · exact ⟨(earlier before).2.1, held before active⟩
    · exact absurd (tidy.held active) (by simp [Table.contains_eq_false_iff.mpr absent])

/-- The fire that the record waits for is taken out, and the record moves on. -/
theorem moveOn (h : Lone key spec (some (some u)) W q) (usable : spec.Usable)
    (own : q.ownEntry key e.id = some e) (current : e.fireAt = u) (free : q.active.contains e.id = false)
    (fires : spec.nextAfter now = .ok next) (later : ∀ t, next = some t → u < t) (payload : Json) :
    Lone key spec (some next) W ((q.eraseEntry e.id).putRecord ⟨key, spec, payload, next⟩) := by
  have before {id : String} {e' : StoredEntry} (own' : (q.eraseEntry e.id).ownEntry key id = some e') :
      e.id ≠ id ∧ q.ownEntry key id = some e' := by
    simp only [ownEntry_eq_some, eraseEntry, Table.get?_erase, Option.ite_none_left_eq_some] at own' ⊢
    exact ⟨own'.1.1, own'.1.2, own'.2⟩
  refine putRecord (h.tidy.eraseEntry free) usable (fun f other => ?record) (fun {id e'} own' => ?earlier)
    (fun own' active => (h.held (before own').2 active).2) fires payload
  case record => exact (h.record f).trans (if_neg other)
  case earlier =>
    obtain ⟨other, own'⟩ := before own'
    have claimed : e'.processedOn.isSome := h.claimed_of_ne own' fun same => by
      have same : e.fireAt = e'.fireAt := current.trans (Option.some.inj same)
      exact other (by rw [(h.id_eq own).2.1, (h.id_eq own').2.1, same])
    obtain ⟨repeats, -, behind⟩ := h.fire own'
    exact ⟨repeats, claimed, fun t next => (behind claimed).trans (later t next)⟩

/-- An earlier fire is claimed. -/
theorem holdEntry (h : Lone key spec (some next) W q) (colonless : spec.Colonless) (own : c.key = key)
    (repeats : c.repeats = some spec) (named : c.id = instanceId key spec c.fireAt) (whole : c.fireAt.Whole)
    (claimed : c.processedOn.isSome) (earlier : ∀ t, next = some t → c.fireAt < t) (expiry : Instant) :
    Lone key spec (some next) (fun e => W e ∨ e = c) (q.holdEntry c expiry) := by
  have found {id : String} {e : StoredEntry} (mine : (q.holdEntry c expiry).ownEntry key id = some e) :
      c.id = id ∧ e = c ∨ c.id ≠ id ∧ q.ownEntry key id = some e := by
    rw [ownEntry_eq_some, LocalQueue.holdEntry, Table.get?_set] at mine
    split at mine
    · next same => exact .inl ⟨same, (Option.some.inj mine.1).symm⟩
    · next other => exact .inr ⟨other, ownEntry_eq_some.mpr mine⟩
  refine { h with tidy := ?tidy, entry := fun {id e} mine => ?entry, current := fun {t} waits => ?current, held := ?held }
  case tidy =>
    refine h.tidy.holdEntry (fun none => by cases repeats.symm.trans none) fun spec' same => ?_
    cases repeats.symm.trans same
    exact ⟨colonless, own ▸ named, whole⟩
  case entry =>
    rcases found mine with ⟨-, rfl⟩ | ⟨-, before⟩
    · exact ⟨repeats, next, rfl, fun fresh => by simp [fresh] at claimed, fun _ => earlier⟩
    · exact h.entry before
  case current =>
    obtain ⟨e, mine, fires, fresh⟩ := h.current waits
    refine ⟨e, ?_, fires, fresh⟩
    have ne : c.id ≠ instanceId key spec t := fun same => by
      obtain ⟨-, -, millis⟩ := instanceId_inj colonless colonless (named.symm.trans same)
      have same := Instant.eq_of_millis_eq whole (fires ▸ (h.id_eq mine).2.2) millis
      exact (earlier t (Option.some.inj waits)).ne same
    simpa [ownEntry, LocalQueue.holdEntry, ne] using mine
  case held =>
    intro id e mine active
    rcases found mine with ⟨-, rfl⟩ | ⟨other, before⟩
    · exact ⟨claimed, .inr rfl⟩
    · simp only [LocalQueue.holdEntry, Table.contains_set, other, decide_false, Bool.false_or] at active
      exact (h.held before active).imp_right .inl

/-- As long as a repetition has not been added, its field is free. -/
theorem absent (h : Lone key spec none W q) (colonless : spec.Colonless) :
    q.repeats.get? (repeatField key spec) = none :=
  Option.eq_none_iff_forall_ne_some.mpr fun r hr => by
    obtain ⟨own, -⟩ := h.tidy.record_of_field colonless hr
    obtain ⟨-, -, never⟩ := h.record_iff hr own
    cases never

/-- The repetition of an unused key is added. -/
theorem addRepeating (h : Lone key spec none W q) (usable : spec.Usable) (payload : Json)
    (fires : spec.nextAfter now = .ok next) :
    Lone key spec (some next) W ((LocalQueue.addRepeating now key spec payload).on q).2 := by
  have unused {id : String} {e : StoredEntry} (own : q.ownEntry key id = some e) : False := by
    obtain ⟨-, _, never, -⟩ := h.entry own
    cases never
  have created : RepeatRecord.create key spec payload now = .ok ⟨key, spec, payload, next⟩ := by
    rw [RepeatRecord.create, RepeatRecord.advance, fires]
  rw [addRepeating_on, h.absent usable.colonless, created]
  refine putRecord h.tidy usable (fun f other => ?_) (fun own => (unused own).elim)
    (fun own => (unused own).elim) fires payload
  rw [h.record, if_neg other]

/-- Without a next fire nothing is added. -/
theorem addRepeating_fails (h : Lone key spec none W q) (usable : spec.Usable) (payload : Json) {failure : ScheduleError}
    (fails : spec.nextAfter now = .error failure) :
    Lone key spec none W ((LocalQueue.addRepeating now key spec payload).on q).2 := by
  have refused : RepeatRecord.create key spec payload now = .error .outOfRange := by
    obtain rfl := RepeatSpec.nextAfter_eq_error usable fails
    rw [RepeatRecord.create, RepeatRecord.advance, fails]
  rw [addRepeating_on, h.absent usable.colonless, refused]
  exact h

/-! ## Claims -/

/-- The turn of another key's entry, or of a fire that was left behind. -/
theorem claimEntry (h : Lone key spec stage W q) (stored : q.entries.get? e.id = some e)
    (free : q.active.contains e.id = false) (left : e.key = key → e.processedOn.isSome) :
    (LocalQueue.claimEntry rules now e).Ends q (fun out q' => Lone key spec stage W q' ∧ ∀ c, out = some c → c.key ≠ key)
      fun _ q' => Lone key spec stage W q' := by
  by_cases own : e.key = key
  · subst own
    have mine : q.ownEntry e.key e.id = some e := ownEntry_eq_some.mpr ⟨stored, rfl⟩
    obtain ⟨repeats, next, waits, -, earlier⟩ := h.entry mine
    have superseded : isSuperseded (q.repeats.get? (repeatField e.key spec)) e = true := by
      obtain ⟨colonless, -, -⟩ := h.tidy.fire stored repeats
      cases hr : q.repeats.get? (repeatField e.key spec) with
      | none => simp [isSuperseded, repeats, left rfl]
      | some r =>
        obtain ⟨own, -⟩ := h.tidy.record_of_field colonless hr
        obtain ⟨-, -, waits'⟩ := h.record_iff hr own
        have other : r.isCurrent e = false := by
          refine beq_eq_false_iff_ne.mpr fun same => ?_
          cases waits.symm.trans waits'
          exact lt_irrefl _ (earlier (left rfl) _ same)
        simp [isSuperseded, repeats, left rfl, other]
    refine (Act.ends_of_on_ok (claimEntry_superseded repeats superseded)).mpr ⟨?_, fun c never => by cases never⟩
    refine h.eraseClaimed free fun e' own => ?_
    cases mine.symm.trans own
    exact left rfl
  · have takes : (LocalQueue.claimEntry rules now e).Ends q (Taken rules now q e) _ := claimEntry_takes h.tidy stored free
    refine (takes.and (claimEntry_spares h.tidy stored own)).mono ?_ ?_
    · rintro out q' ⟨taken, spares⟩
      refine ⟨h.spared spares taken.tidy, ?_⟩
      rintro c rfl
      obtain ⟨rfl, -⟩ := taken.handed rfl
      exact own
    · rintro _ q' ⟨settles, spares⟩
      exact h.spared spares settles.1

/-- A claim before the fire hands out nothing of the key. -/
theorem claimDue_apart (h : Lone key spec stage W q) (early : ∀ t, stage = some (some t) → now < t) (limit : Nat) :
    (LocalQueue.claimDue rules now limit).Ends q (fun out q' => Lone key spec stage W q' ∧ ∀ c ∈ out, c.key ≠ key)
      fun _ q' => Lone key spec stage W q' := by
  have recovered : (q.recover now).Tidy := (h.recover now).tidy
  simp only [LocalQueue.claimDue, Act.ends_bind, Act.ends_modify, Act.ends_get]
  refine claimEach_ends (I := Lone key spec stage W) (fun {p e} inv mem _ stored free => ?_) limit recovered
    recovered.takeable_due (h.recover now)
  refine inv.claimEntry stored free fun own => ?_
  have mine := ownEntry_eq_some.mpr ⟨stored, own⟩
  obtain ⟨-, next, rfl, -⟩ := inv.entry mine
  refine inv.claimed_of_ne mine fun waits => ?_
  exact absurd (recovered.ownId.mem_due.mp mem).2.2 (not_le.mpr (early _ (congrArg some waits)))

/-- Whatever is asked of other keys, and a claim before the fire. Who finishes an entry is no longer at work. -/
theorem ask (h : Lone key spec stage W q) {request : QueueRequest} (foreign : request.Foreign key)
    (clear : stage.isSome → ¬ request.Removes (repeatField key spec))
    (early : ∀ limit, request = .claimDue limit → ∀ t, stage = some (some t) → now < t) :
    Lone key spec stage (fun e => W e ∧ request ≠ .finish e) (((workQueue rules).ask now request).on q).2 := by
  have kept {q' : LocalQueue} (after : Lone key spec stage W q') (others : ∀ e, request ≠ .finish e) :
      Lone key spec stage (fun e => W e ∧ request ≠ .finish e) q' := after.mono fun e works => ⟨works, others e⟩
  have tidy : (((workQueue rules).ask now request).on q).2.Tidy := (ask_tidy h.tidy request).1
  cases request with
  | addRepeating key' spec' payload =>
    refine kept (h.spared (addRepeating_spares h.tidy foreign (fun f r hr own e fire => ?_) spec' payload) tidy)
      fun _ never => by cases never
    obtain ⟨rfl, same, waits⟩ := h.record_iff hr own
    obtain ⟨t, next, rfl⟩ := Option.map_eq_some_iff.mp fire
    obtain ⟨e, there, -⟩ := h.current (waits.trans (congrArg some next))
    rw [own, same]
    exact Table.contains_iff.mpr ⟨e, (ownEntry_eq_some.mp there).1⟩
  | addDelayed key' delay payload =>
    exact kept (h.spared (addDelayed_spares foreign delay payload) tidy) fun _ never => by cases never
  | removeRepeating key' spec' =>
    refine kept (h.spared (removeRepeating_spares h.tidy fun r hr own => ?_) tidy) fun _ never => by cases never
    obtain ⟨same, -, waits⟩ := h.record_iff hr own
    exact clear (by rw [waits]; rfl) same
  | removeDelayed key' => exact kept (h.spared (removeDelayed_spares h.tidy foreign) tidy) fun _ never => by cases never
  | claimDue limit =>
    refine kept ?_ fun _ never => by cases never
    exact (Act.ends_iff_forall (P := Lone key spec stage W)).mp
      ((h.claimDue_apart (early limit rfl) limit).mono (fun _ _ after => after.1) fun _ _ after => after)
  | renewLease f => exact kept (h.spared renewLease_spares tidy) fun _ never => by cases never
  | recoverStalled => exact kept (h.recover now) fun _ never => by cases never
  | finish f =>
    refine (h.finish f).mono fun e works => ⟨works.1, fun same => ?_⟩
    cases same
    exact works.2 rfl
  | listRepeating | listEntries | getEntry | size => exact kept h fun _ never => by cases never

/-- The turn of the fire that the record waits for. -/
theorem claimEntry_current (h : Lone key spec (some (some u)) (fun _ => False) q) (usable : spec.Usable)
    (own : q.ownEntry key e.id = some e) (fresh : e.processedOn = none) (free : q.active.contains e.id = false)
    (due : u ≤ now) (fires : spec.nextAfter now = .ok next) (later : ∀ t, next = some t → now < t)
    (inTime : (now.add? rules.lease).isSome) :
    (LocalQueue.claimEntry rules now e).Ends q
      (fun out q' => Lone key spec (some next) (· = { e with processedOn := some now }) q' ∧
        out = some { e with processedOn := some now }) fun _ _ => False := by
  obtain ⟨-, key_⟩ := ownEntry_eq_some.mp own
  obtain ⟨repeats, waits, -⟩ := h.fire own
  obtain rfl := waits fresh
  obtain ⟨-, named, whole⟩ := h.id_eq own
  have later (t : Instant) (waits : next = some t) : e.fireAt < t := lt_of_le_of_lt due (later t waits)
  -- the record that is found moves on
  have there := h.record (repeatField key spec)
  rw [if_pos rfl, Option.map_some, ownRecord_eq_some] at there
  obtain ⟨r, hr, rk, rs, rn⟩ := there
  have advances : r.advance now = .ok ⟨key, spec, r.payload, next⟩ := by
    rw [RepeatRecord.advance, rs, fires, ← rk, ← rs]
  have moved : Lone key spec (some next) (fun _ => False) ((q.eraseEntry e.id).putRecord ⟨key, spec, r.payload, next⟩) :=
    h.moveOn usable own rfl free fires later r.payload
  have alone : ((q.eraseEntry e.id).putRecord ⟨key, spec, r.payload, next⟩).keyIsActive e.key = false := by
    rw [key_]
    exact moved.keyIsActive_eq_false
  obtain ⟨expiry, lease⟩ := Option.isSome_iff_exists.mp inTime
  have on : (LocalQueue.claimEntry rules now e).on q = (.ok (some { e with processedOn := some now }),
      ((q.eraseEntry e.id).putRecord ⟨key, spec, r.payload, next⟩).holdEntry { e with processedOn := some now } expiry) := by
    rw [LocalQueue.claimEntry_current repeats (key_ ▸ hr) rn, advances]
    dsimp only
    rw [alone, if_neg (by simp), Act.on_map, hold_on, lease]
    rfl
  refine (Act.ends_of_on_ok on).mpr ⟨?_, rfl⟩
  exact (moved.holdEntry (c := { e with processedOn := some now }) usable.colonless key_ repeats named whole rfl later
    expiry).mono fun _ works => works.resolve_left id

/-- Of all that is due, the fire that the record waits for is the one of the key that is handed out. -/
theorem claimEach_current (h : Lone key spec (some (some u)) (fun _ => False) q) (usable : spec.Usable)
    (own : q.ownEntry key e.id = some e) (fresh : e.processedOn = none) (due : u ≤ now)
    (fires : spec.nextAfter now = .ok next) (later : ∀ t, next = some t → now < t)
    (inTime : (now.add? rules.lease).isSome) {front back : List StoredEntry}
    (takeable : q.Takeable (front ++ e :: back)) (reached : ∀ d ∈ back, d.fireAt ≤ now)
    (room : (front ++ e :: back).length ≤ limit) :
    (claimEach rules now (front ++ e :: back) limit).Ends q
      (fun out q' => Lone key spec (some next) (· = { e with processedOn := some now }) q' ∧
        ∃ l l', out = l ++ { e with processedOn := some now } :: l' ∧ ∀ d ∈ l ++ l', d.key ≠ key) fun _ _ => True := by
  obtain ⟨stored, key_⟩ := ownEntry_eq_some.mp own
  have front_ {d : StoredEntry} (mem : d ∈ front) : d.id ≠ e.id := fun same => by
    have nodup := List.map_append ▸ takeable.nodup
    exact (List.nodup_append.mp nodup).2.2 d.id (List.mem_map_of_mem mem) e.id (by simp) same
  refine claimEach_around (I := Lone key spec (some (some u)) fun _ => False)
    (fun {p d} inv mem _ stored free => ?_) (fun {p} inv _ stored free => ?_) (fun {p d} inv mem _ stored free => ?_)
    room h.tidy takeable h
  · refine (inv.claimEntry stored free fun mine => ?_).mono (fun _ _ h => h) fun _ _ _ => trivial
    have mine := ownEntry_eq_some.mpr ⟨stored, mine⟩
    refine inv.claimed_of_ne mine fun same => front_ mem ?_
    rw [(inv.id_eq mine).2.1, (h.id_eq own).2.1, (h.fire own).2.1 fresh, Option.some.inj same]
  · exact (inv.claimEntry_current usable (ownEntry_eq_some.mpr ⟨stored, key_⟩) fresh free due fires later inTime).mono
      (fun _ _ h => h) fun _ _ _ => trivial
  · refine (inv.claimEntry stored free fun mine => ?_).mono (fun _ _ h => h) fun _ _ _ => trivial
    refine inv.claimed_of_ne (ownEntry_eq_some.mpr ⟨stored, mine⟩) fun ahead => ?_
    exact absurd (reached d mem) (not_le.mpr (later _ ahead))

/-- A claim from the fire on, with no other fire of the key at work, hands out that fire and nothing else of the key. -/
theorem claimDue_current (h : Lone key spec (some (some u)) W q) (idle : ∀ e, ¬ W e) (usable : spec.Usable)
    (due : u ≤ now) (fires : spec.nextAfter now = .ok next) (later : ∀ t, next = some t → now < t)
    (reach : rules.Reach now) (few : q.entries.size ≤ limit) :
    ∃ out q' l c l', (LocalQueue.claimDue rules now limit).on q = (.ok out, q') ∧
      Lone key spec (some next) (· = c) q' ∧ out = l ++ c :: l' ∧ c.key = key ∧ c.fireAt = u ∧
      ∀ d ∈ l ++ l', d.key ≠ key := by
  have recovered : Lone key spec (some (some u)) (fun _ => False) (q.recover now) :=
    (h.recover now).mono fun e works => idle e works
  obtain ⟨e, own, rfl, fresh⟩ := recovered.current rfl
  have own : (q.recover now).ownEntry key e.id = some e := (recovered.id_eq own).1.symm ▸ own
  obtain ⟨stored, key_⟩ := ownEntry_eq_some.mp own
  have free : (q.recover now).active.contains e.id = false :=
    Bool.eq_false_iff.mpr fun held => (recovered.held own held).2
  have mem : e ∈ (q.recover now).due now := recovered.tidy.ownId.mem_due.mpr ⟨stored, free, due⟩
  obtain ⟨front, back, split⟩ := List.append_of_mem mem
  have takeable : (q.recover now).Takeable (front ++ e :: back) := split ▸ recovered.tidy.takeable_due
  have reached (d : StoredEntry) (mem : d ∈ back) : d.fireAt ≤ now := by
    have mem : d ∈ (q.recover now).due now := split ▸ List.mem_append_right front (List.mem_cons_of_mem e mem)
    exact (recovered.tidy.ownId.mem_due.mp mem).2.2
  have room : (front ++ e :: back).length ≤ limit := split ▸ (length_due_le now (q.recover now)).trans few
  -- no record of any key makes the claim fail
  obtain ⟨out, q', on⟩ := claimDue_succeeds h.tidy reach limit
  have result := on
  rw [claimDue_on, split] at result
  obtain ⟨kept, l, l', all, others⟩ := (Act.ends_of_on_ok result).mp
    (recovered.claimEach_current usable own fresh due fires later reach.1 takeable reached room)
  exact ⟨out, q', l, _, l', on, kept, all, key_, rfl, others⟩

end Lone

end LocalQueue

end Timetable
