import Timetable.Proofs.Queue.Chain
import Timetable.Proofs.Queue.Leases
import Timetable.Proofs.Table

/-!
# What holds in memory whatever is repeated

Milliseconds beyond a signed word, which `LocalQueue.Sound` leaves out, can make a record wait for a fire that is past.
What still holds of every state that the queue in memory reaches is `LocalQueue.Tidy`: entries and records lie where
their parts say, what is claimed is stored, and a record whose fire is due can move on (`LocalQueue.tidy_of_run`). Apart
from a claim, no operation starts a claim or changes what is claimed (`LocalQueue.Quiet`).
-/

namespace Timetable

namespace RepeatSpec

/-- An expression that is accepted, or any number of milliseconds. -/
def Parsed : RepeatSpec → Prop
  | every _ => True
  | cron expression => ∃ p, parseExpression expression = .ok p

variable {spec : RepeatSpec} {t u : Instant}

theorem Parsed.usable (h : spec.Parsed) (countable : spec.Countable) : spec.Usable := by
  cases spec with
  | every millis => exact countable
  | cron expression => exact h

theorem Usable.parsed (h : spec.Usable) : spec.Parsed := by
  cases spec with
  | every millis => trivial
  | cron expression => exact h

theorem Parsed.colonless (h : spec.Parsed) : spec.Colonless := by
  cases spec with
  | every millis => trivial
  | cron expression => exact Usable.colonless (show Usable (.cron expression) from h)

theorem parsed_of_nextAfter {next : Option Instant} (h : spec.nextAfter t = .ok next) : spec.Parsed := by
  cases spec with
  | every millis => trivial
  | cron expression => exact usable_of_nextAfter h

/-- Fires lie at whole milliseconds of the calendar, whatever is repeated. -/
theorem nextAfter_firable (h : spec.nextAfter t = .ok (some u)) : u.Firable := by
  cases spec with
  | cron expression => exact (nextAfter_spec (usable_of_nextAfter h) h).2
  | every millis =>
    cases millis with
    | zero => cases h
    | succ n => exact nextFire_firable h

end RepeatSpec

namespace LocalQueue

variable {rules : ClaimRules} {now expiry : Instant} {q q' q'' : LocalQueue} {e : StoredEntry} {r : RepeatRecord}
  {id f key : String} {spec : RepeatSpec}

/-- Entries and records lie where their parts say, and what is claimed is stored. -/
structure Tidy (q : LocalQueue) : Prop where
  ownId : q.Named
  single : ∀ {id e}, q.entries.get? id = some e → e.repeats = none → e.id = singleId e.key
  fire : ∀ {id e spec}, q.entries.get? id = some e → e.repeats = some spec →
    spec.Colonless ∧ e.id = instanceId e.key spec e.fireAt ∧ e.fireAt.Whole
  held : ∀ {id}, q.active.contains id = true → q.entries.contains id = true
  ownField : ∀ {f r}, q.repeats.get? f = some r → r.field = f
  parsed : ∀ {f r}, q.repeats.get? f = some r → r.spec.Parsed
  whole : ∀ {f r t}, q.repeats.get? f = some r → r.next = some t → t.Whole
  /-- A record that waits for a fire can move on when it is due. -/
  continues : ∀ {f r t}, q.repeats.get? f = some r → r.next = some t → r.spec.Continues t

/-- No claim is started, and what stays claimed is stored as it was. -/
def Quiet (q q' : LocalQueue) : Prop :=
  ∀ id, q'.active.contains id = true → q.active.contains id = true ∧ q'.entries.get? id = q.entries.get? id

theorem Quiet.refl (q : LocalQueue) : Quiet q q := fun _ h => ⟨h, rfl⟩

theorem Quiet.trans (h : Quiet q q') (h' : Quiet q' q'') : Quiet q q'' := fun id held =>
  have ⟨held, same⟩ := h' id held
  have ⟨held, same'⟩ := h id held
  ⟨held, same.trans same'⟩

theorem Tidy.empty : Tidy {} := by
  constructor <;> simp [Named]

theorem Sound.tidy (h : Sound now q) : q.Tidy where
  ownId := h.named
  single he := (h.made he).single
  fire he repeats := ((h.made he).fire _ repeats).imp_left RepeatSpec.Usable.colonless
  held held := by
    obtain ⟨e, stored, -⟩ := h.held held
    exact Table.contains_iff.mpr ⟨e, stored⟩
  ownField := h.ownField
  parsed hr := (h.usable hr).parsed
  whole hr ht := (h.firable hr ht).whole
  continues hr _ := (h.usable hr).continues _

namespace Tidy

/-- What is claimed stays stored if nothing else is claimed and nothing claimed is taken out. -/
theorem held_of_quiet (h : q.Tidy) (quiet : Quiet q q') (held : q'.active.contains id = true) :
    q'.entries.contains id = true := by
  obtain ⟨before, same⟩ := quiet id held
  rw [Table.contains, same]
  exact h.held before

theorem record_of_field (h : q.Tidy) (colonless : spec.Colonless)
    (hr : q.repeats.get? (repeatField key spec) = some r) : r.key = key ∧ r.spec = spec :=
  repeatField_inj (h.parsed hr).colonless colonless (h.ownField hr)

/-! ## Putting in and taking out -/

theorem quiet_eraseEntry (free : q.active.contains id = false) : Quiet q (q.eraseEntry id) := fun id' held =>
  ⟨held, by simp [eraseEntry, Table.ne_of_contains free held]⟩

theorem eraseEntry (h : q.Tidy) (free : q.active.contains id = false) : (q.eraseEntry id).Tidy where
  ownId := named_eraseEntry id h.ownId
  single he := h.single (stored he)
  fire he := h.fire (stored he)
  held := h.held_of_quiet (quiet_eraseEntry free)
  ownField := h.ownField
  parsed := h.parsed
  whole := h.whole
  continues := h.continues
where
  stored {id' e} (he : (q.eraseEntry id).entries.get? id' = some e) : q.entries.get? id' = some e := by
    simp only [LocalQueue.eraseEntry, Table.get?_erase, Option.ite_none_left_eq_some] at he
    exact he.2

theorem eraseRecord (h : q.Tidy) (f : String) : (q.eraseRecord f).Tidy where
  ownId := h.ownId
  single := h.single
  fire := h.fire
  held := h.held
  ownField hr := h.ownField (stored hr)
  parsed hr := h.parsed (stored hr)
  whole hr := h.whole (stored hr)
  continues hr := h.continues (stored hr)
where
  stored {f' r} (hr : (q.eraseRecord f).repeats.get? f' = some r) : q.repeats.get? f' = some r := by
    simp only [LocalQueue.eraseRecord, Table.get?_erase, Option.ite_none_left_eq_some] at hr
    exact hr.2

theorem quiet_insertIfAbsent (h : q.Tidy) (e : StoredEntry) : Quiet q (q.insertIfAbsent e) := fun id held => by
  obtain ⟨e', he⟩ := Table.contains_iff.mp (h.held held)
  exact ⟨held, (insertIfAbsent_entries_eq_some.mpr (.inl he)).trans he.symm⟩

theorem insertSingle (h : q.Tidy) (key : String) (fireAt : Instant) (payload : Json) :
    (q.insertIfAbsent (.single key fireAt payload)).Tidy where
  ownId := (Steady.insertIfAbsent (x := "") _).named h.ownId
  single he repeats := by
    rcases insertIfAbsent_entries_eq_some.mp he with he | ⟨_, _, rfl⟩
    · exact h.single he repeats
    · rfl
  fire he repeats := by
    rcases insertIfAbsent_entries_eq_some.mp he with he | ⟨_, _, rfl⟩
    · exact h.fire he repeats
    · cases repeats
  held := h.held_of_quiet (h.quiet_insertIfAbsent _)
  ownField := h.ownField
  parsed := h.parsed
  whole := h.whole
  continues := h.continues

theorem quiet_putRecord (h : q.Tidy) (r : RepeatRecord) : Quiet q (q.putRecord r) := fun id held => by
  rw [putRecord_active] at held
  obtain ⟨e', he⟩ := Table.contains_iff.mp (h.held held)
  exact ⟨held, (putRecord_entries_eq_some.mpr (.inl he)).trans he.symm⟩

theorem putRecord (h : q.Tidy) (parsed : r.spec.Parsed) (whole : ∀ t, r.next = some t → t.Whole)
    (continues : ∀ t, r.next = some t → r.spec.Continues t) : (q.putRecord r).Tidy where
  ownId := (Steady.putRecord (x := "") r).named h.ownId
  single he repeats := by
    rcases putRecord_entries_eq_some.mp he with he | ⟨_, t, _, _, rfl⟩
    · exact h.single he repeats
    · cases repeats
  fire he repeats := by
    rcases putRecord_entries_eq_some.mp he with he | ⟨_, t, ht, _, rfl⟩
    · exact h.fire he repeats
    · cases repeats
      exact ⟨parsed.colonless, rfl, whole t ht⟩
  held := h.held_of_quiet (h.quiet_putRecord r)
  ownField hr := by
    rw [putRecord_repeats] at hr
    split at hr
    · next own => cases hr; exact own
    · exact h.ownField hr
  parsed hr := by
    rw [putRecord_repeats] at hr
    split at hr
    · cases hr; exact parsed
    · exact h.parsed hr
  whole hr := by
    rw [putRecord_repeats] at hr
    split at hr
    · cases hr; exact whole _
    · exact h.whole hr
  continues hr := by
    rw [putRecord_repeats] at hr
    split at hr
    · cases hr; exact continues _
    · exact h.continues hr

/-- A record that was found a fire from some time on. -/
theorem putFound (h : q.Tidy) (fires : r.spec.nextAfter now = .ok r.next) : (q.putRecord r).Tidy :=
  h.putRecord (RepeatSpec.parsed_of_nextAfter fires)
    (fun _ ht => (RepeatSpec.nextAfter_firable (ht ▸ fires)).whole)
    fun _ ht => RepeatSpec.continues_of_nextAfter (ht ▸ fires)

theorem holdEntry (h : q.Tidy) (single : e.repeats = none → e.id = singleId e.key)
    (fire : ∀ spec, e.repeats = some spec → spec.Colonless ∧ e.id = instanceId e.key spec e.fireAt ∧ e.fireAt.Whole) :
    (q.holdEntry e expiry).Tidy where
  ownId := named_holdEntry e expiry h.ownId
  single he repeats := by
    rcases stored he with rfl | he
    · exact single repeats
    · exact h.single he repeats
  fire he repeats := by
    rcases stored he with rfl | he
    · exact fire _ repeats
    · exact h.fire he repeats
  held held := by
    simp only [LocalQueue.holdEntry, Table.contains_set, Bool.or_eq_true, decide_eq_true_eq] at held ⊢
    exact held.imp_right h.held
  ownField := h.ownField
  parsed := h.parsed
  whole := h.whole
  continues := h.continues
where
  stored {id e'} (he : (q.holdEntry e expiry).entries.get? id = some e') : e' = e ∨ q.entries.get? id = some e' := by
    simp only [LocalQueue.holdEntry, Table.get?_set] at he
    split at he
    · exact .inl (Option.some.inj he).symm
    · exact .inr he

theorem withActive (h : q.Tidy) {active : Table String Instant}
    (fewer : ∀ id, active.contains id = true → q.active.contains id = true) : Tidy { q with active } where
  ownId := h.ownId
  single := h.single
  fire := h.fire
  held held := h.held (fewer _ held)
  ownField := h.ownField
  parsed := h.parsed
  whole := h.whole
  continues := h.continues

end Tidy

/-! ## Operations without claims -/

/-- The queue stays tidy and starts no claim. -/
def Settles (q q' : LocalQueue) : Prop := q'.Tidy ∧ Quiet q q'

namespace Tidy

theorem settles_withActive (h : q.Tidy) {active : Table String Instant}
    (fewer : ∀ id, active.contains id = true → q.active.contains id = true) : Settles q { q with active } :=
  ⟨h.withActive fewer, fun id held => ⟨fewer id held, rfl⟩⟩

theorem recover (h : q.Tidy) : Settles q (q.recover now) :=
  h.settles_withActive fun id held => by
    obtain ⟨expiry, held⟩ := Table.contains_iff.mp held
    rw [Table.get?_filter, Option.filter_eq_some_iff] at held
    exact Table.contains_iff.mpr ⟨expiry, held.1⟩

theorem addRepeating (h : q.Tidy) (payload : Json) : Settles q ((addRepeating now key spec payload).on q).2 := by
  rw [addRepeating_on]
  cases hr : q.repeats.get? (repeatField key spec) with
  | some old =>
    have parsed : old.spec.Parsed := h.parsed hr
    have continues (t : Instant) (waits : old.next = some t) : old.spec.Continues t := h.continues hr waits
    exact ⟨h.putRecord parsed (fun t ht => h.whole hr ht) continues, h.quiet_putRecord _⟩
  | none =>
    cases hc : RepeatRecord.create key spec payload now with
    | error error => exact ⟨h, .refl q⟩
    | ok r =>
      obtain ⟨same, hn⟩ := RepeatRecord.advance_eq_ok hc
      obtain ⟨_, rfl, _⟩ := RepeatRecord.chain_eq_iff.mp same
      exact ⟨h.putFound hn, h.quiet_putRecord r⟩

theorem addDelayed (h : q.Tidy) (delay : Nat) (payload : Json) :
    Settles q ((addDelayed now key delay payload).on q).2 := by
  unfold LocalQueue.addDelayed
  cases now.addMillis? (signedWord delay) with
  | none => exact ⟨h, .refl q⟩
  | some fireAt => exact ⟨h.insertSingle key fireAt payload, h.quiet_insertIfAbsent _⟩

theorem removeRepeating (h : q.Tidy) : Settles q ((removeRepeating key spec).on q).2 := by
  refine (Act.ends_iff_forall (P := Settles q)).mp ?_
  simp only [LocalQueue.removeRepeating, Act.ends_bind, Act.ends_get]
  cases q.repeats.get? (repeatField key spec) with
  | none => exact Act.ends_pure.mpr ⟨h, .refl q⟩
  | some r =>
    have erased := h.eraseRecord (repeatField key spec)
    dsimp only
    cases r.currentInstance with
    | none => exact Act.ends_bind.mpr (Act.ends_set.mpr (Act.ends_pure.mpr ⟨erased, .refl q⟩))
    | some e =>
      refine Act.ends_bind.mpr (Act.ends_set.mpr (Act.ends_pure.mpr ?_))
      split
      · exact ⟨erased, .refl q⟩
      · next free =>
        have free : q.active.contains e.id = false := Bool.not_eq_true _ ▸ free
        exact ⟨erased.eraseEntry free, quiet_eraseEntry free⟩

theorem removeDelayed (h : q.Tidy) : Settles q ((removeDelayed key).on q).2 := by
  simp only [LocalQueue.removeDelayed, Act.on_bind, Act.on_get]
  split
  · exact ⟨h, .refl q⟩
  · next free =>
    simp only [Bool.or_eq_true, not_or, Bool.not_eq_true] at free
    exact ⟨h.eraseEntry free.1, quiet_eraseEntry free.1⟩

theorem renewLease (h : q.Tidy) : Settles q ((renewLease rules e now).on q).2 := by
  simp only [LocalQueue.renewLease, Act.on_bind, Act.on_get]
  split
  · exact ⟨h, .refl q⟩
  · next held =>
    simp only [Bool.not_eq_true', Bool.not_eq_false, holdsClaim, Bool.and_eq_true] at held
    cases now.add? rules.lease with
    | none => exact ⟨h, .refl q⟩
    | some expiry =>
      refine h.settles_withActive fun id hid => ?_
      simp only [Table.contains_set, Bool.or_eq_true, decide_eq_true_eq] at hid
      rcases hid with rfl | hid
      · exact held.1
      · exact hid

theorem finish (h : q.Tidy) : Settles q ((finish e).on q).2 := by
  simp only [LocalQueue.finish, Act.on_bind, Act.on_get]
  split
  · obtain ⟨released, quiet⟩ : Settles q { q with active := q.active.erase e.id } :=
      h.settles_withActive fun id hid => by simp_all
    have free : (q.active.erase e.id).contains e.id = false := by simp
    exact ⟨released.eraseEntry free, quiet.trans (quiet_eraseEntry free)⟩
  · exact ⟨h, .refl q⟩

end Tidy

end LocalQueue

end Timetable
