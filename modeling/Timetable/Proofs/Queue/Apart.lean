import Timetable.Proofs.Queue.Records
import Timetable.Proofs.Queue.Turns

/-!
# What other keys leave of one key

Of one key a queue holds some entries and records; of the latter it matters what they repeat and wait for
(`LocalQueue.ownEntry`, `LocalQueue.ownRecord`). An operation on another key leaves them as they are and claims none of
them: it spares the key (`LocalQueue.Spares`). So does the turn of another key's entry in a claim
(`LocalQueue.claimEntry_spares`).

Fields are made of a key and a specification, and one that no expression parser accepts may hold colons. Such a field can
spell that of another key, so to remove a record takes more than another key (`LocalQueue.removeRepeating_spares`).
-/

namespace Timetable.LocalQueue

variable {rules : ClaimRules} {now expiry : Instant} {q q' q'' : LocalQueue} {key key' id f : String}
  {spec : RepeatSpec} {e : StoredEntry} {r : RepeatRecord} {next : Option Instant}

/-! ## One key -/

/-- The entry under an identifier, if it has this key. -/
def ownEntry (q : LocalQueue) (key id : String) : Option StoredEntry := (q.entries.get? id).filter (·.key == key)

/-- What the record of a field repeats and waits for, if it has this key. -/
def ownRecord (q : LocalQueue) (key f : String) : Option (RepeatSpec × Option Instant) :=
  ((q.repeats.get? f).filter (·.key == key)).map fun r => (r.spec, r.next)

theorem ownEntry_eq_some : q.ownEntry key id = some e ↔ q.entries.get? id = some e ∧ e.key = key := by
  simp only [ownEntry, Option.filter_eq_some_iff, beq_iff_eq]

theorem ownEntry_eq_none (h : ∀ e, q.entries.get? id = some e → e.key ≠ key) : q.ownEntry key id = none := by
  simpa only [ownEntry, Option.filter_eq_none_iff, beq_iff_eq] using h

theorem ownRecord_eq_some :
    q.ownRecord key f = some (spec, next) ↔
      ∃ r, q.repeats.get? f = some r ∧ r.key = key ∧ r.spec = spec ∧ r.next = next := by
  simp only [ownRecord, Option.map_eq_some_iff, Option.filter_eq_some_iff, beq_iff_eq, Prod.mk.injEq, and_assoc]

theorem ownRecord_eq_none (h : ∀ r, q.repeats.get? f = some r → r.key ≠ key) : q.ownRecord key f = none := by
  simpa only [ownRecord, Option.map_eq_none_iff, Option.filter_eq_none_iff, beq_iff_eq] using h

theorem Tidy.key_of_singleId (h : q.Tidy) (he : q.entries.get? (singleId key) = some e) : e.key = key := by
  have own := h.ownId _ _ he
  cases repeats : e.repeats with
  | none => exact singleId_inj ((h.single he repeats).symm.trans own)
  | some spec =>
    obtain ⟨-, id, -⟩ := h.fire he repeats
    exact absurd (own.symm.trans id) singleId_ne_instanceId

theorem Tidy.key_of_instanceId (h : q.Tidy) (colonless : spec.Colonless) {t : Instant}
    (he : q.entries.get? (instanceId key spec t) = some e) : e.key = key := by
  have own := h.ownId _ _ he
  cases repeats : e.repeats with
  | none => exact absurd ((h.single he repeats).symm.trans own) singleId_ne_instanceId
  | some spec' =>
    obtain ⟨colonless', id, -⟩ := h.fire he repeats
    exact (instanceId_inj colonless' colonless (id.symm.trans own)).1

/-! ## Leaving a key alone -/

/-- The entries and records of a key are as they were, and none was claimed. -/
structure Spares (key : String) (q q' : LocalQueue) : Prop where
  entry : ∀ id, q'.ownEntry key id = q.ownEntry key id
  record : ∀ f, q'.ownRecord key f = q.ownRecord key f
  active : ∀ {id e}, q.ownEntry key id = some e → q'.active.contains id = true → q.active.contains id = true

namespace Spares

theorem refl (q : LocalQueue) : Spares key q q := ⟨fun _ => rfl, fun _ => rfl, fun _ h => h⟩

theorem trans (h : Spares key q q') (h' : Spares key q' q'') : Spares key q q'' where
  entry id := (h'.entry id).trans (h.entry id)
  record f := (h'.record f).trans (h.record f)
  active own held := h.active own (h'.active ((h.entry _).trans own) held)

theorem withActive {active : Table String Instant}
    (fewer : ∀ id, active.contains id = true → q.active.contains id = true) : Spares key q { q with active } :=
  ⟨fun _ => rfl, fun _ => rfl, fun _ held => fewer _ held⟩

theorem recover (now : Instant) (q : LocalQueue) : Spares key q (q.recover now) := by
  refine withActive fun id held => ?_
  obtain ⟨expiry, held⟩ := Table.contains_iff.mp held
  rw [Table.get?_filter, Option.filter_eq_some_iff] at held
  exact Table.contains_iff.mpr ⟨expiry, held.1⟩

theorem eraseEntry (foreign : ∀ e, q.entries.get? id = some e → e.key ≠ key) : Spares key q (q.eraseEntry id) where
  entry k := by
    by_cases same : id = k
    · subst same
      rw [ownEntry_eq_none foreign]
      exact ownEntry_eq_none fun e he => by simp [LocalQueue.eraseEntry] at he
    · simp [ownEntry, LocalQueue.eraseEntry, same]
  record _ := rfl
  active _ held := held

theorem eraseRecord (foreign : ∀ r, q.repeats.get? f = some r → r.key ≠ key) : Spares key q (q.eraseRecord f) where
  entry _ := rfl
  record k := by
    by_cases same : f = k
    · subst same
      rw [ownRecord_eq_none foreign]
      exact ownRecord_eq_none fun r hr => by simp [LocalQueue.eraseRecord] at hr
    · simp [ownRecord, LocalQueue.eraseRecord, same]
  active _ held := held

theorem insertIfAbsent (foreign : e.key ≠ key) : Spares key q (q.insertIfAbsent e) where
  entry id := by
    ext e'
    rw [ownEntry_eq_some, ownEntry_eq_some, insertIfAbsent_entries_eq_some]
    constructor
    · rintro ⟨before | ⟨-, -, rfl⟩, own⟩
      · exact ⟨before, own⟩
      · exact absurd own foreign
    · exact fun ⟨before, own⟩ => ⟨.inl before, own⟩
  record _ := rfl
  active _ held := held

theorem setRecord (foreign : r.key ≠ key) (old : ∀ r', q.repeats.get? r.field = some r' → r'.key ≠ key) :
    Spares key q (q.setRecord r) where
  entry _ := rfl
  record f := by
    by_cases same : r.field = f
    · subst same
      rw [ownRecord_eq_none old]
      refine ownRecord_eq_none fun r' hr => ?_
      simp only [LocalQueue.setRecord, Table.get?_set, if_pos, Option.some.injEq] at hr
      exact hr ▸ foreign
    · simp [ownRecord, LocalQueue.setRecord, same]
  active _ held := held

theorem putRecord (foreign : r.key ≠ key) (old : ∀ r', q.repeats.get? r.field = some r' → r'.key ≠ key) :
    Spares key q (q.putRecord r) := by
  unfold LocalQueue.putRecord insertCurrent
  cases fire : r.currentInstance with
  | none => exact setRecord foreign old
  | some e =>
    obtain ⟨t, -, rfl⟩ := Option.map_eq_some_iff.mp fire
    exact (insertIfAbsent foreign).trans (setRecord foreign old)

theorem holdEntry (foreign : e.key ≠ key) (old : ∀ e', q.entries.get? e.id = some e' → e'.key ≠ key) :
    Spares key q (q.holdEntry e expiry) where
  entry id := by
    by_cases same : e.id = id
    · subst same
      rw [ownEntry_eq_none old]
      refine ownEntry_eq_none fun e' he => ?_
      simp only [LocalQueue.holdEntry, Table.get?_set, if_pos, Option.some.injEq] at he
      exact he ▸ foreign
    · simp [ownEntry, LocalQueue.holdEntry, same]
  record _ := rfl
  active {id e'} own held := by
    have ne : e.id ≠ id := by
      rintro rfl
      exact old e' (ownEntry_eq_some.mp own).1 (ownEntry_eq_some.mp own).2
    simpa [LocalQueue.holdEntry, ne] using held

/-- A payload does not matter, as long as the fire that its record waits for is stored. -/
theorem setPayload (tidy : q.Tidy) (hr : q.repeats.get? f = some r)
    (stored : r.key = key → ∀ e, r.currentInstance = some e → q.entries.contains e.id = true) (payload : Json) :
    Spares key q (q.putRecord { r with payload }) := by
  have field : r.field = f := tidy.ownField hr
  change ({ r with payload } : RepeatRecord).field = f at field
  by_cases own : r.key = key
  · refine ⟨fun id => ?_, fun k => ?_, fun _ held => ?_⟩
    · ext e
      rw [ownEntry_eq_some, ownEntry_eq_some, putRecord_entries_eq_some]
      refine and_congr_left fun _ => or_iff_left ?_
      rintro ⟨absent, t, waits, rfl, -⟩
      have there := stored own (.ofFire r.key r.spec t r.payload) (by rw [RepeatRecord.currentInstance, waits]; rfl)
      exact Bool.false_ne_true ((Table.contains_eq_false_iff.mpr absent).symm.trans there)
    · rw [ownRecord, ownRecord, putRecord_repeats, field]
      split
      · next same => simp [← same, hr, Option.filter_some]
      · rfl
    · rwa [putRecord_active] at held
  · refine putRecord own fun r' hr' => ?_
    rw [field, hr] at hr'
    cases hr'
    exact own

end Spares

/-! ## Requests of other keys -/

theorem addRepeating_spares (tidy : q.Tidy) (other : key' ≠ key)
    (stored : ∀ f r, q.repeats.get? f = some r → r.key = key → ∀ e, r.currentInstance = some e →
      q.entries.contains e.id = true) (spec : RepeatSpec) (payload : Json) :
    Spares key q ((addRepeating now key' spec payload).on q).2 := by
  rw [addRepeating_on]
  cases hr : q.repeats.get? (repeatField key' spec) with
  | some old => exact .setPayload tidy hr (stored _ old hr) payload
  | none =>
    cases created : RepeatRecord.create key' spec payload now with
    | error failure => exact .refl q
    | ok r =>
      obtain ⟨rfl, hs, -⟩ := RepeatRecord.chain_eq_iff.mp (RepeatRecord.advance_eq_ok created).1
      refine .putRecord other fun r' hr' => ?_
      rw [RepeatRecord.field, hs, hr] at hr'
      cases hr'

theorem addDelayed_spares (other : key' ≠ key) (delay : Nat) (payload : Json) :
    Spares key q ((addDelayed now key' delay payload).on q).2 := by
  unfold addDelayed
  cases now.addMillis? (signedWord delay) with
  | none => exact .refl q
  | some fireAt => exact .insertIfAbsent other

/-- The record that is removed must not be one of the key, whatever key is named. -/
theorem removeRepeating_spares (tidy : q.Tidy)
    (other : ∀ r, q.repeats.get? (repeatField key' spec) = some r → r.key ≠ key) :
    Spares key q ((removeRepeating key' spec).on q).2 := by
  refine (Act.ends_iff_forall (P := Spares key q)).mp ?_
  simp only [removeRepeating, Act.ends_bind, Act.ends_get]
  cases hr : q.repeats.get? (repeatField key' spec) with
  | none => exact Act.ends_pure.mpr (.refl q)
  | some r =>
    have erased : Spares key q (q.eraseRecord (repeatField key' spec)) := .eraseRecord other
    dsimp only
    cases fire : r.currentInstance with
    | none => exact Act.ends_bind.mpr (Act.ends_set.mpr (Act.ends_pure.mpr erased))
    | some e =>
      refine Act.ends_bind.mpr (Act.ends_set.mpr (Act.ends_pure.mpr ?_))
      split
      · exact erased
      · obtain ⟨t, -, rfl⟩ := Option.map_eq_some_iff.mp fire
        refine erased.trans (.eraseEntry fun e he => ?_)
        rw [tidy.key_of_instanceId (tidy.parsed hr).colonless he]
        exact other r hr

theorem removeDelayed_spares (tidy : q.Tidy) (other : key' ≠ key) : Spares key q ((removeDelayed key').on q).2 := by
  rw [removeDelayed_on]
  split
  · exact .refl q
  · exact .eraseEntry fun e he => (tidy.key_of_singleId he).symm ▸ other

theorem renewLease_spares : Spares key q ((renewLease rules e now).on q).2 := by
  rw [renewLease_on]
  split
  · next held =>
    cases now.add? rules.lease with
    | none => exact .refl q
    | some expiry =>
      refine .withActive fun id held' => ?_
      rw [Table.contains_set, Bool.or_eq_true, decide_eq_true_eq] at held'
      rcases held' with rfl | held'
      · exact (holdsClaim_iff.mp held).1
      · exact held'
  · exact .refl q

/-- The turn of an entry of another key. -/
theorem claimEntry_spares (tidy : q.Tidy) (stored : q.entries.get? e.id = some e) (other : e.key ≠ key) :
    (claimEntry rules now e).Ends q (fun _ q' => Spares key q q') fun _ q' => Spares key q q' := by
  have erased : Spares key q (q.eraseEntry e.id) := .eraseEntry fun e' he => by
    cases stored.symm.trans he
    exact other
  have gone {p : LocalQueue} (spares : Spares key q p) (e' : StoredEntry) (he : p.entries.get? e.id = some e') :
      e'.key ≠ key := fun own => by
    have before := spares.entry e.id
    rw [ownEntry_eq_some.mpr ⟨he, own⟩, eq_comm, ownEntry_eq_some, stored] at before
    exact other (Option.some.inj before.1 ▸ own)
  -- the record that moves on is that of the entry's key
  have record {r : RepeatRecord} (hr : q.recordOf e = some r) : r.key = e.key ∧ q.repeats.get? r.field = some r := by
    obtain ⟨spec, repeats, hr⟩ := Option.bind_eq_some_iff.mp hr
    obtain ⟨colonless, -, -⟩ := tidy.fire stored repeats
    exact ⟨(tidy.record_of_field colonless hr).1, (tidy.ownField hr).symm ▸ hr⟩
  refine claimEntry_leaves erased (fun r next hr _ advanced => ?_) (fun r hr => ?_) fun p expiry spares _ => ?_
  · obtain ⟨own, hr⟩ := record hr
    obtain ⟨hk, hs, -⟩ := RepeatRecord.chain_eq_iff.mp (RepeatRecord.advance_eq_ok advanced).1
    refine erased.trans (.putRecord (by rwa [hk, own]) fun r' hr' => ?_)
    rw [RepeatRecord.field, hk, hs] at hr'
    cases hr.symm.trans hr'
    rwa [own]
  · obtain ⟨own, hr⟩ := record hr
    refine erased.trans (.eraseRecord fun r' hr' => ?_)
    cases hr.symm.trans hr'
    rwa [own]
  · exact spares.trans (.holdEntry (e := { e with processedOn := some now }) other (gone spares))

end Timetable.LocalQueue
