import Timetable.Proofs.Queue.Identifiers
import Timetable.Queue.Local

/-!
# Sound states of the queue in memory

`LocalQueue.Sound` ties the three tables together. The record of a chain and its entries are in step
(`StoredEntry.Follows`): a fire that was never claimed is the one that its record waits for, and the record waits
for something later than the last claim of every other fire. So no identifier that a record moves on to is taken.

What the operations are made of keeps a state sound:
* `Sound.dropEntry`, `Sound.dropChain`: taking out what was claimed or does not repeat, and a whole chain;
* `Sound.addChain`, `Sound.addSingle`: putting in what is new;
* `Sound.holdEntry`, `Sound.withActive`: claims.
-/

namespace Timetable

namespace StoredEntry

/-- The identifier is that of the key and the fire. -/
structure WellMade (e : StoredEntry) : Prop where
  single : e.repeats = none → e.id = singleId e.key
  fire : ∀ spec, e.repeats = some spec →
    spec.Usable ∧ e.id = instanceId e.key spec e.fireAt ∧ e.fireAt.Whole

/-- How a fire stands to the record of its chain. -/
def Follows (e : StoredEntry) (record : Option RepeatRecord) : Prop :=
  match e.processedOn with
  | none => ∃ r, record = some r ∧ r.next = some e.fireAt
  | some p => e.fireAt ≤ p ∧ ∀ r, record = some r → ∀ t, r.next = some t → p < t

variable {e : StoredEntry} {record : Option RepeatRecord}

theorem follows_of_none (h : e.processedOn = none) :
    e.Follows record ↔ ∃ r, record = some r ∧ r.next = some e.fireAt := by
  simp [Follows, h]

theorem follows_of_some {p : Instant} (h : e.processedOn = some p) :
    e.Follows record ↔ e.fireAt ≤ p ∧ ∀ r, record = some r → ∀ t, r.next = some t → p < t := by
  simp [Follows, h]

/-- Only the record's next fire matters. -/
theorem Follows.of_next {record' : Option RepeatRecord} (h : e.Follows record)
    (same : record'.map (·.next) = record.map (·.next)) : e.Follows record' := by
  cases record with
  | none =>
    obtain rfl : record' = none := by simpa using same
    exact h
  | some r =>
    obtain ⟨r', rfl, hn⟩ : ∃ r', record' = some r' ∧ r'.next = r.next := by simpa using same
    simpa [Follows, hn] using h

theorem wellMade_single (key : String) (fireAt : Instant) (payload : Json) :
    (single key fireAt payload).WellMade :=
  ⟨fun _ => rfl, nofun⟩

theorem wellMade_ofFire {key : String} {spec : RepeatSpec} {fireAt : Instant} {payload : Json}
    (hs : spec.Usable) (hf : fireAt.Whole) : (ofFire key spec fireAt payload).WellMade := by
  refine ⟨nofun, fun spec' h => ?_⟩
  cases h
  exact ⟨hs, rfl, hf⟩

/-- What is stored under the identifier of an instance is that instance. -/
theorem WellMade.eq_of_instanceId (h : e.WellMade) {key : String} {spec : RepeatSpec} {t : Instant}
    (hs : spec.Usable) (ht : t.Whole) (hid : e.id = instanceId key spec t) :
    e.key = key ∧ e.repeats = some spec ∧ e.fireAt = t := by
  cases hr : e.repeats with
  | none => exact absurd ((h.single hr).symm.trans hid) singleId_ne_instanceId
  | some spec' =>
    obtain ⟨hs', hid', hw⟩ := h.fire spec' hr
    obtain ⟨hk, rfl, hm⟩ := instanceId_inj hs'.colonless hs.colonless (hid'.symm.trans hid)
    exact ⟨hk, rfl, Instant.eq_of_millis_eq hw ht hm⟩

end StoredEntry

namespace LocalQueue

structure Sound (clock : Instant) (q : LocalQueue) : Prop where
  ownId : ∀ {id e}, q.entries.get? id = some e → e.id = id
  made : ∀ {id e}, q.entries.get? id = some e → e.WellMade
  past : ∀ {id e p}, q.entries.get? id = some e → e.processedOn = some p → p ≤ clock
  follows : ∀ {id e spec}, q.entries.get? id = some e → e.repeats = some spec →
    e.Follows (q.repeats.get? (repeatField e.key spec))
  ownField : ∀ {f r}, q.repeats.get? f = some r → r.field = f
  usable : ∀ {f r}, q.repeats.get? f = some r → r.spec.Usable
  firable : ∀ {f r t}, q.repeats.get? f = some r → r.next = some t → t.Firable
  waits : ∀ {f r t}, q.repeats.get? f = some r → r.next = some t →
    ∃ e, q.entries.get? (instanceId r.key r.spec t) = some e ∧ e.processedOn = none
  held : ∀ {id}, q.active.contains id = true →
    ∃ e, q.entries.get? id = some e ∧ e.processedOn.isSome

namespace Sound

variable {clock now : Instant} {q : LocalQueue} {e : StoredEntry} {r : RepeatRecord} {f id : String}

theorem empty (clock : Instant) : Sound clock {} := by
  constructor <;> simp

theorem mono (h : Sound clock q) (hle : clock ≤ now) : Sound now q :=
  { h with past := fun he hp => le_trans (h.past he hp) hle }

/-- Soundness is about what is found in the tables. -/
theorem congr {q' : LocalQueue} (h : Sound clock q) (hr : q'.repeats.get? = q.repeats.get?)
    (he : q'.entries.get? = q.entries.get?) (ha : q'.active.contains = q.active.contains) :
    Sound clock q' := by
  refine ⟨?_, ?_, ?_, ?_, ?_, ?_, ?_, ?_, ?_⟩
  · rw [he]; exact h.ownId
  · rw [he]; exact h.made
  · rw [he]; exact h.past
  · rw [he, hr]; exact h.follows
  · rw [hr]; exact h.ownField
  · rw [hr]; exact h.usable
  · rw [hr]; exact h.firable
  · rw [hr, he]; exact h.waits
  · rw [ha, he]; exact h.held

/-! ## The current instance -/

/-- A record waits for an instance of its own that is stored and was never claimed. -/
theorem current (h : Sound clock q) {t : Instant} (hr : q.repeats.get? f = some r)
    (hn : r.next = some t) :
    ∃ e, q.entries.get? (instanceId r.key r.spec t) = some e ∧ e.key = r.key ∧
      e.repeats = some r.spec ∧ e.fireAt = t ∧ e.processedOn = none := by
  obtain ⟨e, he, hp⟩ := h.waits hr hn
  obtain ⟨hk, hs, ht⟩ :=
    (h.made he).eq_of_instanceId (h.usable hr) (h.firable hr hn).whole (h.ownId he)
  exact ⟨e, he, hk, hs, ht, hp⟩

theorem not_held (h : Sound clock q) (he : q.entries.get? id = some e)
    (hp : e.processedOn = none) : q.active.contains id = false := by
  refine Bool.eq_false_iff.mpr fun ha => ?_
  obtain ⟨e', he', hp'⟩ := h.held ha
  obtain rfl : e = e' := Option.some.inj (he.symm.trans he')
  simp [hp] at hp'

/-- The record of a fire is that of its key and specification. -/
theorem record_of_field (h : Sound clock q) {key : String} {spec : RepeatSpec}
    (hs : spec.Colonless) (hr : q.repeats.get? (repeatField key spec) = some r) :
    r.key = key ∧ r.spec = spec :=
  repeatField_inj (h.usable hr).colonless hs (h.ownField hr)

/-- A stored fire with the identifier of a record's next fire was never claimed. -/
theorem current_unique (h : Sound clock q) {t : Instant} (hr : q.repeats.get? f = some r)
    (hn : r.next = some t) (he : q.entries.get? (instanceId r.key r.spec t) = some e) :
    e.repeats = some r.spec ∧ e.processedOn = none := by
  obtain ⟨e', he', _, hs, _, hp⟩ := h.current hr hn
  obtain rfl : e = e' := Option.some.inj (he.symm.trans he')
  exact ⟨hs, hp⟩

/-! ## Taking out -/

/-- Whatever was claimed, or does not repeat, is waited for by no record. -/
theorem dropEntry (h : Sound clock q) (ha : q.active.contains id = false)
    (hd : ∀ {e}, q.entries.get? id = some e → e.repeats = none ∨ e.processedOn.isSome) :
    Sound clock (q.eraseEntry id) := by
  have kept {id' e'} (he : (q.eraseEntry id).entries.get? id' = some e') :
      id ≠ id' ∧ q.entries.get? id' = some e' := by
    simpa [eraseEntry] using he
  refine { h with
    ownId := fun he => h.ownId (kept he).2
    made := fun he => h.made (kept he).2
    past := fun he => h.past (kept he).2
    follows := fun he => h.follows (kept he).2
    waits := fun {f r t} hr hn => ?_
    held := fun {id'} hh => ?_ }
  · obtain ⟨e', he', hk, hs, hf, hp⟩ := h.current hr hn
    refine ⟨e', ?_, hp⟩
    have ne : id ≠ instanceId r.key r.spec t := by
      rintro rfl
      rcases hd he' with hd | hd
      · simp [hs] at hd
      · simp [hp] at hd
    simp [eraseEntry, ne, he']
  · obtain ⟨e', he', hp⟩ := h.held hh
    have ne : id ≠ id' := by
      rintro rfl
      exact Bool.false_ne_true (ha.symm.trans hh)
    exact ⟨e', by simp [eraseEntry, ne, he'], hp⟩

end Sound

/-- Without a record and the instance that it waits for. -/
def eraseChain (q : LocalQueue) (r : RepeatRecord) : LocalQueue :=
  match r.currentInstance with
  | some e => (q.eraseRecord r.field).eraseEntry e.id
  | none => q.eraseRecord r.field

theorem eraseChain_of_next {q : LocalQueue} {r : RepeatRecord} {t : Instant} (h : r.next = some t) :
    q.eraseChain r = (q.eraseRecord r.field).eraseEntry (instanceId r.key r.spec t) := by
  simp [eraseChain, RepeatRecord.currentInstance, h, StoredEntry.ofFire]

theorem eraseChain_of_no_next {q : LocalQueue} {r : RepeatRecord} (h : r.next = none) :
    q.eraseChain r = q.eraseRecord r.field := by
  simp [eraseChain, RepeatRecord.currentInstance, h]

section

variable {q : LocalQueue} {e : StoredEntry} {r : RepeatRecord} {f id : String}

theorem eraseChain_repeats (q : LocalQueue) (r : RepeatRecord) (f : String) :
    (q.eraseChain r).repeats.get? f = if r.field = f then none else q.repeats.get? f := by
  cases hn : r.next with
  | none => simp [eraseChain_of_no_next hn, eraseRecord]
  | some t => simp [eraseChain_of_next hn, eraseRecord, eraseEntry]

theorem eraseChain_active (q : LocalQueue) (r : RepeatRecord) :
    (q.eraseChain r).active = q.active := by
  cases hn : r.next with
  | none => simp [eraseChain_of_no_next hn, eraseRecord]
  | some t => simp [eraseChain_of_next hn, eraseRecord, eraseEntry]

theorem eraseChain_entries_eq_some :
    (q.eraseChain r).entries.get? id = some e ↔
      q.entries.get? id = some e ∧ ∀ t, r.next = some t → instanceId r.key r.spec t ≠ id := by
  cases hn : r.next with
  | none => simp [eraseChain_of_no_next hn, eraseRecord]
  | some t => simp [eraseChain_of_next hn, eraseRecord, eraseEntry, and_comm]

theorem insertIfAbsent_entries_eq_some {new : StoredEntry} :
    (q.insertIfAbsent new).entries.get? id = some e ↔
      q.entries.get? id = some e ∨ q.entries.get? id = none ∧ id = new.id ∧ e = new := by
  simp only [insertIfAbsent, Table.get?_setIfAbsent, Table.contains_eq_false_iff]
  by_cases h : new.id = id
  · subst h
    cases hq : q.entries.get? new.id <;> simp [eq_comm]
  · simp [h, Ne.symm h]

theorem putRecord_entries_eq_some :
    (q.putRecord r).entries.get? id = some e ↔
      q.entries.get? id = some e ∨ q.entries.get? id = none ∧
        ∃ t, r.next = some t ∧ id = instanceId r.key r.spec t ∧
          e = .ofFire r.key r.spec t r.payload := by
  cases hn : r.next with
  | none => simp [putRecord, setRecord, insertCurrent, RepeatRecord.currentInstance, hn]
  | some t =>
    simp only [putRecord, setRecord, insertCurrent, RepeatRecord.currentInstance, hn,
      Option.map_some, insertIfAbsent_entries_eq_some, Option.some.injEq, exists_eq_left']
    rfl

theorem putRecord_repeats (q : LocalQueue) (r : RepeatRecord) (f : String) :
    (q.putRecord r).repeats.get? f = if r.field = f then some r else q.repeats.get? f := by
  cases hn : r.next <;>
    simp [putRecord, setRecord, insertCurrent, RepeatRecord.currentInstance, hn, insertIfAbsent]

theorem putRecord_active (q : LocalQueue) (r : RepeatRecord) :
    (q.putRecord r).active = q.active := by
  cases hn : r.next <;>
    simp [putRecord, setRecord, insertCurrent, RepeatRecord.currentInstance, hn, insertIfAbsent]

end

namespace Sound

variable {clock now : Instant} {q : LocalQueue} {e : StoredEntry} {r : RepeatRecord} {f id : String}

theorem dropChain (h : Sound clock q) (hr : q.repeats.get? f = some r) :
    Sound clock (q.eraseChain r) := by
  obtain rfl := h.ownField hr
  have kept {id e} (he : (q.eraseChain r).entries.get? id = some e) : q.entries.get? id = some e :=
    (eraseChain_entries_eq_some.mp he).1
  have other {f r'} (hr' : (q.eraseChain r).repeats.get? f = some r') :
      r.field ≠ f ∧ q.repeats.get? f = some r' := by
    simpa [eraseChain_repeats] using hr'
  refine {
    ownId := fun he => h.ownId (kept he)
    made := fun he => h.made (kept he)
    past := fun he => h.past (kept he)
    follows := fun {id e spec} he hs => ?follows
    ownField := fun hr' => h.ownField (other hr').2
    usable := fun hr' => h.usable (other hr').2
    firable := fun hr' => h.firable (other hr').2
    waits := fun {f r' t'} hr' hn' => ?waits
    held := fun {id} hh => ?held }
  case follows =>
    have before := h.follows (kept he) hs
    obtain ⟨hu, hid, _⟩ := (h.made (kept he)).fire spec hs
    rw [eraseChain_repeats]
    split
    · next hf =>
      -- a fire that was never claimed would be the one that the chain waits for
      rw [← hf, hr] at before
      cases hp : e.processedOn with
      | none =>
        rw [StoredEntry.follows_of_none hp] at before
        obtain ⟨_, same, hn⟩ := before
        cases same
        obtain ⟨hk, rfl⟩ := repeatField_inj (h.usable hr).colonless hu.colonless hf
        refine absurd ?_ ((eraseChain_entries_eq_some.mp he).2 _ hn)
        rw [hk, ← hid, h.ownId (kept he)]
      | some p =>
        rw [StoredEntry.follows_of_some hp] at before ⊢
        exact ⟨before.1, fun _ absent => by cases absent⟩
    · exact before
  case waits =>
    obtain ⟨hf, hr'⟩ := other hr'
    obtain ⟨e, he, hp⟩ := h.waits hr' hn'
    refine ⟨e, eraseChain_entries_eq_some.mpr ⟨he, fun t _ hid => hf ?_⟩, hp⟩
    obtain ⟨hk, hs, _⟩ := instanceId_inj (h.usable hr).colonless (h.usable hr').colonless hid
    rw [← h.ownField hr', RepeatRecord.field, RepeatRecord.field, hk, hs]
  case held =>
    rw [eraseChain_active] at hh
    obtain ⟨e, he, hp⟩ := h.held hh
    refine ⟨e, eraseChain_entries_eq_some.mpr ⟨he, ?_⟩, hp⟩
    rintro t hn rfl
    simp [(h.current_unique hr hn he).2] at hp

/-! ## Putting in -/

/-- A record that all entries of its chain follow comes with the instance that it waits for. -/
theorem putRecord (h : Sound now q) (hu : r.spec.Usable) (hw : ∀ t, r.next = some t → t.Firable)
    (hf : ∀ {id e}, q.entries.get? id = some e → e.key = r.key → e.repeats = some r.spec →
      e.Follows (some r)) : Sound now (q.putRecord r) := by
  have stored {id e} : (q.putRecord r).entries.get? id = some e ↔ _ := putRecord_entries_eq_some
  have records {f r'} (hr' : (q.putRecord r).repeats.get? f = some r') :
      (f = r.field ∧ r' = r) ∨ q.repeats.get? f = some r' := by
    rw [putRecord_repeats] at hr'
    split at hr'
    · next hf =>
      cases hr'
      exact .inl ⟨hf.symm, rfl⟩
    · exact .inr hr'
  refine {
    ownId := fun {id e} he => ?ownId
    made := fun {id e} he => ?made
    past := fun {id e p} he hp => ?past
    follows := fun {id e spec} he hs => ?follows
    ownField := fun {f r'} hr' => ?ownField
    usable := fun {f r'} hr' => ?usable
    firable := fun {f r' t} hr' hn => ?firable
    waits := fun {f r' t} hr' hn => ?waits
    held := fun {id} hh => ?held }
  case ownId =>
    rcases stored.mp he with he | ⟨_, t, _, rfl, rfl⟩
    · exact h.ownId he
    · rfl
  case made =>
    rcases stored.mp he with he | ⟨_, t, ht, rfl, rfl⟩
    · exact h.made he
    · exact StoredEntry.wellMade_ofFire hu (hw t ht).whole
  case past =>
    rcases stored.mp he with he | ⟨_, t, _, rfl, rfl⟩
    · exact h.past he hp
    · cases hp
  case follows =>
    rw [putRecord_repeats]
    rcases stored.mp he with he | ⟨_, t, ht, rfl, rfl⟩
    · split
      · next hfield =>
        have hs' := ((h.made he).fire spec hs).1.colonless
        obtain ⟨hk, rfl⟩ := repeatField_inj hu.colonless hs' hfield
        exact hf he hk.symm hs
      · exact h.follows he hs
    · cases hs
      rw [if_pos (by rfl)]
      exact ⟨r, rfl, ht⟩
  case ownField =>
    rcases records hr' with ⟨rfl, rfl⟩ | hr'
    · rfl
    · exact h.ownField hr'
  case usable =>
    rcases records hr' with ⟨_, rfl⟩ | hr'
    · exact hu
    · exact h.usable hr'
  case firable =>
    rcases records hr' with ⟨_, rfl⟩ | hr'
    · exact hw t hn
    · exact h.firable hr' hn
  case waits =>
    rcases records hr' with ⟨_, rfl⟩ | hr'
    · cases he : q.entries.get? (instanceId r'.key r'.spec t) with
      | none => exact ⟨_, stored.mpr (.inr ⟨he, t, hn, rfl, rfl⟩), rfl⟩
      | some e =>
        refine ⟨e, stored.mpr (.inl he), ?_⟩
        obtain ⟨hk, hs, rfl⟩ := (h.made he).eq_of_instanceId hu (hw t hn).whole (h.ownId he)
        have follows := hf he hk hs
        cases hp : e.processedOn with
        | none => rfl
        | some p =>
          rw [StoredEntry.follows_of_some hp] at follows
          exact absurd (follows.2 r' rfl _ hn) (not_lt.mpr follows.1)
    · obtain ⟨e, he, hp⟩ := h.waits hr' hn
      exact ⟨e, stored.mpr (.inl he), hp⟩
  case held =>
    rw [putRecord_active] at hh
    obtain ⟨e, he, hp⟩ := h.held hh
    exact ⟨e, stored.mpr (.inl he), hp⟩

/-- A record for fires yet to come. -/
theorem addChain (h : Sound now q) (hr : q.repeats.get? r.field = none) (hu : r.spec.Usable)
    (hn : ∀ t, r.next = some t → now < t ∧ t.Firable) : Sound now (q.putRecord r) := by
  refine h.putRecord hu (fun t ht => (hn t ht).2) fun {id e} he hk hs => ?_
  have before := h.follows he hs
  rw [hk, show repeatField r.key r.spec = r.field from rfl, hr] at before
  cases hp : e.processedOn with
  | none =>
    rw [StoredEntry.follows_of_none hp] at before
    obtain ⟨_, h, _⟩ := before
    cases h
  | some p =>
    rw [StoredEntry.follows_of_some hp] at before ⊢
    refine ⟨before.1, fun r' hr' t ht => ?_⟩
    cases hr'
    exact lt_of_le_of_lt (h.past he hp) (hn t ht).1

/-- A record that is there may get another payload. -/
theorem setPayload (h : Sound clock q) (hr : q.repeats.get? f = some r) (payload : Json) :
    Sound clock (q.putRecord { r with payload }) := by
  have usable : RepeatSpec.Usable r.spec := h.usable hr
  refine h.putRecord usable (fun t ht => h.firable hr ht) fun {id e} he hk hs => ?_
  have before := h.follows he hs
  rw [hk, show repeatField r.key r.spec = r.field from rfl, h.ownField hr, hr] at before
  exact before.of_next rfl

theorem addSingle (h : Sound clock q) (key : String) (fireAt : Instant) (payload : Json) :
    Sound clock (q.insertIfAbsent (.single key fireAt payload)) := by
  have stored {id e} : (q.insertIfAbsent (.single key fireAt payload)).entries.get? id = some e ↔ _ :=
    insertIfAbsent_entries_eq_some
  refine { h with
    ownId := fun {id e} he => ?ownId
    made := fun {id e} he => ?made
    past := fun {id e p} he hp => ?past
    follows := fun {id e spec} he hs => ?follows
    waits := fun {f r t} hr hn => ?waits
    held := fun {id} hh => ?held }
  case ownId =>
    rcases stored.mp he with he | ⟨_, rfl, rfl⟩
    · exact h.ownId he
    · rfl
  case made =>
    rcases stored.mp he with he | ⟨_, rfl, rfl⟩
    · exact h.made he
    · exact StoredEntry.wellMade_single key fireAt payload
  case past =>
    rcases stored.mp he with he | ⟨_, rfl, rfl⟩
    · exact h.past he hp
    · cases hp
  case follows =>
    rcases stored.mp he with he | ⟨_, rfl, rfl⟩
    · exact h.follows he hs
    · cases hs
  case waits =>
    obtain ⟨e, he, hp⟩ := h.waits hr hn
    exact ⟨e, stored.mpr (.inl he), hp⟩
  case held =>
    obtain ⟨e, he, hp⟩ := h.held hh
    exact ⟨e, stored.mpr (.inl he), hp⟩

/-! ## Claims -/

/-- Only claimed entries lose or change their claim. -/
theorem withActive (h : Sound clock q) {active : Table String Instant}
    (ha : ∀ id, active.contains id = true → q.active.contains id = true) :
    Sound clock { q with active } :=
  { h with held := fun hh => h.held (ha _ hh) }

/-- An entry is claimed whose fire has come, and past which its record has moved on. -/
theorem holdEntry (h : Sound now q) (hm : e.WellMade)
    (hf : ∀ spec, e.repeats = some spec → e.fireAt ≤ now ∧
      ∀ r, q.repeats.get? (repeatField e.key spec) = some r → ∀ t, r.next = some t → now < t)
    (expiry : Instant) : Sound now (q.holdEntry { e with processedOn := some now } expiry) := by
  have stored {id e'} : (q.holdEntry { e with processedOn := some now } expiry).entries.get? id =
      some e' ↔ if e.id = id then { e with processedOn := some now } = e'
        else q.entries.get? id = some e' := by
    simp only [LocalQueue.holdEntry, Table.get?_set]
    split <;> simp
  refine { h with
    ownId := fun {id e'} he => ?ownId
    made := fun {id e'} he => ?made
    past := fun {id e' p} he hp => ?past
    follows := fun {id e' spec} he hs => ?follows
    waits := fun {f r t} hr hn => ?waits
    held := fun {id} hh => ?held }
  case ownId =>
    rw [stored] at he
    split at he
    · next hid => exact he ▸ hid
    · exact h.ownId he
  case made =>
    rw [stored] at he
    split at he
    · exact he ▸ ⟨hm.single, hm.fire⟩
    · exact h.made he
  case past =>
    rw [stored] at he
    split at he
    · subst he
      cases hp
      exact le_refl _
    · exact h.past he hp
  case follows =>
    rw [stored] at he
    split at he
    · subst he
      exact hf spec hs
    · exact h.follows he hs
  case waits =>
    obtain ⟨e', he, hp⟩ := h.waits hr hn
    refine ⟨e', stored.mpr ?_, hp⟩
    rw [if_neg]
    · exact he
    · intro hid
      obtain ⟨hk, hs, rfl⟩ := hm.eq_of_instanceId (h.usable hr) (h.firable hr hn).whole hid
      obtain ⟨due, later⟩ := hf _ hs
      have field : q.repeats.get? (repeatField e.key r.spec) = some r := by
        rw [hk, show repeatField r.key r.spec = r.field from rfl, h.ownField hr]
        exact hr
      exact absurd (later r field _ hn) (not_lt.mpr due)
  case held =>
    simp only [LocalQueue.holdEntry, Table.contains_set, Bool.or_eq_true, decide_eq_true_eq] at hh
    by_cases hid : e.id = id
    · exact ⟨_, stored.mpr (by rw [if_pos hid]), rfl⟩
    · obtain ⟨e', he, hp⟩ := h.held (hh.resolve_left hid)
      exact ⟨e', stored.mpr (by rwa [if_neg hid]), hp⟩

end Sound

end LocalQueue

end Timetable
