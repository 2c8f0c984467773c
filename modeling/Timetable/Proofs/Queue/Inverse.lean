import Timetable.Proofs.Queue.Apart
import Timetable.Proofs.Queue.SharedCalm

/-!
# Taking out what was put in

What is put into a queue under a key that has no entry yet belongs to that key (`CalmQueue.Gains`), and the removal that
goes with it takes all of it out again: every table is as it was, and the removal says whether there was anything
(`CalmQueue.Reverts`). Both queues are `CalmQueue.Revertible` in this sense.

The places that are used have to be free. No entry of another key can take up the identifier of an entry of this one
(`LocalQueue.Tidy.unused_instanceId`, `SharedQueue.absent_instanceId`). A record of another key can lie in the field of
one of its records, so that this field is asked to be empty.
-/

namespace Timetable

/-! ## One pair more -/

namespace Table

variable {κ α : Type} [DecidableEq κ] {t : Table κ α} {k : κ} {a : α} {own : κ → α → Prop}

/-- The other table is this one, or has one pair more, in a free place. -/
def Extends (own : κ → α → Prop) (t t' : Table κ α) : Prop :=
  t' = t ∨ ∃ k a, own k a ∧ t.contains k = false ∧ t' = t.set k a

theorem Extends.refl : Extends own t t := .inl rfl

theorem extends_set (allowed : own k a) (free : t.contains k = false) : Extends own t (t.set k a) :=
  .inr ⟨k, a, allowed, free, rfl⟩

theorem set_ne (a : α) (free : t.contains k = false) : t.set k a ≠ t := fun same => by
  have there : (t.set k a).contains k = true := by simp
  rw [same, free] at there
  cases there

end Table

/-! ## First records -/

namespace RepeatRecord

variable {key : String} {spec : RepeatSpec} {payload : Json} {now : Instant} {r : RepeatRecord} {e : StoredEntry}

theorem named_of_create (created : create key spec payload now = .ok r) :
    r.key = key ∧ r.field = repeatField key spec ∧ spec.Colonless := by
  obtain ⟨same, fires⟩ := advance_eq_ok created
  obtain ⟨keys, specs, -⟩ := chain_eq_iff.mp same
  exact ⟨keys, by rw [field, keys, specs], (RepeatSpec.parsed_of_nextAfter fires).colonless⟩

theorem instance_of_create (created : create key spec payload now = .ok r) (fire : r.currentInstance = some e) :
    ∃ t, e.id = instanceId key spec t := by
  obtain ⟨keys, specs, -⟩ := chain_eq_iff.mp (advance_eq_ok created).1
  obtain ⟨t, -, rfl⟩ := Option.map_eq_some_iff.mp fire
  exact ⟨t, by rw [StoredEntry.ofFire, keys, specs]⟩

/-- The first record can be read again. -/
theorem decode_of_create (word : spec.Word) (keepable : payload.Keepable)
    (created : create key spec payload now = .ok r) :
    ∃ payload, SharedQueue.decodeRecord (SharedQueue.recordText r) = .ok { r with payload } := by
  obtain ⟨same, fires⟩ := advance_eq_ok created
  obtain ⟨-, specs, payloads⟩ := chain_eq_iff.mp same
  obtain ⟨payload', read, -⟩ := keepable.read
  have next (t : Instant) (fire : r.next = some t) : t.Storable :=
    (RepeatSpec.nextAfter_firable (fire ▸ fires)).storable
  refine ⟨payload', SharedQueue.decode_text_eq_ok.mpr ?_⟩
  rw [ofJson?_reread, specs, word.read, payloads, read, Instant.Storable.optional_read next]
  rfl

end RepeatRecord

/-- No entry has a key. -/
def QueueContents.Lacks (c : QueueContents) (key : String) : Prop := ∀ id e, c.entry id = some e → e.key ≠ key

/-! ## In memory -/

namespace LocalQueue

variable {now : Instant} {q : LocalQueue} {key id : String} {spec : RepeatSpec} {r : RepeatRecord} {e : StoredEntry}

/-- What comes in has a key, and all else is as it was. -/
structure Gains (key : String) (q q' : LocalQueue) : Prop where
  repeats : q.repeats.Extends (fun f r => r.key = key ∧ r.field = f) q'.repeats
  entries : q.entries.Extends (fun id e => e.key = key ∧ e.id = id) q'.entries
  active : q'.active = q.active

/-- Nothing is stored or claimed under an identifier. -/
structure Unused (q : LocalQueue) (id : String) : Prop where
  entry : q.entries.contains id = false
  claim : q.active.contains id = false

theorem Tidy.unused (h : q.Tidy) (lacks : q.contents.Lacks key) (own : ∀ e, q.entries.get? id = some e → e.key = key) :
    q.Unused id := by
  have free : q.entries.contains id = false := Table.contains_eq_false_iff.mpr <|
    Option.eq_none_iff_forall_ne_some.mpr fun e stored => lacks id e stored (own e stored)
  refine ⟨free, ?_⟩
  by_contra held
  rw [Bool.not_eq_false] at held
  exact Bool.false_ne_true (free.symm.trans (h.held held))

theorem Tidy.unused_singleId (h : q.Tidy) (lacks : q.contents.Lacks key) : q.Unused (singleId key) :=
  h.unused lacks fun _ => h.key_of_singleId

theorem Tidy.unused_instanceId (h : q.Tidy) (lacks : q.contents.Lacks key) (colonless : spec.Colonless) (t : Instant) :
    q.Unused (instanceId key spec t) := h.unused lacks fun _ => h.key_of_instanceId colonless

/-! ### Single entries -/

theorem insertIfAbsent_unused (h : q.Unused e.id) :
    q.insertIfAbsent e = { q with entries := q.entries.set e.id e } := by
  simp only [insertIfAbsent, Table.setIfAbsent, h.entry, Bool.false_eq_true, if_false]

theorem removeDelayed_unused (h : q.Unused (singleId key)) : (removeDelayed key).on q = (.ok false, q) := by
  rw [removeDelayed_on, h.entry, Bool.not_false, Bool.or_true, if_pos rfl]

theorem removeDelayed_single (h : q.Unused (singleId key)) (t : Instant) (payload : Json) :
    (removeDelayed key).on (q.insertIfAbsent (.single key t payload)) = (.ok true, q) := by
  have there : (q.entries.set (singleId key) (.single key t payload)).contains (singleId key) = true := by simp
  rw [removeDelayed_on, insertIfAbsent_unused h]
  simp only [StoredEntry.single] at there ⊢
  simp only [h.claim, there, Bool.not_true, Bool.or_false, Bool.false_eq_true, if_false, eraseEntry,
    Table.erase_set_of_not_contains h.entry]

/-! ### Records -/

/-- A record is put in with the entry for its next fire. -/
theorem putRecord_unused (unused : ∀ e, r.currentInstance = some e → q.Unused e.id) :
    q.putRecord r = { q with
      repeats := q.repeats.set r.field r
      entries := match r.currentInstance with
        | some e => q.entries.set e.id e
        | none => q.entries } := by
  cases fire : r.currentInstance with
  | none => simp only [putRecord, insertCurrent, fire, setRecord]
  | some e => simp only [putRecord, insertCurrent, fire, setRecord, insertIfAbsent_unused (unused e fire)]

theorem gains_putRecord (own : r.key = key) (free : q.repeats.contains r.field = false)
    (unused : ∀ e, r.currentInstance = some e → q.Unused e.id) : Gains key q (q.putRecord r) := by
  rw [putRecord_unused unused]
  refine ⟨Table.extends_set ⟨own, rfl⟩ free, ?_, rfl⟩
  cases fire : r.currentInstance with
  | none => exact .refl
  | some e =>
    obtain ⟨t, -, rfl⟩ := Option.map_eq_some_iff.mp fire
    exact Table.extends_set ⟨own, rfl⟩ (unused _ fire).entry

theorem removeRepeating_none (absent : q.repeats.get? (repeatField key spec) = none) :
    (removeRepeating key spec).on q = (.ok false, q) := by
  simp only [removeRepeating, Act.on_bind, Act.on_get, absent]
  rfl

theorem removeRepeating_putRecord (field : r.field = repeatField key spec) (free : q.repeats.contains r.field = false)
    (unused : ∀ e, r.currentInstance = some e → q.Unused e.id) :
    (removeRepeating key spec).on (q.putRecord r) = (.ok true, q) := by
  have found : (q.putRecord r).repeats.get? (repeatField key spec) = some r := by
    rw [putRecord_repeats, if_pos field]
  simp only [removeRepeating, Act.on_bind, Act.on_get, found]
  rw [putRecord_unused unused, ← field]
  cases fire : r.currentInstance with
  | none =>
    simp only [eraseRecord, Table.erase_set_of_not_contains free]
    rfl
  | some e =>
    obtain ⟨entry, claim⟩ := unused e fire
    simp only [eraseRecord, eraseEntry, claim, Bool.false_eq_true, if_false, Table.erase_set_of_not_contains free,
      Table.erase_set_of_not_contains entry]
    rfl

end LocalQueue

/-! ## In a shared keyspace -/

namespace SharedQueue

open Program

variable {clock now : Instant} {s : Keyspace} {key id : String} {spec : RepeatSpec} {r : RepeatRecord}
  {e : StoredEntry} {payload : Json}

/-- What comes in has a key, and all else is as it was. -/
structure Gains (key : String) (s s' : Keyspace) : Prop where
  repeats : s.repeats.Extends
    (fun f text => ∃ r : RepeatRecord, r.key = key ∧ r.field = f ∧ text = recordText r) s'.repeats
  entries : s.entries.Extends
    (fun id text => ∃ e : StoredEntry, e.key = key ∧ e.id = id ∧ text = entryText e) s'.entries
  delayed : s.delayed.Extends (fun id score => ∃ e : StoredEntry, e.key = key ∧ e.id = id ∧
    s'.entries.get? id = some (entryText e) ∧ score = e.fireAt.millis) s'.delayed
  active : s'.active = s.active
  leases : s'.leases = s.leases

theorem key_of_instanceId (h : Kept (Readable clock) s) (colonless : spec.Colonless) {t : Instant}
    (stored : (contents s).entry (instanceId key spec t) = some e) : e.key = key := by
  obtain ⟨-, id, writable⟩ := entry_eq_some h stored
  cases repeats : e.repeats with
  | none => exact absurd ((writable.single repeats).symm.trans id) singleId_ne_instanceId
  | some spec' =>
    obtain ⟨writable, own, -⟩ := writable.fire spec' repeats
    exact (instanceId_inj writable.parsed.colonless colonless (own.symm.trans id)).1

/-- Nothing lies under an identifier that could only be taken by an entry of this key. -/
theorem absent_of_lacks (h : Kept (Readable clock) s) (lacks : (contents s).Lacks key)
    (own : ∀ e, (contents s).entry id = some e → e.key = key) : At s id .absent := by
  obtain ⟨c, hc⟩ := h.consistent.cell id
  have none : (contents s).entry id = none :=
    Option.eq_none_iff_forall_ne_some.mpr fun e stored => lacks id e stored (own e stored)
  have free : s.entries.contains id = false := by rw [← h.holds.isSome_entry id, none, Option.isSome_none]
  exact hc.absent_of_free free ▸ hc

theorem absent_singleId (h : Kept (Readable clock) s) (lacks : (contents s).Lacks key) : At s (singleId key) .absent :=
  absent_of_lacks h lacks fun _ => (tidy_contents h).key_of_singleId

theorem absent_instanceId (h : Kept (Readable clock) s) (lacks : (contents s).Lacks key) (colonless : spec.Colonless)
    (t : Instant) : At s (instanceId key spec t) .absent :=
  absent_of_lacks h lacks fun _ => key_of_instanceId h colonless

/-- Every record in a readable keyspace is read. -/
theorem get?_repeats_of_record (h : Kept (Readable clock) s) (absent : (contents s).record id = none) :
    s.repeats.get? id = none := by
  refine Option.eq_none_iff_forall_ne_some.mpr fun text stored => ?_
  obtain ⟨r, read, -⟩ := h.holds.read_record h.consistent stored
  cases absent.symm.trans (contents_record stored read)

/-! ### Single entries -/

theorem At.not_contains (h : At s id .absent) : s.entries.contains id = false ∧ s.delayed.contains id = false :=
  ⟨h.contains.1, h.contains.2.1⟩

theorem dropPending_addPending (h : At s id .absent) (text : String) (score : Int) :
    (s.addPending id text score).dropPending id = s := by
  obtain ⟨entries, delayed⟩ := h.not_contains
  simp only [Keyspace.addPending, Keyspace.dropPending, Table.erase_set_of_not_contains entries,
    Table.erase_set_of_not_contains delayed]

theorem gains_addPending (h : At s e.id .absent) :
    Gains e.key s (s.addPending e.id (entryText e) e.fireAt.millis) := by
  obtain ⟨entries, delayed⟩ := h.not_contains
  have stored : (s.entries.set e.id (entryText e)).get? e.id = some (entryText e) := by simp
  exact ⟨.refl, Table.extends_set ⟨e, rfl, rfl, rfl⟩ entries, Table.extends_set ⟨e, rfl, rfl, stored, rfl⟩ delayed,
    rfl, rfl⟩

theorem insertIfAbsent_adds (h : At s e.id .absent) {E : QueueError → Keyspace → Prop} :
    Does (insertIfAbsent e) s (fun _ s' => s' = s.addPending e.id (entryText e) e.fireAt.millis) E := by
  refine .send trivial (.done ?_)
  rw [Command.outcome, h.not_contains.1]
  rfl

theorem removePending_adds (h : At s id .absent) (text : String) (score : Int) {E : QueueError → Keyspace → Prop} :
    Does (ask (.removePending id)) (s.addPending id text score) (fun removed s' => removed = true ∧ s' = s) E := by
  have there : (s.addPending id text score).delayed.contains id = true := by simp [Keyspace.addPending]
  refine .send trivial (.done ?_)
  rw [Command.outcome, there, if_pos rfl]
  exact ⟨rfl, dropPending_addPending h text score⟩

theorem removeDelayed_absent (h : At s (singleId key) .absent) {E : QueueError → Keyspace → Prop} :
    Does (removeDelayed key) s (fun removed s' => removed = false ∧ s' = s) E := by
  refine .send trivial (.done ?_)
  rw [Command.outcome, h.not_contains.2]
  exact ⟨rfl, rfl⟩

/-! ### Records -/

/-- With the text of a record. -/
def withRecord (s : Keyspace) (r : RepeatRecord) : Keyspace :=
  { s with repeats := s.repeats.set r.field (recordText r) }

/-- With the text of a record and the entry for its next fire. -/
def withChain (s : Keyspace) (r : RepeatRecord) : Keyspace :=
  match r.currentInstance with
  | some e => (withRecord s r).addPending e.id (entryText e) e.fireAt.millis
  | none => withRecord s r

theorem withChain_repeats (s : Keyspace) (r : RepeatRecord) :
    (withChain s r).repeats = s.repeats.set r.field (recordText r) := by
  unfold withChain
  cases r.currentInstance <;> rfl

theorem At.withRecord {c : Cell} (h : At s id c) (r : RepeatRecord) : At (withRecord s r) id c :=
  h.same ⟨rfl, rfl, rfl, rfl⟩

theorem hdel_withRecord (free : s.repeats.contains r.field = false) :
    (Command.outcome (.hdel .repeats r.field) (withRecord s r)).2 = s := by
  simp only [Command.outcome, Keyspace.hash, Keyspace.withHash, withRecord, Table.erase_set_of_not_contains free]

theorem hdel_addPending_withRecord (free : s.repeats.contains r.field = false) (id text : String) (score : Int) :
    (Command.outcome (.hdel .repeats r.field) ((withRecord s r).addPending id text score)).2 =
      s.addPending id text score := by
  simp only [Command.outcome, Keyspace.hash, Keyspace.withHash, Keyspace.addPending, withRecord,
    Table.erase_set_of_not_contains free]

theorem gains_withChain (own : r.key = key) (free : s.repeats.contains r.field = false)
    (absent : ∀ e, r.currentInstance = some e → At s e.id .absent) : Gains key s (withChain s r) := by
  have record : s.repeats.Extends (fun f text => ∃ r : RepeatRecord, r.key = key ∧ r.field = f ∧ text = recordText r)
      (s.repeats.set r.field (recordText r)) := Table.extends_set ⟨r, own, rfl, rfl⟩ free
  unfold withChain
  cases fire : r.currentInstance with
  | none => exact ⟨record, .refl, .refl, rfl, rfl⟩
  | some e =>
    obtain ⟨t, -, rfl⟩ := Option.map_eq_some_iff.mp fire
    subst own
    exact { gains_addPending (absent _ fire) with repeats := record }

theorem saveChain_adds (absent : ∀ e, r.currentInstance = some e → At s e.id .absent)
    {E : QueueError → Keyspace → Prop} :
    Does (saveRecord r >>= fun _ => insertCurrent r) s (fun _ s' => s' = withChain s r) E := by
  refine .askThen trivial ?_
  show Does (insertCurrent r) (withRecord s r) _ _
  unfold insertCurrent withChain
  cases fire : r.currentInstance with
  | none => exact .done rfl
  | some e => exact insertIfAbsent_adds ((absent e fire).withRecord r)

theorem loadRecord_none (absent : s.repeats.get? id = none) {E : QueueError → Keyspace → Prop} :
    Does (loadRecord id) s (fun record s' => record = none ∧ s' = s) E := by
  refine .askThen trivial ?_
  dsimp only [Command.outcome, Keyspace.hash]
  rw [absent]
  exact .done ⟨rfl, rfl⟩

theorem loadRecord_some {text : String} (stored : s.repeats.get? id = some text) (read : decodeRecord text = .ok r)
    {E : QueueError → Keyspace → Prop} : Does (loadRecord id) s (fun record s' => record = some r ∧ s' = s) E := by
  refine .askThen trivial ?_
  dsimp only [Command.outcome, Keyspace.hash]
  rw [stored]
  dsimp only
  rw [read]
  exact .done ⟨rfl, rfl⟩

theorem removeRepeating_none (absent : s.repeats.get? (repeatField key spec) = none)
    {E : QueueError → Keyspace → Prop} :
    Does (removeRepeating key spec) s (fun removed s' => removed = false ∧ s' = s) E := by
  refine (loadRecord_none absent).bind ?_
  rintro _ _ ⟨rfl, rfl⟩
  exact .done ⟨rfl, rfl⟩

theorem removeRepeating_withChain (field : r.field = repeatField key spec)
    (read : decodeRecord (recordText r) = .ok { r with payload }) (free : s.repeats.contains r.field = false)
    (absent : ∀ e, r.currentInstance = some e → At s e.id .absent) {E : QueueError → Keyspace → Prop} :
    Does (removeRepeating key spec) (withChain s r) (fun removed s' => removed = true ∧ s' = s) E := by
  have stored : (withChain s r).repeats.get? (repeatField key spec) = some (recordText r) := by
    rw [withChain_repeats, Table.get?_set, if_pos field]
  refine (loadRecord_some stored read).bind ?_
  rintro _ _ ⟨rfl, rfl⟩
  refine .askThen trivial ?_
  rw [← field]
  unfold withChain
  -- the record is read with another payload, but its next fire has the same identifier
  cases fire : r.next with
  | none =>
    simp only [RepeatRecord.currentInstance, fire, Option.map_none]
    exact .done ⟨rfl, hdel_withRecord free⟩
  | some t =>
    have absent := absent (.ofFire r.key r.spec t r.payload) (by rw [RepeatRecord.currentInstance, fire]; rfl)
    simp only [RepeatRecord.currentInstance, fire, Option.map_some]
    refine Safe.bind (Q := fun _ s' => s' = s) (Safe.discard (P := (· = s)) ?_) fun _ _ same => .done ⟨rfl, same⟩
    rw [hdel_addPending_withRecord free]
    exact (removePending_adds absent ..).weaken fun _ _ removed => removed.2

/-- A record comes into a free field with the entry for its next fire, if it can be made at all. -/
theorem addRepeating_adds (h : Kept (Readable clock) s) (lacks : (contents s).Lacks key)
    (free : (contents s).record (repeatField key spec) = none) :
    Does (addRepeating now key spec payload) s
      (fun _ s' => ∃ r, RepeatRecord.create key spec payload now = .ok r ∧ s' = withChain s r ∧
        ∀ e, r.currentInstance = some e → At s e.id .absent)
      fun _ s' => s' = s := by
  unfold addRepeating
  refine (loadRecord_does h _).bind ?_
  rintro _ s ⟨rfl, rfl⟩
  rw [free]
  refine .ofExceptThen (fun _ _ => rfl) fun r created => ?_
  have absent (e : StoredEntry) (fire : r.currentInstance = some e) : At s e.id .absent := by
    obtain ⟨t, id⟩ := RepeatRecord.instance_of_create created fire
    exact id ▸ absent_instanceId h lacks (RepeatRecord.named_of_create created).2.2 t
  exact (saveChain_adds absent).weaken fun _ _ same => ⟨r, created, same, absent⟩

theorem addDelayed_adds (h : At s (singleId key) .absent) (millis : Nat) (payload : Json) :
    Does (addDelayed now key millis payload) s
      (fun _ s' => ∃ t, s' = s.addPending (singleId key) (entryText (.single key t payload)) t.millis)
      fun _ s' => s' = s := by
  unfold addDelayed
  cases now.addMillis? (signedWord millis) with
  | none => exact .fail rfl
  | some t =>
    exact (insertIfAbsent_adds (e := .single key t payload) h).weaken fun _ _ same => ⟨t, same⟩

end SharedQueue

/-! ## Both queues -/

namespace CalmQueue

/-- What comes into a queue has a key, and all else is as it was. -/
inductive Gains (key : String) : {σ ω : Type} → CalmQueue σ ω → ω → ω → Prop
  | memory {rules : ClaimRules} {q q' : LocalQueue} : LocalQueue.Gains key q q' → Gains key (memory rules) q q'
  | shared {rules : ClaimRules} {s s' : Keyspace} : SharedQueue.Gains key s s' → Gains key (shared rules) s s'

variable {σ ω : Type} {Q : CalmQueue σ ω} {s : σ} {key : String} {rules : ClaimRules}

/-- A removal leaves what was held before, and says whether it found anything else. -/
def Reverts (Q : CalmQueue σ ω) (remove : Act QueueError σ Bool) (before : ω) (s : σ) : Prop :=
  remove.Ends s (fun removed s' => Q.held s' = before ∧ (removed = true ↔ Q.held s ≠ before)) fun _ _ => False

/-- What is added has a key and is taken out again. Where nothing could be added there is nothing to take out. -/
def Returns (Q : CalmQueue σ ω) (key : String) (add : Act QueueError σ Unit) (remove : Act QueueError σ Bool) (s : σ) :
    Prop :=
  add.Ends s
    (fun _ s' => Q.held s' ≠ Q.held s ∧ Gains key Q (Q.held s) (Q.held s') ∧ Q.Reverts remove (Q.held s) s')
    fun _ s' => Q.held s' = Q.held s ∧ Q.Reverts remove (Q.held s) s'

/-- What is added under a key, in free places, is taken out again. -/
structure Revertible (Q : CalmQueue σ ω) (key : String) (s : σ) : Prop where
  repeating : ∀ {now spec payload}, RepeatSpec.Word spec → Q.Keeps payload →
    (Q.seen s).record (repeatField key spec) = none →
    Q.Returns key (Q.queue.addRepeating now key spec payload) (Q.queue.removeRepeating key spec) s
  delayed : ∀ now millis payload,
    Q.Returns key (Q.queue.addDelayed now key millis payload) (Q.queue.removeDelayed key) s
  nothing : Q.Reverts (Q.queue.removeDelayed key) (Q.held s) s

variable {remove : Act QueueError σ Bool} {before : ω}

theorem reverts_of_changed (changed : Q.held s ≠ before)
    (ends : remove.Ends s (fun removed s' => removed = true ∧ Q.held s' = before) fun _ _ => False) :
    Q.Reverts remove before s :=
  ends.mono (fun _ _ ⟨removed, restored⟩ => ⟨restored, iff_of_true removed changed⟩) fun _ _ h => h

theorem reverts_of_same (same : Q.held s = before)
    (ends : remove.Ends s (fun removed s' => removed = false ∧ Q.held s' = before) fun _ _ => False) :
    Q.Reverts remove before s := by
  refine ends.mono ?_ fun _ _ h => h
  rintro _ s' ⟨rfl, restored⟩
  exact ⟨restored, iff_of_false Bool.false_ne_true (not_not.mpr same)⟩

end CalmQueue

namespace LocalQueue

open CalmQueue

variable {rules : ClaimRules} {now : Instant} {q : LocalQueue} {key : String} {spec : RepeatSpec}

theorem addRepeating_returns (h : q.Tidy) (lacks : q.contents.Lacks key)
    (absent : q.repeats.get? (repeatField key spec) = none) (payload : Json) :
    (memory rules).Returns key (addRepeating now key spec payload) (removeRepeating key spec) q := by
  have on := addRepeating_on now key spec payload q
  rw [absent] at on
  cases created : RepeatRecord.create key spec payload now with
  | error e =>
    rw [created] at on
    exact (Act.ends_of_on_error on).mpr
      ⟨rfl, reverts_of_same rfl ((Act.ends_of_on_ok (removeRepeating_none absent)).mpr ⟨rfl, rfl⟩)⟩
  | ok r =>
    rw [created] at on
    obtain ⟨own, field, colonless⟩ := RepeatRecord.named_of_create created
    have free : q.repeats.contains r.field = false := Table.contains_eq_false_iff.mpr (field ▸ absent)
    have unused (e : StoredEntry) (fire : r.currentInstance = some e) : q.Unused e.id := by
      obtain ⟨t, id⟩ := RepeatRecord.instance_of_create created fire
      exact id ▸ h.unused_instanceId lacks colonless t
    have changed : q.putRecord r ≠ q := fun same => by
      rw [putRecord_unused unused] at same
      exact Table.set_ne r free (congrArg LocalQueue.repeats same)
    exact (Act.ends_of_on_ok on).mpr ⟨changed, .memory (gains_putRecord own free unused),
      reverts_of_changed changed ((Act.ends_of_on_ok (removeRepeating_putRecord field free unused)).mpr ⟨rfl, rfl⟩)⟩

theorem addDelayed_returns (h : q.Unused (singleId key)) (millis : Nat) (payload : Json) :
    (memory rules).Returns key (addDelayed now key millis payload) (removeDelayed key) q := by
  unfold addDelayed
  cases now.addMillis? (signedWord millis) with
  | none =>
    exact Act.ends_throw.mpr ⟨rfl, reverts_of_same rfl ((Act.ends_of_on_ok (removeDelayed_unused h)).mpr ⟨rfl, rfl⟩)⟩
  | some t =>
    have inserted := insertIfAbsent_unused (e := .single key t payload) h
    have changed : q.insertIfAbsent (.single key t payload) ≠ q := fun same =>
      Table.set_ne _ h.entry (congrArg LocalQueue.entries (inserted.symm.trans same))
    refine Act.ends_modify.mpr ⟨changed, .memory ?_,
      reverts_of_changed changed ((Act.ends_of_on_ok (removeDelayed_single h t payload)).mpr ⟨rfl, rfl⟩)⟩
    rw [inserted]
    exact ⟨.refl, Table.extends_set ⟨rfl, rfl⟩ h.entry, rfl⟩

end LocalQueue

namespace SharedQueue

open CalmQueue

variable {rules : ClaimRules} {clock now : Instant} {link : Link} {key : String} {spec : RepeatSpec} {payload : Json}
  {remove : Program Bool} {before : Keyspace}

theorem reverts_run_of_changed (changed : link.keys ≠ before)
    (does : Does remove link.keys (fun removed s' => removed = true ∧ s' = before) fun _ _ => False) :
    (shared rules).Reverts (remove.run .none) before link := reverts_of_changed changed (does.ends_calm rfl)

theorem reverts_run_of_same (same : link.keys = before)
    (does : Does remove before (fun removed s' => removed = false ∧ s' = before) fun _ _ => False) :
    (shared rules).Reverts (remove.run .none) before link := reverts_of_same same (does.ends_calm same)

theorem addRepeating_returns (h : Kept (Readable clock) link.keys) (lacks : (contents link.keys).Lacks key)
    (word : spec.Word) (keepable : payload.Keepable)
    (absent : (contents link.keys).record (repeatField key spec) = none) :
    (shared rules).Returns key ((addRepeating now key spec payload).run .none) ((removeRepeating key spec).run .none)
      link := by
  have free : link.keys.repeats.get? (repeatField key spec) = none := get?_repeats_of_record h absent
  refine ((addRepeating_adds h lacks absent).ends_calm rfl).mono ?_ ?_
  · rintro _ link' ⟨r, created, same, vacant⟩
    obtain ⟨own, field, -⟩ := RepeatRecord.named_of_create created
    obtain ⟨payload', read⟩ := RepeatRecord.decode_of_create word keepable created
    have free : link.keys.repeats.contains r.field = false := Table.contains_eq_false_iff.mpr (field ▸ free)
    have gains : SharedQueue.Gains key link.keys link'.keys := same ▸ gains_withChain own free vacant
    have changed : link'.keys ≠ link.keys := fun unchanged =>
      Table.set_ne (recordText r) free
        ((withChain_repeats link.keys r).symm.trans (congrArg Keyspace.repeats (same.symm.trans unchanged)))
    refine ⟨changed, .shared gains, reverts_run_of_changed changed ?_⟩
    rw [same]
    exact removeRepeating_withChain field read free vacant
  · intro _ link' same
    exact ⟨same, reverts_run_of_same same (removeRepeating_none free)⟩

theorem addDelayed_returns (h : At link.keys (singleId key) .absent) (millis : Nat) (payload : Json) :
    (shared rules).Returns key ((addDelayed now key millis payload).run .none) ((removeDelayed key).run .none)
      link := by
  refine ((addDelayed_adds h millis payload).ends_calm rfl).mono ?_ ?_
  · rintro _ link' ⟨t, same⟩
    have gains : SharedQueue.Gains key link.keys link'.keys :=
      same ▸ gains_addPending (e := .single key t payload) h
    have changed : link'.keys ≠ link.keys := fun unchanged =>
      Table.set_ne _ h.not_contains.1 (congrArg Keyspace.entries (same.symm.trans unchanged))
    refine ⟨changed, .shared gains, reverts_run_of_changed changed ?_⟩
    rw [same]
    exact removePending_adds h ..
  · intro _ link' same
    exact ⟨same, reverts_run_of_same same (removeDelayed_absent h)⟩

end SharedQueue

namespace CalmQueue

variable {σ ω : Type} {Q : CalmQueue σ ω} {s : σ} {clock : Instant} {key : String}

/-- Under a key without entries either queue gives back what it takes. -/
theorem Implemented.revertible (h : Q.Implemented) (reached : Q.Reached clock (Q.held s))
    (lacks : (Q.seen s).Lacks key) : Q.Revertible key s := by
  cases h with
  | memory rules =>
    obtain ⟨may, t₀, t, run⟩ := reached
    have tidy : LocalQueue.Tidy s := (LocalQueue.tidy_of_run run).1
    have single := tidy.unused_singleId lacks
    exact ⟨fun _ _ absent => LocalQueue.addRepeating_returns tidy lacks absent _,
      fun _ => LocalQueue.addDelayed_returns single,
      reverts_of_same rfl ((Act.ends_of_on_ok (LocalQueue.removeDelayed_unused single)).mpr ⟨rfl, rfl⟩)⟩
  | shared rules =>
    have kept := kept_of_reached reached
    have single := SharedQueue.absent_singleId kept lacks
    exact ⟨fun word keeps absent => SharedQueue.addRepeating_returns kept lacks word keeps absent,
      fun _ => SharedQueue.addDelayed_returns single,
      SharedQueue.reverts_run_of_same rfl (SharedQueue.removeDelayed_absent single)⟩

end CalmQueue

end Timetable
