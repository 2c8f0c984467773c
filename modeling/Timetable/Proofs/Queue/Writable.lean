import Timetable.Proofs.Queue.Legible
import Timetable.Proofs.Queue.Tidy

/-!
# What can be read again whatever is repeated

`Storable` leaves out milliseconds beyond a signed word. What is `Writable` may repeat any number of milliseconds that
fits an unsigned one, and is still read as it was written, up to the payload.

A keyspace is `Readable` if every text in it was written of something writable, and every entry that waits does so for
its own fire, or since a time that has come. So is every keyspace that a queue reaches (`SharedQueue.readable_of_run`),
and nothing in it ever fails to be read.
-/

namespace Timetable

open Json

/-! ## Specifications -/

namespace RepeatSpec

variable {spec : RepeatSpec} {clock now : Instant}

/-- Any expression, or a number of milliseconds that fits an unsigned word. -/
def Word : RepeatSpec → Prop
  | every millis => millis < wordLimit
  | cron _ => True

/-- What a record may repeat. -/
structure Writable (spec : RepeatSpec) : Prop where
  parsed : spec.Parsed
  word : spec.Word

/-- A next fire was asked for at some time, and there was an answer. -/
def Started (clock : Instant) (spec : RepeatSpec) : Prop :=
  ∃ t, t ≤ clock ∧ t.Storable ∧ ∃ next, spec.nextAfter t = .ok next

theorem Word.read (h : spec.Word) : ofJson? (spec.toJson.reread 126) = some spec := by
  cases spec with
  | every millis =>
    have below : millis < 18446744073709551616 := h
    rw [reread_toJson_every, ofJson?_every, Numeral.reread, value?_ofInt (by omega) (by simp only [wordLimit]; omega)]
    simp [isWhole, nat64?, natBelow?, below]
  | cron expression => exact (reread_toJson_cron 125 expression).symm ▸ ofJson?_cron expression

theorem Started.mono (h : spec.Started clock) (le : clock ≤ now) : spec.Started now := by
  obtain ⟨t, before, answered⟩ := h
  exact ⟨t, before.trans le, answered⟩

/-- There is always an answer again, as long as the calendar reaches the next second. -/
theorem Started.nextAfter_isOk (h : spec.Started now) (reach : (now.add? Instant.nanosPerSecond).isSome) :
    ∃ next, spec.nextAfter now = .ok next := by
  obtain ⟨t, before, storable, next, answered⟩ := h
  cases spec with
  | cron expression =>
    have usable : Usable (.cron expression) := usable_of_nextAfter answered
    exact RepeatSpec.nextAfter_isOk usable reach
  | every millis =>
    have positive : 1 ≤ millis := Nat.one_le_iff_ne_zero.mpr fun zero => by
      rw [zero] at answered
      cases answered
    rw [nextAfter_every positive] at answered ⊢
    have word : FitsWord (signedWord millis) := by
      simp only [signedWord, FitsWord, Int.bmod_def]
      omega
    have bounds := millis_bounds reach
    have fits : FitsWord (nextMultiple (signedWord millis) now.millis) := by
      rcases Int.lt_trichotomy (signedWord millis) 0 with neg | zero | pos
      · -- beyond a signed word the count wraps below zero
        have fits : FitsWord (nextMultiple (signedWord millis) t.millis) := by
          by_contra overflows
          rw [nextFire, if_neg overflows] at answered
          cases answered
        exact fitsWord_nextMultiple_of_le neg (Instant.millis_mono storable.ordinary before) bounds.2 fits
      · rw [zero, nextMultiple, Int.mul_zero]
        decide
      · exact fitsWord_nextMultiple pos word bounds
    exact ⟨_, if_pos fits⟩

end RepeatSpec

/-! ## Entries -/

namespace StoredEntry

variable {e : StoredEntry} {payload : Json} {now : Instant}

structure Writable (e : StoredEntry) : Prop where
  single : e.repeats = none → e.id = singleId e.key
  fire : ∀ spec, e.repeats = some spec → spec.Writable ∧ e.id = instanceId e.key spec e.fireAt ∧ e.fireAt.Whole
  payload : e.payload.Keepable
  fireAt : e.fireAt.Storable
  processedOn : ∀ t, e.processedOn = some t → t.Storable

/-- What is read of the text of a writable entry is that entry, up to the payload. -/
theorem Writable.decode (h : e.Writable) : ∃ payload, payload? (e.payload.reread 126) = some payload ∧
    payload.Keepable ∧ SharedQueue.decodeEntry (SharedQueue.entryText e) = .ok { e with payload } := by
  obtain ⟨payload, read, keepable⟩ := h.payload.read
  refine ⟨payload, read, keepable, SharedQueue.decode_text_eq_ok.mpr ?_⟩
  have spec : Slot.optional RepeatSpec.ofJson? (.given ((ofOption RepeatSpec.toJson e.repeats).reread 126)) =
      some e.repeats := by
    cases hs : e.repeats with
    | none => rfl
    | some spec => rw [RepeatSpec.optional_toJson_some, (h.fire spec hs).1.word.read, Option.map_some]
  rw [ofJson?_reread, spec, read, h.fireAt.read, Instant.Storable.optional_read h.processedOn]
  rfl

theorem Writable.with_payload (h : e.Writable) (keepable : payload.Keepable) :
    ({ e with payload } : StoredEntry).Writable :=
  ⟨h.single, h.fire, keepable, h.fireAt, h.processedOn⟩

theorem Writable.with_processedOn (h : e.Writable) (time : now.Storable) :
    ({ e with processedOn := some now } : StoredEntry).Writable := by
  refine ⟨h.single, h.fire, h.payload, h.fireAt, ?_⟩
  rintro _ ⟨⟩
  exact time

theorem writable_single {key : String} {fireAt : Instant} (time : fireAt.Storable) (keepable : payload.Keepable) :
    (single key fireAt payload).Writable :=
  ⟨fun _ => rfl, nofun, keepable, time, nofun⟩

end StoredEntry

/-! ## Records -/

namespace RepeatRecord

variable {r r' : RepeatRecord} {payload : Json} {clock now : Instant}

structure Writable (clock : Instant) (r : RepeatRecord) : Prop where
  spec : r.spec.Writable
  payload : r.payload.Keepable
  next : ∀ t, r.next = some t → t.Firable
  started : r.spec.Started clock

theorem Writable.mono (h : r.Writable clock) (le : clock ≤ now) : r.Writable now :=
  ⟨h.spec, h.payload, h.next, h.started.mono le⟩

/-- What is read of the text of a writable record is that record, up to the payload. -/
theorem Writable.decode (h : r.Writable clock) : ∃ payload, payload? (r.payload.reread 126) = some payload ∧
    payload.Keepable ∧ SharedQueue.decodeRecord (SharedQueue.recordText r) = .ok { r with payload } := by
  obtain ⟨payload, read, keepable⟩ := h.payload.read
  refine ⟨payload, read, keepable, SharedQueue.decode_text_eq_ok.mpr ?_⟩
  rw [ofJson?_reread, h.spec.word.read, read, Instant.Storable.optional_read fun t next => (h.next t next).storable]
  rfl

theorem Writable.with_payload (h : r.Writable clock) (keepable : payload.Keepable) :
    ({ r with payload } : RepeatRecord).Writable clock :=
  ⟨h.spec, keepable, h.next, h.started⟩

theorem writable_advance (spec : r.spec.Writable) (keepable : r.payload.Keepable) (time : now.Storable)
    (moved : r.advance now = .ok r') : r'.Writable now := by
  obtain ⟨same, fires⟩ := advance_eq_ok moved
  obtain ⟨_, hs, payload⟩ := chain_eq_iff.mp same
  exact ⟨hs ▸ spec, payload ▸ keepable, fun t ht => RepeatSpec.nextAfter_firable (ht ▸ fires),
    ⟨now, le_rfl, time, r'.next, hs ▸ fires⟩⟩

theorem writable_create {key : String} {spec : RepeatSpec} (word : spec.Word) (keepable : payload.Keepable)
    (time : now.Storable) (created : create key spec payload now = .ok r) : r.Writable now := by
  have writable : spec.Writable := ⟨RepeatSpec.parsed_of_nextAfter (advance_eq_ok created).2, word⟩
  exact writable_advance (r := ⟨key, spec, payload, none⟩) writable keepable time created

theorem Writable.currentInstance (h : r.Writable clock) {e : StoredEntry} (fire : r.currentInstance = some e) :
    e.Writable := by
  rw [RepeatRecord.currentInstance, Option.map_eq_some_iff] at fire
  obtain ⟨t, next, rfl⟩ := fire
  refine ⟨fun single => ?_, fun spec repeats => ?_, h.payload, (h.next t next).storable, fun t claimed => ?_⟩
  · cases single
  · cases repeats
    exact ⟨h.spec, rfl, (h.next t next).whole⟩
  · cases claimed

end RepeatRecord

/-! ## Requests -/

/-- What is asked to be stored can be written. -/
def QueueRequest.Writable : QueueRequest → Prop
  | addRepeating _ spec payload => spec.Word ∧ payload.Keepable
  | addDelayed _ _ payload => payload.Keepable
  | _ => True

/-- The clock never goes back and shows times that can be stored, and what is asked to be stored can be written. -/
def WorkQueue.writable {σ : Type} : WorkQueue.Rule σ := fun t _ now r => t ≤ now ∧ now.Storable ∧ r.Writable

namespace SharedQueue

variable {rules : ClaimRules} {clock now : Instant} {request : QueueRequest} {s s' : Keyspace} {id f text : String}
  {c : Cell} {e stored : StoredEntry} {a : ActiveClaim} {r : RepeatRecord} {score expiry : Int}

/-! ## Cells -/

/-- What is held is writable, and waits for its fire or since a time that has come. -/
def Cell.Readable (clock : Instant) : Cell → Prop
  | absent => True
  | waiting e score => e.Writable ∧ (score ≤ e.fireAt.millis ∨ Instant.ofMillis score ≤ clock)
  | claimed e a _ => e.Writable ∧ FitsWord a.claimedAt

theorem Cell.Readable.mono (h : c.Readable clock) (le : clock ≤ now) : c.Readable now := by
  cases c with
  | waiting e score => exact ⟨h.1, h.2.imp_right (le_trans · le)⟩
  | _ => exact h

theorem Cell.Readable.entry (h : c.Readable clock) (held : c.entry? = some e) : e.Writable := by
  cases c <;> cases held <;> exact h.1

theorem Cell.Readable.recovered (h : c.Readable now) (ordinary : ¬ now.InLeapSecond) :
    (c.recovered now.millis).Readable now := by
  cases c with
  | claimed e a expiry =>
    rw [Cell.recovered]
    split
    -- a claim that is given up waits since now, not for its fire
    · exact ⟨h.1, .inr ((Instant.millis_le_iff ordinary).mp le_rfl)⟩
    · exact h
  | _ => exact h

/-! ## Keyspaces -/

structure Readable (clock : Instant) (s : Keyspace) : Prop where
  cell : ∀ id, ∃ c, At s id c ∧ c.Readable clock
  record : ∀ {f text}, s.repeats.get? f = some text → ∃ r, text = recordText r ∧ r.Writable clock

namespace Readable

theorem empty (clock : Instant) : Readable clock {} where
  cell id := by
    obtain ⟨c, hc⟩ := Consistent.empty.cell id
    have absent : c = .absent := hc.absent_of_free rfl
    exact ⟨c, hc, absent ▸ trivial⟩
  record h := by cases h

theorem mono (h : Readable clock s) (le : clock ≤ now) : Readable now s where
  cell id := by
    obtain ⟨c, hc, readable⟩ := h.cell id
    exact ⟨c, hc, readable.mono le⟩
  record hf := by
    obtain ⟨r, text, writable⟩ := h.record hf
    exact ⟨r, text, writable.mono le⟩

/-- One cell may change. -/
theorem update (h : Readable now s) (hid : At s' id c) (readable : c.Readable now) (records : s'.repeats = s.repeats)
    (same : ∀ {k}, id ≠ k → Same s s' k) : Readable now s' where
  cell k := by
    by_cases hk : id = k
    · exact ⟨c, hk ▸ hid, readable⟩
    · obtain ⟨c', hc', readable'⟩ := h.cell k
      exact ⟨c', hc'.same (same hk), readable'⟩
  record hf := h.record (records ▸ hf)

theorem withRepeats (h : Readable now s) {repeats : Hash}
    (record : ∀ {f text}, repeats.get? f = some text → ∃ r, text = recordText r ∧ r.Writable now) :
    Readable now { s with repeats } where
  cell k := by
    obtain ⟨c, hc, readable⟩ := h.cell k
    exact ⟨c, hc.same ⟨rfl, rfl, rfl, rfl⟩, readable⟩
  record := record

theorem setRecord (h : Readable now s) (writable : r.Writable now) :
    Readable now { s with repeats := s.repeats.set r.field (recordText r) } := by
  refine h.withRepeats fun {f text} hf => ?_
  rw [Table.get?_set] at hf
  split at hf
  · exact ⟨r, (Option.some.inj hf).symm, writable⟩
  · exact h.record hf

/-- What waits is read as it was written. -/
theorem read_waiting (h : Readable clock s) (waits : At s id (.waiting e score))
    (read : decodeEntry (entryText e) = .ok stored) : stored.Writable ∧
    (score ≤ stored.fireAt.millis ∨ Instant.ofMillis score ≤ clock) ∧
    ∃ e', At s id (.waiting e' score) ∧ e'.Writable ∧ e'.key = stored.key := by
  obtain ⟨c, hc, readable⟩ := h.cell id
  obtain ⟨e', rfl, text⟩ := waits.waiting_unique hc
  obtain ⟨payload, _, keepable, read'⟩ := readable.1.decode
  rw [text, read'] at read
  obtain rfl := Except.ok.inj read
  exact ⟨readable.1.with_payload keepable, readable.2, e', hc, readable.1, rfl⟩

/-- What is claimed is read as it was written. -/
theorem read_claimed (h : Readable clock s) (claimed : At s id (.claimed e a expiry))
    (read : decodeEntry (entryText e) = .ok stored) : stored.Writable ∧ FitsWord a.claimedAt := by
  obtain ⟨c, hc, readable⟩ := h.cell id
  obtain ⟨e', rfl, text⟩ := claimed.claimed_unique hc
  obtain ⟨payload, _, keepable, read'⟩ := readable.1.decode
  rw [text, read'] at read
  obtain rfl := Except.ok.inj read
  exact ⟨readable.1.with_payload keepable, readable.2⟩

/-- What is stored under an identifier is read with it. -/
theorem read_entry (h : Readable clock s) (held : s.entries.get? id = some text) :
    ∃ e, decodeEntry text = .ok e ∧ e.id = id ∧ e.Writable := by
  obtain ⟨c, hc, readable⟩ := h.cell id
  rw [hc.entry, Option.map_eq_some_iff] at held
  obtain ⟨e, held, rfl⟩ := held
  have writable : e.Writable := readable.entry held
  obtain ⟨payload, _, keepable, read⟩ := writable.decode
  have own : e.id = id := hc.ownId held
  exact ⟨_, read, own, writable.with_payload keepable⟩

/-- What is stored in a field is read as the record of that field. -/
theorem read_record (h : Readable clock s) (consistent : Consistent s) (held : s.repeats.get? f = some text) :
    ∃ r, decodeRecord text = .ok r ∧ r.field = f ∧ r.Writable clock := by
  obtain ⟨r, rfl, writable⟩ := h.record held
  obtain ⟨payload, _, keepable, read⟩ := writable.decode
  obtain ⟨r', text, rfl⟩ := consistent.record held
  obtain ⟨key, spec⟩ := RepeatRecord.field_of_decode (text ▸ read)
  exact ⟨_, read, by rw [RepeatRecord.field, key, spec, RepeatRecord.field], writable.with_payload keepable⟩

theorem writable (h : Readable clock s) (held : Stored s r) : r.Writable clock := by
  obtain ⟨text, at_, read⟩ := held
  obtain ⟨r₀, rfl, writable⟩ := h.record at_
  obtain ⟨payload, _, keepable, read'⟩ := writable.decode
  obtain rfl := Except.ok.inj (read'.symm.trans read)
  exact writable.with_payload keepable

end Readable

/-! ## Moves -/

theorem Made.writable (h : Made now request (RepeatRecord.Writable now) r) (time : now.Storable)
    (asked : request.Writable) : r.Writable now := by
  cases h with
  | created same created =>
    subst same
    exact RepeatRecord.writable_create asked.1 asked.2 time created
  | changed same old =>
    subst same
    exact old.with_payload asked.2
  | advanced old moved => exact RepeatRecord.writable_advance old.spec old.payload time moved

theorem Move.readable (h : Readable now s) (time : now.Storable) (asked : request.Writable)
    (m : Move rules now request (RepeatRecord.Writable now) s s') : Readable now s' := by
  cases m with
  | @addSingle key _ payload fireAt same reached free =>
    subst same
    have writable : (StoredEntry.single key fireAt payload).Writable :=
      StoredEntry.writable_single (time.addMillis? reached) asked
    have stored := at_addPending (e := .single key fireAt payload) free fireAt.millis
    exact h.update stored ⟨writable, .inl le_rfl⟩ rfl fun ne => same_addPending ne _ _
  | addInstance made fire free =>
    have writable := (made.writable time asked).currentInstance fire
    exact h.update (at_addPending free _) ⟨writable, .inl le_rfl⟩ rfl fun ne => same_addPending ne _ _
  | dropSingle _ held => exact h.update (at_dropPending held) trivial rfl same_dropPending
  | dropInstance _ held => exact h.update (at_dropPending held) trivial rfl same_dropPending
  | @claim id e stored _ expiry held _ read _ =>
    obtain ⟨_, _, e', held', writable, key⟩ := h.read_waiting held read
    have claimed := at_addClaim (a := ⟨stored.key, now.millis⟩) held' key expiry
    exact h.update claimed ⟨writable, time.fitsWord⟩ rfl fun ne => same_addClaim ne _ _
  | stamp held read =>
    obtain ⟨own, key, _⟩ := StoredEntry.named_of_decode read
    obtain ⟨writable, fits⟩ := h.read_claimed held read
    refine h.update (at_setEntry held ?_ ?_) ⟨writable.with_processedOn time, fits⟩ rfl fun ne => same_setEntry ne _
    · exact own.trans (held.ownId rfl)
    · exact key.trans (held.ownKey rfl rfl)
  | @renew id e a _ expiry' held _ =>
    obtain ⟨c, hc, readable⟩ := h.cell id
    obtain ⟨e', rfl, _⟩ := held.claimed_unique hc
    exact h.update (at_extendLease hc expiry') readable rfl fun ne => same_extendLease ne _
  | finish _ _ _ _ held => exact h.update (at_dropClaimed held) trivial rfl same_dropClaimed
  | skip held _ => exact h.update (at_dropClaimed held) trivial rfl same_dropClaimed
  | recover =>
    refine ⟨fun id => ?_, fun hf => h.record (repeats_foldl_giveUp _ _ s ▸ hf)⟩
    obtain ⟨c, hc, readable⟩ := h.cell id
    exact ⟨_, at_recover hc now.millis, readable.recovered time.ordinary⟩
  | saveRecord made => exact h.setRecord (made.writable time asked)
  | eraseRecord field =>
    refine h.withRepeats fun {f text} hf => ?_
    rw [Table.get?_erase, Option.ite_none_left_eq_some] at hf
    exact h.record hf.2

theorem preserved_readable (rules : ClaimRules) (time : now.Storable) (asked : request.Writable) :
    Preserved rules now request (RepeatRecord.Writable now) (Readable now) :=
  ⟨fun _ h m => m.readable h time asked, fun h stored => h.writable stored⟩

/-! ## Runs -/

theorem readable_of_run {faults : CommandFaults} {t₀ t : Instant} {link : Link} (whole : faults.Whole)
    (run : (workQueue rules faults).Run WorkQueue.writable t₀ {} t link) : Kept (Readable t) link.keys := by
  induction run with
  | start => exact ⟨Consistent.empty, .empty t₀⟩
  | step _ allowed kept =>
    obtain ⟨le, time, asked⟩ := allowed
    exact Kept.ask ⟨kept.consistent, kept.holds.mono le⟩ (preserved_readable rules time asked) whole

end SharedQueue

end Timetable
