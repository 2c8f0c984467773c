import Timetable.Proofs.Instant.Text
import Timetable.Proofs.Json.Representable
import Timetable.Proofs.Queue.Chain
import Timetable.Proofs.Queue.Texts

/-!
# What survives being stored

An entry, a record or a claim is `Storable` if its payload is representable and not too deep, its times lie in the
calendar and outside of leap seconds, and its specification can be repeated. Whoever reads the text of something
storable finds it as it was, up to the payload, which may change in the last place of a fraction. What requests make
of storable parts is storable again.
-/

namespace Timetable

open Json

/-- A payload as a caller may give it. -/
structure Json.Storable (payload : Json) : Prop where
  representable : payload.Representable
  shallow : payload.depth ≤ 100

/-- A payload that may be stored in an entry: no deeper than what is read there. -/
structure Json.Keepable (payload : Json) : Prop where
  representable : payload.Representable
  shallow : payload.depth ≤ 126

theorem Json.Storable.keepable {payload : Json} (h : payload.Storable) : payload.Keepable :=
  ⟨h.representable, h.shallow.trans (by decide)⟩

/-- A time that a clock shows. -/
structure Instant.Storable (t : Instant) : Prop where
  representable : t.Representable
  ordinary : ¬ t.InLeapSecond

instance (t : Instant) : Decidable t.Storable :=
  decidable_of_iff (t.Representable ∧ ¬ t.InLeapSecond) ⟨fun h => ⟨h.1, h.2⟩, fun h => ⟨h.1, h.2⟩⟩

theorem Json.Keepable.read {payload : Json} (h : payload.Keepable) :
    ∃ payload', payload? (payload.reread 126) = some payload' ∧ payload'.Keepable := by
  obtain ⟨payload', read, representable, depth⟩ := h.representable.payload? h.shallow
  exact ⟨payload', read, representable, depth.trans h.shallow⟩

namespace Instant

variable {t u : Instant}

theorem Storable.endsMinute (h : t.Storable) : t.EndsMinute := fun leap => absurd leap h.ordinary

theorem Storable.legible (h : t.Storable) : t.Legible := ⟨h.representable, h.endsMinute⟩

theorem Storable.read (h : t.Storable) : ofText? t.text = some t := h.legible.read

theorem Legible.optional_read {t : Option Instant} (h : ∀ u, t = some u → u.Legible) :
    Slot.optional instant? (.given ((ofOption ofInstant t).reread 126)) = some t := by
  cases t with
  | none => rfl
  | some u => exact congrArg (Option.map some) (h u rfl).read

theorem Storable.optional_read {t : Option Instant} (h : ∀ u, t = some u → u.Storable) :
    Slot.optional instant? (.given ((ofOption ofInstant t).reread 126)) = some t :=
  Legible.optional_read fun u own => (h u own).legible

theorem Firable.storable (h : t.Firable) : t.Storable := by
  refine ⟨h.representable, ?_⟩
  rw [← show ofMillis t.millis = t from h.whole]
  exact not_inLeapSecond_ofNanos _

theorem Storable.addMillis? {ms : Int} (h : t.Storable) (reached : t.addMillis? ms = some u) : u.Storable := by
  obtain ⟨rfl, representable⟩ := add?_eq_some_iff.mp reached
  refine ⟨representable, ?_⟩
  rw [plus_of_not_inLeapSecond h.ordinary]
  exact not_inLeapSecond_ofNanos _

theorem Representable.fitsWord (h : t.Representable) : FitsWord t.millis := by
  obtain ⟨low, high⟩ := h
  have := t.nano.isLt
  simp only [first, last] at low high
  simp only [FitsWord, millis, nanos, nanosPerSecond, nanosPerMilli]
  omega

theorem Storable.fitsWord (h : t.Storable) : FitsWord t.millis := h.representable.fitsWord

end Instant

namespace RepeatSpec

variable {spec : RepeatSpec}

/-- A count in 64 bits, or any expression. -/
def Legible : RepeatSpec → Prop
  | every millis => millis < 18446744073709551616
  | cron _ => True

theorem Legible.read (h : spec.Legible) : ofJson? (spec.toJson.reread 126) = some spec := by
  cases spec with
  | every millis =>
    have within : millis < 18446744073709551616 := h
    rw [reread_toJson_every, ofJson?_every, Numeral.reread, value?_ofInt (by omega) (by simp only [wordLimit]; omega)]
    simp [isWhole, nat64?, natBelow?, within]
  | cron expression => exact (reread_toJson_cron 125 expression).symm ▸ ofJson?_cron expression

theorem Usable.legible (h : spec.Usable) : spec.Legible := by
  cases spec with
  | every millis =>
    obtain ⟨low, high⟩ := h
    show millis < 18446744073709551616
    omega
  | cron expression => trivial

theorem Usable.read (h : spec.Usable) : ofJson? (spec.toJson.reread 126) = some spec := h.legible.read

end RepeatSpec

/-! ## Entries -/

namespace StoredEntry

variable {e : StoredEntry}

structure Storable (e : StoredEntry) : Prop where
  made : e.WellMade
  payload : e.payload.Keepable
  fireAt : e.fireAt.Storable
  processedOn : ∀ t, e.processedOn = some t → t.Storable

/-- What is read of the text of a storable entry is that entry, up to the payload. -/
theorem Storable.decode (h : e.Storable) : ∃ payload, payload? (e.payload.reread 126) = some payload ∧
    payload.Keepable ∧ SharedQueue.decodeEntry (SharedQueue.entryText e) = .ok { e with payload } := by
  obtain ⟨payload, read, keepable⟩ := h.payload.read
  refine ⟨payload, read, keepable, SharedQueue.decode_text_eq_ok.mpr ?_⟩
  have spec : Slot.optional RepeatSpec.ofJson? (.given ((ofOption RepeatSpec.toJson e.repeats).reread 126)) =
      some e.repeats := by
    cases hs : e.repeats with
    | none => rfl
    | some spec => rw [RepeatSpec.optional_toJson_some, (h.made.fire spec hs).1.read, Option.map_some]
  rw [ofJson?_reread, spec, read, h.fireAt.read, Instant.Storable.optional_read h.processedOn]
  rfl

theorem Storable.with_payload (h : e.Storable) {payload : Json} (keepable : payload.Keepable) :
    ({ e with payload } : StoredEntry).Storable :=
  ⟨⟨h.made.single, h.made.fire⟩, keepable, h.fireAt, h.processedOn⟩

theorem Storable.with_processedOn (h : e.Storable) {now : Instant} (storable : now.Storable) :
    ({ e with processedOn := some now } : StoredEntry).Storable := by
  refine ⟨⟨h.made.single, h.made.fire⟩, h.payload, h.fireAt, ?_⟩
  rintro _ ⟨⟩
  exact storable

theorem storable_single {key : String} {fireAt : Instant} {payload : Json} (hf : fireAt.Storable)
    (hp : payload.Keepable) : (single key fireAt payload).Storable :=
  ⟨wellMade_single key fireAt payload, hp, hf, nofun⟩

end StoredEntry

/-! ## Records -/

namespace RepeatRecord

variable {r r' : RepeatRecord} {now : Instant}

structure Storable (r : RepeatRecord) : Prop where
  spec : r.spec.Usable
  payload : r.payload.Keepable
  next : ∀ t, r.next = some t → t.Firable

/-- What is read of the text of a storable record is that record, up to the payload. -/
theorem Storable.decode (h : r.Storable) : ∃ payload, payload? (r.payload.reread 126) = some payload ∧
    payload.Keepable ∧ SharedQueue.decodeRecord (SharedQueue.recordText r) = .ok { r with payload } := by
  obtain ⟨payload, read, keepable⟩ := h.payload.read
  refine ⟨payload, read, keepable, SharedQueue.decode_text_eq_ok.mpr ?_⟩
  rw [ofJson?_reread, h.spec.read, read, Instant.Storable.optional_read fun t next => (h.next t next).storable]
  rfl

theorem Storable.with_payload (h : r.Storable) {payload : Json} (keepable : payload.Keepable) :
    ({ r with payload } : RepeatRecord).Storable :=
  ⟨h.spec, keepable, h.next⟩

theorem Storable.advance (h : r.Storable) (moved : r.advance now = .ok r') : r'.Storable := by
  obtain ⟨same, fires⟩ := advance_eq_ok moved
  obtain ⟨_, spec, payload⟩ := chain_eq_iff.mp same
  refine ⟨spec ▸ h.spec, payload ▸ h.payload, fun t ht => ?_⟩
  exact (RepeatSpec.nextAfter_spec h.spec (ht ▸ fires)).2

theorem storable_create {key : String} {spec : RepeatSpec} {payload : Json} (hs : spec.Countable)
    (hp : payload.Keepable) (created : create key spec payload now = .ok r) : r.Storable := by
  have usable : spec.Usable := hs.usable (advance_eq_ok created).2
  exact Storable.advance (r := ⟨key, spec, payload, none⟩) ⟨usable, hp, nofun⟩ created

theorem Storable.currentInstance (h : r.Storable) {e : StoredEntry} (fire : r.currentInstance = some e) : e.Storable := by
  rw [RepeatRecord.currentInstance, Option.map_eq_some_iff] at fire
  obtain ⟨t, next, rfl⟩ := fire
  exact ⟨StoredEntry.wellMade_ofFire h.spec (h.next t next).whole, h.payload, (h.next t next).storable,
    fun claimed stamp => (Option.some_ne_none claimed stamp.symm).elim⟩

end RepeatRecord

/-! ## Claims -/

theorem ActiveClaim.decode {c : ActiveClaim} (h : FitsWord c.claimedAt) : SharedQueue.decodeClaim c.text = .ok c := by
  have slots (claimedAt : Json) :
      record? ["key", "claimed_at"] (.obj [("key", .str c.key), ("claimed_at", claimedAt)]) =
        some [.given (.str c.key), .given claimedAt] := by
    simp [record?, occurrences, member?, Slot.ofMember]
  obtain ⟨low, high⟩ := h
  have number : (Json.ofInt c.claimedAt).reread = .int c.claimedAt := by
    rw [Numeral.reread, value?_ofInt low (by simp only [wordLimit]; omega)]
    rfl
  refine SharedQueue.decode_text_eq_ok.mpr ?_
  rw [reread_toJson, ofJson?, slots, number]
  simp [Slot.required, string?, int64?, intWithin?, low, high]

/-! ## Requests -/

/-- What is asked to be stored can be stored. -/
def QueueRequest.Storable : QueueRequest → Prop
  | addRepeating _ spec payload => spec.Countable ∧ payload.Storable
  | addDelayed _ _ payload => payload.Storable
  | _ => True

/-- What is asked to be stored can be read again. -/
def QueueRequest.Keepable : QueueRequest → Prop
  | addRepeating _ spec payload => spec.Countable ∧ payload.Keepable
  | addDelayed _ _ payload => payload.Keepable
  | _ => True

theorem QueueRequest.Storable.keepable {r : QueueRequest} (h : r.Storable) : r.Keepable := by
  cases r with
  | addRepeating key spec payload => exact ⟨h.1, h.2.keepable⟩
  | addDelayed key delay payload => exact Json.Storable.keepable h
  | _ => trivial

theorem QueueRequest.Keepable.countable {r : QueueRequest} (h : r.Keepable) : r.Countable := by
  cases r with
  | addRepeating key spec payload => exact h.1
  | _ => trivial

theorem QueueRequest.Storable.countable {r : QueueRequest} (h : r.Storable) : r.Countable := h.keepable.countable

/-- The clock never goes back, it shows times that can be stored, and so can what is asked to be stored. -/
def WorkQueue.timely {σ : Type} : WorkQueue.Rule σ := fun t _ now r => t ≤ now ∧ now.Storable ∧ r.Storable

/-- As `WorkQueue.timely`, for whatever can be read again. -/
def WorkQueue.readable {σ : Type} : WorkQueue.Rule σ := fun t _ now r => t ≤ now ∧ now.Storable ∧ r.Keepable

theorem WorkQueue.readable_of_timely {σ : Type} {t now : Instant} {s : σ} {r : QueueRequest}
    (h : WorkQueue.timely t s now r) : WorkQueue.readable t s now r :=
  ⟨h.1, h.2.1, h.2.2.keepable⟩

end Timetable
