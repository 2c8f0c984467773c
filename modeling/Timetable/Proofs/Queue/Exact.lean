import Timetable.Proofs.Queue.Leases
import Timetable.Proofs.Queue.Records
import Timetable.Proofs.Queue.Reorder
import Timetable.Proofs.Queue.Storable

/-!
# What is read as it was written

Entries and records are `Exact` if nothing of them gets lost in a text or in the milliseconds of a score: their times lie
at whole milliseconds, and the fractions in their payloads are read exactly. What a queue in memory makes of exact
parts is exact again.
-/

namespace Timetable

open Json

/-- A payload that is read as it was written. -/
structure Json.Exact (payload : Json) : Prop extends payload.Storable where
  normal : payload.Normal
  fractions : payload.FractionsKept ofDecimal

theorem Json.Exact.kept {payload : Json} (h : payload.Exact) : payload? (payload.reread 126) = some payload :=
  h.fractions.payload?_eq h.representable h.normal (h.shallow.trans (by decide))

namespace Instant

variable {t u : Instant}

theorem Whole.millis_le_millis (ht : t.Whole) (hu : u.Whole) : t.millis ≤ u.millis ↔ t ≤ u := by
  rw [millis_le_iff hu.ordinary, ht]

theorem Whole.addMillis? {ms : Int} (h : t.Whole) (reached : t.addMillis? ms = some u) : u.Whole := by
  obtain ⟨rfl, _⟩ := add?_eq_some_iff.mp reached
  have sum : (ofMillis t.millis).nanos + ms * nanosPerMilli = (t.millis + ms) * nanosPerMilli := by
    rw [ofMillis, nanos_ofNanos, Int.add_mul]
  rw [plus_of_not_inLeapSecond h.ordinary, ← h, sum]
  exact whole_ofMillis _

theorem Whole.add? {span : Int} (h : t.Whole) (millis : nanosPerMilli ∣ span) (reached : t.add? span = some u) :
    u.Whole := by
  obtain ⟨ms, rfl⟩ := millis
  rw [Int.mul_comm] at reached
  exact h.addMillis? reached

end Instant

namespace StoredEntry

/-- An entry that is read as it was written, and whose times are known by their milliseconds. -/
structure Exact (e : StoredEntry) : Prop extends e.Storable where
  kept : payload? (e.payload.reread 126) = some e.payload
  fires : e.fireAt.Whole
  claims : ∀ t, e.processedOn = some t → t.Whole

variable {e : StoredEntry}

theorem Exact.decode (h : e.Exact) : SharedQueue.decodeEntry (SharedQueue.entryText e) = .ok e := by
  obtain ⟨payload, read, _, decode⟩ := h.toStorable.decode
  cases read.symm.trans h.kept
  exact decode

theorem Exact.claimed (h : e.Exact) {now : Instant} (storable : now.Storable) (whole : now.Whole) :
    ({ e with processedOn := some now } : StoredEntry).Exact where
  toStorable := h.toStorable.with_processedOn storable
  kept := h.kept
  fires := h.fires
  claims := by
    rintro _ ⟨⟩
    exact whole

theorem exact_single {key : String} {fireAt : Instant} {payload : Json} (storable : fireAt.Storable)
    (whole : fireAt.Whole) (exactly : payload.Exact) : (single key fireAt payload).Exact :=
  ⟨storable_single storable exactly.toStorable.keepable, exactly.kept, whole, nofun⟩

end StoredEntry

namespace RepeatRecord

structure Exact (r : RepeatRecord) : Prop extends r.Storable where
  kept : payload? (r.payload.reread 126) = some r.payload

variable {r next : RepeatRecord} {now : Instant}

theorem Exact.decode (h : r.Exact) : SharedQueue.decodeRecord (SharedQueue.recordText r) = .ok r := by
  obtain ⟨payload, read, _, decode⟩ := h.toStorable.decode
  cases read.symm.trans h.kept
  exact decode

theorem Exact.with_payload (h : r.Exact) {payload : Json} (exactly : payload.Exact) :
    ({ r with payload } : RepeatRecord).Exact :=
  ⟨h.toStorable.with_payload exactly.toStorable.keepable, exactly.kept⟩

theorem Exact.advance (h : r.Exact) (moved : r.advance now = .ok next) : next.Exact := by
  obtain ⟨_, _, payload⟩ := chain_eq_iff.mp (advance_eq_ok moved).1
  exact ⟨h.toStorable.advance moved, payload ▸ h.kept⟩

theorem exact_create {key : String} {spec : RepeatSpec} {payload : Json} (hs : spec.Countable)
    (exactly : payload.Exact) (created : create key spec payload now = .ok r) : r.Exact := by
  obtain ⟨_, _, same⟩ := chain_eq_iff.mp (advance_eq_ok created).1
  exact ⟨storable_create hs exactly.toStorable.keepable created, by rw [same]; exact exactly.kept⟩

theorem Exact.currentInstance (h : r.Exact) {e : StoredEntry} (fire : r.currentInstance = some e) : e.Exact := by
  have storable := h.toStorable.currentInstance fire
  obtain ⟨t, next, rfl⟩ := Option.map_eq_some_iff.mp fire
  exact ⟨storable, h.kept, (h.next t next).whole, nofun⟩

end RepeatRecord

/-! ## What is stored -/

namespace LocalQueue

/-- Whatever is stored is exact, and some keys are those of the entries that do not repeat. -/
structure Exact (single : String → Prop) (q : LocalQueue) : Prop where
  entry : ∀ {id e}, q.entries.get? id = some e → e.Exact ∧ (single e.key ↔ e.repeats = none)
  record : ∀ {f r}, q.repeats.get? f = some r → r.Exact ∧ ¬ single r.key

namespace Exact

variable {single : String → Prop} {rules : ClaimRules} {now expiry : Instant} {q q' : LocalQueue} {e : StoredEntry}
  {r : RepeatRecord}

theorem empty (single : String → Prop) : Exact single {} := by
  constructor <;> simp

theorem insertIfAbsent (h : Exact single q) (new : e.Exact) (kind : single e.key ↔ e.repeats = none) :
    Exact single (q.insertIfAbsent e) where
  entry stored := by
    rcases insertIfAbsent_entries_eq_some.mp stored with stored | ⟨_, _, rfl⟩
    · exact h.entry stored
    · exact ⟨new, kind⟩
  record := h.record

theorem putRecord (h : Exact single q) (new : r.Exact) (key : ¬ single r.key) : Exact single (q.putRecord r) where
  entry {id e} stored := by
    rw [putRecord_entries, Option.or_eq_some_iff] at stored
    rcases stored with stored | ⟨_, fire⟩
    · exact h.entry stored
    · obtain ⟨fire, _⟩ := Option.filter_eq_some_iff.mp fire
      have exactly := new.currentInstance fire
      obtain ⟨t, _, rfl⟩ := Option.map_eq_some_iff.mp fire
      exact ⟨exactly, iff_of_false key nofun⟩
  record {f r'} stored := by
    rw [putRecord_repeats] at stored
    split at stored
    · exact Option.some.inj stored ▸ ⟨new, key⟩
    · exact h.record stored

/-- What is taken out does not matter. -/
theorem of_sub (h : Exact single q) (entries : ∀ id e, q'.entries.get? id = some e → q.entries.get? id = some e)
    (records : ∀ f r, q'.repeats.get? f = some r → q.repeats.get? f = some r) : Exact single q' :=
  ⟨fun stored => h.entry (entries _ _ stored), fun stored => h.record (records _ _ stored)⟩

theorem turn (h : Exact single q) (stored : q.entries.get? e.id = some e) (time : now.Storable) (whole : now.Whole)
    (t : Turn rules now expiry q e q') : Exact single q' := by
  have moved {next : RepeatRecord} (hm : movedOn now q e = some next) : next.Exact ∧ ¬ single next.key := by
    obtain ⟨f, r, hr, advanced⟩ := movedOn_eq_some hm
    obtain ⟨exactly, key⟩ := h.record hr
    obtain ⟨same, _⟩ := RepeatRecord.chain_eq_iff.mp (RepeatRecord.advance_eq_ok advanced).1
    exact ⟨exactly.advance advanced, same ▸ key⟩
  refine ⟨fun {id f} hf => ?_, fun {f r} hr => ?_⟩
  · by_cases own : e.id = id
    · subst own
      rw [t.own, fate, Option.ite_none_left_eq_some] at hf
      obtain ⟨_, ⟨⟩⟩ := hf
      exact ⟨(h.entry stored).1.claimed time whole, (h.entry stored).2⟩
    · rw [t.entry own, Option.or_eq_some_iff] at hf
      rcases hf with hf | ⟨_, fire⟩
      · exact h.entry hf
      · obtain ⟨fire, _⟩ := Option.filter_eq_some_iff.mp fire
        obtain ⟨next, hm, fire⟩ := Option.bind_eq_some_iff.mp fire
        obtain ⟨exactly, key⟩ := moved hm
        have new := exactly.currentInstance fire
        obtain ⟨t, _, rfl⟩ := Option.map_eq_some_iff.mp fire
        exact ⟨new, iff_of_false key (Option.some_ne_none _)⟩
  · rw [t.record, Option.or_eq_some_iff] at hr
    rcases hr with hr | ⟨_, hr⟩
    · exact moved (Option.filter_eq_some_iff.mp hr).1
    · exact h.record hr

/-! ## Requests -/

theorem addRepeating (h : Exact single q) {key : String} {spec : RepeatSpec} {payload : Json} (hs : spec.Countable)
    (exactly : payload.Exact) (kind : ¬ single key) :
    Exact single ((LocalQueue.addRepeating now key spec payload).on q).2 := by
  rw [addRepeating_on]
  cases stored : q.repeats.get? (repeatField key spec) with
  | some old =>
    obtain ⟨before, kind⟩ := h.record stored
    exact h.putRecord (before.with_payload exactly) kind
  | none =>
    cases created : RepeatRecord.create key spec payload now with
    | error failure => exact h
    | ok r =>
      obtain ⟨same, _⟩ := RepeatRecord.chain_eq_iff.mp (RepeatRecord.advance_eq_ok created).1
      exact h.putRecord (RepeatRecord.exact_create hs exactly created) (same ▸ kind)

theorem addDelayed (h : Exact single q) (time : now.Storable) (whole : now.Whole) {key : String} {payload : Json}
    (exactly : payload.Exact) (kind : single key) (delay : Nat) :
    Exact single ((LocalQueue.addDelayed now key delay payload).on q).2 := by
  unfold LocalQueue.addDelayed
  cases reached : now.addMillis? (signedWord delay) with
  | none => exact h
  | some fireAt =>
    have new : (StoredEntry.single key fireAt payload).Exact :=
      StoredEntry.exact_single (time.addMillis? reached) (whole.addMillis? reached) exactly
    exact h.insertIfAbsent new (iff_of_true kind rfl)

theorem removeRepeating (h : Exact single q) (sound : Sound now q) (key : String) (spec : RepeatSpec) :
    Exact single ((LocalQueue.removeRepeating key spec).on q).2 := by
  cases stored : q.repeats.get? (repeatField key spec) with
  | none =>
    rw [removeRepeating_absent stored]
    exact h
  | some r =>
    rw [removeRepeating_on sound stored]
    refine h.of_sub (fun id e kept => (eraseChain_entries_eq_some.mp kept).1) fun f r' kept => ?_
    rw [eraseChain_repeats, Option.ite_none_left_eq_some] at kept
    exact kept.2

theorem eraseEntry (h : Exact single q) (id : String) : Exact single (q.eraseEntry id) := by
  refine h.of_sub (fun k e kept => ?_) fun _ _ kept => kept
  rw [LocalQueue.eraseEntry, Table.get?_erase, Option.ite_none_left_eq_some] at kept
  exact kept.2

theorem recover (h : Exact single q) (now : Instant) : Exact single (q.recover now) :=
  h.of_sub (fun _ _ kept => kept) fun _ _ kept => kept

theorem removeDelayed (h : Exact single q) (key : String) :
    Exact single ((LocalQueue.removeDelayed key).on q).2 := by
  rw [removeDelayed_on]
  split
  · exact h
  · exact h.eraseEntry (singleId key)

theorem renewLease (h : Exact single q) (e : StoredEntry) :
    Exact single ((LocalQueue.renewLease rules e now).on q).2 := by
  rw [renewLease_on]
  split
  · cases now.add? rules.lease with
    | none => exact h
    | some expiry => exact h.of_sub (fun _ _ kept => kept) fun _ _ kept => kept
  · exact h

theorem finish (h : Exact single q) (e : StoredEntry) : Exact single ((LocalQueue.finish e).on q).2 := by
  rw [finish_on]
  dsimp only
  split
  · exact (h.eraseEntry e.id).of_sub (fun _ _ kept => kept) fun _ _ kept => kept
  · exact h

/-- What is due can be claimed. -/
theorem claimable (h : Exact single q) (sound : Sound now q) : Claimable now q (q.due now) where
  due e mem := sound.named.mem_due.mp mem
  nodup := sound.named.nodup_due
  apart a ha b hb plain repeats same := by
    have single_a := (h.entry (sound.named.mem_due.mp ha).1).2.mpr plain
    have plain_b := (h.entry (sound.named.mem_due.mp hb).1).2.mp (same ▸ single_a)
    rw [plain_b] at repeats
    cases repeats

/-- What is handed out is exact, and claimed. -/
theorem claimAll {es out : List StoredEntry} (h : Exact single q) (sound : Sound now q) (time : now.Storable)
    (whole : now.Whole) (inTime : rules.InTime now expiry) (claimable : Claimable now q es)
    (on : (LocalQueue.claimAll rules now es).on q = (.ok out, q')) :
    Exact single q' ∧ ∀ e ∈ out, e.Exact ∧ e.processedOn.isSome := by
  induction es generalizing q out with
  | nil =>
    cases on
    exact ⟨h, nofun⟩
  | cons e es ih =>
    obtain ⟨stored, _, _⟩ := claimable.due e List.mem_cons_self
    obtain ⟨q₁, first, turn, sound₁, claimable₁⟩ := claimable.head sound inTime
    have h₁ := h.turn stored time whole turn
    obtain ⟨rest, _, _, on₁, _⟩ := claimAll_alike inTime sound₁ sound₁ (.refl q₁) claimable₁
    cases on.symm.trans (claimAll_cons first on₁)
    obtain ⟨h₂, shown⟩ := ih h₁ sound₁ claimable₁ on₁
    refine ⟨h₂, fun f mem => ?_⟩
    rcases List.mem_append.mp mem with mem | mem
    · rw [fate, Option.mem_toList, Option.ite_none_left_eq_some] at mem
      obtain ⟨_, ⟨⟩⟩ := mem
      exact ⟨(h.entry stored).1.claimed time whole, rfl⟩
    · exact shown f mem

theorem claimDue (h : Exact single q) (sound : Sound now q) (time : now.Storable) (whole : now.Whole)
    (inTime : rules.InTime now expiry) {limit : Nat} (enough : q.entries.size ≤ limit) :
    ∃ out q', (LocalQueue.claimDue rules now limit).on q = (.ok out, q') ∧ Exact single q' ∧
      ∀ e ∈ out, e.Exact ∧ e.processedOn.isSome := by
  have h₁ := h.recover now
  have claimable := h₁.claimable sound.recover
  obtain ⟨out, q', _, on, _⟩ := claimAll_alike inTime sound.recover sound.recover (.refl _) claimable
  obtain ⟨h', shown⟩ := h₁.claimAll sound.recover time whole inTime claimable on
  exact ⟨out, q', (claimDue_on_all enough).trans on, h', shown⟩

end Exact

end LocalQueue

end Timetable
