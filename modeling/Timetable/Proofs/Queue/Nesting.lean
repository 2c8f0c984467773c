import Timetable.Proofs.Queue.SharedCalm

/-!
# How deep payloads may be

A queue writes payloads of any depth into a shared keyspace. The reader of its texts follows 127 containers into each
other, and an entry or a record is the first of them.

1. `Json.depth_le_of_isWhole_reread`: what is deeper than the reader goes is not read whole;
2. `SharedQueue.written_of_run`: as long as all payloads that were added have at most 126 containers around their
   innermost value, all texts of the keyspace can be read, at any times of the calendar, leap seconds included;
3. `SharedQueue.reads_answered`: then all requests that read are answered, but for claims at the calendar's end, and a
   deeper payload is added all the same, and nothing that has to read it is answered any more.

One such entry keeps the entries of all others from being handed out (`SharedQueue.deep_payload_stops_claims`).
-/

namespace Timetable

open Json

/-! ## Depth -/

namespace Json

mutual

/-- Whatever is read whole has no more containers around a value than the reader follows. -/
theorem depth_le_of_isWhole_reread {j : Json} {room : Nat} (h : (j.reread room).isWhole = true) : j.depth ≤ room := by
  cases j with
  | arr items =>
    obtain ⟨some, whole⟩ := isWhole_within h
    have inside := depthItems_le_of_areWhole whole
    rw [depth]
    omega
  | obj members =>
    obtain ⟨some, whole⟩ := isWhole_within h
    have inside := depthMembers_le_of_areWhole whole
    rw [depth]
    omega
  | _ => exact Nat.zero_le room

theorem depthItems_le_of_areWhole {items : List Json} {room : Nat}
    (h : itemsAreWhole (rereadItems ofDecimal room items) = true) : depthItems items ≤ room := by
  cases items with
  | nil => exact Nat.zero_le room
  | cons x xs =>
    rw [rereadItems, itemsAreWhole, Bool.and_eq_true] at h
    exact Nat.max_le.mpr ⟨depth_le_of_isWhole_reread h.1, depthItems_le_of_areWhole h.2⟩

theorem depthMembers_le_of_areWhole {members : List (String × Json)} {room : Nat}
    (h : membersAreWhole (rereadMembers ofDecimal room members) = true) : depthMembers members ≤ room := by
  cases members with
  | nil => exact Nat.zero_le room
  | cons m ms =>
    obtain ⟨name, x⟩ := m
    rw [rereadMembers, membersAreWhole, Bool.and_eq_true] at h
    exact Nat.max_le.mpr ⟨depth_le_of_isWhole_reread h.1, depthMembers_le_of_areWhole h.2⟩

end

theorem depth_le_of_payload? {j payload : Json} {room : Nat} (h : payload? (j.reread room) = some payload) :
    j.depth ≤ room := by
  unfold payload? at h
  split at h
  · next whole => exact depth_le_of_isWhole_reread whole
  · cases h

end Json

/-! ## Times -/

namespace Instant

variable {t : Instant}

/-- A leap second that is not the last of its minute is written as the second after it. -/
theorem text_smoothed (leap : t.InLeapSecond) (inside : t.second % 60 ≠ 59) : t.text = t.smoothed.text := by
  have bound := t.nano.isLt
  unfold InLeapSecond at leap
  have second : t.smoothed.second = t.second + 1 := by
    simp only [smoothed, ofNanos, nanos, nanosPerSecond]
    omega
  have nano : t.smoothed.nano.val = t.nano.val - 1000000000 := by
    simp only [smoothed, ofNanos, nanos, nanosPerSecond, val_nanosInto]
    omega
  have date : t.smoothed.civil.date = t.civil.date := by
    have day : t.smoothed.dayNumber = t.dayNumber := by
      simp only [dayNumber, second, secondsPerDay]
      omega
    simp only [civil, day]
  have hour : t.smoothed.civil.hour = t.civil.hour := by
    simp only [civil, timeOfDay, second, secondsPerDay]
    omega
  have minute : t.smoothed.civil.minute = t.civil.minute := by
    simp only [civil, timeOfDay, second, secondsPerDay]
    omega
  have shown : t.smoothed.civil.second + t.smoothed.civil.nano.val / 1000000000 =
      t.civil.second + t.civil.nano.val / 1000000000 := by
    simp only [civil, timeOfDay, second, nano, secondsPerDay]
    omega
  have part : t.smoothed.civil.nano.val % 1000000000 = t.civil.nano.val % 1000000000 := by
    simp only [civil, nano]
    omega
  rw [text, text, chars, chars, timeText, timeText, date, hour, minute, shown, part]

/-- Whatever the calendar reaches is read as something that it reaches. -/
theorem Representable.exists_read (h : t.Representable) : ∃ u, ofText? t.text = some u ∧ u.Representable := by
  by_cases minute : t.EndsMinute
  · exact ⟨t, ofText?_text h minute, h⟩
  · obtain ⟨leap, inside⟩ : t.InLeapSecond ∧ t.second % 60 ≠ 59 := by
      unfold EndsMinute at minute
      exact Classical.not_imp.mp minute
    have plain : ¬ t.smoothed.InLeapSecond := not_inLeapSecond_ofNanos _
    -- the calendar ends with a minute, so it reaches the second after this one
    have reached : t.smoothed.Representable := by
      have bound := t.nano.isLt
      obtain ⟨low, high⟩ := h
      simp only [InLeapSecond] at leap
      simp only [Representable, smoothed, ofNanos, nanos, nanosPerSecond, first, last] at *
      omega
    rw [text_smoothed leap inside]
    exact ⟨_, ofText?_text reached fun leap => absurd leap plain, reached⟩

theorem Representable.optional_read {t : Option Instant} (h : ∀ u, t = some u → u.Representable) :
    ∃ t', Slot.optional instant? (.given ((ofOption ofInstant t).reread 126)) = some t' ∧
      ∀ u, t' = some u → u.Representable := by
  cases t with
  | none => exact ⟨none, rfl, h⟩
  | some t =>
    obtain ⟨u, read, representable⟩ := (h t rfl).exists_read
    refine ⟨some u, ?_, ?_⟩
    · simp only [ofOption, ofInstant, rereadIn, Slot.optional, instant?, read, Option.map_some]
    · rintro _ ⟨⟩
      exact representable

end Instant

/-! ## Payloads -/

namespace Json

variable {D : Json → Prop} {j payload : Json}

/-- What is read of a payload with a property has it again. -/
def Stable (D : Json → Prop) : Prop := ∀ ⦃j payload⦄, D j → payload? (j.reread 126) = some payload → D payload

theorem stable_representable : Stable Representable := by
  intro j payload representable read
  obtain ⟨payload', read', representable', -⟩ := representable.payload? (depth_le_of_payload? read)
  cases read'.symm.trans read
  exact representable'

theorem stable_keepable : Stable Keepable := by
  intro j payload keepable read
  obtain ⟨payload', read', keepable'⟩ := keepable.read
  cases read'.symm.trans read
  exact keepable'

end Json

/-! ## Entries and records -/

namespace StoredEntry

variable {D : Json → Prop} {e e' : StoredEntry} {payload : Json} {now : Instant}

/-- An entry as a queue writes it, with a payload of some kind. -/
structure Written (D : Json → Prop) (e : StoredEntry) : Prop where
  spec : ∀ spec, e.repeats = some spec → spec.Usable
  payload : D e.payload
  fireAt : e.fireAt.Representable
  processedOn : ∀ t, e.processedOn = some t → t.Representable

theorem written_single {key : String} {fireAt : Instant} (time : fireAt.Representable) (kind : D payload) :
    (single key fireAt payload).Written D where
  spec _ repeats := by cases repeats
  payload := kind
  fireAt := time
  processedOn _ stamp := by cases stamp

theorem Written.with_processedOn (h : e.Written D) (time : now.Representable) :
    ({ e with processedOn := some now } : StoredEntry).Written D := by
  refine ⟨h.spec, h.payload, h.fireAt, ?_⟩
  rintro _ ⟨⟩
  exact time

/-- All of the text of an entry but the payload is read in any case. -/
theorem Written.read (h : e.Written D) : ∃ fireAt processedOn, fireAt.Representable ∧
    (∀ t, processedOn = some t → t.Representable) ∧
    ofJson? (e.toJson.reread deepest) =
      (payload? (e.payload.reread 126)).map fun payload => { e with payload, fireAt, processedOn } := by
  obtain ⟨fireAt, readFire, fire⟩ := h.fireAt.exists_read
  obtain ⟨processedOn, readStamp, stamp⟩ := Instant.Representable.optional_read h.processedOn
  have spec : Slot.optional RepeatSpec.ofJson? (.given ((ofOption RepeatSpec.toJson e.repeats).reread 126)) =
      some e.repeats := by
    cases hs : e.repeats with
    | none => rfl
    | some spec => rw [RepeatSpec.optional_toJson_some, (h.spec spec hs).read, Option.map_some]
  refine ⟨fireAt, processedOn, fire, stamp, ?_⟩
  rw [ofJson?_reread, spec, readFire, readStamp]
  cases payload? (e.payload.reread 126) <;> rfl

theorem Written.decode (h : e.Written D) (read : payload? (e.payload.reread 126) = some payload) :
    ∃ e', SharedQueue.decodeEntry (SharedQueue.entryText e) = .ok e' := by
  obtain ⟨fireAt, processedOn, -, -, whole⟩ := h.read
  exact ⟨_, SharedQueue.decode_text_eq_ok.mpr (whole.trans (by rw [read]; rfl))⟩

/-- What is read of an entry as a queue writes it could have been written as well. -/
theorem Written.of_decode (stable : Stable D) (h : e.Written D)
    (decoded : SharedQueue.decodeEntry (SharedQueue.entryText e) = .ok e') : e'.Written D := by
  obtain ⟨fireAt, processedOn, fire, stamp, whole⟩ := h.read
  rw [SharedQueue.decode_text_eq_ok.mp decoded, eq_comm, Option.map_eq_some_iff] at whole
  obtain ⟨payload, read, rfl⟩ := whole
  exact ⟨h.spec, stable h.payload read, fire, stamp⟩

theorem depth_le_of_decode (h : SharedQueue.decodeEntry (SharedQueue.entryText e) = .ok e') : e.payload.depth ≤ 126 := by
  have read := SharedQueue.decode_text_eq_ok.mp h
  simp only [ofJson?_reread, Option.bind_eq_bind, Option.bind_eq_some_iff] at read
  obtain ⟨_, _, payload, read, _⟩ := read
  exact depth_le_of_payload? read

end StoredEntry

namespace RepeatRecord

variable {D : Json → Prop} {r r' : RepeatRecord} {payload : Json} {now : Instant}

/-- A record as a queue writes it, with a payload of some kind. -/
structure Written (D : Json → Prop) (r : RepeatRecord) : Prop where
  spec : r.spec.Usable
  payload : D r.payload
  next : ∀ t, r.next = some t → t.Firable

theorem Written.with_payload (h : r.Written D) (kind : D payload) : ({ r with payload } : RepeatRecord).Written D :=
  ⟨h.spec, kind, h.next⟩

theorem Written.advance (h : r.Written D) (moved : r.advance now = .ok r') : r'.Written D := by
  obtain ⟨same, fires⟩ := advance_eq_ok moved
  obtain ⟨_, spec, payload⟩ := chain_eq_iff.mp same
  refine ⟨spec ▸ h.spec, payload ▸ h.payload, fun t ht => ?_⟩
  exact (RepeatSpec.nextAfter_spec h.spec (ht ▸ fires)).2

theorem written_create {key : String} {spec : RepeatSpec} (countable : spec.Countable) (kind : D payload)
    (created : create key spec payload now = .ok r) : r.Written D := by
  have usable : spec.Usable := countable.usable (advance_eq_ok created).2
  exact Written.advance (r := ⟨key, spec, payload, none⟩) ⟨usable, kind, nofun⟩ created

theorem Written.currentInstance (h : r.Written D) {e : StoredEntry} (fire : r.currentInstance = some e) : e.Written D := by
  rw [RepeatRecord.currentInstance, Option.map_eq_some_iff] at fire
  obtain ⟨t, next, rfl⟩ := fire
  refine ⟨fun spec repeats => ?_, h.payload, (h.next t next).representable, fun _ stamp => by cases stamp⟩
  cases repeats
  exact h.spec

theorem Written.read (h : r.Written D) : ofJson? (r.toJson.reread deepest) =
    (payload? (r.payload.reread 126)).map fun payload => { r with payload } := by
  rw [ofJson?_reread, h.spec.read, Instant.Storable.optional_read fun t next => (h.next t next).storable]
  cases payload? (r.payload.reread 126) <;> rfl

theorem Written.decode (h : r.Written D) (read : payload? (r.payload.reread 126) = some payload) :
    ∃ r', SharedQueue.decodeRecord (SharedQueue.recordText r) = .ok r' :=
  ⟨_, SharedQueue.decode_text_eq_ok.mpr (h.read.trans (by rw [read]; rfl))⟩

theorem Written.of_decode (stable : Stable D) (h : r.Written D)
    (decoded : SharedQueue.decodeRecord (SharedQueue.recordText r) = .ok r') : r'.Written D := by
  have whole := h.read
  rw [SharedQueue.decode_text_eq_ok.mp decoded, eq_comm, Option.map_eq_some_iff] at whole
  obtain ⟨payload, read, rfl⟩ := whole
  exact h.with_payload (stable h.payload read)

theorem depth_le_of_decode (h : SharedQueue.decodeRecord (SharedQueue.recordText r) = .ok r') : r.payload.depth ≤ 126 := by
  have read := SharedQueue.decode_text_eq_ok.mp h
  simp only [ofJson?_reread, Option.bind_eq_bind, Option.bind_eq_some_iff] at read
  obtain ⟨_, _, payload, read, _⟩ := read
  exact depth_le_of_payload? read

end RepeatRecord

/-! ## Keyspaces -/

/-- What is asked to be stored has a payload of some kind, and repeats what can be counted. -/
def QueueRequest.Carries (D : Json → Prop) : QueueRequest → Prop
  | addRepeating _ spec payload => spec.Countable ∧ D payload
  | addDelayed _ _ payload => D payload
  | _ => True

/-- The clock shows times of the calendar, be it back and forth, and payloads are of some kind. -/
def WorkQueue.carrying {σ : Type} (D : Json → Prop) : WorkQueue.Rule σ := fun _ _ now r => now.Representable ∧ r.Carries D

namespace SharedQueue

variable {D : Json → Prop} {rules : ClaimRules} {now : Instant} {request : QueueRequest} {s s' : Keyspace}
  {id f text : String} {r : RepeatRecord} {error : QueueError}

/-- Every text was written by a queue, with payloads of some kind. -/
structure Written (D : Json → Prop) (s : Keyspace) : Prop where
  entry : ∀ {id text}, s.entries.get? id = some text → ∃ e, text = entryText e ∧ e.Written D
  record : ∀ {f text}, s.repeats.get? f = some text → ∃ r, text = recordText r ∧ r.Written D
  claim : ∀ {id text}, s.active.get? id = some text → ∃ a : ActiveClaim, text = a.text ∧ FitsWord a.claimedAt

namespace Written

theorem empty : Written D {} where
  entry h := by cases h
  record h := by cases h
  claim h := by cases h

theorem setEntry (h : Written D s) {e : StoredEntry} (written : e.Written D) (id : String) (delayed : SortedSet) :
    Written D { s with entries := s.entries.set id (entryText e), delayed } where
  entry {k text} held := by
    rw [Table.get?_set] at held
    split at held
    · exact ⟨e, (Option.some.inj held).symm, written⟩
    · exact h.entry held
  record := h.record
  claim := h.claim

theorem setRecord (h : Written D s) (written : r.Written D) :
    Written D { s with repeats := s.repeats.set r.field (recordText r) } where
  entry := h.entry
  record {f text} held := by
    rw [Table.get?_set] at held
    split at held
    · exact ⟨r, (Option.some.inj held).symm, written⟩
    · exact h.record held
  claim := h.claim

/-- Texts may go. -/
theorem shrink (h : Written D s) (entry : ∀ {id text}, s'.entries.get? id = some text → s.entries.get? id = some text)
    (record : ∀ {f text}, s'.repeats.get? f = some text → s.repeats.get? f = some text)
    (claim : ∀ {id text}, s'.active.get? id = some text → s.active.get? id = some text) : Written D s' where
  entry held := h.entry (entry held)
  record held := h.record (record held)
  claim held := h.claim (claim held)

theorem stored (h : Written D s) (stable : Stable D) (stored : Stored s r) : r.Written D := by
  obtain ⟨text, held, read⟩ := stored
  obtain ⟨r₀, rfl, written⟩ := h.record held
  exact written.of_decode stable read

end Written

/-! ## Runs -/

theorem get?_of_erase {α : Type} {t : Table String α} {k k' : String} {a : α} (h : (t.erase k).get? k' = some a) :
    t.get? k' = some a := by
  rw [Table.get?_erase, Option.ite_none_left_eq_some] at h
  exact h.2

theorem active_foldl_giveUp {ids : List String} {now : Int} (h : (ids.foldl (·.giveUp now) s).active.get? id = some text) :
    s.active.get? id = some text := by
  induction ids generalizing s with
  | nil => exact h
  | cons i ids ih => exact get?_of_erase (ih h)

theorem Made.written (h : Made now request (RepeatRecord.Written D) r) (asked : request.Carries D) : r.Written D := by
  cases h with
  | created same created =>
    subst same
    exact RepeatRecord.written_create asked.1 asked.2 created
  | changed same old =>
    subst same
    exact old.with_payload asked.2
  | advanced old moved => exact old.advance moved

theorem Move.written (h : Written D s) (stable : Stable D) (time : now.Representable) (asked : request.Carries D)
    (m : Move rules now request (RepeatRecord.Written D) s s') : Written D s' := by
  cases m with
  | @addSingle key _ payload fireAt same reached _ =>
    subst same
    have fire : fireAt.Representable := (Instant.add?_eq_some_iff.mp reached).2
    exact h.setEntry (StoredEntry.written_single fire asked) _ _
  | addInstance made fire _ => exact h.setEntry ((made.written asked).currentInstance fire) _ _
  | dropSingle _ _ => exact h.shrink get?_of_erase id id
  | dropInstance _ _ => exact h.shrink get?_of_erase id id
  | @claim id _ stored _ _ _ _ _ _ =>
    refine ⟨h.entry, h.record, fun {k text} held => ?_⟩
    rw [Keyspace.addClaim, Table.get?_set] at held
    split at held
    · exact ⟨⟨stored.key, now.millis⟩, (Option.some.inj held).symm, time.fitsWord⟩
    · exact h.claim held
  | stamp held read =>
    obtain ⟨e₀, text, written⟩ := h.entry held.entry
    rw [text] at read
    exact h.setEntry ((written.of_decode stable read).with_processedOn time) _ _
  | renew _ _ => exact h.shrink id id id
  | finish _ _ _ _ _ => exact h.shrink get?_of_erase id get?_of_erase
  | skip _ _ => exact h.shrink get?_of_erase id get?_of_erase
  | recover =>
    refine h.shrink (fun held => ?_) (fun held => ?_) active_foldl_giveUp
    · rwa [entries_foldl_giveUp] at held
    · rwa [repeats_foldl_giveUp] at held
  | saveRecord made => exact h.setRecord (made.written asked)
  | eraseRecord field => exact h.shrink id get?_of_erase id

theorem preserved_written (rules : ClaimRules) (stable : Stable D) (time : now.Representable) (asked : request.Carries D) :
    Preserved rules now request (RepeatRecord.Written D) (Written D) :=
  ⟨fun _ h m => m.written h stable time asked, fun h stored => h.stored stable stored⟩

/-- Whatever was asked, claimed and given up before. -/
theorem written_of_run {faults : CommandFaults} {t₀ t : Instant} {link : Link} (stable : Stable D) (whole : faults.Whole)
    (run : (workQueue rules faults).Run (WorkQueue.carrying D) t₀ {} t link) : Kept (Written D) link.keys := by
  induction run with
  | start => exact ⟨Consistent.empty, .empty⟩
  | step _ allowed kept => exact Kept.ask kept (preserved_written rules stable allowed.1 allowed.2) whole

/-! ## Shallow keyspaces -/

/-- No entry and no record has a payload with more than 126 containers around a value. -/
structure Shallow (s : Keyspace) : Prop where
  entry : ∀ {id e}, s.entries.get? id = some (entryText e) → e.payload.depth ≤ 126
  record : ∀ {f r}, s.repeats.get? f = some (recordText r) → r.payload.depth ≤ 126

theorem Shallow.written (shallow : Shallow s) (h : Written Representable s) : Written Keepable s where
  entry held := by
    obtain ⟨e, rfl, written⟩ := h.entry held
    exact ⟨e, rfl, written.spec, ⟨written.payload, shallow.entry held⟩, written.fireAt, written.processedOn⟩
  record held := by
    obtain ⟨r, rfl, written⟩ := h.record held
    exact ⟨r, rfl, written.spec, ⟨written.payload, shallow.record held⟩, written.next⟩
  claim := h.claim

namespace Written

theorem read_entry (h : Written Keepable s) (held : s.entries.get? id = some text) : ∃ e, decodeEntry text = .ok e := by
  obtain ⟨e, rfl, written⟩ := h.entry held
  obtain ⟨payload, read, -⟩ := written.payload.read
  exact written.decode read

theorem read_record (h : Written Keepable s) (held : s.repeats.get? f = some text) : ∃ r, decodeRecord text = .ok r := by
  obtain ⟨r, rfl, written⟩ := h.record held
  obtain ⟨payload, read, -⟩ := written.payload.read
  exact written.decode read

theorem shallow (h : Written Keepable s) : Shallow s where
  entry held := by
    obtain ⟨e, read⟩ := h.read_entry held
    exact StoredEntry.depth_le_of_decode read
  record held := by
    obtain ⟨r, read⟩ := h.read_record held
    exact RepeatRecord.depth_le_of_decode read

/-- All that makes an operation fail of itself is the end of the calendar. -/
theorem outOfRange_of_trouble (h : Written Keepable s) (trouble : Trouble rules now s error) :
    error = .outOfRange ∧ ¬ rules.Reach now := by
  cases trouble with
  | entry held unread =>
    obtain ⟨e, read⟩ := h.read_entry held
    cases read.symm.trans unread
  | record held unread =>
    obtain ⟨r, read⟩ := h.read_record held
    cases read.symm.trans unread
  | claim held unread =>
    obtain ⟨a, rfl, fits⟩ := h.claim held
    cases (ActiveClaim.decode fits).symm.trans unread
  | lease late =>
    unfold leaseExpiry at late
    split at late
    · cases late
    · next beyond =>
      cases late
      exact ⟨rfl, fun reach => by simp [ClaimRules.Reach, beyond] at reach⟩
  | advance stored late =>
    obtain ⟨rfl, beyond⟩ := RepeatRecord.advance_eq_error (h.stored stable_keepable stored).spec late
    exact ⟨rfl, fun reach => beyond reach.2⟩

end Written

/-! ## Answers -/

section

variable {α : Type} {p : Program α} {link : Link} {Q : α → Keyspace → Prop}

/-- What is done that cannot fail is answered. -/
theorem ok_of_does (does : Does p link.keys Q fun _ _ => False) : ∃ a, ((p.run .none).on link).1 = .ok a := by
  obtain ⟨-, fails⟩ := does.ends_calm rfl
  cases result : ((p.run .none).on link).1 with
  | ok a => exact ⟨a, rfl⟩
  | error e => exact (fails e result).elim

/-- What is done that cannot succeed is not answered. -/
theorem ne_ok_of_does {E : QueueError → Keyspace → Prop} (does : Does p link.keys (fun _ _ => False) E) (a : α) :
    ((p.run .none).on link).1 ≠ .ok a := by
  intro result
  exact (does.ends_calm rfl).1 a result

end

theorem listRepeating_ok (reads : ∀ {f text}, s.repeats.get? f = some text → ∃ r, decodeRecord text = .ok r) :
    Does listRepeating s (fun _ _ => True) fun _ _ => False := by
  obtain ⟨rs, on, -⟩ := mem_of_mapM fun text (stored : text ∈ s.repeats.values) => by
    obtain ⟨f, stored⟩ := Table.mem_values_iff.mp stored
    exact reads stored
  refine .askThen trivial (.ofExcept (fun _ _ => trivial) fun error failed => ?_)
  cases on.symm.trans failed

theorem listEntries_ok (reads : ∀ {id text}, s.entries.get? id = some text → ∃ e, decodeEntry text = .ok e)
    (states : List EntryState) : Does (listEntries now states) s (fun _ _ => True) fun _ _ => False := by
  obtain ⟨es, on, -⟩ := mem_of_mapM fun p (stored : p ∈ s.entries.pairs) => reads (Table.mem_pairs_iff.mp stored)
  refine .askThen trivial (.askThen trivial (.ofExceptThen (fun error failed => ?_) fun _ _ => .done trivial))
  cases on.symm.trans failed

theorem getEntry_ok (reads : ∀ {id text}, s.entries.get? id = some text → ∃ e, decodeEntry text = .ok e) (key : String) :
    Does (getEntry now key) s (fun _ _ => True) fun _ _ => False := by
  unfold getEntry
  refine .askThen trivial ?_
  rw [Command.outcome, Keyspace.hash]
  cases stored : s.entries.get? (singleId key) with
  | none => exact .done trivial
  | some text =>
    obtain ⟨e, read⟩ := reads stored
    refine .ofExceptThen (fun _ failed => ?_) fun _ _ => .askThen trivial (.done trivial)
    cases read.symm.trans failed

theorem removeRepeating_ok (reads : ∀ {f text}, s.repeats.get? f = some text → ∃ r, decodeRecord text = .ok r)
    (key : String) (spec : RepeatSpec) : Does (removeRepeating key spec) s (fun _ _ => True) fun _ _ => False := by
  unfold removeRepeating loadRecord
  refine Program.Safe.bind (Q := fun _ _ => True) (.askThen trivial ?_) fun record s' _ => ?_
  · rw [Command.outcome, Keyspace.hash]
    cases stored : s.repeats.get? (repeatField key spec) with
    | none => exact .done trivial
    | some text =>
      obtain ⟨r, read⟩ := reads stored
      refine .ofExceptThen (fun _ failed => ?_) fun _ _ => .done trivial
      cases read.symm.trans failed
  · cases record with
    | none => exact .done trivial
    | some r =>
      refine .askThen trivial ?_
      cases r.currentInstance with
      | none => exact .done trivial
      | some e => exact .send trivial (.done trivial)

/-! ## Texts that cannot be read -/

theorem exists_of_mapM {α β : Type} {read : α → Except QueueError β} {as : List α} {bs : List β}
    (on : as.mapM read = .ok bs) {a : α} (mem : a ∈ as) : ∃ b, read a = .ok b := by
  induction as generalizing bs with
  | nil => cases mem
  | cons a' as ih =>
    rw [List.mapM_cons] at on
    obtain ⟨b, first, on⟩ := Act.except_bind_eq_ok.mp on
    obtain ⟨bs', rest, -⟩ := Act.except_bind_eq_ok.mp on
    rcases List.mem_cons.mp mem with rfl | mem
    · exact ⟨b, first⟩
    · exact ih rest mem

theorem listRepeating_stops (held : s.repeats.get? f = some text) (unread : ∀ r, decodeRecord text ≠ .ok r) :
    Does listRepeating s (fun _ _ => False) fun _ _ => True := by
  refine .askThen trivial (.ofExcept (fun rs on => ?_) fun _ _ => trivial)
  obtain ⟨r, read⟩ := exists_of_mapM on (Table.mem_values_iff.mpr ⟨f, held⟩)
  exact unread r read

theorem listEntries_stops (held : s.entries.get? id = some text) (unread : ∀ e, decodeEntry text ≠ .ok e)
    (states : List EntryState) : Does (listEntries now states) s (fun _ _ => False) fun _ _ => True := by
  refine .askThen trivial (.askThen trivial (.ofExceptThen (fun _ _ => trivial) fun es on => ?_))
  obtain ⟨e, read⟩ := exists_of_mapM on (Table.mem_pairs_iff.mpr held)
  exact (unread e read).elim

/-- Claims go from one identifier to the next, and end at the one that cannot be read. -/
theorem claimEach_stops {ids : List String} {e : StoredEntry} {score : Int} (kept : Kept (fun _ => True) s) (nodup : ids.Nodup)
    (due : ∀ k ∈ ids, Due now s k) (mem : id ∈ ids) (held : At s id (.waiting e score))
    (unread : ∀ e', decodeEntry (entryText e) ≠ .ok e') :
    Does (claimEach rules now ids) s (fun _ _ => False) fun _ _ => True := by
  induction ids generalizing s with
  | nil => cases mem
  | cons k ids ih =>
    obtain ⟨absent, nodup⟩ := List.nodup_cons.mp nodup
    rw [claimEach]
    by_cases own : id = k
    · subst own
      have entry : s.entries.get? id = some (entryText e) := held.entry
      unfold claimId
      refine Program.Safe.bind (Q := fun _ _ => False) (.askThen trivial ?_) fun _ _ never => never.elim
      rw [Command.outcome, Keyspace.hash, entry]
      exact .ofExceptThen (fun _ _ => trivial) fun e' read => (unread e' read).elim
    · obtain ⟨e', score', first, past⟩ := due k List.mem_cons_self
      have mem : id ∈ ids := (List.mem_cons.mp mem).resolve_left own
      have other {k'} (mem : k' ∈ ids) : k' ≠ k := fun same => absent (same ▸ mem)
      refine (does_of_safe (safe_claimId (preserved_true rules now .recoverStalled) kept first past)).mono
        (fun _ _ _ => trivial) (fun _ _ h => h) (fun _ _ _ => trivial) |>.bind ?_
      rintro one s₁ ⟨kept₁, grows, -⟩
      have due₁ (k' : String) (mem : k' ∈ ids) : Due now s₁ k' :=
        (due k' (List.mem_cons_of_mem k mem)).grows grows (other mem)
      have held₁ : At s₁ id (.waiting e score) := grows id _ own (fun h => by cases h) held
      have rest := ih kept₁ nodup due₁ mem held₁
      cases one with
      | none => exact rest
      | some _ => exact rest.bind fun _ _ never => never.elim

/-- An entry that is due and cannot be read keeps all others from being handed out. -/
theorem claimDue_stops {e : StoredEntry} {score : Int} {limit : Nat} (consistent : Consistent s)
    (held : At s id (.waiting e score)) (unread : ∀ e', decodeEntry (entryText e) ≠ .ok e')
    (due : score ≤ now.millis) (enough : s.entries.size ≤ limit) :
    Does (claimDue rules now limit) s (fun _ _ => False) fun _ _ => True := by
  have consistent₁ := consistent.recover now.millis
  have held₁ : At ((s.leases.upTo now.millis).foldl (·.giveUp now.millis) s) id (.waiting e score) :=
    at_recover held now.millis
  have few := consistent₁.length_upTo_le now.millis
  rw [entries_foldl_giveUp] at few
  unfold claimDue
  refine Program.Safe.bind (Q := fun _ s' => s' = (s.leases.upTo now.millis).foldl (·.giveUp now.millis) s)
    (Program.Safe.discard (.send trivial (.done rfl))) ?_
  rintro ⟨⟩ _ rfl
  refine .askThen trivial ?_
  rw [Command.outcome, Keyspace.sortedSet]
  dsimp only
  rw [List.take_of_length_le (few.trans enough)]
  exact claimEach_stops ⟨consistent₁, trivial⟩ (SortedSet.nodup_upTo _ _) (fun k mem => consistent₁.due mem)
    (SortedSet.mem_upTo.mpr ⟨score, held₁.score, due⟩) held₁ unread

/-! ## Which reads are answered -/

/-- Whether a request has to read what is stored. -/
def ReadsTexts : QueueRequest → Prop
  | .claimDue _ | .listRepeating | .listEntries _ | .getEntry _ | .removeRepeating _ _ => True
  | _ => False

/-- A request is answered, but for claims whose lease or next fire lies beyond the calendar. -/
def Answered (rules : ClaimRules) (now : Instant) (request : QueueRequest) (link : Link) : Prop :=
  ∀ error, (((workQueue rules .none).ask now request).on link).1 = .error error →
    error = .outOfRange ∧ ¬ rules.Reach now ∧ ∃ limit, request = .claimDue limit

variable {link : Link} {t₀ t : Instant}

theorem answered_of_ok (ok : ∃ a, (((workQueue rules .none).ask now request).on link).1 = .ok a) :
    Answered rules now request link := by
  intro error failed
  obtain ⟨a, answered⟩ := ok
  cases answered.symm.trans failed

theorem Answered.ok (h : Answered rules now request link) (other : ∀ limit, request ≠ .claimDue limit) :
    ∃ a, (((workQueue rules .none).ask now request).on link).1 = .ok a := by
  cases result : (((workQueue rules .none).ask now request).on link).1 with
  | ok a => exact ⟨a, rfl⟩
  | error error =>
    obtain ⟨-, -, limit, claims⟩ := h error result
    exact absurd claims (other limit)

/-- What can be read is read by whoever asks for it. -/
theorem answered_of_written (kept : Kept (Written Keepable) link.keys) (time : now.Representable) (reads : ReadsTexts request) :
    Answered rules now request link := by
  have entries {id text} (held : link.keys.entries.get? id = some text) := kept.holds.read_entry held
  have records {f text} (held : link.keys.repeats.get? f = some text) := kept.holds.read_record held
  cases request with
  | claimDue limit =>
    intro error failed
    have preserved : Preserved rules now (.claimDue limit) _ (Written Keepable) :=
      preserved_written rules stable_keepable time trivial
    obtain ⟨-, fails⟩ := (safe_claimDue preserved kept limit).ends_calm rfl
    obtain ⟨kept', trouble⟩ := fails error failed
    obtain ⟨late, beyond⟩ := kept'.holds.outOfRange_of_trouble trouble
    exact ⟨late, beyond, limit, rfl⟩
  | listRepeating => exact answered_of_ok (ok_of_does (listRepeating_ok records))
  | listEntries states => exact answered_of_ok (ok_of_does (listEntries_ok entries states))
  | getEntry key => exact answered_of_ok (ok_of_does (getEntry_ok entries key))
  | removeRepeating key spec => exact answered_of_ok (ok_of_does (removeRepeating_ok records key spec))
  | _ => exact reads.elim

/-- The lists of entries and of records are answered only if nothing in them is too deep. -/
theorem shallow_of_answered (entries : Answered rules now (.listEntries EntryState.all) link)
    (records : Answered rules now .listRepeating link) : Shallow link.keys where
  entry {id e} held := by
    by_contra deep
    have unread (e' : StoredEntry) : decodeEntry (entryText e) ≠ .ok e' := mt StoredEntry.depth_le_of_decode deep
    obtain ⟨es, listed⟩ := entries.ok nofun
    exact ne_ok_of_does (listEntries_stops held unread EntryState.all) es listed
  record {f r} held := by
    by_contra deep
    have unread (r' : RepeatRecord) : decodeRecord (recordText r) ≠ .ok r' := mt RepeatRecord.depth_le_of_decode deep
    obtain ⟨rs, listed⟩ := records.ok nofun
    exact ne_ok_of_does (listRepeating_stops held unread) rs listed

/-- As long as payloads are nested 126 deep at most, all that reads them is answered. In any case it is just if no payload
that is stored is deeper, and a deeper one that is due keeps all entries from being handed out. -/
theorem reads_answered (rules : ClaimRules) (t₀ : Instant) :
    (∀ t link, (workQueue rules .none).Run (WorkQueue.carrying Keepable) t₀ {} t link →
      ∀ now request, now.Representable → ReadsTexts request → Answered rules now request link) ∧
    ∀ t link, (workQueue rules .none).Run (WorkQueue.carrying Representable) t₀ {} t link →
      (Shallow link.keys ↔ ∀ now request, now.Representable → ReadsTexts request → Answered rules now request link) ∧
      ∀ id e score now limit, At link.keys id (.waiting e score) → 126 < e.payload.depth → score ≤ now.millis →
        link.keys.entries.size ≤ limit → ∀ out, (((workQueue rules .none).claimDue now limit).on link).1 ≠ .ok out := by
  have whole : CommandFaults.none.Whole := CommandFaults.whole_none
  refine ⟨fun t link run now request time reads => ?_, fun t link run => ?_⟩
  · exact answered_of_written (written_of_run stable_keepable whole run) time reads
  · have kept := written_of_run stable_representable whole run
    refine ⟨⟨fun shallow now request time reads => ?_, fun answered => ?_⟩, ?_⟩
    · exact answered_of_written ⟨kept.consistent, shallow.written kept.holds⟩ time reads
    · have start : Instant.first.Representable := by decide
      exact shallow_of_answered (answered _ _ start trivial) (answered _ _ start trivial)
    · intro id e score now limit held deep due enough out
      have unread (e' : StoredEntry) : decodeEntry (entryText e) ≠ .ok e' :=
        mt StoredEntry.depth_le_of_decode (not_le.mpr deep)
      exact ne_ok_of_does (claimDue_stops kept.consistent held unread due enough) out

/-- Arrays in each other. -/
def nested : Nat → Json
  | 0 => .null
  | n + 1 => .arr [nested n]

theorem depth_nested (n : Nat) : (nested n).depth = n := by
  induction n with
  | zero => rfl
  | succ n ih => simp [nested, depth, depthItems, ih]

theorem representable_nested (n : Nat) : (nested n).Representable := by
  induction n with
  | zero => trivial
  | succ n ih => exact ⟨ih, trivial⟩

/-- Entries with payloads of some depth, and one that has none. -/
def addedNested (n : Nat) : Link :=
  (((workQueue {} .none).addDelayed (.ofMillis 0) "b" 0 (.obj [])).on
    (((workQueue {} .none).addDelayed (.ofMillis 0) "a" 0 (nested n)).on {}).2).2

theorem run_addedNested {D : Json → Prop} (n : Nat) (kind : D (nested n)) (plain : D (.obj [])) :
    (workQueue {} .none).Run (WorkQueue.carrying D) (.ofMillis 0) {} (.ofMillis 0) (addedNested n) := by
  have time : (Instant.ofMillis 0).Representable := by decide
  exact .step (r := .addDelayed "b" 0 (.obj [])) (.step (r := .addDelayed "a" 0 (nested n)) .start ⟨time, kind⟩) ⟨time, plain⟩

/-- Just deep enough to be read. -/
theorem deepest_payload_is_read :
    Answered {} (.ofMillis 1) (.claimDue 10) (addedNested 126) := by
  have kind : (nested 126).Keepable := ⟨representable_nested 126, (depth_nested 126).le⟩
  exact (reads_answered {} (.ofMillis 0)).1 _ _ (run_addedNested 126 kind ⟨trivial, by decide⟩) _ _ (by decide) trivial

/-- One level deeper, and neither entry is handed out. -/
theorem deep_payload_stops_claims :
    (workQueue {} .none).Run (WorkQueue.carrying Representable) (.ofMillis 0) {} (.ofMillis 0) (addedNested 127) ∧
      (((workQueue {} .none).addDelayed (.ofMillis 0) "a" 0 (nested 127)).on {}).1 = .ok () ∧
      (addedNested 127).keys.entries.keys = ["a:once", "b:once"] ∧
      (∀ es, (((workQueue {} .none).listEntries (.ofMillis 1) EntryState.all).on (addedNested 127)).1 ≠ .ok es) ∧
      ∀ out, (((workQueue {} .none).claimDue (.ofMillis 1) 10).on (addedNested 127)).1 ≠ .ok out := by
  have run := run_addedNested (D := Representable) 127 (representable_nested 127) trivial
  have held : At (addedNested 127).keys "a:once" (.waiting (.single "a" (.ofMillis 0) (nested 127)) 0) := by
    refine ⟨by decide +kernel, by decide +kernel, by decide +kernel, by decide +kernel, ?_, ?_⟩
    · rintro _ ⟨⟩
      rfl
    · rintro _ _ ⟨⟩ ⟨⟩
  have unread (e : StoredEntry) : decodeEntry (entryText (.single "a" (.ofMillis 0) (nested 127))) ≠ .ok e :=
    mt StoredEntry.depth_le_of_decode (not_le.mpr (depth_nested 127).symm.le)
  have few : (addedNested 127).keys.entries.size ≤ 10 := by decide +kernel
  have consistent := consistent_of_run CommandFaults.whole_none run
  refine ⟨run, ?_, ?_, fun es => ?_, fun out => ?_⟩
  · decide +kernel
  · decide +kernel
  · exact ne_ok_of_does (listEntries_stops held.entry unread EntryState.all) es
  · exact ne_ok_of_does (claimDue_stops consistent held unread (by decide) few) out

end SharedQueue

end Timetable
