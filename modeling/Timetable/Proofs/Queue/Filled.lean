import Timetable.Proofs.Queue.Records
import Timetable.Proofs.Queue.Turns

/-!
# What fills the queue in memory

Entries and records come from what was put in (`LocalQueue.ask_filled`): the payloads are those with which their keys were
put in, and single entries come from `LocalQueue.addDelayed` only. So a sound queue hands out payloads that were put in
under the keys of their entries, single entries that were stored, and fires that have a record (`LocalQueue.claimDue_hands`).
-/

namespace Timetable

/-- What a request puts in fits: keys with their payloads, and entries that do not repeat. -/
def QueueRequest.Fills (C : String → Json → Prop) (S : StoredEntry → Prop) : QueueRequest → Prop
  | .addRepeating key spec payload => spec.Colonless ∧ C key payload
  | .addDelayed key _ payload => C key payload ∧ ∀ fireAt, S (.single key fireAt payload)
  | _ => True

namespace LocalQueue

variable {C C' : String → Json → Prop} {S S' : StoredEntry → Prop} {rules : ClaimRules} {now : Instant}
  {q q' : LocalQueue} {e : StoredEntry} {r : RepeatRecord}

/-- Keys and payloads are related in all records and entries, and entries that do not repeat have some property. -/
structure Filled (C : String → Json → Prop) (S : StoredEntry → Prop) (q : LocalQueue) : Prop where
  record : ∀ {f r}, q.repeats.get? f = some r → C r.key r.payload
  entry : ∀ {id e}, q.entries.get? id = some e → C e.key e.payload
  single : ∀ {id e}, q.entries.get? id = some e → e.repeats = none → S e

namespace Filled

theorem empty : Filled C S {} := by constructor <;> simp

theorem mono (h : q.Filled C S) (sub : ∀ key payload, C key payload → C' key payload) (sub' : ∀ e, S e → S' e) :
    q.Filled C' S' where
  record hr := sub _ _ (h.record hr)
  entry he := sub _ _ (h.entry he)
  single he repeats := sub' _ (h.single he repeats)

/-- What is taken out does not matter. -/
theorem of_sub (h : q.Filled C S) (entries : ∀ id e, q'.entries.get? id = some e → q.entries.get? id = some e)
    (records : ∀ f r, q'.repeats.get? f = some r → q.repeats.get? f = some r) : q'.Filled C S where
  record hr := h.record (records _ _ hr)
  entry he := h.entry (entries _ _ he)
  single he := h.single (entries _ _ he)

theorem withActive (h : q.Filled C S) (active : Table String Instant) : Filled C S { q with active } :=
  ⟨h.record, h.entry, h.single⟩

theorem eraseEntry (h : q.Filled C S) (id : String) : (q.eraseEntry id).Filled C S := by
  refine h.of_sub (fun k e he => ?_) fun _ _ hr => hr
  simp only [LocalQueue.eraseEntry, Table.get?_erase, Option.ite_none_left_eq_some] at he
  exact he.2

theorem eraseRecord (h : q.Filled C S) (f : String) : (q.eraseRecord f).Filled C S := by
  refine h.of_sub (fun _ _ he => he) fun k r hr => ?_
  simp only [LocalQueue.eraseRecord, Table.get?_erase, Option.ite_none_left_eq_some] at hr
  exact hr.2

theorem putRecord (h : q.Filled C S) (own : C r.key r.payload) : (q.putRecord r).Filled C S where
  record hr := by
    rw [putRecord_repeats] at hr
    split at hr
    · cases hr
      exact own
    · exact h.record hr
  entry he := by
    rcases putRecord_entries_eq_some.mp he with he | ⟨_, _, _, _, rfl⟩
    · exact h.entry he
    · exact own
  single he repeats := by
    rcases putRecord_entries_eq_some.mp he with he | ⟨_, _, _, _, rfl⟩
    · exact h.single he repeats
    · cases repeats

theorem insertIfAbsent (h : q.Filled C S) (own : C e.key e.payload) (single : e.repeats = none → S e) :
    (q.insertIfAbsent e).Filled C S where
  record := h.record
  entry he := by
    rcases insertIfAbsent_entries_eq_some.mp he with he | ⟨_, _, rfl⟩
    · exact h.entry he
    · exact own
  single he repeats := by
    rcases insertIfAbsent_entries_eq_some.mp he with he | ⟨_, _, rfl⟩
    · exact h.single he repeats
    · exact single repeats

theorem holdEntry (h : q.Filled C S) (own : C e.key e.payload) (single : e.repeats = none → S e) (expiry : Instant) :
    (q.holdEntry e expiry).Filled C S where
  record := h.record
  entry he := by
    simp only [LocalQueue.holdEntry, Table.get?_set] at he
    split at he
    · cases he
      exact own
    · exact h.entry he
  single he repeats := by
    simp only [LocalQueue.holdEntry, Table.get?_set] at he
    split at he
    · cases he
      exact single repeats
    · exact h.single he repeats

theorem recover (h : q.Filled C S) (now : Instant) : (q.recover now).Filled C S := h.withActive _

/-! ## Requests -/

theorem addRepeating (h : q.Filled C S) (tidy : q.Tidy) {key : String} {spec : RepeatSpec} {payload : Json}
    (colonless : spec.Colonless) (own : C key payload) :
    ((LocalQueue.addRepeating now key spec payload).on q).2.Filled C S := by
  rw [addRepeating_on]
  cases stored : q.repeats.get? (repeatField key spec) with
  | some old =>
    obtain ⟨rfl, -⟩ := tidy.record_of_field colonless stored
    exact h.putRecord own
  | none =>
    cases created : RepeatRecord.create key spec payload now with
    | error failure => exact h
    | ok r =>
      obtain ⟨rfl, -, rfl⟩ := RepeatRecord.chain_eq_iff.mp (RepeatRecord.advance_eq_ok created).1
      exact h.putRecord own

theorem addDelayed (h : q.Filled C S) {key : String} {payload : Json} (own : C key payload)
    (single : ∀ fireAt, S (.single key fireAt payload)) (delay : Nat) :
    ((LocalQueue.addDelayed now key delay payload).on q).2.Filled C S := by
  unfold LocalQueue.addDelayed
  cases now.addMillis? (signedWord delay) with
  | none => exact h
  | some fireAt => exact h.insertIfAbsent own fun _ => single fireAt

theorem removeRepeating (h : q.Filled C S) (key : String) (spec : RepeatSpec) :
    ((LocalQueue.removeRepeating key spec).on q).2.Filled C S := by
  refine (Act.ends_iff_forall (P := Filled C S)).mp ?_
  simp only [LocalQueue.removeRepeating, Act.ends_bind, Act.ends_get]
  cases q.repeats.get? (repeatField key spec) with
  | none => exact Act.ends_pure.mpr h
  | some r =>
    have erased := h.eraseRecord (repeatField key spec)
    dsimp only
    cases r.currentInstance with
    | none => exact Act.ends_bind.mpr (Act.ends_set.mpr (Act.ends_pure.mpr erased))
    | some e =>
      refine Act.ends_bind.mpr (Act.ends_set.mpr (Act.ends_pure.mpr ?_))
      split
      · exact erased
      · exact erased.eraseEntry e.id

theorem removeDelayed (h : q.Filled C S) (key : String) :
    ((LocalQueue.removeDelayed key).on q).2.Filled C S := by
  rw [removeDelayed_on]
  split
  · exact h
  · exact h.eraseEntry (singleId key)

theorem renewLease (h : q.Filled C S) (e : StoredEntry) :
    ((LocalQueue.renewLease rules e now).on q).2.Filled C S := by
  rw [renewLease_on]
  split
  · cases now.add? rules.lease with
    | none => exact h
    | some expiry => exact h.withActive _
  · exact h

theorem finish (h : q.Filled C S) (e : StoredEntry) : ((LocalQueue.finish e).on q).2.Filled C S := by
  rw [finish_on]
  dsimp only
  split
  · exact (h.eraseEntry e.id).withActive _
  · exact h

/-! ## Claims -/

section

variable (claimed : ∀ e now, S e → S { e with processedOn := some now })
include claimed

theorem claimEntry (h : q.Filled C S) (stored : q.entries.get? e.id = some e) :
    (LocalQueue.claimEntry rules now e).Ends q (fun _ q' => q'.Filled C S) fun _ q' => q'.Filled C S := by
  have erased := h.eraseEntry e.id
  refine claimEntry_leaves erased (fun r next hr _ advanced => ?_) (fun r _ => erased.eraseRecord r.field) ?_
  · obtain ⟨spec, -, hr⟩ := Option.bind_eq_some_iff.mp hr
    obtain ⟨hk, -, hp⟩ := RepeatRecord.chain_eq_iff.mp (RepeatRecord.advance_eq_ok advanced).1
    refine erased.putRecord ?_
    rw [hk, hp]
    exact h.record hr
  · intro p expiry before _
    have own : C e.key e.payload := h.entry stored
    exact before.holdEntry (e := { e with processedOn := some now }) own
      (fun repeats => claimed e now (h.single stored repeats)) expiry

theorem claimDue (h : q.Filled C S) (tidy : q.Tidy) (limit : Nat) :
    ((LocalQueue.claimDue rules now limit).on q).2.Filled C S := by
  have recovered : (q.recover now).Tidy := tidy.recover.1
  have turn {p : LocalQueue} {e : StoredEntry} (before : p.Filled C S) (stored : p.entries.get? e.id = some e) :
      (LocalQueue.claimEntry rules now e).Ends p (fun out p' => p'.Filled C S ∧ ∀ c, out = some c → True)
        fun _ p' => p'.Filled C S :=
    (before.claimEntry claimed stored).mono (fun _ _ after => ⟨after, fun _ _ => trivial⟩) fun _ _ after => after
  rw [claimDue_on]
  refine (Act.ends_iff_forall (P := Filled C S)).mp ?_
  exact (claimEach_ends (fun before _ _ stored _ => turn before stored) limit recovered recovered.takeable_due
    (h.recover now)).mono (fun _ _ h => h.1) fun _ _ h => h

end

end Filled

/-- Whatever is asked of the queue, it holds nothing but what fits. -/
theorem ask_filled (claimed : ∀ e now, S e → S { e with processedOn := some now }) (h : q.Filled C S) (tidy : q.Tidy)
    (request : QueueRequest) (fits : request.Fills C S) :
    (((workQueue rules).ask now request).on q).2.Filled C S := by
  cases request with
  | addRepeating key spec payload => exact h.addRepeating tidy fits.1 fits.2
  | addDelayed key delay payload => exact h.addDelayed fits.1 fits.2 delay
  | removeRepeating key spec => exact h.removeRepeating key spec
  | removeDelayed key => exact h.removeDelayed key
  | claimDue limit => exact h.claimDue claimed tidy limit
  | renewLease f => exact h.renewLease f
  | recoverStalled => exact h.recover now
  | finish f => exact h.finish f
  | listRepeating | listEntries | getEntry | size => exact h

/-! ## What is handed out -/

/-- What a sound queue hands out fits, and a fire that it hands out has a record. -/
theorem claimDue_hands (claimed : ∀ e now, S e → S { e with processedOn := some now }) (h : q.Filled C S)
    (sound : Sound now q) (tidy : q.Tidy) (limit : Nat) :
    (claimDue rules now limit).Ends q (fun out _ => ∀ c ∈ out, C c.key c.payload ∧ (c.repeats = none → S c) ∧
      ∀ spec, c.repeats = some spec → q.Has c.key spec) fun _ _ => True := by
  have recovered : (q.recover now).Tidy := tidy.recover.1
  let same (p : LocalQueue) : Prop :=
    Sound now p ∧ p.Filled C S ∧ ∀ key spec, p.Has key spec ↔ q.Has key spec
  have turn {p : LocalQueue} {e : StoredEntry} (before : same p) (due : e ∈ (q.recover now).due now) (tidy : p.Tidy)
      (stored : p.entries.get? e.id = some e) (free : p.active.contains e.id = false) :
      (claimEntry rules now e).Ends p (fun out p' => same p' ∧ ∀ c, out = some c → C c.key c.payload ∧
        (c.repeats = none → S c) ∧ ∀ spec, c.repeats = some spec → q.Has c.key spec) fun _ _ => True := by
    obtain ⟨sound, filled, has⟩ := before
    have past : e.fireAt ≤ now := (recovered.ownId.mem_due.mp due).2.2
    have claims : Claims rules now e.id p ((claimEntry rules now e).on p) := claimEntry_claims sound stored free past
    have keeps : (claimEntry rules now e).Ends p
        (fun _ p' => Sound now p' ∧ ∀ key spec, p'.Has key spec ↔ q.Has key spec) fun _ _ => True :=
      ⟨fun _ on => ⟨claims.sound, fun key spec => (claims.same _ on).has_iff.trans (has key spec)⟩, fun _ _ => trivial⟩
    refine ((keeps.and (claimEntry_takes tidy stored free)).and (filled.claimEntry claimed stored)).mono ?_
      fun _ _ _ => trivial
    rintro out p' ⟨⟨⟨sound', has'⟩, taken⟩, filled'⟩
    refine ⟨⟨sound', filled', has'⟩, ?_⟩
    rintro c rfl
    obtain ⟨rfl, -⟩ := taken.handed rfl
    have own : C e.key e.payload := filled.entry stored
    refine ⟨own, fun repeats => claimed e now (filled.single stored repeats), fun spec repeats => ?_⟩
    -- a fire that is left behind is not handed out, so its record waits for it
    cases sound.standing stored with
    | single none => cases none.symm.trans repeats
    | left repeats' _ superseded =>
      refine absurd ((taken.barred (by simp [repeats'])).mpr (.inl ?_)) (by simp)
      rwa [recordOf, repeats']
    | current repeats' _ hr _ _ =>
      cases repeats.symm.trans repeats'
      obtain ⟨colonless, -, -⟩ := tidy.fire stored repeats'
      exact (has _ _).mp ⟨_, _, hr, tidy.record_of_field colonless hr⟩
  simp only [LocalQueue.claimDue, Act.ends_bind, Act.ends_modify, Act.ends_get]
  exact (claimEach_ends turn limit recovered recovered.takeable_due ⟨sound.recover, h.recover now, fun _ _ => Iff.rfl⟩).mono
    (fun _ _ h => h.2) fun _ _ h => h

end LocalQueue

end Timetable
