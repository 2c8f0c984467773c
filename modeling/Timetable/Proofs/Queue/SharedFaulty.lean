import Timetable.Proofs.Queue.Legible
import Timetable.Proofs.Queue.LocalFaulty

/-!
# The queue in a shared keyspace, one command of which fails

What a legible keyspace holds can all be read, so the texts do not matter: `SharedQueue.contents` shows the records and
entries themselves. An operation that is hit by its only fault has done nothing yet, or it is at its last command: a
record is stored without its entry, or taken out before its entry.
-/

namespace Timetable

namespace Program

variable {α : Type} {n : Nat} {words : String} {link : Link} {c : Command} {next : c.Answer → Program α}
  {Q : α → Link → Prop} {E : QueueError → Link → Prop}

/-- A command is the one that fails, or it has its outcome. -/
theorem ends_send (hit : link.sent = n → E (CommandFaults.single n words).error ⟨link.keys, link.sent + 1⟩)
    (goes : link.sent ≠ n → ((next (c.outcome link.keys).1).run (.single n words)).Ends
      ⟨(c.outcome link.keys).2, link.sent + 1⟩ Q E) :
    ((send c next).run (.single n words)).Ends link Q E := by
  have on := run_send (.single n words) link c next
  by_cases fails : link.sent = n
  · have all (v : Verb) : (CommandFaults.single n words).fails link.sent v = true := beq_iff_eq.mpr fails
    rw [Command.effect_of_fails all] at on
    exact (Act.ends_of_on_error on).mpr (hit fails)
  · have none (v : Verb) : (CommandFaults.single n words).fails link.sent v = false := beq_eq_false_iff_ne.mpr fails
    rw [Command.effect_on none] at on
    rw [Act.Ends, on]
    exact goes fails

theorem run_bind {β : Type} (faults : CommandFaults) (p : Program α) (f : α → Program β) (link : Link) :
    ((p >>= f).run faults).on link = (p.run faults >>= fun a => (f a).run faults).on link := by
  induction p generalizing link with
  | done a => rfl
  | fail e => rfl
  | send c next ih =>
    rw [send_bind, Act.on_bind, run_send, run_send]
    obtain ⟨answer, keys⟩ := (c.effect (faults.fails link.sent)).on link.keys
    cases answer with
    | ok answer => exact (ih answer _).trans (Act.on_bind ..)
    | error => rfl

theorem ends_run_bind {β : Type} {faults : CommandFaults} {p : Program α} {f : α → Program β}
    {Q : β → Link → Prop} :
    ((p >>= f).run faults).Ends link Q E ↔
      (p.run faults).Ends link (fun a link' => ((f a).run faults).Ends link' Q E) E := by
  rw [Act.Ends, run_bind, ← Act.Ends, Act.ends_bind]

end Program

namespace SharedQueue

open Placement Program

def contents (s : Keyspace) : QueueContents where
  record f := (s.repeats.get? f).bind fun text => (decodeRecord text).toOption
  entry id := (s.entries.get? id).bind fun text => (decodeEntry text).toOption
  claimed := s.active.contains

variable {rules : ClaimRules} {clock now : Instant} {s : Keyspace} {key id f text : String} {spec : RepeatSpec}
  {r : RepeatRecord} {e : StoredEntry}

/-! ## What is read -/

theorem contents_record (h : s.repeats.get? f = some text) (read : decodeRecord text = .ok r) :
    (contents s).record f = some r := by
  simp only [contents, h, Option.bind_some, read]
  rfl

theorem contents_entry (h : s.entries.get? id = some text) (read : decodeEntry text = .ok e) :
    (contents s).entry id = some e := by
  simp only [contents, h, Option.bind_some, read]
  rfl

theorem contents_record_none (h : s.repeats.get? f = none) : (contents s).record f = none := by
  simp only [contents, h, Option.bind_none]

theorem contents_entry_none (h : s.entries.get? id = none) : (contents s).entry id = none := by
  simp only [contents, h, Option.bind_none]

theorem Legible.read_record (h : Legible clock s) (consistent : Consistent s) (stored : s.repeats.get? f = some text) :
    ∃ r, decodeRecord text = .ok r ∧ r.field = f ∧ r.Storable := by
  obtain ⟨r, rfl, storable⟩ := h.record stored
  obtain ⟨payload, _, keepable, read⟩ := storable.decode
  obtain ⟨r', text, rfl⟩ := consistent.record stored
  obtain ⟨key, spec⟩ := RepeatRecord.field_of_decode (text ▸ read)
  exact ⟨_, read, by rw [RepeatRecord.field, key, spec, RepeatRecord.field], storable.with_payload keepable⟩

theorem Legible.read_entry (h : Legible clock s) (stored : s.entries.get? id = some text) :
    ∃ e, decodeEntry text = .ok e := by
  obtain ⟨c, hc, legible⟩ := h.cell id
  rw [hc.entry, Option.map_eq_some_iff] at stored
  obtain ⟨e, held, rfl⟩ := stored
  have storable : e.Storable := by
    cases c <;> cases held <;> exact legible.1
  obtain ⟨payload, _, _, read⟩ := storable.decode
  exact ⟨_, read⟩

theorem isSome_entry (reads : ∀ {text}, s.entries.get? id = some text → ∃ e, decodeEntry text = .ok e) :
    ((contents s).entry id).isSome = s.entries.contains id := by
  cases stored : s.entries.get? id with
  | none =>
    rw [contents_entry_none stored, Table.contains, stored]
    rfl
  | some text =>
    obtain ⟨e, read⟩ := reads stored
    rw [contents_entry stored read, Table.contains, stored]
    rfl

theorem Legible.isSome_entry (h : Legible clock s) (id : String) :
    ((contents s).entry id).isSome = s.entries.contains id := SharedQueue.isSome_entry h.read_entry

theorem filed (h : Kept (Legible clock) s) : (contents s).Filed := by
  intro f r hr
  obtain ⟨text, stored, read⟩ := Option.bind_eq_some_iff.mp hr
  obtain ⟨r', read', own, storable⟩ := h.holds.read_record h.consistent stored
  rw [read'] at read
  cases read
  exact ⟨own, storable.spec⟩

/-- The record of a field is that of its key and specification. -/
theorem record_of_field (h : Kept (Legible clock) s) (hu : spec.Usable)
    (stored : s.repeats.get? (repeatField key spec) = some text) :
    ∃ r, decodeRecord text = .ok r ∧ r.key = key ∧ r.spec = spec ∧ r.Storable := by
  obtain ⟨r, read, own, storable⟩ := h.holds.read_record h.consistent stored
  obtain ⟨hk, hs⟩ := repeatField_inj storable.spec.colonless hu.colonless own
  exact ⟨r, read, hk, hs, storable⟩

/-! ## Effects of commands -/

/-- A record is stored in its field, as it is read again. -/
theorem record_set_of_read (s : Keyspace) {payload : Json} (read : decodeRecord (recordText r) = .ok { r with payload })
    (f : String) : (contents { s with repeats := s.repeats.set r.field (recordText r) }).record f =
      if r.field = f then some { r with payload } else (contents s).record f := by
  by_cases own : r.field = f
  · rw [if_pos own]
    exact contents_record ((Table.get?_set ..).trans (if_pos own)) read
  · rw [if_neg own]
    show (Option.bind (Table.get? _ f) _) = _
    rw [Table.get?_set, if_neg own]
    rfl

theorem record_set (s : Keyspace) (h : r.Storable) :
    ∃ r', r'.key = r.key ∧ r'.spec = r.spec ∧ r'.next = r.next ∧ ∀ f,
      (contents { s with repeats := s.repeats.set r.field (recordText r) }).record f =
        if r.field = f then some r' else (contents s).record f := by
  obtain ⟨payload, _, _, read⟩ := h.decode
  exact ⟨{ r with payload }, rfl, rfl, rfl, record_set_of_read s read⟩

theorem record_erase (s : Keyspace) (field f : String) :
    (contents { s with repeats := s.repeats.erase field }).record f =
      if field = f then none else (contents s).record f := by
  show (Option.bind (Table.get? _ f) _) = _
  rw [Table.get?_erase]
  split <;> rfl

/-- An entry is stored unless its identifier is taken, if what takes it can be read. -/
theorem inserted_of_read {payload : Json} (taken : ((contents s).entry e.id).isSome = s.entries.contains e.id)
    (read : decodeEntry (entryText e) = .ok { e with payload }) : Inserted e (contents s)
    (contents (Command.outcome (.insertIfAbsent e.id (entryText e) e.fireAt.millis) s).2) := by
  rw [Command.outcome]
  split
  · next there => exact ⟨rfl, rfl, fun _ _ h => h, fun _ _ h => .inl h, taken.trans there⟩
  · next free =>
    have absent : s.entries.get? e.id = none := Table.contains_eq_false_iff.mp (Bool.not_eq_true _ ▸ free)
    have own : (contents (s.addPending e.id (entryText e) e.fireAt.millis)).entry e.id = some { e with payload } :=
      contents_entry ((Table.get?_set ..).trans (if_pos rfl)) read
    have other {id : String} (ne : e.id ≠ id) :
        (contents (s.addPending e.id (entryText e) e.fireAt.millis)).entry id = (contents s).entry id := by
      show (Option.bind (Table.get? _ id) _) = _
      rw [Keyspace.addPending, Table.get?_set, if_neg ne]
      rfl
    refine ⟨rfl, rfl, fun id e' before => ?_, fun id e' after => ?_, own ▸ rfl⟩
    · have ne : e.id ≠ id := by
        rintro rfl
        rw [contents_entry_none absent] at before
        cases before
      exact (other ne).trans before
    · by_cases same : e.id = id
      · subst same
        rw [own] at after
        cases after
        exact .inr ⟨rfl, rfl, rfl, rfl⟩
      · exact .inl ((other same).symm.trans after)

theorem inserted (h : Legible clock s) (storable : e.Storable) : Inserted e (contents s)
    (contents (Command.outcome (.insertIfAbsent e.id (entryText e) e.fireAt.millis) s).2) := by
  obtain ⟨_, _, _, read⟩ := storable.decode
  exact inserted_of_read (h.isSome_entry e.id) read

theorem dropped (h : Consistent s) (id : String) :
    EntryDropped id (contents s) (contents (Command.outcome (.removePending id) s).2) := by
  obtain ⟨c, hc⟩ := h.cell id
  rw [Command.outcome]
  split
  · have other {k : String} (ne : id ≠ k) : (contents (s.dropPending id)).entry k = (contents s).entry k := by
      show (Option.bind (Table.get? _ k) _) = _
      rw [Keyspace.dropPending, Table.get?_erase, if_neg ne]
      rfl
    have own : (contents (s.dropPending id)).entry id = none :=
      contents_entry_none ((Table.get?_erase ..).trans (if_pos rfl))
    refine ⟨rfl, rfl, fun k ne => other ne, fun k e after => ?_, .inl own⟩
    have ne : id ≠ k := by
      rintro rfl
      rw [own] at after
      cases after
    exact (other ne).symm.trans after
  · next out =>
    refine ⟨rfl, rfl, fun _ _ => rfl, fun _ _ h => h, ?_⟩
    cases c with
    | absent => exact .inl (contents_entry_none hc.entry)
    | waiting e score => exact absurd (Table.contains_iff.mpr ⟨score, hc.score⟩) out
    | claimed e a expiry => exact .inr (Table.contains_iff.mpr ⟨a.text, hc.claim⟩)

/-! ## Operations -/

/-- An operation that started at a link met the end of the calendar, or the one fault, and left something of some
kind. -/
def Struck (n : Nat) (link : Link) (P : QueueContents → Prop) (e : QueueError) (link' : Link) : Prop :=
  e = .outOfRange ∨ link.sent ≤ n ∧ n < link'.sent ∧ P (contents link'.keys)

section

variable {n : Nat} {words : String} {link : Link} {payload : Json} {Q : Unit → Link → Prop} {P : QueueContents → Prop}
  {E : QueueError → Link → Prop}

theorem insertIfAbsent_ends (h : Legible now link.keys) (storable : e.Storable)
    (hit : link.sent = n → E (CommandFaults.single n words).error ⟨link.keys, link.sent + 1⟩)
    (goes : ∀ link', Inserted e (contents link.keys) (contents link'.keys) → Q () link') :
    ((insertIfAbsent e).run (.single n words)).Ends link Q E :=
  ends_send hit fun _ => Act.ends_pure.mpr (goes _ (inserted h storable))

/-- What is read of a field, if anything. -/
theorem loadRecord_ends (h : Kept (Legible now) link.keys) (hu : spec.Usable) {Q : Option RepeatRecord → Link → Prop}
    (hit : link.sent = n → E (CommandFaults.single n words).error ⟨link.keys, link.sent + 1⟩)
    (absent : (contents link.keys).record (repeatField key spec) = none → Q none ⟨link.keys, link.sent + 1⟩)
    (loaded : ∀ r, (contents link.keys).record (repeatField key spec) = some r → r.key = key → r.spec = spec →
      r.Storable → Q (some r) ⟨link.keys, link.sent + 1⟩) :
    ((loadRecord (repeatField key spec)).run (.single n words)).Ends link Q E := by
  refine ends_send hit fun _ => ?_
  dsimp only [Command.outcome, Keyspace.hash]
  cases stored : link.keys.repeats.get? (repeatField key spec) with
  | none => exact Act.ends_pure.mpr (absent (contents_record_none stored))
  | some text =>
    obtain ⟨r, read, hk, hs, storable⟩ := record_of_field h hu stored
    refine ends_run_bind.mpr (Act.ends_pure.mpr ?_)
    dsimp only
    rw [read]
    exact Act.ends_pure.mpr (loaded r (contents_record stored read) hk hs storable)

/-- A record is stored, then the entry for its next fire. -/
theorem saveChain_ends {link₀ : Link} (h : Legible now link.keys) (storable : r.Storable) (hk : r.key = key)
    (hs : r.spec = spec) (keys : link.keys = link₀.keys) (sent : link.sent = link₀.sent + 1)
    (anew : (contents link₀.keys).record (repeatField key spec) = none → spec.nextAfter now = .ok r.next) :
    ((saveRecord r >>= fun _ => insertCurrent r).run (.single n words)).Ends link
      (fun _ link' => Entered ⟨key, some spec⟩ now (fun _ => True) (contents link₀.keys) (contents link'.keys))
      (Struck n link₀ fun c => c = contents link₀.keys ∨
        link₀.sent + 2 = n ∧ RecordOnly ⟨key, some spec⟩ (contents link₀.keys) c) := by
  subst hk hs
  rw [← keys] at anew ⊢
  obtain ⟨r', hk, hs, hn, record⟩ := record_set link.keys storable
  refine ends_run_bind.mpr (ends_send (fun hit => ?_) fun _ => Act.ends_pure.mpr ?_)
  · exact .inr ⟨by omega, by dsimp only; omega, .inl rfl⟩
  let saved : Keyspace := { link.keys with repeats := link.keys.repeats.set r.field (recordText r) }
  show ((insertCurrent r).run _).Ends ⟨saved, link.sent + 1⟩ _ _
  rw [← hn] at anew
  cases next : r.next with
  | none =>
    have none : insertCurrent r = pure () := by
      simp only [insertCurrent, RepeatRecord.currentInstance, next, Option.map_none]
    rw [none]
    refine Act.ends_pure.mpr (entered_of_inserted record rfl rfl anew (fun t fire => ?_) fun _ => rfl)
    rw [hn, next] at fire
    cases fire
  | some t =>
    have fire : r.currentInstance = some (.ofFire r.key r.spec t r.payload) :=
      Option.map_eq_some_iff.mpr ⟨t, next, rfl⟩
    have insert : insertCurrent r = insertIfAbsent (.ofFire r.key r.spec t r.payload) := by
      simp only [insertCurrent, fire]
    rw [insert]
    refine insertIfAbsent_ends (h.setRecord storable) (storable.currentInstance fire) (fun hit => ?_) ?_
    · refine .inr ⟨?_, ?_, .inr ⟨?_, Option.some_ne_none _, fun f ne => ?_, rfl, rfl⟩⟩
      · dsimp only at hit
        omega
      · dsimp only at hit ⊢
        omega
      · dsimp only at hit
        omega
      · have other : r.field ≠ f := fun same => ne (congrArg some same)
        exact (record f).trans (if_neg other)
    · intro link' inserted
      refine entered_of_inserted record rfl rfl anew (fun t' fire' => ?_) fun none => ?_
      · rw [hn, next] at fire'
        cases fire'
        exact ⟨_, inserted⟩
      · rw [hn, next] at none
        cases none

theorem addRepeating_ends (h : Kept (Legible now) link.keys) (hu : spec.Usable) (keepable : payload.Keepable) :
    ((addRepeating now key spec payload).run (.single n words)).Ends link
      (fun _ link' => Entered ⟨key, some spec⟩ now (fun _ => True) (contents link.keys) (contents link'.keys))
      (Struck n link fun c => c = contents link.keys ∨
        link.sent + 2 = n ∧ RecordOnly ⟨key, some spec⟩ (contents link.keys) c) := by
  unfold addRepeating
  refine ends_run_bind.mpr (loadRecord_ends h hu (fun hit => ?_) (fun absent => ?_) fun old loaded hk hs storable => ?_)
  · exact .inr ⟨hit.le, by dsimp only; omega, .inl rfl⟩
  · refine ends_run_bind.mpr ?_
    cases created : RepeatRecord.create key spec payload now with
    | error e =>
      exact Act.ends_throw.mpr (.inl (RepeatRecord.advance_eq_error (r := ⟨key, spec, payload, none⟩) hu created).1)
    | ok r =>
      obtain ⟨same, fires⟩ := RepeatRecord.advance_eq_ok created
      obtain ⟨hk, hs, _⟩ := RepeatRecord.chain_eq_iff.mp same
      refine Act.ends_pure.mpr (saveChain_ends h.holds ?_ hk hs rfl rfl fun _ => fires)
      exact RepeatRecord.storable_create hu.countable keepable created
  · refine ends_run_bind.mpr (Act.ends_pure.mpr ?_)
    refine saveChain_ends (r := { old with payload }) h.holds (storable.with_payload keepable) hk hs rfl rfl
      fun absent => ?_
    rw [loaded] at absent
    cases absent

theorem addDelayed_ends (h : Legible now link.keys) (time : now.Storable) (millis : Nat) (keepable : payload.Keepable) :
    ((addDelayed now key millis payload).run (.single n words)).Ends link
      (fun _ link' => Entered ⟨key, none⟩ now (fun t => now.addMillis? (signedWord millis) = some t)
        (contents link.keys) (contents link'.keys))
      (Struck n link (· = contents link.keys)) := by
  unfold addDelayed
  cases reached : now.addMillis? (signedWord millis) with
  | none => exact Act.ends_throw.mpr (.inl rfl)
  | some fireAt =>
    refine insertIfAbsent_ends h (StoredEntry.storable_single (time.addMillis? reached) keepable) (fun hit => ?_) ?_
    · exact .inr ⟨hit.le, by dsimp only; omega, rfl⟩
    · exact fun link' inserted => entered_of_inserted_single rfl inserted

theorem removeRepeating_ends (h : Kept (Legible now) link.keys) (hu : spec.Usable) :
    ((removeRepeating key spec).run (.single n words)).Ends link
      (fun _ link' => Left ⟨key, some spec⟩ (contents link.keys) (contents link'.keys))
      (Struck n link fun c => c = contents link.keys ∨ link.sent + 2 = n ∧
        RecordOnly ⟨key, some spec⟩ (contents link.keys) c ∧ c.record (repeatField key spec) = none) := by
  unfold removeRepeating
  refine ends_run_bind.mpr (loadRecord_ends h hu (fun hit => ?_) (fun absent => ?_) fun r loaded hk hs storable => ?_)
  · exact .inr ⟨hit.le, by dsimp only; omega, .inl rfl⟩
  · exact Act.ends_pure.mpr (left_of_absent absent)
  · subst hk hs
    refine ends_run_bind.mpr (ends_send (fun hit => ?_) fun _ => Act.ends_pure.mpr ?_)
    · dsimp only at hit
      exact .inr ⟨by omega, by dsimp only; omega, .inl rfl⟩
    dsimp only
    let erased : Keyspace := { link.keys with repeats := link.keys.repeats.erase (repeatField r.key r.spec) }
    have consistent : Consistent erased := h.consistent.eraseRecord _
    have record (f : String) : (contents erased).record f =
        if repeatField r.key r.spec = f then none else (contents link.keys).record f := record_erase _ _ f
    cases next : r.next with
    | none =>
      simp only [RepeatRecord.currentInstance, next, Option.map_none]
      refine Act.ends_pure.mpr (left_of_dropped record rfl rfl loaded (fun t fire => ?_) fun _ => rfl)
      rw [next] at fire
      cases fire
    | some t =>
      simp only [RepeatRecord.currentInstance, next, Option.map_some]
      refine ends_send (fun hit => ?_) fun _ => Act.ends_pure.mpr ?_
      · dsimp only at hit
        refine .inr ⟨by omega, by dsimp only; omega, .inr ⟨by omega, ⟨Option.some_ne_none _, fun f ne => ?_, rfl, rfl⟩, ?_⟩⟩
        · have other : repeatField r.key r.spec ≠ f := fun same => ne (congrArg some same)
          exact (record f).trans (if_neg other)
        · exact (record _).trans (if_pos rfl)
      · refine left_of_dropped record rfl rfl loaded (fun t' fire => ?_) fun none => ?_
        · rw [next] at fire
          cases fire
          exact dropped consistent _
        · rw [next] at none
          cases none

theorem removeDelayed_ends (h : Consistent link.keys) :
    ((removeDelayed key).run (.single n words)).Ends link
      (fun _ link' => Left ⟨key, none⟩ (contents link.keys) (contents link'.keys))
      (Struck n link (· = contents link.keys)) := by
  refine ends_send (fun hit => ?_) fun _ => Act.ends_pure.mpr (left_of_dropped_single (dropped h _))
  exact .inr ⟨hit.le, by dsimp only; omega, rfl⟩

/-- Texts that can all be read are read one by one. -/
theorem mem_of_mapM {α β : Type} {read : α → Except QueueError β} {as : List α}
    (reads : ∀ a ∈ as, ∃ b, read a = .ok b) :
    ∃ bs, as.mapM read = .ok bs ∧ ∀ b, b ∈ bs ↔ ∃ a ∈ as, read a = .ok b := by
  induction as with
  | nil => exact ⟨[], rfl, by simp⟩
  | cons a as ih =>
    obtain ⟨b, hb⟩ := reads a List.mem_cons_self
    obtain ⟨bs, on, mem⟩ := ih fun a ha => reads a (List.mem_cons_of_mem _ ha)
    refine ⟨b :: bs, by rw [List.mapM_cons, hb, on]; rfl, fun b' => ?_⟩
    rw [List.mem_cons, mem, List.exists_mem_cons_iff, hb, Except.ok.injEq, eq_comm]

theorem listRepeating_ends (h : Kept (Legible now) link.keys) :
    (listRepeating.run (.single n words)).Ends link
      (fun records link' => contents link'.keys = contents link.keys ∧
        ∀ r, r ∈ records ↔ ∃ f, (contents link.keys).record f = some r)
      (Struck n link (· = contents link.keys)) := by
  unfold listRepeating
  refine ends_send (fun hit => .inr ⟨hit.le, by dsimp only; omega, rfl⟩) fun _ => ?_
  obtain ⟨records, on, mem⟩ : ∃ records, link.keys.repeats.values.mapM decodeRecord = .ok records ∧
      ∀ r, r ∈ records ↔ ∃ text ∈ link.keys.repeats.values, decodeRecord text = .ok r := by
    refine mem_of_mapM fun text stored => ?_
    obtain ⟨f, stored⟩ := Table.mem_values_iff.mp stored
    obtain ⟨r, read, _⟩ := h.holds.read_record h.consistent stored
    exact ⟨r, read⟩
  show ((Program.ofExcept (link.keys.repeats.values.mapM decodeRecord)).run _).Ends _ _ _
  rw [on]
  refine Act.ends_pure.mpr ⟨rfl, fun r => (mem r).trans ⟨?_, ?_⟩⟩
  · rintro ⟨text, stored, read⟩
    obtain ⟨f, stored⟩ := Table.mem_values_iff.mp stored
    exact ⟨f, contents_record stored read⟩
  · rintro ⟨f, hr⟩
    obtain ⟨text, stored, read⟩ := Option.bind_eq_some_iff.mp hr
    refine ⟨text, Table.mem_values_iff.mpr ⟨f, stored⟩, ?_⟩
    cases result : decodeRecord text with
    | ok r' =>
      rw [result] at read
      exact congrArg Except.ok (Option.some.inj read)
    | error e =>
      rw [result] at read
      cases read

theorem getEntry_ends (h : Legible now link.keys) :
    ((getEntry now key).run (.single n words)).Ends link
      (fun entry link' => contents link'.keys = contents link.keys ∧
        entry.isSome = ((contents link.keys).entry (singleId key)).isSome)
      (Struck n link (· = contents link.keys)) := by
  unfold getEntry
  refine ends_send (fun hit => .inr ⟨hit.le, by dsimp only; omega, rfl⟩) fun _ => ?_
  dsimp only [Command.outcome, Keyspace.hash]
  cases stored : link.keys.entries.get? (singleId key) with
  | none => exact Act.ends_pure.mpr ⟨rfl, by rw [contents_entry_none stored]; rfl⟩
  | some text =>
    obtain ⟨e, read⟩ := h.read_entry stored
    refine ends_run_bind.mpr (Act.ends_pure.mpr ?_)
    dsimp only
    rw [read]
    refine ends_send (fun hit => ?_) fun _ => Act.ends_pure.mpr ⟨rfl, ?_⟩
    · dsimp only at hit
      exact .inr ⟨by omega, by dsimp only; omega, rfl⟩
    · rw [contents_entry stored read]
      rfl

end

end SharedQueue

/-! ## Faults -/

namespace FaultyQueue

open SharedQueue

/-- The queue in a shared keyspace, with one command that fails. -/
def shared (rules : ClaimRules) (n : Nat) (words : String) : FaultyQueue Link where
  queue := SharedQueue.workQueue rules (.single n words)
  contents link := SharedQueue.contents link.keys
  Reached now link := now.Storable ∧ ∃ faults t₀ t before, CommandFaults.Whole faults ∧ t ≤ now ∧
    (SharedQueue.workQueue rules faults).Run WorkQueue.readable t₀ {} t before ∧ before.keys = link.keys
  Calm link := n < link.sent
  Cuts link := link.sent + 2 = n

variable {rules : ClaimRules} {n : Nat} {words : String} {now : Instant} {link : Link} {P : QueueContents → Prop}

/-- A request keeps the keyspace legible, whether or not it is cut short. -/
theorem shared_ends (request : QueueRequest) {R : request.Answer → QueueContents → Prop} (time : now.Storable)
    (keepable : request.Keepable) (kept : Kept (Legible now) link.keys)
    (ends : ((SharedQueue.program rules now request).run (.single n words)).Ends link
      (fun a link' => R a (SharedQueue.contents link'.keys)) (Struck n link P)) :
    (((SharedQueue.workQueue rules (.single n words)).ask now request).Ends link
      (fun a link' => (shared rules n words).Went (fun link => Kept (Legible now) link.keys) link link' ∧
        R a (SharedQueue.contents link'.keys))
      ((shared rules n words).Broke (fun link => Kept (Legible now) link.keys) link P)) := by
  have inv := Act.ends_iff_forall (P := fun link : Link => Kept (Legible now) link.keys).mpr
    (Kept.ask kept (preserved_legible rules time keepable) (CommandFaults.whole_single n words))
  have later := Act.ends_iff_forall (P := fun link' : Link => link.sent ≤ link'.sent).mpr
    ((Program.sent_run (SharedQueue.program rules now request) (.single n words) link).symm ▸ Nat.le_add_right ..)
  rw [ask_eq_run] at inv ⊢
  refine ((inv.and later).and ends).mono ?_ ?_
  · rintro a link' ⟨⟨kept', le⟩, result⟩
    exact ⟨⟨kept', fun calm => Nat.lt_of_lt_of_le calm le⟩, result⟩
  · rintro e link' ⟨⟨kept', _⟩, struck⟩
    refine struck.imp_right ?_
    rintro ⟨before, after, left⟩
    exact ⟨Nat.not_lt.mpr before, after, kept', left⟩

theorem lawful_shared (rules : ClaimRules) (n : Nat) (words : String) {now : Instant} (time : now.Storable) :
    (shared rules n words).Lawful now fun link => Kept (Legible now) link.keys where
  reached := by
    rintro link ⟨_, faults, t₀, t, before, whole, le, run, keys⟩
    have kept := legible_of_run whole (fun h => h) run
    exact ⟨keys ▸ kept.consistent, keys ▸ kept.holds.mono le⟩
  filed := filed
  addRepeating key spec payload kept usable keepable :=
    shared_ends (.addRepeating key spec payload) time ⟨usable.countable, keepable⟩ kept
      (addRepeating_ends kept usable keepable)
  addDelayed key millis payload kept keepable :=
    shared_ends (.addDelayed key millis payload) time keepable kept
      (addDelayed_ends kept.holds time millis keepable)
  removeRepeating key spec kept usable :=
    shared_ends (.removeRepeating key spec) time trivial kept (removeRepeating_ends kept usable)
  removeDelayed key kept :=
    shared_ends (.removeDelayed key) time trivial kept (removeDelayed_ends kept.consistent)
  listRepeating {link} kept :=
    shared_ends .listRepeating (R := fun records c => c = SharedQueue.contents link.keys ∧
      ∀ r, r ∈ records ↔ ∃ f, (SharedQueue.contents link.keys).record f = some r) time trivial kept
      (listRepeating_ends kept)
  getEntry {link} key kept :=
    shared_ends (.getEntry key) (R := fun entry c => c = SharedQueue.contents link.keys ∧
      entry.isSome = ((SharedQueue.contents link.keys).entry (singleId key)).isSome) time trivial kept
      (getEntry_ends kept.holds)

/-- One of the two queues, with the call or the command that fails. -/
inductive Implemented : {σ : Type} → FaultyQueue σ → Prop
  | memory (rules : ClaimRules) (n : Nat) (e : QueueError) : Implemented (memory rules n e)
  | shared (rules : ClaimRules) (n : Nat) (words : String) : Implemented (shared rules n words)

theorem Implemented.lawful {σ : Type} {Q : FaultyQueue σ} {s : σ} (h : Q.Implemented) (reached : Q.Reached now s) :
    ∃ Inv, Q.Lawful now Inv := by
  cases h with
  | memory rules n e => exact ⟨_, lawful_memory rules n e now⟩
  | shared rules n words => exact ⟨_, lawful_shared rules n words reached.1⟩

end FaultyQueue

end Timetable
