import Timetable.Proofs.Act
import Timetable.Proofs.Queue.Storable

/-!
# Queues in which one thing fails

What a queue holds is seen as its `QueueContents`, wherever it is kept, and what is queued for a job as a `Placement`
there. A `FaultyQueue` is a queue of which one call or command fails. It is `Lawful` if each of the operations that
change placements has its whole effect (`Entered`, `Left`) or fails with none. There is one exception, which
`FaultyQueue.Cuts` tells of: an operation of several commands may be cut short when the record has changed and its
entry has not (`RecordOnly`).
-/

namespace Timetable

/-! ## Contents -/

structure QueueContents where
  /-- Repeat records by field. -/
  record : String → Option RepeatRecord
  /-- Entries by identifier. -/
  entry : String → Option StoredEntry
  /-- Whether the entry under an identifier is claimed. -/
  claimed : String → Bool

/-- Records are stored in their own fields, and what they repeat can be repeated. -/
def QueueContents.Filed (c : QueueContents) : Prop := ∀ f r, c.record f = some r → r.field = f ∧ r.spec.Usable

/-- What is queued for a job: the entries of a key that repeat in one way, or the single entry. -/
structure Placement where
  key : String
  spec : Option RepeatSpec

namespace Placement

/-- The field of the record, if there is to be one. -/
def field? (p : Placement) : Option String := p.spec.map (repeatField p.key)

/-- Whether an identifier is that of an entry placed so. -/
def IsFire (p : Placement) (id : String) : Prop :=
  match p.spec with
  | some spec => ∃ t, id = instanceId p.key spec t
  | none => id = singleId p.key

/-- The identifier of the entry that is to be in the queue now. -/
def current? (p : Placement) (c : QueueContents) : Option String :=
  match p.spec with
  | some spec => (c.record (repeatField p.key spec)).bind fun r => r.next.map (instanceId p.key spec)
  | none => some (singleId p.key)

/-- The record is stored, or the single entry. -/
def Held (p : Placement) (c : QueueContents) : Prop :=
  match p.spec with
  | some spec => (c.record (repeatField p.key spec)).isSome
  | none => (c.entry (singleId p.key)).isSome

/-- The entry that is to be in the queue is there. -/
def Queued (p : Placement) (c : QueueContents) : Prop := ∃ id, p.current? c = some id ∧ (c.entry id).isSome

variable {p q : Placement} {c c' : QueueContents} {id f : String}

theorem field?_eq_some_iff : p.field? = some f ↔ ∃ spec, p.spec = some spec ∧ repeatField p.key spec = f :=
  Option.map_eq_some_iff

theorem isFire_of_current (h : p.current? c = some id) : p.IsFire id := by
  obtain ⟨key, spec⟩ := p
  cases spec with
  | none => exact (Option.some.inj h).symm
  | some spec =>
    obtain ⟨r, _, h⟩ := Option.bind_eq_some_iff.mp h
    obtain ⟨t, _, rfl⟩ := Option.map_eq_some_iff.mp h
    exact ⟨t, rfl⟩

theorem Queued.held (h : p.Queued c) : p.Held c := by
  obtain ⟨id, current, stored⟩ := h
  obtain ⟨key, spec⟩ := p
  cases spec with
  | none =>
    obtain rfl := Option.some.inj current
    exact stored
  | some spec =>
    obtain ⟨r, hr, _⟩ := Option.bind_eq_some_iff.mp current
    exact Option.isSome_iff_exists.mpr ⟨r, hr⟩

theorem queued_single_iff {key : String} : Queued ⟨key, none⟩ c ↔ (c.entry (singleId key)).isSome := by
  simp [Queued, current?]

/-- The entry that is to be in the queue depends on nothing but the record. -/
theorem current?_eq (same : ∀ f, p.field? = some f → c'.record f = c.record f) : p.current? c' = p.current? c := by
  unfold current?
  split
  · next spec hs => rw [same _ (field?_eq_some_iff.mpr ⟨spec, hs, rfl⟩)]
  · rfl

/-- The record of a placement is the one with its key and its specification. -/
theorem held_iff {key : String} {spec : RepeatSpec} (filed : c.Filed) (usable : spec.Usable) :
    Held ⟨key, some spec⟩ c ↔ ∃ r f, c.record f = some r ∧ r.key = key ∧ r.spec = spec := by
  constructor
  · intro held
    obtain ⟨r, hr⟩ := Option.isSome_iff_exists.mp held
    obtain ⟨own, hu⟩ := filed _ r hr
    obtain ⟨hk, hs⟩ := repeatField_inj hu.colonless usable.colonless own
    exact ⟨r, _, hr, hk, hs⟩
  · rintro ⟨r, f, hr, rfl, rfl⟩
    obtain ⟨rfl, _⟩ := filed f r hr
    exact Option.isSome_iff_exists.mpr ⟨r, hr⟩

/-! ## Effects -/

/-- Nothing has changed but the record that there is to be. -/
structure RecordOnly (p : Placement) (c c' : QueueContents) : Prop where
  repeats : p.spec ≠ none
  others : ∀ f, p.field? ≠ some f → c'.record f = c.record f
  entry : c'.entry = c.entry
  claimed : c'.claimed = c.claimed

/-- What is to be queued is there, for fires at some times. -/
structure Entered (p : Placement) (now : Instant) (fires : Instant → Prop) (c c' : QueueContents) : Prop where
  record : ∀ f, p.field? = some f → (c'.record f).isSome
  /-- A new record waits for the first fire from now on. -/
  anew : ∀ spec, p.spec = some spec → c.record (repeatField p.key spec) = none →
    ∃ r, c'.record (repeatField p.key spec) = some r ∧ spec.nextAfter now = .ok r.next
  others : ∀ f, p.field? ≠ some f → c'.record f = c.record f
  kept : ∀ id e, c.entry id = some e → c'.entry id = some e
  new : ∀ id e, c'.entry id = some e → c.entry id = some e ∨
    p.current? c' = some id ∧ e.key = p.key ∧ e.repeats = p.spec ∧ fires e.fireAt
  stored : ∀ id, p.current? c' = some id → (c'.entry id).isSome
  claimed : c'.claimed = c.claimed

/-- What was queued is gone, but for what is claimed. -/
structure Left (p : Placement) (c c' : QueueContents) : Prop where
  record : ∀ f, p.field? = some f → c'.record f = none
  others : ∀ f, p.field? ≠ some f → c'.record f = c.record f
  kept : ∀ id, ¬ p.IsFire id → c'.entry id = c.entry id
  old : ∀ id e, c'.entry id = some e → c.entry id = some e
  gone : ∀ id, p.current? c = some id → c'.entry id = none ∨ c'.claimed id = true
  claimed : c'.claimed = c.claimed

theorem Entered.mono {now : Instant} {fires fires' : Instant → Prop} (h : p.Entered now fires c c')
    (le : ∀ t, fires t → fires' t) : p.Entered now fires' c c' :=
  { h with new := fun id e after => (h.new id e after).imp_right fun ⟨current, hk, hs, ht⟩ => ⟨current, hk, hs, le _ ht⟩ }

theorem Left.not_held {spec : RepeatSpec} (h : p.Left c c') (hs : p.spec = some spec) : ¬ p.Held c' := by
  simp [Held, hs, h.record _ (field?_eq_some_iff.mpr ⟨spec, hs, rfl⟩)]

/-! ## Effects in two steps -/

/-- An entry that is added unless its identifier is taken. -/
structure Inserted (e : StoredEntry) (c c' : QueueContents) : Prop where
  record : c'.record = c.record
  claimed : c'.claimed = c.claimed
  kept : ∀ id e', c.entry id = some e' → c'.entry id = some e'
  new : ∀ id e', c'.entry id = some e' →
    c.entry id = some e' ∨ e.id = id ∧ e'.key = e.key ∧ e'.repeats = e.repeats ∧ e'.fireAt = e.fireAt
  stored : (c'.entry e.id).isSome

/-- A pending entry is taken out. -/
structure EntryDropped (id : String) (c c' : QueueContents) : Prop where
  record : c'.record = c.record
  claimed : c'.claimed = c.claimed
  kept : ∀ k, id ≠ k → c'.entry k = c.entry k
  old : ∀ k e, c'.entry k = some e → c.entry k = some e
  gone : c'.entry id = none ∨ c'.claimed id = true

section

variable {now : Instant} {key : String} {spec : RepeatSpec} {r : RepeatRecord} {c₁ c₂ : QueueContents}

/-- The record is stored, and the entry for its next fire. -/
theorem entered_of_inserted (others : ∀ f, c₁.record f = if repeatField key spec = f then some r else c.record f)
    (entry : c₁.entry = c.entry) (claimed : c₁.claimed = c.claimed)
    (anew : c.record (repeatField key spec) = none → spec.nextAfter now = .ok r.next)
    (insert : ∀ t, r.next = some t → ∃ payload, Inserted (.ofFire key spec t payload) c₁ c₂)
    (no_insert : r.next = none → c₂ = c₁) : Entered ⟨key, some spec⟩ now (fun _ => True) c c₂ := by
  have records : c₂.record = c₁.record := by
    cases fire : r.next with
    | none => rw [no_insert fire]
    | some t =>
      obtain ⟨_, inserted⟩ := insert t fire
      exact inserted.record
  have own : c₂.record (repeatField key spec) = some r := by rw [records, others, if_pos rfl]
  have current (id : String) : current? ⟨key, some spec⟩ c₂ = some id ↔
      ∃ t, r.next = some t ∧ instanceId key spec t = id := by
    simp only [current?, own, Option.bind_some, Option.map_eq_some_iff]
  refine ⟨?_, ?_, ?_, ?_, ?_, ?_, ?_⟩
  · rintro _ ⟨⟩
    exact own ▸ rfl
  · rintro _ ⟨⟩ absent
    exact ⟨r, own, anew absent⟩
  · intro f ne
    have other : repeatField key spec ≠ f := fun same => ne (congrArg some same)
    rw [records, others, if_neg other]
  · intro id e before
    rw [← entry] at before
    cases fire : r.next with
    | none => rwa [no_insert fire]
    | some t =>
      obtain ⟨_, inserted⟩ := insert t fire
      exact inserted.kept id e before
  · intro id e after
    rw [← entry]
    cases fire : r.next with
    | none => exact .inl (no_insert fire ▸ after)
    | some t =>
      obtain ⟨_, inserted⟩ := insert t fire
      refine (inserted.new id e after).imp_right ?_
      rintro ⟨same, hk, hs, -⟩
      exact ⟨(current id).mpr ⟨t, fire, same⟩, hk, hs, trivial⟩
  · intro id now
    obtain ⟨t, fire, rfl⟩ := (current id).mp now
    obtain ⟨_, inserted⟩ := insert t fire
    exact inserted.stored
  · rw [← claimed]
    cases fire : r.next with
    | none => rw [no_insert fire]
    | some t =>
      obtain ⟨_, inserted⟩ := insert t fire
      exact inserted.claimed

/-- The record is taken out, and the entry for its next fire. -/
theorem left_of_dropped (others : ∀ f, c₁.record f = if repeatField key spec = f then none else c.record f)
    (entry : c₁.entry = c.entry) (claimed : c₁.claimed = c.claimed)
    (loaded : c.record (repeatField key spec) = some r)
    (drop : ∀ t, r.next = some t → EntryDropped (instanceId key spec t) c₁ c₂) (no_drop : r.next = none → c₂ = c₁) :
    Left ⟨key, some spec⟩ c c₂ := by
  have records : c₂.record = c₁.record := by
    cases fire : r.next with
    | none => rw [no_drop fire]
    | some t => exact (drop t fire).record
  refine ⟨?_, ?_, ?_, ?_, ?_, ?_⟩
  · rintro _ ⟨⟩
    rw [records, others]
    exact if_pos rfl
  · intro f ne
    have other : repeatField key spec ≠ f := fun same => ne (congrArg some same)
    rw [records, others, if_neg other]
  · intro id other
    rw [← entry]
    cases fire : r.next with
    | none => rw [no_drop fire]
    | some t => exact (drop t fire).kept id fun same => other ⟨t, same.symm⟩
  · intro id e after
    rw [← entry]
    cases fire : r.next with
    | none => exact no_drop fire ▸ after
    | some t => exact (drop t fire).old id e after
  · intro id now
    simp only [current?, loaded, Option.bind_some, Option.map_eq_some_iff] at now
    obtain ⟨t, fire, rfl⟩ := now
    exact (drop t fire).gone
  · rw [← claimed]
    cases fire : r.next with
    | none => rw [no_drop fire]
    | some t => exact (drop t fire).claimed

/-- Where there is no record, nothing has to be taken out. -/
theorem left_of_absent (absent : c.record (repeatField key spec) = none) : Left ⟨key, some spec⟩ c c := by
  refine ⟨?_, fun _ _ => rfl, fun _ _ => rfl, fun _ _ h => h, fun id now => ?_, rfl⟩
  · rintro _ ⟨⟩
    exact absent
  · simp only [current?, absent, Option.bind_none] at now
    cases now

/-- The single entry is stored. -/
theorem entered_of_inserted_single {fireAt : Instant} {payload : Json} {fires : Instant → Prop} (fits : fires fireAt)
    (h : Inserted (.single key fireAt payload) c c') : Entered ⟨key, none⟩ now fires c c' := by
  refine ⟨nofun, nofun, fun _ _ => by rw [h.record], h.kept, fun id e after => ?_, ?_, h.claimed⟩
  · refine (h.new id e after).imp_right ?_
    rintro ⟨rfl, hk, hs, ht⟩
    exact ⟨rfl, hk, hs, ht ▸ fits⟩
  · rintro _ ⟨⟩
    exact h.stored

/-- The single entry is taken out. -/
theorem left_of_dropped_single (h : EntryDropped (singleId key) c c') : Left ⟨key, none⟩ c c' := by
  refine ⟨nofun, fun _ _ => by rw [h.record], fun id other => h.kept id (Ne.symm other), h.old, ?_, h.claimed⟩
  rintro _ ⟨⟩
  exact h.gone

end

end Placement

/-! ## Queues -/

/-- A queue of which one call or command fails. -/
structure FaultyQueue (σ : Type) where
  queue : WorkQueue σ
  contents : σ → QueueContents
  /-- What was reached by a time from an empty queue, whatever failed on the way. -/
  Reached : Instant → σ → Prop
  /-- Nothing fails from here on. -/
  Calm : σ → Prop
  /-- The third command from here fails, if there are single commands. -/
  Cuts : σ → Prop

namespace FaultyQueue

variable {σ : Type}

/-- An operation came to its end. -/
structure Went (Q : FaultyQueue σ) (Inv : σ → Prop) (s s' : σ) : Prop where
  inv : Inv s'
  calm : Q.Calm s → Q.Calm s'

/-- An operation failed: it met the end of the calendar, or the one fault, and left something of some kind. -/
def Broke (Q : FaultyQueue σ) (Inv : σ → Prop) (s : σ) (P : QueueContents → Prop) (e : QueueError) (s' : σ) : Prop :=
  e = .outOfRange ∨ ¬ Q.Calm s ∧ Q.Calm s' ∧ Inv s' ∧ P (Q.contents s')

/-- Where nothing fails, only the end of the calendar does. -/
theorem Broke.late {Q : FaultyQueue σ} {Inv : σ → Prop} {s s' : σ} {P : QueueContents → Prop} {e : QueueError}
    (h : Q.Broke Inv s P e s') (calm : Q.Calm s) : e = .outOfRange :=
  h.resolve_right fun struck => struck.1 calm

/-- What the operations do at some time. -/
structure Lawful (Q : FaultyQueue σ) (now : Instant) (Inv : σ → Prop) : Prop where
  reached : ∀ {s}, Q.Reached now s → Inv s
  filed : ∀ {s}, Inv s → (Q.contents s).Filed
  addRepeating : ∀ {s} key spec payload, Inv s → RepeatSpec.Usable spec → Json.Keepable payload →
    (Q.queue.addRepeating now key spec payload).Ends s
      (fun _ s' => Q.Went Inv s s' ∧
        Placement.Entered ⟨key, some spec⟩ now (fun _ => True) (Q.contents s) (Q.contents s'))
      (Q.Broke Inv s fun c => c = Q.contents s ∨
        Q.Cuts s ∧ Placement.RecordOnly ⟨key, some spec⟩ (Q.contents s) c)
  addDelayed : ∀ {s} key millis payload, Inv s → Json.Keepable payload →
    (Q.queue.addDelayed now key millis payload).Ends s
      (fun _ s' => Q.Went Inv s s' ∧ Placement.Entered ⟨key, none⟩ now
        (fun t => now.addMillis? (signedWord millis) = some t) (Q.contents s) (Q.contents s'))
      (Q.Broke Inv s (· = Q.contents s))
  removeRepeating : ∀ {s} key spec, Inv s → RepeatSpec.Usable spec →
    (Q.queue.removeRepeating key spec).Ends s
      (fun _ s' => Q.Went Inv s s' ∧ Placement.Left ⟨key, some spec⟩ (Q.contents s) (Q.contents s'))
      (Q.Broke Inv s fun c => c = Q.contents s ∨ Q.Cuts s ∧
        Placement.RecordOnly ⟨key, some spec⟩ (Q.contents s) c ∧ c.record (repeatField key spec) = none)
  removeDelayed : ∀ {s} key, Inv s →
    (Q.queue.removeDelayed key).Ends s
      (fun _ s' => Q.Went Inv s s' ∧ Placement.Left ⟨key, none⟩ (Q.contents s) (Q.contents s'))
      (Q.Broke Inv s (· = Q.contents s))
  listRepeating : ∀ {s}, Inv s →
    Q.queue.listRepeating.Ends s
      (fun records s' => Q.Went Inv s s' ∧ Q.contents s' = Q.contents s ∧
        ∀ r, r ∈ records ↔ ∃ f, (Q.contents s).record f = some r)
      (Q.Broke Inv s (· = Q.contents s))
  getEntry : ∀ {s} key, Inv s →
    (Q.queue.getEntry now key).Ends s
      (fun entry s' => Q.Went Inv s s' ∧ Q.contents s' = Q.contents s ∧
        entry.isSome = ((Q.contents s).entry (singleId key)).isSome)
      (Q.Broke Inv s (· = Q.contents s))

end FaultyQueue

end Timetable
