import Timetable.Proofs.Queue.Apart
import Timetable.Proofs.Act

/-!
# Keys on their own

What a queue holds under a key is its share of the queue: entries, records and leases (`LocalQueue.share`). A request
that adds, removes or looks up under one key stays within it (`LocalQueue.underKey`):

1. the shares of all other keys are left as they are, payloads and leases included;
2. the answer depends on the share of that key alone, and so does what the share becomes.

Both rest on where entries and records lie: under the identifiers and the field of a key, a tidy queue holds nothing of
another key. `LocalQueue.Spares` is the weaker statement about a whole claim, which ends the leases of other keys too.
-/

namespace Timetable.LocalQueue

variable {q q' : LocalQueue} {key other id f : String} {spec : RepeatSpec} {e : StoredEntry} {r : RepeatRecord}
  {now : Instant}

/-- What is held under one key. -/
@[ext]
structure Share where
  entry : String → Option StoredEntry := fun _ => none
  record : String → Option RepeatRecord := fun _ => none
  /-- The end of the lease of a claimed entry. -/
  lease : String → Option Instant := fun _ => none

namespace Share

/-- With another record under a field, or with none. -/
def become (s : Share) (f : String) (r? : Option RepeatRecord) : Share :=
  { s with record := fun k => if f = k then r? else s.record k }

def dropEntry (s : Share) (id : String) : Share :=
  { s with
    entry := fun k => if id = k then none else s.entry k
    lease := fun k => if id = k then none else s.lease k }

/-- With an entry, unless there is one under its identifier. -/
def addEntry (s : Share) (e : StoredEntry) : Share :=
  { s with entry := fun k => if e.id = k ∧ s.entry e.id = none then some e else s.entry k }

end Share

/-- What a queue holds under a key. -/
def share (q : LocalQueue) (key : String) : Share where
  entry := q.ownEntry key
  record f := (q.repeats.get? f).filter (·.key == key)
  lease id := (q.ownEntry key id).bind fun _ => q.active.get? id

/-! ## Reading a share -/

/-- No entry of another key lies under an identifier. -/
def OwnId (q : LocalQueue) (key id : String) : Prop := ∀ e, q.entries.get? id = some e → e.key = key

/-- No record of another key lies under a field. -/
def OwnField (q : LocalQueue) (key f : String) : Prop := ∀ r, q.repeats.get? f = some r → r.key = key

theorem Tidy.ownId_single (h : q.Tidy) (key : String) : q.OwnId key (singleId key) := fun _ => h.key_of_singleId

theorem Tidy.ownId_instance (h : q.Tidy) (colonless : spec.Colonless) (key : String) (t : Instant) :
    q.OwnId key (instanceId key spec t) := fun _ => h.key_of_instanceId colonless

theorem Tidy.ownField_repeat (h : q.Tidy) (colonless : spec.Colonless) (key : String) :
    q.OwnField key (repeatField key spec) := fun _ hr => (h.record_of_field colonless hr).1

theorem OwnId.entry (own : q.OwnId key id) : (q.share key).entry id = q.entries.get? id := by
  show (q.entries.get? id).filter (·.key == key) = q.entries.get? id
  cases he : q.entries.get? id with
  | none => rfl
  | some e => rw [Option.filter_some, own e he, beq_self_eq_true, if_pos rfl]

theorem OwnField.record (own : q.OwnField key f) : (q.share key).record f = q.repeats.get? f := by
  show (q.repeats.get? f).filter (·.key == key) = q.repeats.get? f
  cases hr : q.repeats.get? f with
  | none => rfl
  | some r => rw [Option.filter_some, own r hr, beq_self_eq_true, if_pos rfl]

/-- What is claimed is stored, so its lease is in the share of its key. -/
theorem OwnId.lease (own : q.OwnId key id) (h : q.Tidy) : (q.share key).lease id = q.active.get? id := by
  show ((q.share key).entry id).bind _ = q.active.get? id
  rw [own.entry]
  cases he : q.entries.get? id with
  | some e => rfl
  | none =>
    refine (Table.contains_eq_false_iff.mp ?_).symm
    rw [← Bool.not_eq_true]
    intro held
    have stored := h.held held
    rw [Table.contains, he] at stored
    cases stored

/-- Two queues with the same share hold the same under what belongs to the key. -/
theorem entries_eq (same : q.share key = q'.share key) (own : q.OwnId key id) (own' : q'.OwnId key id) :
    q.entries.get? id = q'.entries.get? id := by rw [← own.entry, same, own'.entry]

theorem repeats_eq (same : q.share key = q'.share key) (own : q.OwnField key f) (own' : q'.OwnField key f) :
    q.repeats.get? f = q'.repeats.get? f := by rw [← own.record, same, own'.record]

theorem active_eq (same : q.share key = q'.share key) (h : q.Tidy) (h' : q'.Tidy) (own : q.OwnId key id)
    (own' : q'.OwnId key id) : q.active.get? id = q'.active.get? id := by rw [← own.lease h, same, own'.lease h']

/-! ## Changing a share -/

/-- Where no lease changes, entries and records make up the share. -/
theorem share_eq (entry : ∀ id, q'.ownEntry key id = q.ownEntry key id)
    (record : ∀ f, (q'.repeats.get? f).filter (·.key == key) = (q.repeats.get? f).filter (·.key == key))
    (active : q'.active = q.active) : q'.share key = q.share key := by
  refine Share.ext (funext entry) (funext record) (funext fun id => ?_)
  show (q'.ownEntry key id).bind _ = (q.ownEntry key id).bind _
  rw [entry, active]

theorem share_setRecord (r : RepeatRecord) :
    (q.setRecord r).share r.key = (q.share r.key).become r.field (some r) := by
  refine Share.ext rfl (funext fun f => ?_) rfl
  show ((q.repeats.set r.field r).get? f).filter (·.key == r.key) =
    if r.field = f then some r else (q.repeats.get? f).filter (·.key == r.key)
  rw [Table.get?_set]
  split
  · rw [Option.filter_some, beq_self_eq_true, if_pos rfl]
  · rfl

theorem share_setRecord_ne (foreign : r.key ≠ key) (own : q.OwnField r.key r.field) :
    (q.setRecord r).share key = q.share key := by
  refine share_eq (fun _ => rfl) (fun f => ?_) rfl
  show (((q.repeats.set r.field r).get? f).filter (·.key == key)) = _
  rw [Table.get?_set]
  split
  · next same =>
    subst same
    rw [Option.filter_some, beq_false_of_ne foreign, eq_comm]
    refine Option.filter_eq_none_iff.mpr fun r' hr => ?_
    rw [beq_iff_eq, own r' hr]
    exact foreign
  · rfl

theorem share_eraseRecord (q : LocalQueue) (f key : String) :
    (q.eraseRecord f).share key = (q.share key).become f none := by
  refine Share.ext rfl (funext fun k => ?_) rfl
  show ((q.repeats.erase f).get? k).filter (·.key == key) =
    if f = k then none else (q.repeats.get? k).filter (·.key == key)
  rw [Table.get?_erase]
  split <;> rfl

theorem share_eraseEntry (q : LocalQueue) (id key : String) :
    (q.eraseEntry id).share key = (q.share key).dropEntry id := by
  have entry (k : String) : (q.eraseEntry id).ownEntry key k = if id = k then none else q.ownEntry key k := by
    unfold ownEntry eraseEntry
    rw [Table.get?_erase]
    split <;> rfl
  refine Share.ext (funext entry) rfl (funext fun k => ?_)
  show ((q.eraseEntry id).ownEntry key k).bind (fun _ => q.active.get? k) =
    if id = k then none else (q.ownEntry key k).bind fun _ => q.active.get? k
  rw [entry]
  split <;> rfl

theorem share_eraseEntry_congr (same : q.share key = q'.share key) (id : String) :
    (q.eraseEntry id).share key = (q'.eraseEntry id).share key := by rw [share_eraseEntry, share_eraseEntry, same]

/-- What is put in under a free identifier is not claimed. -/
theorem share_insertIfAbsent (h : q.Tidy) (own : q.OwnId e.key e.id) :
    (q.insertIfAbsent e).share e.key = (q.share e.key).addEntry e := by
  have entry (k : String) : (q.insertIfAbsent e).ownEntry e.key k =
      if e.id = k ∧ (q.share e.key).entry e.id = none then some e else q.ownEntry e.key k := by
    unfold ownEntry insertIfAbsent
    simp only [Table.get?_setIfAbsent, own.entry, Table.contains_eq_false_iff]
    split
    · rw [Option.filter_some, beq_self_eq_true, if_pos rfl]
    · rfl
  refine Share.ext (funext entry) rfl (funext fun k => ?_)
  show ((q.insertIfAbsent e).ownEntry e.key k).bind (fun _ => q.active.get? k) = (q.share e.key).lease k
  rw [entry]
  split
  · next new =>
    obtain ⟨rfl, free⟩ := new
    exact (own.lease h).symm
  · rfl

theorem share_insertIfAbsent_ne (foreign : e.key ≠ key) : (q.insertIfAbsent e).share key = q.share key :=
  share_eq (Spares.insertIfAbsent foreign).entry (fun _ => rfl) rfl

theorem share_insertIfAbsent_congr (same : q.share e.key = q'.share e.key) (h : q.Tidy) (h' : q'.Tidy)
    (own : q.OwnId e.key e.id) (own' : q'.OwnId e.key e.id) :
    (q.insertIfAbsent e).share e.key = (q'.insertIfAbsent e).share e.key := by
  rw [share_insertIfAbsent h own, share_insertIfAbsent h' own', same]

theorem share_putRecord_congr (same : q.share r.key = q'.share r.key) (h : q.Tidy) (h' : q'.Tidy)
    (colonless : r.spec.Colonless) : (q.putRecord r).share r.key = (q'.putRecord r).share r.key := by
  have inserted : (q.insertCurrent r).share r.key = (q'.insertCurrent r).share r.key := by
    unfold insertCurrent
    cases fire : r.currentInstance with
    | none => exact same
    | some e =>
      obtain ⟨t, -, rfl⟩ := Option.map_eq_some_iff.mp fire
      exact share_insertIfAbsent_congr (e := .ofFire r.key r.spec t r.payload) same h h'
        (h.ownId_instance colonless r.key t) (h'.ownId_instance colonless r.key t)
  unfold putRecord
  rw [share_setRecord, share_setRecord, inserted]

theorem share_putRecord_ne (foreign : r.key ≠ key) (own : q.OwnField r.key r.field) :
    (q.putRecord r).share key = q.share key := by
  unfold putRecord insertCurrent
  cases fire : r.currentInstance with
  | none => exact share_setRecord_ne foreign own
  | some e =>
    obtain ⟨t, -, rfl⟩ := Option.map_eq_some_iff.mp fire
    have put := share_insertIfAbsent_ne (q := q) (e := .ofFire r.key r.spec t r.payload) foreign
    exact (share_setRecord_ne (q := q.insertIfAbsent _) foreign own).trans put

theorem share_eraseRecord_ne (foreign : other ≠ key) (own : q.OwnField other f) :
    (q.eraseRecord f).share key = q.share key := by
  have none_held : (q.share key).record f = none := by
    refine Option.filter_eq_none_iff.mpr fun r hr => ?_
    rw [beq_iff_eq, own r hr]
    exact foreign
  rw [share_eraseRecord]
  refine Share.ext rfl (funext fun k => ?_) rfl
  show (if f = k then none else _) = _
  split
  · next same => rw [← same, none_held]
  · rfl

theorem share_eraseEntry_ne (foreign : other ≠ key) (own : q.OwnId other id) :
    (q.eraseEntry id).share key = q.share key :=
  share_eq (Spares.eraseEntry fun e he => own e he ▸ foreign).entry (fun _ => rfl) rfl

/-- Without an entry, unless it is claimed. -/
def withdrawFire (q : LocalQueue) : Option StoredEntry → LocalQueue
  | some e => if q.active.contains e.id then q else q.eraseEntry e.id
  | none => q

theorem share_withdrawFire_congr (same : q.share key = q'.share key) (h : q.Tidy) (h' : q'.Tidy)
    (own : q.OwnId key e.id) (own' : q'.OwnId key e.id) :
    (q.withdrawFire (some e)).share key = (q'.withdrawFire (some e)).share key := by
  unfold withdrawFire
  dsimp only
  rw [Table.contains, Table.contains, active_eq same h h' own own']
  split
  · exact same
  · exact share_eraseEntry_congr same e.id

theorem share_withdrawFire_ne (foreign : other ≠ key) (own : q.OwnId other e.id) :
    (q.withdrawFire (some e)).share key = q.share key := by
  unfold withdrawFire
  dsimp only
  split
  · rfl
  · exact share_eraseEntry_ne foreign own

/-! ## Requests under one key -/

/-- One key of a tidy queue. -/
def underKey (key : String) : Act.Scope LocalQueue where
  inv := Tidy
  frame q q' := ∀ other, other ≠ key → q'.share other = q.share other
  alike q q' := q.share key = q'.share key
  refl _ _ _ := rfl
  trans h h' other ne := (h' other ne).trans (h other ne)

theorem within_addRepeating (colonless : spec.Colonless) (payload : Json) :
    Act.Within (underKey key) (addRepeating now key spec payload) where
  inv h := (h.addRepeating payload).1
  frame {q} h other ne := by
    have own := h.ownField_repeat colonless key
    rw [addRepeating_on]
    cases hr : q.repeats.get? (repeatField key spec) with
    | some old =>
      obtain ⟨rfl, rfl⟩ := h.record_of_field colonless hr
      exact share_putRecord_ne (r := { old with payload }) ne.symm own
    | none =>
      cases created : RepeatRecord.create key spec payload now with
      | error failure => rfl
      | ok r =>
        obtain ⟨rfl, rfl, -⟩ := RepeatRecord.chain_eq_iff.mp (RepeatRecord.advance_eq_ok created).1
        exact share_putRecord_ne ne.symm own
  alike {q q'} h h' same := by
    have found := repeats_eq same (h.ownField_repeat colonless key) (h'.ownField_repeat colonless key)
    rw [addRepeating_on, addRepeating_on, ← found]
    cases hr : q.repeats.get? (repeatField key spec) with
    | some old =>
      obtain ⟨rfl, rfl⟩ := h.record_of_field colonless hr
      exact ⟨rfl, share_putRecord_congr (r := { old with payload }) same h h' colonless⟩
    | none =>
      cases created : RepeatRecord.create key spec payload now with
      | error failure => exact ⟨rfl, same⟩
      | ok r =>
        obtain ⟨rfl, rfl, -⟩ := RepeatRecord.chain_eq_iff.mp (RepeatRecord.advance_eq_ok created).1
        exact ⟨rfl, share_putRecord_congr same h h' colonless⟩

theorem within_addDelayed (delay : Nat) (payload : Json) : Act.Within (underKey key) (addDelayed now key delay payload) where
  inv h := (h.addDelayed delay payload).1
  frame h other ne := by
    unfold addDelayed
    cases now.addMillis? (signedWord delay) with
    | none => rfl
    | some fireAt => exact share_insertIfAbsent_ne (e := .single key fireAt payload) ne.symm
  alike h h' same := by
    unfold addDelayed
    cases now.addMillis? (signedWord delay) with
    | none => exact ⟨rfl, same⟩
    | some fireAt =>
      exact ⟨rfl, share_insertIfAbsent_congr (e := .single key fireAt payload) same h h' (h.ownId_single key)
        (h'.ownId_single key)⟩

theorem removeRepeating_eq (key : String) (spec : RepeatSpec) (q : LocalQueue) : (removeRepeating key spec).on q =
    match q.repeats.get? (repeatField key spec) with
    | none => (.ok false, q)
    | some r => (.ok true, (q.eraseRecord (repeatField key spec)).withdrawFire r.currentInstance) := by
  simp only [removeRepeating, Act.on_bind, Act.on_get]
  cases q.repeats.get? (repeatField key spec) with
  | none => rfl
  | some r =>
    dsimp only
    cases r.currentInstance <;> rfl

theorem within_removeRepeating (colonless : spec.Colonless) : Act.Within (underKey key) (removeRepeating key spec) where
  inv h := h.removeRepeating.1
  frame {q} h other ne := by
    rw [removeRepeating_eq]
    cases hr : q.repeats.get? (repeatField key spec) with
    | none => rfl
    | some r =>
      obtain ⟨rfl, rfl⟩ := h.record_of_field colonless hr
      have erased : (q.eraseRecord (repeatField r.key r.spec)).share other = q.share other :=
        share_eraseRecord_ne ne.symm (h.ownField_repeat colonless r.key)
      have tidy := h.eraseRecord (repeatField r.key r.spec)
      dsimp only
      cases fire : r.currentInstance with
      | none => exact erased
      | some e =>
        obtain ⟨t, -, rfl⟩ := Option.map_eq_some_iff.mp fire
        exact (share_withdrawFire_ne ne.symm (tidy.ownId_instance colonless r.key t)).trans erased
  alike {q q'} h h' same := by
    have found := repeats_eq same (h.ownField_repeat colonless key) (h'.ownField_repeat colonless key)
    rw [removeRepeating_eq, removeRepeating_eq, ← found]
    cases hr : q.repeats.get? (repeatField key spec) with
    | none => exact ⟨rfl, same⟩
    | some r =>
      obtain ⟨rfl, rfl⟩ := h.record_of_field colonless hr
      have erased : (q.eraseRecord (repeatField r.key r.spec)).share r.key =
          (q'.eraseRecord (repeatField r.key r.spec)).share r.key := by
        rw [share_eraseRecord, share_eraseRecord, same]
      refine ⟨rfl, ?_⟩
      dsimp only
      cases fire : r.currentInstance with
      | none => exact erased
      | some e =>
        obtain ⟨t, -, rfl⟩ := Option.map_eq_some_iff.mp fire
        exact share_withdrawFire_congr erased (h.eraseRecord _) (h'.eraseRecord _)
          (h.ownId_instance colonless r.key t) (h'.ownId_instance colonless r.key t)

theorem within_removeDelayed : Act.Within (underKey key) (removeDelayed key) where
  inv h := h.removeDelayed.1
  frame {q} h other ne := by
    rw [removeDelayed_on]
    split
    · rfl
    · exact share_eraseEntry_ne ne.symm (h.ownId_single key)
  alike {q q'} h h' same := by
    have stored := entries_eq same (h.ownId_single key) (h'.ownId_single key)
    have claimed := active_eq same h h' (h.ownId_single key) (h'.ownId_single key)
    rw [removeDelayed_on, removeDelayed_on, Table.contains, Table.contains, Table.contains, Table.contains, stored,
      claimed]
    split
    · exact ⟨rfl, same⟩
    · exact ⟨rfl, share_eraseEntry_congr same _⟩

theorem within_getEntry : Act.Within (underKey key) (getEntry now key) where
  inv h := h
  frame _ _ _ := rfl
  alike {q q'} h h' same := by
    have stored := entries_eq same (h.ownId_single key) (h'.ownId_single key)
    have claimed := active_eq same h h' (h.ownId_single key) (h'.ownId_single key)
    refine ⟨?_, same⟩
    show Except.ok ((q.entries.get? (singleId key)).map (q.withState now)) =
      .ok ((q'.entries.get? (singleId key)).map (q'.withState now))
    rw [stored]
    cases he : q'.entries.get? (singleId key) with
    | none => rfl
    | some e =>
      have own : e.id = singleId key := h'.ownId _ _ he
      simp only [Option.map_some, withState, stateOf, Table.contains, own, claimed]

/-- Whether some record of a key is one that is looked for. -/
theorem within_listRepeating (p : RepeatRecord → Bool) (only : ∀ r, p r = true → r.key = key) :
    Act.Within (underKey key) (do return (← listRepeating).any p) where
  inv h := h
  frame _ _ _ := rfl
  alike {q q'} h h' same := by
    have found {q₁ q₂ : LocalQueue} (same : q₁.share key = q₂.share key) (some : q₁.repeats.values.any p = true) :
        q₂.repeats.values.any p = true := by
      obtain ⟨r, mem, holds⟩ := List.any_eq_true.mp some
      obtain ⟨f, hr⟩ := Table.mem_values_iff.mp mem
      have own : (q₁.share key).record f = Option.some r := by
        show (q₁.repeats.get? f).filter (·.key == key) = Option.some r
        rw [hr, Option.filter_some, only r holds, beq_self_eq_true, if_pos rfl]
      rw [same] at own
      exact List.any_eq_true.mpr ⟨r, Table.mem_values_iff.mpr ⟨f, (Option.filter_eq_some_iff.mp own).1⟩, holds⟩
    refine ⟨?_, same⟩
    show Except.ok (q.repeats.values.any p) = .ok (q'.repeats.values.any p)
    rw [Bool.eq_iff_iff.mpr ⟨found same, found same.symm⟩]

end Timetable.LocalQueue
