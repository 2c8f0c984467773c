import Timetable.Proofs.Queue.Chain
import Timetable.Proofs.Queue.Faulty
import Timetable.Proofs.Queue.Records

/-!
# The queue in memory, one call of which fails

A call that fails does nothing, so the queue in memory is `FaultyQueue.Lawful` and never cut short.
-/

namespace Timetable

open LocalQueue Placement

/-- One call fails, in some way. -/
def QueueFaults.single (n : Nat) (e : QueueError) : QueueFaults := fun m _ => if m = n then some e else none

namespace LocalQueue

def contents (q : LocalQueue) : QueueContents := ⟨q.repeats.get?, q.entries.get?, q.active.contains⟩

variable {clock now : Instant} {q : LocalQueue} {key : String} {spec : RepeatSpec} {r : RepeatRecord}

theorem Sound.filed (h : Sound clock q) : q.contents.Filed := fun _ _ hr => ⟨h.ownField hr, h.usable hr⟩

/-! ## Effects -/

theorem inserted_insertIfAbsent (q : LocalQueue) (e : StoredEntry) :
    Inserted e q.contents (q.insertIfAbsent e).contents := by
  have stored {id e'} : (q.insertIfAbsent e).entries.get? id = some e' ↔ _ := insertIfAbsent_entries_eq_some
  refine ⟨rfl, rfl, fun id e' before => stored.mpr (.inl before), fun id e' after => ?_, ?_⟩
  · refine (stored.mp after).imp_right ?_
    rintro ⟨_, rfl, rfl⟩
    exact ⟨rfl, rfl, rfl, rfl⟩
  · refine Option.isSome_iff_exists.mpr ?_
    cases before : q.entries.get? e.id with
    | some e' => exact ⟨e', stored.mpr (.inl before)⟩
    | none => exact ⟨e, stored.mpr (.inr ⟨before, rfl, rfl⟩)⟩

theorem dropped_eraseEntry (q : LocalQueue) (id : String) : EntryDropped id q.contents (q.eraseEntry id).contents := by
  refine ⟨rfl, rfl, fun k ne => ?_, fun k e after => ?_, .inl ?_⟩
  · exact (Table.get?_erase ..).trans (if_neg ne)
  · exact (Option.ite_none_left_eq_some.mp ((Table.get?_erase ..).symm.trans after)).2
  · exact (Table.get?_erase ..).trans (if_pos rfl)

theorem entered_putRecord (hk : r.key = key) (hs : r.spec = spec)
    (anew : q.repeats.get? (repeatField key spec) = none → spec.nextAfter now = .ok r.next) :
    Entered ⟨key, some spec⟩ now (fun _ => True) q.contents (q.putRecord r).contents := by
  subst hk hs
  have record (f : String) : (q.setRecord r).contents.record f = if r.field = f then some r else q.contents.record f :=
    Table.get?_set ..
  refine entered_of_inserted record rfl rfl anew ?_ ?_
  · intro t next
    have put : q.putRecord r = (q.setRecord r).insertIfAbsent (.ofFire r.key r.spec t r.payload) := by
      simp only [putRecord, insertCurrent, RepeatRecord.currentInstance, next, Option.map_some]
      rfl
    exact ⟨r.payload, put ▸ inserted_insertIfAbsent _ _⟩
  · intro next
    simp only [putRecord, insertCurrent, RepeatRecord.currentInstance, next, Option.map_none]

theorem addRepeating_enters (h : Sound now q) (hu : spec.Usable) (payload : Json) :
    (addRepeating now key spec payload).Ends q
      (fun _ q' => Sound now q' ∧ Entered ⟨key, some spec⟩ now (fun _ => True) q.contents q'.contents)
      fun e _ => e = .outOfRange := by
  have sound : (addRepeating now key spec payload).Ends q _ _ := addRepeating_ends h hu payload
  have enters : (addRepeating now key spec payload).Ends q
      (fun _ q' => Entered ⟨key, some spec⟩ now (fun _ => True) q.contents q'.contents) fun _ _ => True := by
    simp only [addRepeating, Act.ends_bind, Act.ends_get]
    cases hr : q.repeats.get? (repeatField key spec) with
    | some old =>
      obtain ⟨hk, hs⟩ := h.record_of_field hu.colonless hr
      refine Act.ends_set.mpr (entered_putRecord hk hs fun absent => ?_)
      rw [hr] at absent
      cases absent
    | none =>
      simp only [Act.ends_bind, Act.ends_ofExcept, Act.ends_set]
      refine ⟨fun r created => ?_, fun _ _ => trivial⟩
      obtain ⟨same, fires⟩ := RepeatRecord.advance_eq_ok created
      obtain ⟨hk, hs, _⟩ := RepeatRecord.chain_eq_iff.mp same
      exact entered_putRecord hk hs fun _ => fires
  exact (sound.and enters).mono (fun _ _ both => ⟨both.1.1, both.2⟩) fun _ _ both => both.1

theorem addDelayed_enters (h : Sound now q) (millis : Nat) (payload : Json) :
    (addDelayed now key millis payload).Ends q
      (fun _ q' => Sound now q' ∧ Entered ⟨key, none⟩ now (fun t => now.addMillis? (signedWord millis) = some t)
        q.contents q'.contents)
      fun e _ => e = .outOfRange := by
  unfold addDelayed
  cases reached : now.addMillis? (signedWord millis) with
  | none => exact Act.ends_throw.mpr rfl
  | some fireAt =>
    refine Act.ends_modify.mpr ⟨h.addSingle key fireAt payload, ?_⟩
    exact entered_of_inserted_single rfl (inserted_insertIfAbsent _ _)

theorem removeRepeating_leaves (h : Sound clock q) (hu : spec.Usable) :
    (removeRepeating key spec).Ends q
      (fun _ q' => Sound clock q' ∧ Left ⟨key, some spec⟩ q.contents q'.contents) fun _ _ => False := by
  cases hr : q.repeats.get? (repeatField key spec) with
  | none =>
    refine (Act.ends_of_on_ok (removeRepeating_absent hr)).mpr ⟨h, ?_⟩
    exact left_of_absent hr
  | some r =>
    obtain ⟨rfl, rfl⟩ := h.record_of_field hu.colonless hr
    refine (Act.ends_of_on_ok (removeRepeating_on h hr)).mpr ⟨h.dropChain hr, ?_⟩
    have record (f : String) : (q.eraseRecord r.field).contents.record f =
        if r.field = f then none else q.contents.record f := Table.get?_erase ..
    refine left_of_dropped record rfl rfl hr ?_ ?_
    · intro t next
      exact eraseChain_of_next next ▸ dropped_eraseEntry _ _
    · exact fun next => congrArg contents (eraseChain_of_no_next next)

theorem removeDelayed_leaves (h : Sound clock q) :
    (removeDelayed key).Ends q
      (fun _ q' => Sound clock q' ∧ Left ⟨key, none⟩ q.contents q'.contents) fun _ _ => False := by
  have sound : (removeDelayed key).Ends q _ _ := removeDelayed_ends h
  have leaves : (removeDelayed key).Ends q (fun _ q' => Left ⟨key, none⟩ q.contents q'.contents) fun _ _ => False := by
    have on := removeDelayed_on key q
    split at on
    · next stays =>
      rw [Bool.or_eq_true, Bool.not_eq_true'] at stays
      refine (Act.ends_of_on_ok on).mpr (left_of_dropped_single ⟨rfl, rfl, fun _ _ => rfl, fun _ _ h => h, ?_⟩)
      exact stays.symm.imp_left Table.contains_eq_false_iff.mp
    · exact (Act.ends_of_on_ok on).mpr (left_of_dropped_single (dropped_eraseEntry _ _))
  exact (sound.and leaves).mono (fun _ _ both => ⟨both.1.1, both.2⟩) fun _ _ both => both.1

end LocalQueue

/-! ## Faults -/

namespace FaultyQueue

/-- The queue in memory, with one call that fails. -/
def memory (rules : ClaimRules) (n : Nat) (e : QueueError) : FaultyQueue (Metered LocalQueue) where
  queue := (LocalQueue.workQueue rules).metered (.single n e)
  contents m := m.state.contents
  Reached now m := ∃ t₀ t, t ≤ now ∧ (LocalQueue.workQueue rules).Run ordered t₀ {} t m.state
  Calm m := n < m.calls
  Cuts _ := False

variable {rules : ClaimRules} {n : Nat} {e : QueueError} {now : Instant} {m : Metered LocalQueue} {α : Type}
  {call : QueueCall} {x : Act QueueError LocalQueue α} {P : α → LocalQueue → Prop}

theorem meter_ends {faults : QueueFaults} {Q : α → Metered LocalQueue → Prop}
    {E : QueueError → Metered LocalQueue → Prop}
    (fails : ∀ e, faults m.calls call = some e → E e { m with calls := m.calls + 1 })
    (runs : faults m.calls call = none →
      x.Ends m.state (fun a q => Q a ⟨q, m.calls + 1⟩) fun e q => E e ⟨q, m.calls + 1⟩) :
    (WorkQueue.meter faults call x).Ends m Q E := by
  unfold WorkQueue.meter Act.Ends
  rw [Act.on_of]
  cases fault : faults m.calls call with
  | some e =>
    refine ⟨nofun, ?_⟩
    rintro _ ⟨⟩
    exact fails e fault
  | none => exact runs fault

/-- A call comes to its end, or does nothing. -/
theorem memory_ends (h : x.Ends m.state (fun a q => Sound now q ∧ P a q) fun e _ => e = .outOfRange)
    (sound : Sound now m.state) :
    (WorkQueue.meter (.single n e) call x).Ends m
      (fun a m' => (memory rules n e).Went (fun m => Sound now m.state) m m' ∧ P a m'.state)
      ((memory rules n e).Broke (fun m => Sound now m.state) m (· = m.state.contents)) := by
  refine meter_ends (fun e' fault => ?_) fun _ => h.mono (fun a q after => ?_) fun _ _ late => .inl late
  · have hit : m.calls = n := by
      by_contra ne
      rw [QueueFaults.single, if_neg ne] at fault
      cases fault
    exact .inr ⟨by simp [memory, hit], by simp [memory, hit], sound, rfl⟩
  · exact ⟨⟨after.1, Nat.lt_succ_of_lt⟩, after.2⟩

theorem lawful_memory (rules : ClaimRules) (n : Nat) (e : QueueError) (now : Instant) :
    (memory rules n e).Lawful now fun m => Sound now m.state where
  reached := by
    rintro s ⟨t₀, t, le, run⟩
    exact (sound_of_run run).mono le
  filed := Sound.filed
  addRepeating key spec payload sound usable _ :=
    (memory_ends (addRepeating_enters sound usable payload) sound).mono (fun _ _ h => h) fun _ _ h =>
      h.imp_right fun ⟨struck, calm, inv, same⟩ => ⟨struck, calm, inv, .inl same⟩
  addDelayed key millis payload sound _ := memory_ends (addDelayed_enters sound millis payload) sound
  removeRepeating key spec sound usable :=
    (memory_ends ((removeRepeating_leaves sound usable).mono (fun _ _ h => h) fun _ _ => False.elim) sound).mono
      (fun _ _ h => h) fun _ _ h => h.imp_right fun ⟨struck, calm, inv, same⟩ => ⟨struck, calm, inv, .inl same⟩
  removeDelayed key sound :=
    memory_ends ((removeDelayed_leaves sound).mono (fun _ _ h => h) fun _ _ => False.elim) sound
  listRepeating {m} sound := by
    have lists : listRepeating.Ends m.state (fun records q => Sound now q ∧ q.contents = m.state.contents ∧
        ∀ r, r ∈ records ↔ ∃ f, m.state.repeats.get? f = some r) fun e _ => e = .outOfRange :=
      (Act.ends_of_on_ok (listRepeating_on _)).mpr ⟨sound, rfl, fun _ => Table.mem_values_iff⟩
    exact memory_ends lists sound
  getEntry {m} key sound := by
    have gets : (getEntry now key).Ends m.state (fun entry q => Sound now q ∧ q.contents = m.state.contents ∧
        entry.isSome = (m.state.entries.get? (singleId key)).isSome) fun e _ => e = .outOfRange :=
      Act.ends_bind.mpr (Act.ends_get.mpr (Act.ends_pure.mpr ⟨sound, rfl, Option.isSome_map ..⟩))
    exact memory_ends gets sound

end FaultyQueue

end Timetable
