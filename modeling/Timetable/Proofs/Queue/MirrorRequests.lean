import Timetable.Proofs.Queue.Leases
import Timetable.Proofs.Queue.Mirror
import Timetable.Proofs.Queue.Records
import Timetable.Proofs.Queue.Requests

/-!
# Requests to mirrored queues

A request that is asked of a queue in memory and of a keyspace that mirrors it has the same answer, up to the order of
lists, or fails with the same error, and the keyspace mirrors the queue again (`SharedQueue.Agree`). This module is
about all requests but claims of due entries.
-/

namespace Timetable

/-- The same answer, where lists are compared as sets. -/
def QueueRequest.SameAnswer : (r : QueueRequest) → r.Answer → r.Answer → Prop
  | listRepeating, a, b => a.Perm b
  | listEntries _, a, b => a.Perm b
  | claimDue _, a, b => a.Perm b
  | _, a, b => a = b

namespace SharedQueue

open Program (Safe)

variable {rules : ClaimRules} {now expiry : Instant} {q : LocalQueue} {s : Keyspace} {single : String → Prop}
  {id key : String} {spec : RepeatSpec} {payload : Json} {e f : StoredEntry} {r : RepeatRecord} {E : QueueError → Keyspace → Prop}

/-- Nothing is asked of the commands that a program sends. -/
abbrev Anything : Command → Keyspace → Prop := fun _ _ => True

/-- An operation on a queue in memory and a program that ends without faults like it, mirrored again. -/
def Agree {α : Type} (now : Instant) (same : α → α → Prop) (x : Act QueueError LocalQueue α) (p : Program α)
    (q : LocalQueue) (s : Keyspace) : Prop :=
  p.Safe Anything (fun b s' => ∃ a q', x.on q = (.ok a, q') ∧ same a b ∧ Mirrors now q' s')
    (fun error s' => ∃ q', x.on q = (.error error, q') ∧ Mirrors now q' s') s

/-! ## Adding and removing -/

theorem safe_load (records : ∀ f, s.repeats.get? f = (q.repeats.get? f).map recordText) (exactly : q.Exact single)
    (field : String) :
    (loadRecord field).Safe Anything (fun record s' => record = q.repeats.get? field ∧ s' = s) E s := by
  unfold loadRecord
  refine .askThen trivial ?_
  rw [Command.outcome, Keyspace.hash, records]
  cases stored : q.repeats.get? field with
  | none => exact .done ⟨rfl, rfl⟩
  | some r =>
    dsimp only [Option.map_some]
    rw [(exactly.record stored).1.decode]
    exact .done ⟨rfl, rfl⟩

theorem safe_put (h : Mirrors now q s) (r : RepeatRecord) :
    (saveRecord r >>= fun _ => insertCurrent r).Safe Anything (fun _ s' => Mirrors now (q.putRecord r) s') E s := by
  have saved := h.setRecord r
  refine .askThen trivial ?_
  unfold insertCurrent LocalQueue.putRecord LocalQueue.insertCurrent
  cases fire : r.currentInstance with
  | none => exact .done saved
  | some e =>
    have new : e.processedOn = none := by
      obtain ⟨t, _, rfl⟩ := Option.map_eq_some_iff.mp fire
      rfl
    exact .send trivial (.done (saved.insertIfAbsent new))

theorem agree_addRepeating (h : Mirrors now q s) (exactly : q.Exact single) : Agree now Eq
    (LocalQueue.addRepeating now key spec payload) (addRepeating now key spec payload) q s := by
  have alone := LocalQueue.addRepeating_on now key spec payload q
  unfold Agree addRepeating
  refine (safe_load h.record exactly _).bind ?_
  rintro record _ ⟨rfl, rfl⟩
  cases stored : q.repeats.get? (repeatField key spec) with
  | some old =>
    refine (safe_put h _).weaken fun _ s' h' => ⟨(), _, ?_, rfl, h'⟩
    rw [alone, stored]
  | none =>
    refine .ofExceptThen (fun error failed => ⟨q, ?_, h⟩) fun r created => ?_
    · rw [alone, stored, failed]
    · refine (safe_put h _).weaken fun _ s' h' => ⟨(), _, ?_, rfl, h'⟩
      rw [alone, stored, created]

theorem agree_addDelayed {delay : Nat} (h : Mirrors now q s) : Agree now Eq
    (LocalQueue.addDelayed now key delay payload) (addDelayed now key delay payload) q s := by
  unfold Agree addDelayed LocalQueue.addDelayed
  cases now.addMillis? (signedWord delay) with
  | none => exact .fail ⟨q, rfl, h⟩
  | some fireAt => exact .send trivial (.done ⟨(), _, rfl, rfl, h.insertIfAbsent rfl⟩)

theorem outcome_removePending (s : Keyspace) (id : String) : (Command.removePending id).outcome s =
    (s.delayed.contains id, if s.delayed.contains id then s.dropPending id else s) := by
  rw [Command.outcome]
  cases s.delayed.contains id <;> rfl

theorem agree_removeRepeating (h : Mirrors now q s) (exactly : q.Exact single) : Agree now Eq
    (LocalQueue.removeRepeating key spec) (removeRepeating key spec) q s := by
  unfold Agree removeRepeating
  refine (safe_load h.record exactly _).bind ?_
  rintro record _ ⟨rfl, rfl⟩
  cases stored : q.repeats.get? (repeatField key spec) with
  | none =>
    have alone : (LocalQueue.removeRepeating key spec).on q = (.ok false, q) := by
      simp only [LocalQueue.removeRepeating, Act.on_bind, Act.on_get, stored]
      rfl
    exact .done ⟨false, q, alone, rfl, h⟩
  | some r =>
    have erased := h.eraseRecord (repeatField key spec)
    refine .askThen trivial ?_
    dsimp only
    cases fire : r.currentInstance with
    | none =>
      have alone : (LocalQueue.removeRepeating key spec).on q = (.ok true, q.eraseRecord (repeatField key spec)) := by
        simp only [LocalQueue.removeRepeating, Act.on_bind, Act.on_get, stored, fire]
        rfl
      exact .done ⟨true, _, alone, rfl, erased⟩
    | some e =>
      have alone : (LocalQueue.removeRepeating key spec).on q = (.ok true,
          if q.active.contains e.id then q.eraseRecord (repeatField key spec)
          else (q.eraseRecord (repeatField key spec)).eraseEntry e.id) := by
        simp only [LocalQueue.removeRepeating, Act.on_bind, Act.on_get, stored, fire]
        rfl
      refine .askThen trivial (.done ⟨true, _, alone, rfl, ?_⟩)
      rw [outcome_removePending]
      exact erased.dropPending e.id

theorem agree_removeDelayed (h : Mirrors now q s) : Agree now Eq
    (LocalQueue.removeDelayed key) (removeDelayed key) q s := by
  have dropped := h.dropPending (singleId key)
  have alone := LocalQueue.removeDelayed_on key q
  unfold Agree removeDelayed
  refine .send trivial (.done ?_)
  rw [outcome_removePending, h.contains_delayed]
  rw [h.contains_delayed] at dropped
  cases held : q.active.contains (singleId key) with
  | true =>
    rw [held] at alone dropped
    exact ⟨false, q, alone, by simp, by simpa using dropped⟩
  | false =>
    rw [held] at alone dropped
    cases there : q.entries.contains (singleId key) with
    | true =>
      rw [there] at alone dropped
      exact ⟨true, _, alone, rfl, dropped⟩
    | false =>
      rw [there] at alone
      exact ⟨false, q, alone, rfl, by simpa using h⟩

/-! ## Reading -/

/-- Texts that are read one by one, in any order. -/
theorem mapM_of_perm {α β γ : Type} {read : β → Except QueueError γ} {write : α → β} {as : List α} {bs : List β}
    {back : α → γ} (h : bs.Perm (as.map write)) (reads : ∀ a ∈ as, read (write a) = .ok (back a)) :
    ∃ cs, bs.mapM read = .ok cs ∧ (as.map back).Perm cs := by
  induction bs generalizing as with
  | nil =>
    obtain rfl : as = [] := List.map_eq_nil_iff.mp h.nil_eq.symm
    exact ⟨[], rfl, .nil⟩
  | cons b bs ih =>
    obtain ⟨a, mem, rfl⟩ := List.mem_map.mp (h.subset List.mem_cons_self)
    obtain ⟨front, rest, rfl⟩ := List.append_of_mem mem
    rw [List.map_append, List.map_cons] at h
    have h' : bs.Perm ((front ++ rest).map write) := by
      rw [List.map_append]
      exact (List.perm_cons _).mp (h.trans List.perm_middle)
    obtain ⟨cs, on, perm⟩ := ih h' fun a mem => reads a (by
      rcases List.mem_append.mp mem with mem | mem
      · exact List.mem_append_left _ mem
      · exact List.mem_append_right _ (List.mem_cons_of_mem _ mem))
    refine ⟨back a :: cs, ?_, ?_⟩
    · rw [List.mapM_cons, reads a mem, on]
      rfl
    · rw [List.map_append, List.map_cons]
      refine List.perm_middle.trans (.cons _ ?_)
      rw [← List.map_append]
      exact perm

theorem agree_listRepeating (h : Mirrors now q s) (exactly : q.Exact single) : Agree now List.Perm
    LocalQueue.listRepeating listRepeating q s := by
  have reads (r : RepeatRecord) (mem : r ∈ q.repeats.values) : decodeRecord (recordText r) = .ok r := by
    obtain ⟨f, stored⟩ := Table.mem_values_iff.mp mem
    exact (exactly.record stored).1.decode
  obtain ⟨rs, on, perm⟩ : ∃ rs, s.repeats.values.mapM decodeRecord = .ok rs ∧ (q.repeats.values.map fun r => r).Perm rs :=
    mapM_of_perm (Table.perm_values h.record) reads
  unfold Agree listRepeating
  refine .askThen trivial ?_
  rw [Command.outcome, Keyspace.hash]
  dsimp only
  rw [on]
  exact .done ⟨_, q, LocalQueue.listRepeating_on q, by simpa using perm, h⟩

theorem agree_listEntries {states : List EntryState} (h : Mirrors now q s) (exactly : q.Exact single) : Agree now List.Perm
    (LocalQueue.listEntries now states) (listEntries now states) q s := by
  let read (p : String × String) : Except QueueError StoredEntry := decodeEntry p.2
  have reads (p : String × StoredEntry) (mem : p ∈ q.entries.pairs) : read (p.1, entryText p.2) = .ok p.2 :=
    (exactly.entry (Table.mem_pairs_iff.mp mem)).1.decode
  obtain ⟨es, on, perm⟩ : ∃ es, s.entries.pairs.mapM read = .ok es ∧ q.entries.values.Perm es :=
    mapM_of_perm (Table.perm_pairs h.entry) reads
  have state (e : StoredEntry) : (⟨e, stateOf (s.active.keys.contains e.id) now e⟩ : QueueEntry) = q.withState now e := by
    have held : s.active.keys.contains e.id = q.active.contains e.id := by
      rw [← h.contains_active, Bool.eq_iff_iff, List.contains_iff_mem, Table.mem_keys_iff]
    rw [LocalQueue.withState, LocalQueue.stateOf, stateOf, held]
  have alone := LocalQueue.listEntries_on now states q
  unfold Agree listEntries
  refine .askThen trivial (.askThen trivial ?_)
  simp only [Command.outcome, Keyspace.hash]
  rw [show (s.entries.pairs.mapM fun p => decodeEntry p.2) = .ok es from on]
  refine .done ⟨_, q, alone, ?_, h⟩
  simp only [state]
  exact (perm.map _).filter _

theorem agree_getEntry (h : Mirrors now q s) (exactly : q.Exact single) (sound : q.Sound now) : Agree now Eq
    (LocalQueue.getEntry now key) (getEntry now key) q s := by
  unfold Agree getEntry
  refine .askThen trivial ?_
  rw [Command.outcome, Keyspace.hash, h.entry]
  have alone : (LocalQueue.getEntry now key).on q = (.ok ((q.entries.get? (singleId key)).map (q.withState now)), q) := rfl
  cases stored : q.entries.get? (singleId key) with
  | none =>
    rw [stored] at alone
    exact .done ⟨none, q, alone, rfl, h⟩
  | some e =>
    rw [stored] at alone
    dsimp only [Option.map_some]
    rw [(exactly.entry stored).1.decode]
    refine .askThen trivial (.done ⟨_, q, alone, ?_, h⟩)
    simp only [Command.outcome, Keyspace.hash, h.contains_active, Option.map_some, LocalQueue.withState, LocalQueue.stateOf,
      sound.ownId stored, stateOf]

theorem agree_size (h : Mirrors now q s) : Agree now Eq LocalQueue.size size q s :=
  .send trivial (.done ⟨_, q, rfl, (Table.size_eq h.entry).symm, h⟩)

/-! ## Claims that are held -/

theorem agree_recoverStalled (h : Mirrors now q s) (whole : now.Whole) : Agree now Eq
    (LocalQueue.recoverStalled now) (recoverStalled now) q s :=
  .send trivial (.done ⟨_, _, LocalQueue.recoverStalled_on now q, (h.length_upTo whole).symm, h.recover whole⟩)

/-- Entries with the same identifier have the same key. -/
theorem key_of_id (he : e.WellMade) (hf : f.WellMade) (same : e.id = f.id) : e.key = f.key := by
  cases repeats : f.repeats with
  | none =>
    cases repeats' : e.repeats with
    | none => exact singleId_inj ((he.single repeats').symm.trans (same.trans (hf.single repeats)))
    | some spec' =>
      obtain ⟨_, own, _⟩ := he.fire spec' repeats'
      exact absurd ((hf.single repeats).symm.trans (same.symm.trans own)) singleId_ne_instanceId
  | some spec =>
    obtain ⟨usable, own, whole⟩ := hf.fire spec repeats
    exact (he.eq_of_instanceId usable whole (same.trans own)).1

/-- Who shows an entry that was handed out holds its claim in both. -/
theorem holds_iff (h : Mirrors now q s) (sound : q.Sound now) (exactly : q.Exact single) (shown : e.Exact)
    {claimed : Instant} (stamp : e.processedOn = some claimed) :
    s.active.get? e.id = some (ActiveClaim.mk e.key claimed.millis).text ↔ q.holdsClaim e = true := by
  rw [LocalQueue.holdsClaim, Bool.and_eq_true]
  cases held : q.active.get? e.id with
  | none =>
    have free : s.active.get? e.id = none := by
      rw [← Table.contains_eq_false_iff, h.contains_active, Table.contains_eq_false_iff]
      exact held
    rw [Table.contains, held, free]
    exact iff_of_false (Option.some_ne_none _).symm fun both => Bool.false_ne_true both.1
  | some expiry =>
    have active : q.active.contains e.id = true := Table.contains_iff.mpr ⟨expiry, held⟩
    obtain ⟨f, stored, _⟩ := sound.held active
    obtain ⟨claimed', stamp', _, _, cell⟩ := h.claimed stored held
    -- the text of the claim names key and millisecond, the queue in memory compares the instants
    have key : f.key = e.key := key_of_id (sound.made stored) shown.made (sound.ownId stored)
    rw [cell.claim, stored, Option.any_some, stamp, stamp', key]
    simp only [active, true_and, beq_iff_eq, Option.some.injEq, Cell.claim?, Option.map_some]
    refine ⟨fun same => ?_, fun same => by rw [same]⟩
    have millis := congrArg ActiveClaim.claimedAt (ActiveClaim.text_injective same)
    exact Instant.eq_of_millis_eq ((exactly.entry stored).1.claims _ stamp') (shown.claims _ stamp) millis

theorem agree_renewLease (h : Mirrors now q s) (sound : q.Sound now) (exactly : q.Exact single) (shown : e.Exact)
    (stamp : e.processedOn.isSome) (inTime : now.add? rules.lease = some expiry) (whole : expiry.Whole) : Agree now Eq
    (LocalQueue.renewLease rules e now) (renewLease rules e now) q s := by
  obtain ⟨claimed, stamp⟩ := Option.isSome_iff_exists.mp stamp
  have alone : (LocalQueue.renewLease rules e now).on q = _ := LocalQueue.renewLease_on
  have held := holds_iff h sound exactly shown stamp
  rw [inTime] at alone
  unfold Agree renewLease leaseExpiry
  rw [ActiveClaim.ofEntry?, stamp, inTime]
  refine .send trivial (.done ?_)
  rw [Command.outcome]
  by_cases holds : q.holdsClaim e = true
  · rw [if_pos (held.mpr holds)]
    rw [if_pos holds] at alone
    obtain ⟨before, lease⟩ := Table.contains_iff.mp (Bool.and_eq_true_iff.mp holds).1
    obtain ⟨f, stored, _⟩ := sound.held (Table.contains_iff.mpr ⟨before, lease⟩)
    exact ⟨true, _, alone, rfl, h.extendLease stored lease whole⟩
  · rw [if_neg (mt held.mp holds)]
    rw [if_neg holds] at alone
    exact ⟨false, q, alone, rfl, h⟩

theorem agree_finish (h : Mirrors now q s) (sound : q.Sound now) (exactly : q.Exact single) (shown : e.Exact)
    (stamp : e.processedOn.isSome) : Agree now Eq (LocalQueue.finish e) (finish e) q s := by
  obtain ⟨claimed, stamp⟩ := Option.isSome_iff_exists.mp stamp
  have alone : (LocalQueue.finish e).on q = _ := LocalQueue.finish_on
  have held := holds_iff h sound exactly shown stamp
  unfold Agree finish release
  rw [ActiveClaim.ofEntry?, stamp]
  refine .askThen trivial (.done ?_)
  rw [Command.outcome]
  by_cases holds : q.holdsClaim e = true
  · rw [if_pos (held.mpr holds)]
    rw [if_pos holds] at alone
    obtain ⟨before, lease⟩ := Table.contains_iff.mp (Bool.and_eq_true_iff.mp holds).1
    obtain ⟨f, stored, _⟩ := sound.held (Table.contains_iff.mpr ⟨before, lease⟩)
    obtain ⟨_, _, _, _, cell⟩ := h.claimed stored lease
    exact ⟨(), _, alone, rfl, h.dropHeld cell⟩
  · rw [if_neg (mt held.mp holds)]
    rw [if_neg holds] at alone
    exact ⟨(), q, alone, rfl, h⟩

end SharedQueue

end Timetable
