import Timetable.Proofs.Queue.Requests
import Timetable.Proofs.Queue.Storable

/-!
# Keyspaces that can be read

A keyspace is `Legible` if every text in it was written of something storable, and every entry that waits does so for
its own fire, or since a time that has come. Moves of requests that ask for storable things keep it so
(`Move.legible`), so nothing that is read ever fails to be read (`Legible.no_trouble`).
-/

namespace Timetable.SharedQueue

variable {rules : ClaimRules} {clock now : Instant} {request : QueueRequest} {s s' : Keyspace} {id k : String}
  {c : Cell} {e : StoredEntry} {a : ActiveClaim} {r : RepeatRecord} {score expiry : Int}

/-! ## Cells -/

/-- What is held is storable, and waits for its fire or since a time that has come. -/
def Cell.Legible (clock : Instant) : Cell → Prop
  | absent => True
  | waiting e score => e.Storable ∧ (score ≤ e.fireAt.millis ∨ Instant.ofMillis score ≤ clock)
  | claimed e a _ => e.Storable ∧ FitsWord a.claimedAt

theorem Cell.Legible.mono (h : c.Legible clock) (le : clock ≤ now) : c.Legible now := by
  cases c with
  | waiting e score => exact ⟨h.1, h.2.imp_right (le_trans · le)⟩
  | _ => exact h

theorem Cell.Legible.recovered (h : c.Legible now) (ordinary : ¬ now.InLeapSecond) :
    (c.recovered now.millis).Legible now := by
  cases c with
  | claimed e a expiry =>
    rw [Cell.recovered]
    split
    · exact ⟨h.1, .inr ((Instant.millis_le_iff ordinary).mp le_rfl)⟩
    · exact h
  | _ => exact h

/-- Nothing but the text of an entry tells what is held. -/
theorem At.waiting_unique (h : At s id (.waiting e score)) (h' : At s id c) :
    ∃ e', c = .waiting e' score ∧ entryText e = entryText e' := by
  have scores := h.score.symm.trans h'.score
  have entries := h.entry.symm.trans h'.entry
  cases c with
  | waiting e' score' =>
    obtain rfl : score = score' := Option.some.inj scores
    exact ⟨e', rfl, Option.some.inj entries⟩
  | _ => cases scores

theorem At.claimed_unique (h : At s id (.claimed e a expiry)) (h' : At s id c) :
    ∃ e', c = .claimed e' a expiry ∧ entryText e = entryText e' := by
  have claims := h.claim.symm.trans h'.claim
  have leases := h.expiry.symm.trans h'.expiry
  have entries := h.entry.symm.trans h'.entry
  cases c with
  | claimed e' a' expiry' =>
    obtain rfl := ActiveClaim.text_injective (Option.some.inj claims)
    obtain rfl : expiry = expiry' := Option.some.inj leases
    exact ⟨e', rfl, Option.some.inj entries⟩
  | _ => cases claims

/-! ## Keyspaces -/

structure Legible (clock : Instant) (s : Keyspace) : Prop where
  cell : ∀ id, ∃ c, At s id c ∧ c.Legible clock
  record : ∀ {f text}, s.repeats.get? f = some text → ∃ r, text = recordText r ∧ r.Storable

namespace Legible

theorem empty (clock : Instant) : Legible clock {} where
  cell id := by
    obtain ⟨c, hc⟩ := Consistent.empty.cell id
    have absent : c = .absent := hc.absent_of_free rfl
    exact ⟨c, hc, absent ▸ trivial⟩
  record h := by cases h

theorem mono (h : Legible clock s) (le : clock ≤ now) : Legible now s where
  cell id := by
    obtain ⟨c, hc, legible⟩ := h.cell id
    exact ⟨c, hc, legible.mono le⟩
  record := h.record

/-- One cell may change. -/
theorem update (h : Legible now s) (hid : At s' id c) (legible : c.Legible now) (records : s'.repeats = s.repeats)
    (same : ∀ {k}, id ≠ k → Same s s' k) : Legible now s' where
  cell k := by
    by_cases hk : id = k
    · exact ⟨c, hk ▸ hid, legible⟩
    · obtain ⟨c', hc', legible'⟩ := h.cell k
      exact ⟨c', hc'.same (same hk), legible'⟩
  record hf := h.record (records ▸ hf)

theorem withRepeats (h : Legible now s) {repeats : Hash}
    (record : ∀ {f text}, repeats.get? f = some text → ∃ r, text = recordText r ∧ r.Storable) :
    Legible now { s with repeats } where
  cell k := by
    obtain ⟨c, hc, legible⟩ := h.cell k
    exact ⟨c, hc.same ⟨rfl, rfl, rfl, rfl⟩, legible⟩
  record := record

theorem setRecord (h : Legible now s) (storable : r.Storable) :
    Legible now { s with repeats := s.repeats.set r.field (recordText r) } := by
  refine h.withRepeats fun {f text} hf => ?_
  rw [Table.get?_set] at hf
  split at hf
  · exact ⟨r, (Option.some.inj hf).symm, storable⟩
  · exact h.record hf

/-- What is read of a field is storable. -/
theorem storable (h : Legible clock s) (stored : Stored s r) : r.Storable := by
  obtain ⟨text, at_, read⟩ := stored
  obtain ⟨r₀, rfl, storable⟩ := h.record at_
  obtain ⟨payload, _, fits, read'⟩ := storable.decode
  obtain rfl := Except.ok.inj (read'.symm.trans read)
  exact storable.with_payload fits

/-- An entry that waits is read as it was written. -/
theorem read_waiting (h : Legible clock s) (waits : At s id (.waiting e score))
    {stored : StoredEntry} (read : decodeEntry (entryText e) = .ok stored) : stored.Storable ∧
    ∃ e', At s id (.waiting e' score) ∧ e'.Storable ∧ e'.key = stored.key := by
  obtain ⟨c, hc, legible⟩ := h.cell id
  obtain ⟨e', rfl, text⟩ := waits.waiting_unique hc
  obtain ⟨payload, _, fits, read'⟩ := legible.1.decode
  rw [text, read'] at read
  obtain rfl := Except.ok.inj read
  exact ⟨legible.1.with_payload fits, e', hc, legible.1, rfl⟩

/-- An entry that is claimed is read as it was written. -/
theorem read_claimed (h : Legible clock s) (claimed : At s id (.claimed e a expiry))
    {stored : StoredEntry} (read : decodeEntry (entryText e) = .ok stored) : stored.Storable ∧ FitsWord a.claimedAt := by
  obtain ⟨c, hc, legible⟩ := h.cell id
  obtain ⟨e', rfl, text⟩ := claimed.claimed_unique hc
  obtain ⟨payload, _, fits, read'⟩ := legible.1.decode
  rw [text, read'] at read
  obtain rfl := Except.ok.inj read
  exact ⟨legible.1.with_payload fits, legible.2⟩

/-- Whatever is stored can be read, and only the end of the calendar keeps a record from moving on. -/
theorem no_trouble (h : Legible clock s) (reach : rules.Reach now) {error : QueueError} : ¬ Trouble rules now s error := by
  rintro (⟨at_, unread⟩ | ⟨at_, unread⟩ | ⟨at_, unread⟩ | late | ⟨stored, late⟩)
  · next id text =>
    obtain ⟨c, hc, legible⟩ := h.cell id
    rw [hc.entry, Option.map_eq_some_iff] at at_
    obtain ⟨e, held, rfl⟩ := at_
    have storable : e.Storable := by
      cases c <;> cases held <;> exact legible.1
    obtain ⟨_, _, _, read⟩ := storable.decode
    cases read.symm.trans unread
  · obtain ⟨r, rfl, storable⟩ := h.record at_
    obtain ⟨_, _, _, read⟩ := storable.decode
    cases read.symm.trans unread
  · next id text =>
    obtain ⟨c, hc, legible⟩ := h.cell id
    obtain ⟨e, a, expiry, rfl, rfl⟩ := hc.claimed_of_active at_
    cases (ActiveClaim.decode legible.2).symm.trans unread
  · obtain ⟨expiry, inTime⟩ := Option.isSome_iff_exists.mp reach.1
    rw [leaseExpiry, inTime] at late
    cases late
  · exact (RepeatRecord.advance_eq_error (h.storable stored).spec late).2 reach.2

end Legible

/-! ## Moves -/

theorem Made.storable (h : Made now request RepeatRecord.Storable r) (asked : request.Keepable) : r.Storable := by
  cases h with
  | created same created =>
    subst same
    exact RepeatRecord.storable_create asked.1 asked.2 created
  | changed same old =>
    subst same
    exact old.with_payload asked.2
  | advanced old moved => exact old.advance moved

theorem Move.legible (h : Legible now s) (time : now.Storable) (asked : request.Keepable)
    (m : Move rules now request RepeatRecord.Storable s s') : Legible now s' := by
  cases m with
  | @addSingle key _ payload fireAt same reached free =>
    subst same
    have storable : (StoredEntry.single key fireAt payload).Storable :=
      StoredEntry.storable_single (time.addMillis? reached) asked
    have stored := at_addPending (e := .single key fireAt payload) free fireAt.millis
    exact h.update stored ⟨storable, .inl le_rfl⟩ rfl fun ne => same_addPending ne _ _
  | addInstance made fire free =>
    have storable := (made.storable asked).currentInstance fire
    exact h.update (at_addPending free _) ⟨storable, .inl le_rfl⟩ rfl fun ne => same_addPending ne _ _
  | dropSingle _ held => exact h.update (at_dropPending held) trivial rfl same_dropPending
  | dropInstance _ held => exact h.update (at_dropPending held) trivial rfl same_dropPending
  | @claim id e stored _ expiry held _ read _ =>
    obtain ⟨_, e', held', storable, key⟩ := h.read_waiting held read
    have claimed := at_addClaim (a := ⟨stored.key, now.millis⟩) held' key expiry
    exact h.update claimed ⟨storable, time.fitsWord⟩ rfl fun ne => same_addClaim ne _ _
  | stamp held read =>
    obtain ⟨own, key, _⟩ := StoredEntry.named_of_decode read
    obtain ⟨storable, fits⟩ := h.read_claimed held read
    refine h.update (at_setEntry held ?_ ?_) ⟨storable.with_processedOn time, fits⟩ rfl fun ne => same_setEntry ne _
    · exact own.trans (held.ownId rfl)
    · exact key.trans (held.ownKey rfl rfl)
  | @renew id e a _ expiry' held _ =>
    obtain ⟨c, hc, legible⟩ := h.cell id
    obtain ⟨e', rfl, _⟩ := held.claimed_unique hc
    exact h.update (at_extendLease hc expiry') legible rfl fun ne => same_extendLease ne _
  | finish _ _ _ _ held => exact h.update (at_dropClaimed held) trivial rfl same_dropClaimed
  | skip held _ => exact h.update (at_dropClaimed held) trivial rfl same_dropClaimed
  | recover =>
    refine ⟨fun id => ?_, fun hf => h.record (repeats_foldl_giveUp _ _ s ▸ hf)⟩
    obtain ⟨c, hc, legible⟩ := h.cell id
    exact ⟨_, at_recover hc now.millis, legible.recovered time.ordinary⟩
  | saveRecord made => exact h.setRecord (made.storable asked)
  | eraseRecord field =>
    refine h.withRepeats fun {f text} hf => ?_
    rw [Table.get?_erase, Option.ite_none_left_eq_some] at hf
    exact h.record hf.2

theorem preserved_legible (rules : ClaimRules) (time : now.Storable) (asked : request.Keepable) :
    Preserved rules now request RepeatRecord.Storable (Legible now) :=
  ⟨fun _ h m => m.legible h time asked, fun h stored => h.storable stored⟩

/-! ## Runs -/

section

variable {faults : CommandFaults} {t₀ t : Instant} {link : Link}

theorem legible_of_run {may : WorkQueue.Rule Link} (whole : faults.Whole)
    (readable : ∀ {t link now r}, may t link now r → WorkQueue.readable t link now r)
    (run : (workQueue rules faults).Run may t₀ {} t link) : Kept (Legible t) link.keys := by
  induction run with
  | start => exact ⟨Consistent.empty, .empty t₀⟩
  | step _ allowed kept =>
    obtain ⟨le, time, asked⟩ := readable allowed
    exact Kept.ask ⟨kept.consistent, kept.holds.mono le⟩ (preserved_legible rules time asked) whole

end

end Timetable.SharedQueue
