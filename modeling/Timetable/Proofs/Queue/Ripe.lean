import Timetable.Proofs.Queue.Exact
import Timetable.Proofs.Queue.Writable
import Timetable.Proofs.Schedule.Fires

/-!
# Fires that are held have come

An entry waits for its fire, or since a later time if a claim of it was given up, and it is claimed when it is due. So a
keyspace is `Ripe`: what waits waits no shorter than for its fire, and what is claimed is no fire ahead. On a clock that
shows whole milliseconds, which scores keep, every move of a request leaves it so (`Move.ripe`), faults or not
(`ripe_of_run`).
-/

namespace Timetable

/-- As `WorkQueue.writable`, on a clock that shows whole milliseconds. -/
def WorkQueue.wholeTimes {σ : Type} : WorkQueue.Rule σ := fun t s now r => WorkQueue.writable t s now r ∧ now.Whole

namespace SharedQueue

variable {rules : ClaimRules} {clock now : Instant} {request : QueueRequest} {s s' : Keyspace} {id text : String}
  {e : StoredEntry}

/-- When what is held under an identifier may be claimed: what is claimed, now. -/
def ripeAt (now : Instant) (s : Keyspace) (id : String) : Instant := (s.delayed.get? id).elim now Instant.ofMillis

theorem ripeAt_mono (le : clock ≤ now) (s : Keyspace) (id : String) : ripeAt clock s id ≤ ripeAt now s id := by
  unfold ripeAt
  cases s.delayed.get? id with
  | none => exact le
  | some score => exact le_refl (Instant.ofMillis score)

/-- Nothing may be claimed before its fire. -/
structure Ripe (now : Instant) (s : Keyspace) : Prop where
  held : ∀ {id text e}, s.entries.get? id = some text → decodeEntry text = .ok e → e.fireAt ≤ ripeAt now s id

namespace Ripe

theorem mono (h : Ripe clock s) (le : clock ≤ now) : Ripe now s :=
  ⟨fun stored read => (h.held stored read).trans (ripeAt_mono le s _)⟩

/-- One cell may change. -/
theorem update (h : Ripe now s) (same : ∀ {k}, id ≠ k → Same s s' k)
    (own : ∀ {text e}, s'.entries.get? id = some text → decodeEntry text = .ok e → e.fireAt ≤ ripeAt now s' id) :
    Ripe now s' := by
  refine ⟨fun {k text e} stored read => ?_⟩
  by_cases hk : id = k
  · subst hk
    exact own stored read
  · have here := same hk
    rw [ripeAt, here.score]
    exact h.held (here.entry ▸ stored) read

theorem dropped (h : Ripe now s) (same : ∀ {k}, id ≠ k → Same s s' k) (gone : s'.entries.get? id = none) : Ripe now s' :=
  h.update same fun stored _ => by cases gone.symm.trans stored

/-- What is stored anew waits for its fire. -/
theorem addPending (h : Ripe now s) (writable : e.Writable) (whole : e.fireAt.Whole) :
    Ripe now (s.addPending e.id (entryText e) e.fireAt.millis) := by
  refine h.update (fun ne => same_addPending ne _ _) fun {text e'} stored read => ?_
  obtain ⟨payload, _, _, read'⟩ := writable.decode
  simp only [Keyspace.addPending, Table.get?_set, if_true, Option.some.injEq] at stored
  subst stored
  obtain rfl := Except.ok.inj (read'.symm.trans read)
  simp only [ripeAt, Keyspace.addPending, Table.get?_set, if_true, Option.elim_some]
  exact le_of_eq whole.symm

end Ripe

/-! ## Moves and runs -/

theorem Move.ripe (readable : Readable now s) (h : Ripe now s) (time : now.Storable) (whole : now.Whole)
    (asked : request.Writable) (m : Move rules now request (RepeatRecord.Writable now) s s') : Ripe now s' := by
  cases m with
  | @addSingle key _ payload fireAt same reached _ =>
    subst same
    exact h.addPending (StoredEntry.writable_single (time.addMillis? reached) asked) (whole.addMillis? reached)
  | @addInstance r e made fire _ =>
    have record := made.writable time asked
    refine h.addPending (record.currentInstance fire) ?_
    obtain ⟨t, next, rfl⟩ := Option.map_eq_some_iff.mp fire
    exact (record.next t next).whole
  | dropSingle _ held => exact h.dropped same_dropPending (at_dropPending held).entry
  | dropInstance _ held => exact h.dropped same_dropPending (at_dropPending held).entry
  | @claim id e _ score _ held due _ _ =>
    refine h.update (fun ne => same_addClaim ne _ _) fun {text e'} stored read => ?_
    have waited := h.held (show s.entries.get? id = some text from stored) read
    rw [ripeAt, show s.delayed.get? id = some score from held.score] at waited
    simp only [ripeAt, Keyspace.addClaim, Table.get?_erase, if_true, Option.elim_none]
    calc e'.fireAt ≤ Instant.ofMillis score := waited
      _ ≤ Instant.ofMillis now.millis := Instant.ofMillis_le_ofMillis due
      _ = now := whole
  | @stamp id e stored a expiry held read =>
    refine h.update (fun ne => same_setEntry ne _) fun {text e'} after read' => ?_
    obtain ⟨payload, _, _, back⟩ := ((readable.read_claimed held read).1.with_processedOn time).decode
    simp only [Table.get?_set, if_true, Option.some.injEq] at after
    subst after
    obtain rfl := Except.ok.inj (back.symm.trans read')
    have ripe := h.held held.entry read
    exact ripe
  | renew _ _ => exact ⟨h.held⟩
  | finish _ _ _ _ held => exact h.dropped same_dropClaimed (at_dropClaimed held).entry
  | skip held _ => exact h.dropped same_dropClaimed (at_dropClaimed held).entry
  | recover =>
    refine ⟨fun {id text e} stored read => ?_⟩
    rw [entries_foldl_giveUp] at stored
    have before := h.held stored read
    obtain ⟨c, hc, _⟩ := readable.cell id
    rw [ripeAt, hc.score] at before
    rw [ripeAt, (at_recover hc now.millis).score]
    cases c with
    | claimed e a expiry =>
      rw [Cell.recovered]
      split
      -- a claim that is given up waits since now, and now is a whole millisecond
      · exact before.trans (le_of_eq whole.symm)
      · exact before
    | _ => exact before
  | saveRecord _ => exact ⟨h.held⟩
  | eraseRecord _ => exact ⟨h.held⟩

theorem preserved_ripe (rules : ClaimRules) (time : now.Storable) (whole : now.Whole) (asked : request.Writable) :
    Preserved rules now request (RepeatRecord.Writable now) fun s => Readable now s ∧ Ripe now s :=
  ⟨fun _ h m => ⟨m.readable h.1 time asked, m.ripe h.1 h.2 time whole asked⟩, fun h stored => h.1.writable stored⟩

theorem ripe_of_run {faults : CommandFaults} {t₀ t : Instant} {link : Link} (whole : faults.Whole)
    (run : (workQueue rules faults).Run WorkQueue.wholeTimes t₀ {} t link) :
    Kept (fun s => Readable t s ∧ Ripe t s) link.keys := by
  induction run with
  | start => exact ⟨Consistent.empty, .empty t₀, ⟨fun stored => by cases stored⟩⟩
  | step _ allowed kept =>
    obtain ⟨⟨le, time, asked⟩, shown⟩ := allowed
    exact Kept.ask ⟨kept.consistent, kept.holds.1.mono le, kept.holds.2.mono le⟩ (preserved_ripe rules time shown asked)
      whole

end SharedQueue

end Timetable
