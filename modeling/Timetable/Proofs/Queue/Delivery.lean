import Timetable.Proofs.Queue.Storable

/-!
# Entries that are delivered

An entry that does not repeat is delivered if it stays stored until its removal succeeds or the holder of its claim
finishes it (`WorkQueue.Waits` says what may happen before), and if every claim of due entries hands it out that comes
when it is due and the lease of its claim is over (`WorkQueue.Delivers`). A `WorkQueue.View` says how a queue shows what
it holds.
-/

namespace Timetable

/-- An entry that was claimed at other times, and whose payload was kept in some way. -/
structure StoredEntry.SameWork (keeps : Json → Json → Prop) (e f : StoredEntry) : Prop where
  id : f.id = e.id
  key : f.key = e.key
  repeats : f.repeats = e.repeats
  fireAt : f.fireAt = e.fireAt
  payload : keeps e.payload f.payload

namespace WorkQueue

variable {σ : Type}

/-- What can be seen of the state of a queue. -/
structure View (σ : Type) where
  /-- An entry is read under an identifier. -/
  stored : σ → String → StoredEntry → Prop
  count : σ → Nat
  /-- Whoever shows this entry holds the claim under its identifier. -/
  held : σ → StoredEntry → Prop
  /-- No claim is held under an identifier whose lease is not over. -/
  free : σ → String → Instant → Prop
  /-- How payloads are kept when an entry is claimed. -/
  keeps : Json → Json → Prop

/-- What may happen while the entry of a key waits to be finished: no removal of the key succeeds, and no holder of a
claim of the entry finishes it. -/
inductive Waits (q : WorkQueue σ) (may : Rule σ) (held : σ → StoredEntry → Prop) (key : String) (t₀ : Instant) (s₀ : σ) :
    Instant → σ → Prop
  | start : Waits q may held key t₀ s₀ t₀ s₀
  | step {t now : Instant} {s : σ} {request : QueueRequest} :
    Waits q may held key t₀ s₀ t s → may t s now request →
    (request = .removeDelayed key → ((q.ask now (.removeDelayed key)).on s).1 ≠ .ok true) →
    (∀ f, request = .finish f → f.id = singleId key → ¬ held s f) →
    Waits q may held key t₀ s₀ now ((q.ask now request).on s).2

/-- Entries that do not repeat are stored when they are added, stay so while they wait, and are handed out by the queue
when nothing fails (`calm`). -/
structure Delivers (q calm : WorkQueue σ) (rules : ClaimRules) (may : Rule σ) (s₀ : σ) (view : View σ) : Prop where
  /-- An entry that is added is stored, unless there is one of its key already. -/
  stores : ∀ {t₀ t now s key delay payload s'}, q.Run may t₀ s₀ t s → may t s now (.addDelayed key delay payload) →
    (q.addDelayed now key delay payload).on s = (.ok (), s') →
    ∃ e, view.stored s' (singleId key) e ∧ (view.stored s (singleId key) e ∨
      (∀ e', ¬ view.stored s (singleId key) e') ∧ e.processedOn = none ∧
        ∃ fireAt, now.addMillis? (signedWord delay) = some fireAt ∧
          (StoredEntry.single key fireAt payload).SameWork view.keeps e)
  /-- It stays stored. -/
  keeps : ∀ {t₀ t s key e t' s'}, q.Run may t₀ s₀ t s → view.stored s (singleId key) e →
    q.Waits may view.held key t s t' s' → ∃ e', view.stored s' (singleId key) e' ∧ e.SameWork view.keeps e'
  /-- When it is due and not claimed, a claim that may be as large as the queue hands it out. -/
  hands : ∀ {t₀ t now s key e limit}, q.Run may t₀ s₀ t s → view.stored s (singleId key) e →
    t ≤ now → now.Storable → rules.Reach now → e.fireAt ≤ now → view.free s (singleId key) now → view.count s ≤ limit →
    ∃ out s', (calm.claimDue now limit).on s = (.ok out, s') ∧ { e with processedOn := some now } ∈ out

end WorkQueue

end Timetable
