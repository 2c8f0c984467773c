import Timetable.Proofs.Instant.Order
import Timetable.Proofs.Queue.Run

/-!
# Claims that exclude each other

While a claim is not finished by whoever holds it, its entry is not handed out again before the lease is over, counted
from the last time it was extended (`WorkQueue.Excludes`). What a queue excludes claims with is a `Lock`: something
that is true of a state as long as a claim is held, and that no other request undoes. `Excludes.of_lock` carries it
along the runs.
-/

namespace Timetable

namespace WorkQueue

variable {σ : Type}

/-- The clock never goes back, and shows times of some kind. -/
def forward (clock : Instant → Prop) : Rule σ := fun t _ now _ => t ≤ now ∧ clock now

/-- What may follow a claim that nobody who `holds` it finishes: when it was last extended, the clock, and the state. -/
inductive Unfinished (q : WorkQueue σ) (clock : Instant → Prop) (holds : StoredEntry → Prop) (t₀ : Instant) (s₀ : σ) :
    Instant → Instant → σ → Prop
  | claimed : Unfinished q clock holds t₀ s₀ t₀ t₀ s₀
  | renewed {r t now : Instant} {s : σ} {f : StoredEntry} :
    Unfinished q clock holds t₀ s₀ r t s → t ≤ now → clock now → holds f →
    ((q.ask now (.renewLease f)).on s).1 = .ok true →
    Unfinished q clock holds t₀ s₀ now now ((q.ask now (.renewLease f)).on s).2
  | other {r t now : Instant} {s : σ} {request : QueueRequest} :
    Unfinished q clock holds t₀ s₀ r t s → t ≤ now → clock now → (∀ f, holds f → request ≠ .finish f) →
    (∀ f, holds f → request = .renewLease f → ((q.ask now (.renewLease f)).on s).1 ≠ .ok true) →
    Unfinished q clock holds t₀ s₀ r now ((q.ask now request).on s).2

/-- No identifier is handed out twice at once, nor again while a claim is unfinished and its lease is not `ended`. -/
structure Excludes (q : WorkQueue σ) (clock : Instant → Prop) (s₀ : σ) (holds : StoredEntry → StoredEntry → Prop)
    (ended : Instant → Instant → Prop) : Prop where
  once : ∀ {t₀ t now s limit out s'}, q.Run (forward clock) t₀ s₀ t s → t ≤ now → clock now →
    (q.claimDue now limit).on s = (.ok out, s') → (out.map (·.id)).Nodup
  again : ∀ {t₀ t now s limit out s₁ e r t' s₂ later limit' out' s₃ f}, q.Run (forward clock) t₀ s₀ t s →
    t ≤ now → clock now → (q.claimDue now limit).on s = (.ok out, s₁) → e ∈ out →
    q.Unfinished clock (holds e) now s₁ r t' s₂ → t' ≤ later → clock later →
    (q.claimDue later limit').on s₂ = (.ok out', s₃) → f ∈ out' → f.id = e.id → ended r later

/-- What makes claims exclude each other: something is locked in a state while a claim is held. -/
structure Lock (q : WorkQueue σ) (clock : Instant → Prop) (inv : σ → Prop) (holds : StoredEntry → StoredEntry → Prop)
    (ended : Instant → Instant → Prop) (locked : StoredEntry → Instant → σ → Prop) : Prop where
  step : ∀ {now s} (request), inv s → inv ((q.ask now request).on s).2
  claim : ∀ {now s limit out s'}, inv s → (q.claimDue now limit).on s = (.ok out, s') →
    (out.map (·.id)).Nodup ∧ ∀ e ∈ out, locked e now s'
  renew : ∀ {now s e f}, inv s → holds e f → ((q.ask now (.renewLease f)).on s).1 = .ok true →
    locked e now ((q.ask now (.renewLease f)).on s).2
  keep : ∀ {now s e r} (request), inv s → locked e r s → (∀ f, holds e f → request ≠ .finish f) →
    (∀ f, holds e f → request = .renewLease f → ((q.ask now (.renewLease f)).on s).1 ≠ .ok true) →
    ended r now ∨ locked e r ((q.ask now request).on s).2
  shut : ∀ {now s limit out s' e r f}, inv s → locked e r s → (q.claimDue now limit).on s = (.ok out, s') →
    f ∈ out → f.id = e.id → ended r now
  mono : ∀ {r t t'}, ended r t → clock t → t ≤ t' → ended r t'

variable {q : WorkQueue σ} {clock : Instant → Prop} {inv : σ → Prop} {holds : StoredEntry → StoredEntry → Prop}
  {ended : Instant → Instant → Prop} {locked : StoredEntry → Instant → σ → Prop} {s₀ : σ}

theorem Lock.invariant (lock : Lock q clock inv holds ended locked) (start : inv s₀) {t₀ t : Instant} {s : σ}
    (run : q.Run (forward clock) t₀ s₀ t s) : inv s :=
  run.invariant start fun h _ => lock.step _ h

/-- While a claim is unfinished it is locked, or its lease is over. -/
theorem Lock.unfinished (lock : Lock q clock inv holds ended locked) {e : StoredEntry} {t₀ r t : Instant} {s : σ}
    (start : inv s₀) (claimed : locked e t₀ s₀) (h : q.Unfinished clock (holds e) t₀ s₀ r t s) :
    inv s ∧ (ended r t ∧ clock t ∨ locked e r s) := by
  induction h with
  | claimed => exact ⟨start, .inr claimed⟩
  | renewed _ _ _ holder extended ih => exact ⟨lock.step _ ih.1, .inr (lock.renew ih.1 holder extended)⟩
  | @other r t now s request _ le shown unfinished notExtended ih =>
    refine ⟨lock.step _ ih.1, ?_⟩
    rcases ih.2 with ⟨done, before⟩ | held
    · exact .inl ⟨lock.mono done before le, shown⟩
    · exact (lock.keep request ih.1 held unfinished notExtended).imp_left fun done => ⟨done, shown⟩

theorem Excludes.of_lock (lock : Lock q clock inv holds ended locked) (start : inv s₀) :
    Excludes q clock s₀ holds ended where
  once run _ _ on := (lock.claim (lock.invariant start run) on).1
  again {t₀ t now s limit out s₁ e r t' s₂ later limit' out' s₃ f} run _ _ on mem unfinished le _ on' mem' same := by
    have before := lock.invariant start run
    have held := (lock.claim before on).2 e mem
    have left : ((q.ask now (.claimDue limit)).on s).2 = s₁ := congrArg Prod.snd on
    have inv₁ : inv s₁ := left ▸ lock.step (.claimDue limit) before
    obtain ⟨inv₂, ⟨done, before⟩ | held⟩ := lock.unfinished inv₁ held unfinished
    · exact lock.mono done before le
    · exact lock.shut inv₂ held on' mem' same

end WorkQueue

end Timetable
