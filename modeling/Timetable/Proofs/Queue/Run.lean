import Timetable.Queue.Interface

/-!
# Runs of a queue

A *request* is one operation of a work queue with its arguments, the clock aside. A run asks one request after
the other. Which of them it may ask, and when, is a parameter: it can depend on the clock and on the state.
-/

namespace Timetable

inductive QueueRequest where
  | addRepeating (key : String) (spec : RepeatSpec) (payload : Json)
  | addDelayed (key : String) (delayMillis : Nat) (payload : Json)
  | removeRepeating (key : String) (spec : RepeatSpec)
  | removeDelayed (key : String)
  | listRepeating
  | listEntries (states : List EntryState)
  | getEntry (key : String)
  | claimDue (limit : Nat)
  | renewLease (entry : StoredEntry)
  | recoverStalled
  | finish (entry : StoredEntry)
  | size
deriving DecidableEq, Inhabited

/-- What a request is answered. -/
abbrev QueueRequest.Answer : QueueRequest → Type
  | addRepeating .. => Unit
  | addDelayed .. => Unit
  | removeRepeating .. => Bool
  | removeDelayed _ => Bool
  | listRepeating => List RepeatRecord
  | listEntries _ => List QueueEntry
  | getEntry _ => Option QueueEntry
  | claimDue _ => List StoredEntry
  | renewLease _ => Bool
  | recoverStalled => Nat
  | finish _ => Unit
  | size => Nat

namespace WorkQueue

variable {σ : Type}

/-- Asks a request at some time. -/
def ask (q : WorkQueue σ) (now : Instant) : (r : QueueRequest) → Act QueueError σ r.Answer
  | .addRepeating key spec payload => q.addRepeating now key spec payload
  | .addDelayed key delay payload => q.addDelayed now key delay payload
  | .removeRepeating key spec => q.removeRepeating key spec
  | .removeDelayed key => q.removeDelayed key
  | .listRepeating => q.listRepeating
  | .listEntries states => q.listEntries now states
  | .getEntry key => q.getEntry now key
  | .claimDue limit => q.claimDue now limit
  | .renewLease entry => q.renewLease entry now
  | .recoverStalled => q.recoverStalled now
  | .finish entry => q.finish entry
  | .size => q.size

/-- When a run at a clock and in a state may ask for something, and at what time. -/
abbrev Rule (σ : Type) := Instant → σ → Instant → QueueRequest → Prop

/-- Runs from a clock and a state: the clock at the last request, and the state that it left. -/
inductive Run (q : WorkQueue σ) (may : Rule σ) (t₀ : Instant) (s₀ : σ) : Instant → σ → Prop
  | start : Run q may t₀ s₀ t₀ s₀
  | step {t now : Instant} {s : σ} {r : QueueRequest} :
    Run q may t₀ s₀ t s → may t s now r → Run q may t₀ s₀ now ((q.ask now r).on s).2

variable {q : WorkQueue σ} {may : Rule σ} {t₀ t : Instant} {s₀ s : σ}

/-- What every request preserves holds along a run. -/
theorem Run.invariant {inv : Instant → σ → Prop} (h : Run q may t₀ s₀ t s) (start : inv t₀ s₀)
    (step : ∀ {t s now r}, inv t s → may t s now r → inv now ((q.ask now r).on s).2) :
    inv t s := by
  induction h with
  | start => exact start
  | step _ allowed ih => exact step ih allowed

end WorkQueue

end Timetable
