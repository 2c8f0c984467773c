import Timetable.Execution.Run
import Timetable.Journal
import Timetable.Queue.Interface
import Timetable.Schedule.Plan
import Timetable.Store.Interface

/-!
# The engine and its world

An `Engine` is a queue, a store, something that calls functions, and a policy. Its operations are
actions on a `World`, which holds the clock, what is in the queue and in the store, and the journal.

The clock stands still within an operation, unless functions are called in it. So whatever an
operation plans by the clock and what it asks of the queue or of the store then, which may look at a
clock again, go by one time.
-/

namespace Timetable

/-- What calls functions. -/
structure Invoker where
  /-- Those of some functions that do not exist. -/
  missing : List String → Except InvocationError (List String)
  /-- What answers the call at a place of a list of functions. -/
  reply : Nat → FunctionSpec → Reply

structure World (σ ρ : Type) where
  now : Instant
  queue : σ
  store : ρ
  journal : Journal := {}
deriving Inhabited

namespace World

variable {σ ρ ε α : Type}

/-- A world that starts at an instant. Its clock knows no leap seconds. -/
def startingAt (now : Instant) (queue : σ) (store : ρ) : World σ ρ :=
  { now := now.smoothed, queue, store }

/-- Whether the clock shows a time that it can show: from 1970 to the end of the calendar. -/
def IsRunning (w : World σ ρ) : Prop := 0 ≤ w.now.second ∧ w.now.Representable

instance (w : World σ ρ) : Decidable w.IsRunning := inferInstanceAs (Decidable (_ ∧ _))

/-- Moves the clock by some milliseconds. -/
def pass (millis : Int) (w : World σ ρ) : World σ ρ := { w with now := w.now.plusMillis millis }

def tell (f : Journal → Journal) (w : World σ ρ) : World σ ρ := { w with journal := f w.journal }

def putQueue (queue : σ) (w : World σ ρ) : World σ ρ := { w with queue }

def putStore (store : ρ) (w : World σ ρ) : World σ ρ := { w with store }

/-- The clock. -/
def time : Act ε (World σ ρ) Instant := return (← get).now

def onQueue (x : Act QueueError σ α) : Act QueueError (World σ ρ) α := x.zoom queue putQueue

def onStore (x : Act StoreError ρ α) : Act StoreError (World σ ρ) α := x.zoom store putStore

/-- Works on the store in a transaction, which is lost if that fails. -/
def inTransaction {τ : Type} (t : τ) (x : Act StoreError (τ × ρ) α) :
    Act StoreError (World σ ρ) (α × τ) :=
  .of fun w =>
    match x.on (t, w.store) with
    | (.ok a, t, store) => (.ok (a, t), w.putStore store)
    | (.error e, _, store) => (.error e, w.putStore store)

end World

structure Engine (σ ρ τ : Type) where
  queue : WorkQueue σ
  store : JobStore ρ τ
  invoker : Invoker
  policy : SchedulePolicy := {}
  /-- Failed executions in a row that disable a job; zero never does. -/
  threshold : Nat := 3

namespace Engine

variable {σ ρ τ α : Type}

/-- Goes on after a failure, unless the calendar ended. -/
def attempting (x : Act EngineError (World σ ρ) α) :
    Act EngineError (World σ ρ) (Except EngineError α) :=
  x.attemptUnless EngineError.isOutOfRange

/-- An action of the queue as one of the engine. -/
def queueing (x : Act QueueError (World σ ρ) α) : Act EngineError (World σ ρ) α :=
  x.mapError .queue

/-- An action of the store as one of the engine. -/
def storing (x : Act StoreError (World σ ρ) α) : Act EngineError (World σ ρ) α :=
  x.mapError .store

end Engine

end Timetable
