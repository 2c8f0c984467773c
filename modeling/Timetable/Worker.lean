import Timetable.Engine.Dispatch
import Timetable.Engine.Reconciliation

/-!
# Workers

A worker polls the queue and dispatches what it claims, so many entries at a time. A dispatch in the
air is a `Flight`: the steps that are left of it, each with its time. Flights go on side by side; a
step of a flight is an instant change of the world.

* `Worker.poll` claims as many entries as may still be dispatched, and starts them in order;
* `Worker.advance` lets the steps up to an instant follow, whichever flight they are of;
* `Worker.run` polls in intervals and then waits for what is in the air.

Every flight ends with the step `finish`, whatever came of its entry, but for two that are lost on the way and keep
their claim: one that should renew its claim without a pause, and one whose renewed lease the calendar does not reach.
-/

namespace Timetable

/-- What is done with the entries that a worker claims. -/
structure Handler (ω ε α : Type) where
  /-- Does what is done at once and tells what follows. -/
  start (e : StoredEntry) : ω → Course ω ε α × ω
  completed (e : StoredEntry) (output : α) (finishedOn : Instant) : Act ε ω Unit
  failed (e : StoredEntry) (error : ε) (finishedOn : Instant) : Act ε ω Unit

/-- The engine as a handler. -/
def Engine.handler {σ ρ τ : Type} (g : Engine σ ρ τ) :
    Handler (World σ ρ) DispatchError DispatchOutcome where
  start := g.start
  completed := g.completed
  failed e _ finishedOn := g.failed e finishedOn

/-- A step of a dispatch. -/
inductive FlightStep (ω ε α : Type) where
  /-- Something happens on the way. -/
  | mark (change : ω → ω)
  /-- The lease of the claim is renewed. -/
  | renew
  /-- The outcome is recorded. -/
  | settle (outcome : Except ε α)
  /-- The claim is given back. -/
  | finish

/-- A dispatch in the air: the steps that are left, by time. -/
structure Flight (ω ε α : Type) where
  entry : StoredEntry
  steps : List (Instant × FlightStep ω ε α)

/-- Why a worker breaks off. -/
inductive WorkerError where
  | queue (e : QueueError)
  /-- Nothing is repeated without a pause. -/
  | noInterval
  /-- More dispatches at the same time than a worker can count. -/
  | tooManyDispatches
deriving DecidableEq, Repr

structure Worker (σ ρ ε α : Type) where
  queue : WorkQueue σ
  handler : Handler (World σ ρ) ε α
  /-- Dispatches that may be in the air at the same time. -/
  concurrency : Nat := 4
  /-- Milliseconds between renewals of a claim. -/
  renewEvery : Nat := 100000

/-- A world with dispatches in the air. -/
structure Airspace (σ ρ ε α : Type) where
  world : World σ ρ
  flights : List (Flight (World σ ρ) ε α) := []

namespace Worker

variable {σ ρ ε α : Type}

open World

/-! ## The steps of a flight -/

/-- Milliseconds after the start at which a claim is renewed, while the dispatch takes `total`. -/
def renewals (every total : Nat) : List Nat :=
  (List.range ((total - 1) / every)).map fun k => (k + 1) * every

/-- What follows in a course that starts now, by time. -/
def stepsOf (w : Worker σ ρ ε α) (start : Instant) (c : Course (World σ ρ) ε α) :
    List (Instant × FlightStep (World σ ρ) ε α) :=
  let total := c.takes + c.settling
  let steps := c.marks.map (fun m => (m.1, .mark m.2)) ++
    (renewals w.renewEvery total).map (fun ms => (ms, .renew)) ++
    [(c.takes, .settle c.outcome), (total, .finish)]
  (steps.mergeSort fun a b => decide (a.1 ≤ b.1)).map fun s => (start.plusMillis s.1, s.2)

/-- Does a step; whether the flight goes on. What goes wrong in recording, renewing or giving back ends
there, but a lease that the calendar does not reach ends the flight. -/
def perform (w : Worker σ ρ ε α) (e : StoredEntry) (step : FlightStep (World σ ρ) ε α)
    (world : World σ ρ) : Bool × World σ ρ :=
  match step with
  | .mark change => (true, change world)
  | .renew =>
    let (renewed, world) := (onQueue (w.queue.renewLease e world.now)).on world
    (!(renewed matches .error .outOfRange), world)
  | .settle (.ok output) => (true, ((w.handler.completed e output world.now).on world).2)
  | .settle (.error error) => (true, ((w.handler.failed e error world.now).on world).2)
  | .finish => (true, ((onQueue (w.queue.finish e)).on world).2)

/-! ## Side by side -/

/-- A step of one of several flights. -/
structure DueStep (ω ε α : Type) where
  /-- The place of the flight among all of them. -/
  flight : Nat
  entry : StoredEntry
  time : Instant
  step : FlightStep ω ε α

/-- Steps of several flights that are due at an instant, by time. -/
def dueSteps (flights : List (Flight (World σ ρ) ε α)) (due : Instant → Bool) :
    List (DueStep (World σ ρ) ε α) :=
  (flights.zipIdx.flatMap fun (f, place) =>
    (f.steps.takeWhile (due ·.1)).map fun s => ⟨place, f.entry, s.1, s.2⟩).mergeSort
    fun a b => decide (a.time ≤ b.time)

/-- Does steps at their times; also the places of the flights that were lost. -/
def performEach (w : Worker σ ρ ε α) :
    List (DueStep (World σ ρ) ε α) → List Nat → World σ ρ → List Nat × World σ ρ
  | [], lost, world => (lost, world)
  | s :: steps, lost, world =>
    if lost.contains s.flight then w.performEach steps lost world
    else
      let (goesOn, world) := w.perform s.entry s.step { world with now := s.time }
      w.performEach steps (if goesOn then lost else s.flight :: lost) world

/-- What is left of flights after the steps that are due, without those that were lost. -/
def leftOver (flights : List (Flight (World σ ρ) ε α)) (lost : List Nat) (due : Instant → Bool) :
    List (Flight (World σ ρ) ε α) :=
  let going := flights.zipIdx.filter fun (_, place) => !lost.contains place
  (going.map fun (f, _) => { f with steps := f.steps.dropWhile (due ·.1) }).filter
    fun f => !f.steps.isEmpty

def advanceWhile (w : Worker σ ρ ε α) (due : Instant → Bool) (a : Airspace σ ρ ε α) :
    Airspace σ ρ ε α :=
  let (lost, world) := w.performEach (dueSteps a.flights due) [] a.world
  ⟨world, leftOver a.flights lost due⟩

/-- Lets pass what comes before an instant, and moves the clock there. -/
def advance (w : Worker σ ρ ε α) (until_ : Instant) (a : Airspace σ ρ ε α) : Airspace σ ρ ε α :=
  let a := w.advanceWhile (fun t => decide (t < until_)) a
  { a with world := { a.world with now := until_ } }

/-- How many dispatches a worker that drains may leave in the air. It waits for all its permits at once, and the number
of them is cut to 32 bits. -/
def unawaited (w : Worker σ ρ ε α) : Nat := w.concurrency - w.concurrency % 4294967296

/-- Lets pass one instant after the other until so few flights are left. -/
def advanceUntil (w : Worker σ ρ ε α) (most : Nat) : List Instant → Airspace σ ρ ε α → Airspace σ ρ ε α
  | [], a => a
  | t :: times, a =>
    if a.flights.length ≤ most then a
    else w.advanceUntil most times (w.advanceWhile (fun u => decide (u ≤ t)) a)

/-- The times of all steps that are left. -/
def timesOf (flights : List (Flight (World σ ρ) ε α)) : List Instant :=
  (flights.flatMap fun f => f.steps.map (·.1)).mergeSort fun s t => decide (s ≤ t)

/-- Waits until nothing is in the air that is waited for. -/
def drain (w : Worker σ ρ ε α) (a : Airspace σ ρ ε α) : Airspace σ ρ ε α :=
  w.advanceUntil w.unawaited (timesOf a.flights) a

/-! ## Polling -/

/-- Starts the dispatch of an entry and does what is due of it at once. A dispatch that should renew its
claim without a pause is lost before it starts. -/
def launch (w : Worker σ ρ ε α) (a : Airspace σ ρ ε α) (e : StoredEntry) : Airspace σ ρ ε α :=
  if w.renewEvery = 0 then a
  else
    let now := a.world.now
    let (course, world) := w.handler.start e a.world
    let flight : Flight (World σ ρ) ε α := ⟨e, w.stepsOf now course⟩
    let begun := w.advanceWhile (fun t => decide (t ≤ now)) ⟨world, [flight]⟩
    ⟨begun.world, a.flights ++ begun.flights⟩

/-- Tells how many entries the queue holds, if it says so. -/
def gauge (w : Worker σ ρ ε α) (world : World σ ρ) : World σ ρ :=
  match (onQueue w.queue.size).on world with
  | (.ok size, world) => world.tell (Journal.measure [.queueSize size])
  | (.error _, world) => world

/-- Claims as many entries as may still be dispatched and starts them; how many. -/
def poll (w : Worker σ ρ ε α) (a : Airspace σ ρ ε α) : Except QueueError Nat × Airspace σ ρ ε α :=
  let available := w.concurrency - a.flights.length
  if available = 0 then (.ok 0, a)
  else
    match (onQueue (w.queue.claimDue a.world.now available)).on a.world with
    | (.error e, world) => (.error e, { a with world })
    | (.ok entries, world) =>
      (.ok entries.length, entries.foldl w.launch { a with world := w.gauge world })

/-- The most dispatches at the same time. -/
def mostDispatches : Nat := 2305843009213693951

/-- Refuses a worker that cannot count its dispatches. -/
def begin (w : Worker σ ρ ε α) : Act WorkerError (World σ ρ) Unit :=
  if mostDispatches < w.concurrency then throw .tooManyDispatches else pure ()

/-- One poll, and what comes of it. -/
def pollOnce (w : Worker σ ρ ε α) : Act WorkerError (World σ ρ) Nat := do
  w.begin
  .of fun world =>
    let (result, a) := w.poll { world }
    (result.mapError .queue, (w.drain a).world)

/-- Milliseconds at which something happens that happens at once and then in intervals. -/
def ticks (every millis : Nat) : List Nat :=
  0 :: (List.range ((millis - 1) / every)).map fun k => (k + 1) * every

/-- Polls some milliseconds after a start each. A poll that fails is passed over, unless the calendar ended. -/
def pollEach (w : Worker σ ρ ε α) (start : Instant) :
    List Nat → Airspace σ ρ ε α → Except QueueError Unit × Airspace σ ρ ε α
  | [], a => (.ok (), a)
  | ms :: later, a =>
    match w.poll (w.advance (start.plusMillis ms) a) with
    | (.error .outOfRange, a) => (.error .outOfRange, a)
    | (_, a) => w.pollEach start later a

/-- Polls in intervals for some time, then waits for what is in the air. What is not waited for is left behind. -/
def run (w : Worker σ ρ ε α) (pollEvery millis : Nat) : Act WorkerError (World σ ρ) Unit := do
  w.begin
  if pollEvery = 0 then throw .noInterval
  .of fun world =>
    let start := world.now
    match w.pollEach start (ticks pollEvery millis) { world } with
    | (.ok (), a) => (.ok (), (w.drain (w.advance (start.plusMillis millis) a)).world)
    | (.error e, a) => (.error (.queue e), a.world)

end Worker

namespace Engine

variable {σ ρ τ : Type}

/-- Reconciles some milliseconds after a start each. A pass that fails is passed over, unless the calendar
ended. -/
def reconcileEach (g : Engine σ ρ τ) (start : Instant) : List Nat → Act WorkerError (World σ ρ) Unit
  | [] => return
  | ms :: later => do
    modify fun world => { world with now := start.plusMillis ms }
    match ← g.reconcile.attempt with
    | .error e => if e.isOutOfRange then throw (.queue .outOfRange) else g.reconcileEach start later
    | .ok _ => g.reconcileEach start later

/-- Reconciles in intervals for some time. -/
def reconcileFor (g : Engine σ ρ τ) (every millis : Nat) : Act WorkerError (World σ ρ) Unit := do
  if every = 0 then throw .noInterval
  let start ← World.time
  g.reconcileEach start (Worker.ticks every millis)
  modify fun world => { world with now := start.plusMillis millis }

end Engine

end Timetable
