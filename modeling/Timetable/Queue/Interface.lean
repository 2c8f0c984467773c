import Timetable.Act
import Timetable.Queue.Entry

/-!
# Work queues

What the engine and the workers ask of a queue, whatever it is kept in. A `WorkQueue σ` is a record
of actions on the state `σ` of the queue; the clock is an argument of those that read it.

`WorkQueue.metered` counts the calls and makes some of them fail without effect.
-/

namespace Timetable

/-- How claims are handed out. -/
structure ClaimRules where
  overlap : OverlapPolicy := .skip
  /-- Nanoseconds after which a claim that was not renewed is void. -/
  lease : Int := 300000000000
deriving DecidableEq

/-- The longest lease there is: 2⁶³ - 1 milliseconds. -/
def longestLeaseMillis : Nat := 9223372036854775807

/-- The rules with a lease of some nanoseconds; one that is too long leaves them as they are. -/
def ClaimRules.withLease (r : ClaimRules) (nanos : Nat) : ClaimRules :=
  if nanos ≤ longestLeaseMillis * 1000000 then { r with lease := nanos } else r

structure WorkQueue (σ : Type) where
  /-- Adds a repeat record with its next entry; one that is there only gets the payload. -/
  addRepeating (now : Instant) (key : String) (spec : RepeatSpec) (payload : Json) :
    Act QueueError σ Unit
  /-- Adds the single entry of a key, due after some milliseconds, unless it is there. The number
  counts as a signed word: half of the range lies in the past. -/
  addDelayed (now : Instant) (key : String) (delayMillis : Nat) (payload : Json) :
    Act QueueError σ Unit
  /-- Takes out a record and its entry that nobody claimed; whether there was such a record. -/
  removeRepeating (key : String) (spec : RepeatSpec) : Act QueueError σ Bool
  /-- Takes out the single entry of a key if nobody claimed it. -/
  removeDelayed (key : String) : Act QueueError σ Bool
  listRepeating : Act QueueError σ (List RepeatRecord)
  listEntries (now : Instant) (states : List EntryState) : Act QueueError σ (List QueueEntry)
  /-- The single entry of a key. -/
  getEntry (now : Instant) (key : String) : Act QueueError σ (Option QueueEntry)
  /-- Claims entries that are due, by fire time and identifier, and moves their records on. -/
  claimDue (now : Instant) (limit : Nat) : Act QueueError σ (List StoredEntry)
  /-- Extends the lease of a claim; whether it is still held. -/
  renewLease (entry : StoredEntry) (now : Instant) : Act QueueError σ Bool
  /-- Gives up claims whose lease ran out; how many. -/
  recoverStalled (now : Instant) : Act QueueError σ Nat
  /-- Takes out a claimed entry whose claim is still held. -/
  finish (entry : StoredEntry) : Act QueueError σ Unit
  size : Act QueueError σ Nat

/-- The operations of a queue, by name. -/
inductive QueueCall where
  | addRepeating
  | addDelayed
  | removeRepeating
  | removeDelayed
  | listRepeating
  | listEntries
  | getEntry
  | claimDue
  | renewLease
  | recoverStalled
  | finish
  | size
deriving DecidableEq, Repr

def QueueCall.text : QueueCall → String
  | addRepeating => "add_repeating"
  | addDelayed => "add_delayed"
  | removeRepeating => "remove_repeating"
  | removeDelayed => "remove_delayed"
  | listRepeating => "list_repeating"
  | listEntries => "list_entries"
  | getEntry => "get_entry"
  | claimDue => "claim_due"
  | renewLease => "renew_lease"
  | recoverStalled => "recover_stalled"
  | finish => "finish"
  | size => "len"

/-- A queue's state beside a count of the calls so far. -/
structure Metered (σ : Type) where
  state : σ
  calls : Nat := 0
deriving DecidableEq, Inhabited

/-- Which of the calls fail, and how. -/
abbrev QueueFaults := Nat → QueueCall → Option QueueError

/-- The calls with some names fail, all in the same way. -/
def QueueFaults.named (names : List String) (e : QueueError) : QueueFaults := fun _ call =>
  if names.contains call.text then some e else none

namespace WorkQueue

variable {σ ω α : Type}

/-- A queue whose actions are all changed in the same way. -/
def map (q : WorkQueue σ) (f : QueueCall → {α : Type} → Act QueueError σ α → Act QueueError ω α) :
    WorkQueue ω where
  addRepeating now key spec payload := f .addRepeating (q.addRepeating now key spec payload)
  addDelayed now key delay payload := f .addDelayed (q.addDelayed now key delay payload)
  removeRepeating key spec := f .removeRepeating (q.removeRepeating key spec)
  removeDelayed key := f .removeDelayed (q.removeDelayed key)
  listRepeating := f .listRepeating q.listRepeating
  listEntries now states := f .listEntries (q.listEntries now states)
  getEntry now key := f .getEntry (q.getEntry now key)
  claimDue now limit := f .claimDue (q.claimDue now limit)
  renewLease entry now := f .renewLease (q.renewLease entry now)
  recoverStalled now := f .recoverStalled (q.recoverStalled now)
  finish entry := f .finish (q.finish entry)
  size := f .size q.size

/-- A queue that is a part of a larger state. -/
def zoom (q : WorkQueue σ) (get : ω → σ) (put : σ → ω → ω) : WorkQueue ω :=
  q.map fun _ _ x => x.zoom get put

/-- Counts a call, and does nothing else if that one fails. -/
def meter (faults : QueueFaults) (call : QueueCall) (x : Act QueueError σ α) :
    Act QueueError (Metered σ) α :=
  .of fun m =>
    match faults m.calls call with
    | some e => (.error e, { m with calls := m.calls + 1 })
    | none => let (r, state) := x.on m.state; (r, ⟨state, m.calls + 1⟩)

/-- A queue whose calls fail as a list of faults says. -/
def metered (q : WorkQueue σ) (faults : QueueFaults) : WorkQueue (Metered σ) :=
  q.map fun call _ x => meter faults call x

end WorkQueue

end Timetable
