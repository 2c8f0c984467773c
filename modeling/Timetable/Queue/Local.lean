import Timetable.Queue.Interface
import Timetable.Table

/-!
# The queue in memory

Three tables: repeat records by field, entries by identifier, and for every claimed entry the end of its
lease. An entry is pending if it is stored and not claimed.

* `LocalQueue.recover` gives up claims whose lease ran out;
* `LocalQueue.claimEntry` hands out one entry that is due, or drops it: a fire that its chain has
  left behind, and under `OverlapPolicy.skip` a fire while another entry of its key is at work;
* `LocalQueue.claimDue` goes through what is due until it has handed out enough.
-/

namespace Timetable

structure LocalQueue where
  repeats : Table String RepeatRecord := .empty
  entries : Table String StoredEntry := .empty
  /-- The end of the lease of each claimed entry. -/
  active : Table String Instant := .empty
deriving DecidableEq, Inhabited

namespace LocalQueue

/-! ## Views -/

def stateOf (q : LocalQueue) (now : Instant) (e : StoredEntry) : EntryState :=
  if q.active.contains e.id then .active else pendingState e.fireAt now

def withState (q : LocalQueue) (now : Instant) (e : StoredEntry) : QueueEntry := ⟨e, q.stateOf now e⟩

/-- Whether some claimed entry has this key. -/
def keyIsActive (q : LocalQueue) (key : String) : Bool :=
  q.active.keys.any fun id => (q.entries.get? id).any (·.key == key)

/-- Whether the claim with which an entry was handed out is still held. -/
def holdsClaim (q : LocalQueue) (e : StoredEntry) : Bool :=
  q.active.contains e.id && (q.entries.get? e.id).any (·.processedOn == e.processedOn)

/-- By fire time, then by identifier. -/
def firesBefore (a b : StoredEntry) : Bool :=
  decide (a.fireAt < b.fireAt) || (a.fireAt == b.fireAt && decide (a.id ≤ b.id))

/-- What is due and not claimed, in the order in which it is handed out. -/
def due (q : LocalQueue) (now : Instant) : List StoredEntry :=
  (q.entries.values.filter fun e => !q.active.contains e.id && decide (e.fireAt ≤ now)).mergeSort
    firesBefore

/-! ## Changes -/

def insertIfAbsent (q : LocalQueue) (e : StoredEntry) : LocalQueue :=
  { q with entries := q.entries.setIfAbsent e.id e }

/-- With the entry for the next fire of a record, if it has one. -/
def insertCurrent (q : LocalQueue) (r : RepeatRecord) : LocalQueue :=
  match r.currentInstance with
  | some e => q.insertIfAbsent e
  | none => q

def setRecord (q : LocalQueue) (r : RepeatRecord) : LocalQueue :=
  { q with repeats := q.repeats.set r.field r }

/-- With a record and the entry for its next fire. -/
def putRecord (q : LocalQueue) (r : RepeatRecord) : LocalQueue := (q.insertCurrent r).setRecord r

def eraseRecord (q : LocalQueue) (field : String) : LocalQueue :=
  { q with repeats := q.repeats.erase field }

def eraseEntry (q : LocalQueue) (id : String) : LocalQueue :=
  { q with entries := q.entries.erase id }

/-- Marks an entry as claimed and stores it with the time of the claim. -/
def holdEntry (q : LocalQueue) (e : StoredEntry) (expiry : Instant) : LocalQueue :=
  { q with active := q.active.set e.id expiry, entries := q.entries.set e.id e }

def recover (q : LocalQueue) (now : Instant) : LocalQueue :=
  { q with active := q.active.filter fun _ expiry => !decide (expiry ≤ now) }

/-! ## Adding and removing -/

def addRepeating (now : Instant) (key : String) (spec : RepeatSpec) (payload : Json) :
    Act QueueError LocalQueue Unit := do
  let q ← get
  match q.repeats.get? (repeatField key spec) with
  | some old => set (q.putRecord { old with payload })
  | none => set (q.putRecord (← Act.ofExcept (RepeatRecord.create key spec payload now)))

def addDelayed (now : Instant) (key : String) (delayMillis : Nat) (payload : Json) :
    Act QueueError LocalQueue Unit := do
  match now.addMillis? (signedWord delayMillis) with
  | some fireAt => modify (·.insertIfAbsent (.single key fireAt payload))
  | none => throw .outOfRange

def removeRepeating (key : String) (spec : RepeatSpec) : Act QueueError LocalQueue Bool := do
  let q ← get
  match q.repeats.get? (repeatField key spec) with
  | none => return false
  | some r =>
    let q := q.eraseRecord (repeatField key spec)
    match r.currentInstance with
    | some e => set (if q.active.contains e.id then q else q.eraseEntry e.id)
    | none => set q
    return true

def removeDelayed (key : String) : Act QueueError LocalQueue Bool := do
  let q ← get
  if q.active.contains (singleId key) || !q.entries.contains (singleId key) then return false
  set (q.eraseEntry (singleId key))
  return true

/-! ## Reading -/

def listRepeating : Act QueueError LocalQueue (List RepeatRecord) := do
  return (← get).repeats.values

def listEntries (now : Instant) (states : List EntryState) :
    Act QueueError LocalQueue (List QueueEntry) := do
  let q ← get
  return (q.entries.values.map (q.withState now)).filter fun e => states.contains e.state

def getEntry (now : Instant) (key : String) : Act QueueError LocalQueue (Option QueueEntry) := do
  let q ← get
  return (q.entries.get? (singleId key)).map (q.withState now)

def size : Act QueueError LocalQueue Nat := do
  return (← get).entries.size

/-! ## Claims -/

/-- Moves a record past a fire that is claimed, if that is the one it waits for. A record that
cannot be moved on is lost. -/
def advanceChain (now : Instant) (record : Option RepeatRecord) (e : StoredEntry) :
    Act QueueError LocalQueue Unit := do
  match record with
  | some r =>
    if r.isCurrent e then
      match r.advance now with
      | .ok next => modify (·.putRecord next)
      | .error error =>
        modify (·.eraseRecord r.field)
        throw error
  | none => return

/-- Marks an entry as claimed. -/
def hold (rules : ClaimRules) (now : Instant) (e : StoredEntry) :
    Act QueueError LocalQueue StoredEntry := do
  match now.add? rules.lease with
  | none => throw .outOfRange
  | some expiry =>
    let e := { e with processedOn := some now }
    modify (·.holdEntry e expiry)
    return e

/-- Hands out one stored entry, or drops it. -/
def claimEntry (rules : ClaimRules) (now : Instant) (e : StoredEntry) :
    Act QueueError LocalQueue (Option StoredEntry) := do
  modify (·.eraseEntry e.id)
  match e.repeats with
  | none => return some (← hold rules now e)
  | some spec =>
    let record := (← get).repeats.get? (repeatField e.key spec)
    if isSuperseded record e then return none
    advanceChain now record e
    if rules.overlap = .skip ∧ (← get).keyIsActive e.key then return none
    return some (← hold rules now e)

/-- Goes through what is due until `limit` entries are handed out. -/
def claimEach (rules : ClaimRules) (now : Instant) :
    List StoredEntry → Nat → Act QueueError LocalQueue (List StoredEntry)
  | [], _ => return []
  | _ :: _, 0 => return []
  | e :: es, limit + 1 => do
    match ← claimEntry rules now e with
    | some claimed => return claimed :: (← claimEach rules now es limit)
    | none => claimEach rules now es (limit + 1)

def claimDue (rules : ClaimRules) (now : Instant) (limit : Nat) :
    Act QueueError LocalQueue (List StoredEntry) := do
  modify (·.recover now)
  claimEach rules now ((← get).due now) limit

def renewLease (rules : ClaimRules) (e : StoredEntry) (now : Instant) :
    Act QueueError LocalQueue Bool := do
  let q ← get
  if !q.holdsClaim e then return false
  match now.add? rules.lease with
  | none => throw .outOfRange
  | some expiry =>
    set { q with active := q.active.set e.id expiry }
    return true

def recoverStalled (now : Instant) : Act QueueError LocalQueue Nat := do
  let q ← get
  set (q.recover now)
  return q.active.size - (q.recover now).active.size

def finish (e : StoredEntry) : Act QueueError LocalQueue Unit := do
  let q ← get
  if q.holdsClaim e then
    set { q with active := q.active.erase e.id, entries := q.entries.erase e.id }

/-- The queue in memory as a work queue. -/
def workQueue (rules : ClaimRules) : WorkQueue LocalQueue where
  addRepeating := addRepeating
  addDelayed := addDelayed
  removeRepeating := removeRepeating
  removeDelayed := removeDelayed
  listRepeating := listRepeating
  listEntries := listEntries
  getEntry := getEntry
  claimDue := claimDue rules
  renewLease := renewLease rules
  recoverStalled := recoverStalled
  finish := finish
  size := size

end LocalQueue

end Timetable
