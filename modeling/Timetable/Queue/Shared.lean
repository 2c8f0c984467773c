import Timetable.Json.Printer
import Timetable.Json.Reader
import Timetable.Keyspace.Program
import Timetable.Queue.Interface
import Timetable.Queue.Json

/-!
# The queue in a shared keyspace

Every operation is a program of commands, so that it can be cut short by a fault and mixed with the
programs of other clients after any command. Entries, records and claims are stored as JSON text;
times as scores are milliseconds, rounded toward the past.

A claim is known by its text, which holds the key and the millisecond of the claim. Whoever holds another
text for an entry neither renews nor releases its claim.
-/

namespace Timetable

/-! ## Stored texts -/

/-- What the hash of active entries holds: one particular claim of an entry. -/
structure ActiveClaim where
  key : String
  /-- Milliseconds since 1970. -/
  claimedAt : Int
deriving DecidableEq, Inhabited

namespace ActiveClaim

def toJson (c : ActiveClaim) : Json := .obj [("key", .str c.key), ("claimed_at", .int c.claimedAt)]

def ofJson? (j : Json) : Option ActiveClaim := do
  let [key, claimedAt] ← Json.record? ["key", "claimed_at"] j | none
  some
    { key := ← key.required Json.string?
      claimedAt := ← claimedAt.required Json.int64? }

def text (c : ActiveClaim) : String := c.toJson.text

/-- The claim with which an entry was handed out. -/
def ofEntry? (e : StoredEntry) : Option ActiveClaim :=
  e.processedOn.map fun at_ => ⟨e.key, at_.millis⟩

end ActiveClaim

namespace SharedQueue

/-- Reads a stored text. -/
def decode {α : Type} (ofJson? : Json → Option α) (text : String) : Except QueueError α :=
  match Json.outline? text >>= ofJson? with
  | some a => .ok a
  | none => .error (.unreadable none)

def decodeEntry : String → Except QueueError StoredEntry := decode StoredEntry.ofJson?

def decodeRecord : String → Except QueueError RepeatRecord := decode RepeatRecord.ofJson?

def decodeClaim : String → Except QueueError ActiveClaim := decode ActiveClaim.ofJson?

def entryText (e : StoredEntry) : String := e.toJson.text

def recordText (r : RepeatRecord) : String := r.toJson.text

/-! ## Parts of operations -/

open Program (ask)

def insertIfAbsent (e : StoredEntry) : Program Unit :=
  ask (.insertIfAbsent e.id (entryText e) e.fireAt.millis)

def insertCurrent (r : RepeatRecord) : Program Unit :=
  match r.currentInstance with
  | some e => insertIfAbsent e
  | none => pure ()

def loadRecord (field : String) : Program (Option RepeatRecord) := do
  match ← ask (.hget .repeats field) with
  | some text => return some (← .ofExcept (decodeRecord text))
  | none => return none

def saveRecord (r : RepeatRecord) : Program Unit := ask (.hset .repeats r.field (recordText r))

def saveEntry (id : String) (e : StoredEntry) : Program Unit := ask (.hset .entries id (entryText e))

/-- The score of the end of a lease that starts now. -/
def leaseExpiry (rules : ClaimRules) (now : Instant) : Except QueueError Int :=
  match now.add? rules.lease with
  | some expiry => .ok expiry.millis
  | none => .error .outOfRange

/-- Whether one of some claims is of another entry with the same key. -/
def otherClaim (e : StoredEntry) : List (String × String) → Except QueueError Bool
  | [] => .ok false
  | (id, text) :: rest =>
    if id = e.id then otherClaim e rest
    else do
      let claim ← decodeClaim text
      if claim.key = e.key then return true
      otherClaim e rest

def keyIsActive (e : StoredEntry) : Program Bool := do
  .ofExcept (otherClaim e (← ask (.hgetall .active)))

def stateOf (active : Bool) (now : Instant) (e : StoredEntry) : EntryState :=
  if active then .active else pendingState e.fireAt now

/-! ## Adding and removing -/

def addRepeating (now : Instant) (key : String) (spec : RepeatSpec) (payload : Json) :
    Program Unit := do
  let r ← match ← loadRecord (repeatField key spec) with
    | some old => pure { old with payload }
    | none => .ofExcept (RepeatRecord.create key spec payload now)
  saveRecord r
  insertCurrent r

def addDelayed (now : Instant) (key : String) (delayMillis : Nat) (payload : Json) :
    Program Unit :=
  match now.addMillis? (signedWord delayMillis) with
  | some fireAt => insertIfAbsent (.single key fireAt payload)
  | none => .fail .outOfRange

def removeRepeating (key : String) (spec : RepeatSpec) : Program Bool := do
  match ← loadRecord (repeatField key spec) with
  | none => return false
  | some r =>
    ask (.hdel .repeats (repeatField key spec))
    match r.currentInstance with
    | some e => discard (ask (.removePending e.id))
    | none => pure ()
    return true

def removeDelayed (key : String) : Program Bool := ask (.removePending (singleId key))

/-! ## Reading -/

def listRepeating : Program (List RepeatRecord) := do
  .ofExcept ((← ask (.hvals .repeats)).mapM decodeRecord)

def listEntries (now : Instant) (states : List EntryState) : Program (List QueueEntry) := do
  let stored ← ask (.hgetall .entries)
  let active ← ask (.hkeys .active)
  let entries ← .ofExcept (stored.mapM fun p => decodeEntry p.2)
  return (entries.map fun e => ⟨e, stateOf (active.contains e.id) now e⟩).filter fun e =>
    states.contains e.state

def getEntry (now : Instant) (key : String) : Program (Option QueueEntry) := do
  match ← ask (.hget .entries (singleId key)) with
  | none => return none
  | some text =>
    let e ← .ofExcept (decodeEntry text)
    let active ← ask (.hexists .active (singleId key))
    return some ⟨e, stateOf active now e⟩

def size : Program Nat := ask (.hlen .entries)

/-! ## Claims -/

def recoverStalled (now : Instant) : Program Nat := ask (.recover now.millis)

def release (id : String) (claim : ActiveClaim) : Program Bool := ask (.release id claim.text)

/-- Moves a record past a fire that is claimed, if that is the one it waits for. -/
def advanceChain (now : Instant) (record : Option RepeatRecord) (e : StoredEntry) : Program Unit :=
  match record with
  | some r =>
    if r.isCurrent e then do
      let next ← .ofExcept (r.advance now)
      saveRecord next
      insertCurrent next
    else pure ()
  | none => pure ()

/-- What follows once the claim of an entry is won: it is handed out, or dropped again. The entry is
stored as claimed before its record moves on. -/
def handOut (rules : ClaimRules) (now : Instant) (id : String) (stored : StoredEntry)
    (claim : ActiveClaim) : Program (Option StoredEntry) := do
  let e := { stored with processedOn := some now }
  match e.repeats with
  | none =>
    saveEntry id e
    return some e
  | some spec =>
    let record ← loadRecord (repeatField e.key spec)
    if isSuperseded record stored then
      discard (release id claim)
      return none
    saveEntry id e
    advanceChain now record e
    if rules.overlap = .skip then
      if ← keyIsActive e then
        discard (release id claim)
        return none
    return some e

/-- Claims one identifier that was due; it may have been taken or dropped in the meantime. -/
def claimId (rules : ClaimRules) (now : Instant) (id : String) : Program (Option StoredEntry) := do
  match ← ask (.hget .entries id) with
  | none =>
    ask (.zrem .delayed id)
    return none
  | some text =>
    let stored ← .ofExcept (decodeEntry text)
    let claim : ActiveClaim := ⟨stored.key, now.millis⟩
    let expiry ← .ofExcept (leaseExpiry rules now)
    if ← ask (.claim id claim.text expiry) then handOut rules now id stored claim
    else return none

def claimEach (rules : ClaimRules) (now : Instant) : List String → Program (List StoredEntry)
  | [] => return []
  | id :: ids => do
    match ← claimId rules now id with
    | some e => return e :: (← claimEach rules now ids)
    | none => claimEach rules now ids

def claimDue (rules : ClaimRules) (now : Instant) (limit : Nat) : Program (List StoredEntry) := do
  discard (recoverStalled now)
  claimEach rules now (← ask (.upTo .delayed now.millis limit))

def renewLease (rules : ClaimRules) (e : StoredEntry) (now : Instant) : Program Bool :=
  match ActiveClaim.ofEntry? e with
  | none => return false
  | some claim => do
    let expiry ← .ofExcept (leaseExpiry rules now)
    ask (.renew e.id claim.text expiry)

def finish (e : StoredEntry) : Program Unit :=
  match ActiveClaim.ofEntry? e with
  | none => return
  | some claim => discard (release e.id claim)

/-- The queue in a shared keyspace as a work queue, behind a link with faults. -/
def workQueue (rules : ClaimRules) (faults : CommandFaults) : WorkQueue Link where
  addRepeating now key spec payload := (addRepeating now key spec payload).run faults
  addDelayed now key delay payload := (addDelayed now key delay payload).run faults
  removeRepeating key spec := (removeRepeating key spec).run faults
  removeDelayed key := (removeDelayed key).run faults
  listRepeating := listRepeating.run faults
  listEntries now states := (listEntries now states).run faults
  getEntry now key := (getEntry now key).run faults
  claimDue now limit := (claimDue rules now limit).run faults
  renewLease e now := (renewLease rules e now).run faults
  recoverStalled now := (recoverStalled now).run faults
  finish e := (finish e).run faults
  size := size.run faults

end SharedQueue

end Timetable
