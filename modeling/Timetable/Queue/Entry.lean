import Timetable.Schedule.Repeat

/-!
# Queue entries

An entry is one piece of work under a key, due at its fire time. An entry that repeats is the
*instance* of a repeat record for one fire; the record remembers the next one. When an instance is
claimed its record moves on before the work is done.

The identifiers of entries and the fields of records are made of key, specification and fire time, so
adding the same thing twice adds it once.
-/

namespace Timetable

open Text

/-- What to do with a fire while another entry of its key is at work. -/
inductive OverlapPolicy where
  | skip
  | allow
deriving DecidableEq, Repr, Inhabited

inductive EntryState where
  /-- Due and not claimed. -/
  | waiting
  /-- Not yet due. -/
  | delayed
  /-- Claimed. -/
  | active
deriving DecidableEq, Repr, Inhabited

def EntryState.all : List EntryState := [waiting, delayed, active]

/-- Whether an entry that nobody claimed is due. -/
def pendingState (fireAt now : Instant) : EntryState := if fireAt ≤ now then .waiting else .delayed

/-! ## Identifiers -/

def instanceId (key : String) (spec : RepeatSpec) (fireAt : Instant) : String :=
  key ++ ":" ++ spec.id ++ ":" ++ intText fireAt.millis

def singleId (key : String) : String := key ++ ":once"

def repeatField (key : String) (spec : RepeatSpec) : String := key ++ "::" ++ spec.id

/-! ## Entries -/

structure StoredEntry where
  id : String
  key : String
  repeats : Option RepeatSpec
  payload : Json
  fireAt : Instant
  /-- When it was last claimed. -/
  processedOn : Option Instant
deriving DecidableEq, Inhabited

namespace StoredEntry

/-- The entry for one fire of a specification. -/
def ofFire (key : String) (spec : RepeatSpec) (fireAt : Instant) (payload : Json) : StoredEntry :=
  ⟨instanceId key spec fireAt, key, some spec, payload, fireAt, none⟩

/-- The one entry of a key that does not repeat. -/
def single (key : String) (fireAt : Instant) (payload : Json) : StoredEntry :=
  ⟨singleId key, key, none, payload, fireAt, none⟩

end StoredEntry

/-- An entry with its state at some instant. -/
structure QueueEntry where
  entry : StoredEntry
  state : EntryState
deriving DecidableEq, Inhabited

/-! ## Repeat records -/

structure RepeatRecord where
  key : String
  spec : RepeatSpec
  payload : Json
  /-- The fire that is queued and was never claimed. -/
  next : Option Instant
deriving DecidableEq, Inhabited

namespace RepeatRecord

def field (r : RepeatRecord) : String := repeatField r.key r.spec

/-- The entry for the next fire. -/
def currentInstance (r : RepeatRecord) : Option StoredEntry :=
  r.next.map fun fireAt => .ofFire r.key r.spec fireAt r.payload

/-- The record moved on to the first fire after an instant. -/
def advance (r : RepeatRecord) (now : Instant) : Except QueueError RepeatRecord :=
  match r.spec.nextAfter now with
  | .ok next => .ok { r with next }
  | .error .outOfRange => .error .outOfRange
  | .error e => .error (.invalidRepeat e.message)

def create (key : String) (spec : RepeatSpec) (payload : Json) (now : Instant) :
    Except QueueError RepeatRecord :=
  advance ⟨key, spec, payload, none⟩ now

/-- Whether an entry is the fire that the record waits for. -/
def isCurrent (r : RepeatRecord) (e : StoredEntry) : Bool := r.next == some e.fireAt

end RepeatRecord

/-- A fire that was claimed before, came back, and is no longer the one its record waits for. -/
def isSuperseded (record : Option RepeatRecord) (e : StoredEntry) : Bool :=
  e.repeats.isSome && e.processedOn.isSome && !record.any (·.isCurrent e)

end Timetable
