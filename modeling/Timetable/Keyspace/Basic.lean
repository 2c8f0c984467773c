import Timetable.Act
import Timetable.Table

/-!
# A shared keyspace

The data of a server that several queues share: hashes, which take fields to texts, and sorted sets,
which take members to scores. `Keyspace` holds the five keys of one queue.

Members of a sorted set are listed by score, then by the order of their texts.
-/

namespace Timetable

abbrev Hash := Table String String

abbrev SortedSet := Table String Int

namespace SortedSet

/-- By score, then by member. -/
def listedBefore (a b : String × Int) : Bool :=
  decide (a.2 < b.2) || (a.2 == b.2 && decide (a.1 ≤ b.1))

/-- The members with a score of at most `score`, in the order of the set. -/
def upTo (s : SortedSet) (score : Int) : List String :=
  ((s.pairs.filter fun p => decide (p.2 ≤ score)).mergeSort listedBefore).map (·.1)

end SortedSet

/-- The hashes of a queue. -/
inductive HashKey where
  /-- Repeat records by field. -/
  | repeats
  /-- Entries by identifier, pending and claimed. -/
  | entries
  /-- Claims by identifier of the entry. -/
  | active
deriving DecidableEq, Repr

namespace HashKey

def text : HashKey → String
  | repeats => "repeat"
  | entries => "entries"
  | active => "active"

def ofText? (s : String) : Option HashKey := [repeats, entries, active].find? (·.text == s)

end HashKey

/-- The sorted sets of a queue. -/
inductive SetKey where
  /-- Pending identifiers by fire time. -/
  | delayed
  /-- Claimed identifiers by the end of their lease. -/
  | leases
deriving DecidableEq, Repr

structure Keyspace where
  repeats : Hash := .empty
  entries : Hash := .empty
  active : Hash := .empty
  delayed : SortedSet := .empty
  leases : SortedSet := .empty
deriving DecidableEq, Inhabited

namespace Keyspace

def hash (s : Keyspace) : HashKey → Hash
  | .repeats => s.repeats
  | .entries => s.entries
  | .active => s.active

def withHash (s : Keyspace) (h : Hash) : HashKey → Keyspace
  | .repeats => { s with repeats := h }
  | .entries => { s with entries := h }
  | .active => { s with active := h }

def sortedSet (s : Keyspace) : SetKey → SortedSet
  | .delayed => s.delayed
  | .leases => s.leases

def withSet (s : Keyspace) (z : SortedSet) : SetKey → Keyspace
  | .delayed => { s with delayed := z }
  | .leases => { s with leases := z }

/-- Puts a text into a field of a hash, or takes the field out, past the queue. -/
def overwrite (s : Keyspace) (h : HashKey) (field : String) : Option String → Keyspace
  | some value => s.withHash ((s.hash h).set field value) h
  | none => s.withHash ((s.hash h).erase field) h

end Keyspace

end Timetable
