import Timetable.Keyspace.Basic

/-!
# Commands on a keyspace

A `Command` is atomic: a single operation on one key, or a script of several that nothing else can
come between. A fault can still hit each operation of a script. It ends the script there, and what the script
did before stays done.

`Command.effect` says what a command answers and leaves behind, given the operations that fail.
-/

namespace Timetable

/-- The operations that the server knows by name. -/
inductive Verb where
  | hget
  | hset
  | hsetnx
  | hdel
  | hexists
  | hgetall
  | hkeys
  | hvals
  | hlen
  | zadd
  | zrem
  | zrangebyscore
  /-- The start of a script. -/
  | evalsha
deriving DecidableEq, Repr

namespace Verb

def all : List Verb :=
  [hget, hset, hsetnx, hdel, hexists, hgetall, hkeys, hvals, hlen, zadd, zrem, zrangebyscore, evalsha]

def text : Verb → String
  | hget => "hget"
  | hset => "hset"
  | hsetnx => "hsetnx"
  | hdel => "hdel"
  | hexists => "hexists"
  | hgetall => "hgetall"
  | hkeys => "hkeys"
  | hvals => "hvals"
  | hlen => "hlen"
  | zadd => "zadd"
  | zrem => "zrem"
  | zrangebyscore => "zrangebyscore"
  | evalsha => "evalsha"

end Verb

inductive Command where
  | hget (h : HashKey) (field : String)
  | hset (h : HashKey) (field value : String)
  | hdel (h : HashKey) (field : String)
  | hexists (h : HashKey) (field : String)
  | hgetall (h : HashKey)
  | hkeys (h : HashKey)
  | hvals (h : HashKey)
  | hlen (h : HashKey)
  | zrem (z : SetKey) (member : String)
  /-- At most `limit` members with a score of at most `score`. -/
  | upTo (z : SetKey) (score : Int) (limit : Nat)
  /-- Stores an entry as pending unless its identifier is taken. -/
  | insertIfAbsent (id entry : String) (score : Int)
  /-- Takes out an entry if it is pending. -/
  | removePending (id : String)
  /-- Makes a pending entry a claimed one. -/
  | claim (id claim : String) (expiry : Int)
  /-- Extends the lease of a claim that is still the given one. -/
  | renew (id claim : String) (expiry : Int)
  /-- Takes out a claimed entry if its claim is still the given one. -/
  | release (id claim : String)
  /-- Makes claimed entries whose lease ended by `now` pending again. -/
  | recover (now : Int)
deriving DecidableEq

namespace Command

/-- What a command answers. -/
abbrev Answer : Command → Type
  | hget .. => Option String
  | hset .. => Unit
  | hdel .. => Unit
  | hexists .. => Bool
  | hgetall _ => List (String × String)
  | hkeys _ => List String
  | hvals _ => List String
  | hlen _ => Nat
  | zrem .. => Unit
  | upTo .. => List String
  | insertIfAbsent .. => Unit
  | removePending _ => Bool
  | claim .. => Bool
  | renew .. => Bool
  | release .. => Bool
  | recover _ => Nat

/-! ## Single operations -/

/-- An operation on the server: it fails, or does what it should. -/
abbrev Step (α : Type) := Act Unit Keyspace α

/-- Stops where an operation fails. -/
def guard (fails : Verb → Bool) (v : Verb) : Step Unit := if fails v then throw () else pure ()

section

variable (fails : Verb → Bool)

def hgetStep (h : HashKey) (field : String) : Step (Option String) := do
  guard fails .hget
  return ((← get).hash h).get? field

def hsetStep (h : HashKey) (field value : String) : Step Unit := do
  guard fails .hset
  modify fun s => s.withHash ((s.hash h).set field value) h

/-- Sets a field that is not there; whether it was set. -/
def hsetnxStep (h : HashKey) (field value : String) : Step Bool := do
  guard fails .hsetnx
  let s ← get
  if (s.hash h).contains field then return false
  set (s.withHash ((s.hash h).set field value) h)
  return true

def hdelStep (h : HashKey) (field : String) : Step Unit := do
  guard fails .hdel
  modify fun s => s.withHash ((s.hash h).erase field) h

def hexistsStep (h : HashKey) (field : String) : Step Bool := do
  guard fails .hexists
  return ((← get).hash h).contains field

def zaddStep (z : SetKey) (member : String) (score : Int) : Step Unit := do
  guard fails .zadd
  modify fun s => s.withSet ((s.sortedSet z).set member score) z

/-- Takes out a member; whether it was there. -/
def zremStep (z : SetKey) (member : String) : Step Bool := do
  guard fails .zrem
  let s ← get
  set (s.withSet ((s.sortedSet z).erase member) z)
  return (s.sortedSet z).contains member

def upToStep (z : SetKey) (score : Int) : Step (List String) := do
  guard fails .zrangebyscore
  return ((← get).sortedSet z).upTo score

/-! ## Scripts -/

def insertScript (id entry : String) (score : Int) : Step Unit := do
  guard fails .evalsha
  if ← hsetnxStep fails .entries id entry then zaddStep fails .delayed id score

def removePendingScript (id : String) : Step Bool := do
  guard fails .evalsha
  if ← zremStep fails .delayed id then
    hdelStep fails .entries id
    return true
  else return false

def claimScript (id claim : String) (expiry : Int) : Step Bool := do
  guard fails .evalsha
  if ← zremStep fails .delayed id then
    hsetStep fails .active id claim
    zaddStep fails .leases id expiry
    return true
  else return false

def renewScript (id claim : String) (expiry : Int) : Step Bool := do
  guard fails .evalsha
  if (← hgetStep fails .active id) = some claim then
    zaddStep fails .leases id expiry
    return true
  else return false

def releaseScript (id claim : String) : Step Bool := do
  guard fails .evalsha
  if (← hgetStep fails .active id) = some claim then
    hdelStep fails .active id
    discard (zremStep fails .leases id)
    hdelStep fails .entries id
    return true
  else return false

def recoverEach (now : Int) : List String → Step Unit
  | [] => return
  | id :: ids => do
    discard (zremStep fails .leases id)
    hdelStep fails .active id
    if ← hexistsStep fails .entries id then zaddStep fails .delayed id now
    recoverEach now ids

def recoverScript (now : Int) : Step Nat := do
  guard fails .evalsha
  let ids ← upToStep fails .leases now
  recoverEach fails now ids
  return ids.length

/-! ## Commands -/

/-- What a command does and answers. -/
def effect : (c : Command) → Step c.Answer
  | hget h field => hgetStep fails h field
  | hset h field value => hsetStep fails h field value
  | hdel h field => hdelStep fails h field
  | hexists h field => hexistsStep fails h field
  | hgetall h => do
    guard fails .hgetall
    return ((← get).hash h).pairs
  | hkeys h => do
    guard fails .hkeys
    return ((← get).hash h).keys
  | hvals h => do
    guard fails .hvals
    return ((← get).hash h).values
  | hlen h => do
    guard fails .hlen
    return ((← get).hash h).size
  | zrem z member => discard (zremStep fails z member)
  | upTo z score limit => do return (← upToStep fails z score).take limit
  | insertIfAbsent id entry score => insertScript fails id entry score
  | removePending id => removePendingScript fails id
  | claim id text expiry => claimScript fails id text expiry
  | renew id text expiry => renewScript fails id text expiry
  | release id text => releaseScript fails id text
  | recover now => recoverScript fails now

end

end Command

end Timetable
