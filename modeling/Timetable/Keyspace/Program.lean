import Timetable.Error
import Timetable.Keyspace.Command

/-!
# Programs of commands

A client's operation is a `Program`: it sends one command, looks at the answer, and goes on. Between
two commands the programs of other clients may send theirs, and any command may fail, which ends
the program with an error.

* `Program.run` runs a program alone, with faults;
* `Program.step` sends the next command only, for several programs taking turns.
-/

namespace Timetable

inductive Program (α : Type) where
  | done (a : α)
  | fail (e : QueueError)
  | send (c : Command) (next : c.Answer → Program α)

namespace Program

variable {α β : Type}

protected def bind : Program α → (α → Program β) → Program β
  | done a, f => f a
  | fail e, _ => fail e
  | send c next, f => send c fun answer => (next answer).bind f

instance : Monad Program where
  pure := done
  bind := Program.bind

/-- Sends a command. -/
def ask (c : Command) : Program c.Answer := send c done

def ofExcept : Except QueueError α → Program α
  | .ok a => done a
  | .error e => fail e

@[simp] theorem pure_eq (a : α) : (pure a : Program α) = done a := rfl

@[simp] theorem done_bind (a : α) (f : α → Program β) : done a >>= f = f a := rfl

@[simp] theorem fail_bind (e : QueueError) (f : α → Program β) : fail e >>= f = fail e := rfl

@[simp] theorem send_bind (c : Command) (next : c.Answer → Program α) (f : α → Program β) :
    send c next >>= f = send c fun answer => next answer >>= f := rfl

@[simp] theorem ask_bind (c : Command) (f : c.Answer → Program β) : ask c >>= f = send c f := rfl

end Program

/-! ## Running a program -/

/-- What a client sees of a server: its data, and how many commands it sent. -/
structure Link where
  keys : Keyspace := {}
  sent : Nat := 0
deriving DecidableEq, Inhabited

/-- Which operations fail, in which of the commands that are sent, and the server's words. -/
structure CommandFaults where
  fails : Nat → Verb → Bool
  words : String

namespace CommandFaults

def none : CommandFaults := ⟨fun _ _ => false, ""⟩

/-- Every command fails in which one of these operations comes up. -/
def ofVerbs (verbs : List Verb) (words : String) : CommandFaults := ⟨fun _ v => verbs.contains v, words⟩

/-- The `n`-th command fails as a whole. -/
def single (n : Nat) (words : String) : CommandFaults := ⟨fun m _ => m == n, words⟩

def error (f : CommandFaults) : QueueError :=
  .ofFailure (.other ("An error was signalled by the server - ResponseError: " ++ f.words))

end CommandFaults

namespace Program

variable {α : Type}

/-- Runs a program with nothing else going on. -/
def run (faults : CommandFaults) : Program α → Act QueueError Link α
  | done a => pure a
  | fail e => throw e
  | send c next => do
    let link ← get
    let (answer, keys) := (c.effect (faults.fails link.sent)).on link.keys
    set ({ keys, sent := link.sent + 1 } : Link)
    match answer with
    | .ok answer => run faults (next answer)
    | .error () => throw faults.error

/-- The result of a program that has ended. -/
def result? : Program α → Option (Except QueueError α)
  | done a => some (.ok a)
  | fail e => some (.error e)
  | send .. => none

/-- Sends the next command, without faults: what is left of the program and the data. -/
def step : Program α → Keyspace → Program α × Keyspace
  | done a, s => (done a, s)
  | fail e, s => (fail e, s)
  | send c next, s =>
    match (c.effect fun _ => false).on s with
    | (.ok answer, s) => (next answer, s)
    | (.error (), s) => (fail CommandFaults.none.error, s)

end Program

end Timetable
