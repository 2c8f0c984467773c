import Timetable.Error
import Timetable.Execution.Basic

/-!
# Running functions

The functions of a job are called one after the other, up to the first failure, or all at once. A
run is the list of the calls that were made, in the order in which they were started, each with its
outcome and the milliseconds at which it started and ended.

What answers a call is a parameter: it may answer every place of the list in its own way.
-/

namespace Timetable

/-- What comes of calling a function. -/
structure Reply where
  /-- Milliseconds until it comes. -/
  takes : Nat := 0
  /-- The status code, which may be missing, or no answer at all. -/
  outcome : Except InvocationError (Option Nat)

/-- The result that is kept of a call: which error it was is not. -/
def Reply.result (r : Reply) (functionId : String) : CallResult :=
  match r.outcome with
  | .ok code => .completed functionId code
  | .error _ => .failed functionId

/-- A call that was made. -/
structure TimedCall where
  spec : FunctionSpec
  result : CallResult
  /-- Milliseconds since the start of the run. -/
  started : Nat
  ended : Nat
deriving DecidableEq, Inhabited

def Reply.timed (r : Reply) (spec : FunctionSpec) (started : Nat) : TimedCall :=
  ⟨spec, r.result spec.functionId, started, started + r.takes⟩

structure FunctionRun where
  calls : List TimedCall
deriving DecidableEq, Inhabited

namespace FunctionRun

def results (r : FunctionRun) : List CallResult := r.calls.map (·.result)

/-- Milliseconds until the last call has ended. -/
def takes (r : FunctionRun) : Nat := (r.calls.map (·.ended)).foldl max 0

/-- The calls in the order in which they end. -/
def finished (r : FunctionRun) : List TimedCall :=
  r.calls.mergeSort fun a b => decide (a.ended ≤ b.ended)

end FunctionRun

/-- Calls functions from some place of the list on, until one fails. -/
def callInTurn (reply : Nat → FunctionSpec → Reply) (place started : Nat) :
    List FunctionSpec → List TimedCall
  | [] => []
  | spec :: specs =>
    let call := (reply place spec).timed spec started
    if call.result.isFailure then [call]
    else call :: callInTurn reply (place + 1) call.ended specs

/-- Calls all functions together. The results stand in the order of the functions, whichever call ends first. Nothing
here puts them in that order: it is what is documented of waiting for calls that run side by side. -/
def callAtOnce (reply : Nat → FunctionSpec → Reply) (specs : List FunctionSpec) : List TimedCall :=
  specs.mapIdx fun place spec => (reply place spec).timed spec 0

def runFunctions (reply : Nat → FunctionSpec → Reply) (specs : List FunctionSpec) :
    ExecutionType → FunctionRun
  | .sequential => ⟨callInTurn reply 0 0 specs⟩
  | .parallel => ⟨callAtOnce reply specs⟩

end Timetable
