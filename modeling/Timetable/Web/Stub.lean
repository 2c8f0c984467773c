import Timetable.Json.Printer
import Timetable.Table
import Timetable.Web.FunctionService

/-!
# Stand-ins for functions

Functions that only answer as they are told, to try schedules out: `Stubs.invoker` answers in
place, after a delay, and `Stubs.answer` plays the web server that has them. A function that nothing
is told about answers 200 at once.
-/

namespace Timetable

open Json

structure Stub where
  /-- The status code that it reports, if it reports one. -/
  status : Option Nat := some 200
  /-- Calls end without an answer. -/
  fatal : Bool := false
  missing : Bool := false
  delayMillis : Nat := 0
deriving DecidableEq, Inhabited

/-- A stand-in from its record; a status of null reports none. -/
def Stub.ofJson? (j : Json) : Option Stub := do
  let [status, fatal, absent, delay] ← record? ["status", "fatal", "missing", "delay_ms"] j | none
  let status ← match status with
    | .missing => some (some 200)
    | slot => slot.optional nat16?
  some
    { status
      fatal := (← fatal.optional bool?).getD false
      missing := (← absent.optional bool?).getD false
      delayMillis := (← delay.optional nat64?).getD 0 }

structure Stubs where
  functions : Table String Stub := .empty
  /-- Looking functions up fails. -/
  lookupFails : Bool := false
deriving DecidableEq, Inhabited

namespace Stubs

def get (s : Stubs) (id : String) : Stub := (s.functions.get? id).getD {}

/-- With the stand-ins of an object, by identifier, in the place of those there were. -/
def withAll? (s : Stubs) : Json → Option Stubs
  | .obj members => do
    let functions ← members.foldlM (fun t p => do some (t.set p.1 (← Stub.ofJson? p.2))) s.functions
    some { s with functions }
  | .null => some s
  | _ => none

/-- The reason of every failure. -/
def injected : String := "injected"

def invoker (s : Stubs) : Invoker where
  missing ids :=
    if s.lookupFails then .error (.callFailed (",".intercalate ids) (some injected))
    else .ok (ids.filter fun id => (s.get id).missing)
  reply _ spec :=
    let f := s.get spec.functionId
    { takes := f.delayMillis
      outcome := if f.fatal then .error (.callFailed spec.functionId (some injected)) else .ok f.status }

/-! ## On a web server -/

open Web

/-- The identifier in a segment of a path. -/
def idOf (segment : List Char) : String :=
  (percentText? segment).getD ""

/-- The segments of a target, the last one first. -/
def segments (target : String) : List (List Char) :=
  (Text.splitAtAll (· == '/') (target.toList.takeWhile (· != '?'))).reverse

def lookupStatus (s : Stubs) (id : String) : Nat :=
  if s.lookupFails then 500 else if (s.get id).missing then 404 else 200

/-- The report of a call in the body of its answer. -/
def report (f : Stub) : String := (Json.obj [("statusCode", ofOption .ofNat f.status)]).text

def answer (s : Stubs) (r : Request) : Option Response :=
  match r.method, segments r.target with
  | .head, id :: _ => some ⟨s.lookupStatus (idOf id), "", false⟩
  | .post, _ :: id :: _ =>
    let f := s.get (idOf id)
    if f.fatal then none else some ⟨200, report f, false⟩
  | _, _ => none

end Stubs

end Timetable
