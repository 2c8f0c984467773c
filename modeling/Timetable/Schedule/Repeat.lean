import Timetable.Cron.Search
import Timetable.Error
import Timetable.Schedule.Basic

/-!
# Repetition

When a repeating entry fires next: at the multiples of a number of milliseconds, counted from
the start of 1970, or at the occurrences of a cron expression.
-/

namespace Timetable

open Text

/-! ## Cron expressions as they are given -/

/-- An expression without blanks around it; five words get a zero for the second in front. -/
def normalizeExpression (expression : String) : String :=
  let cs := trim expression.toList
  String.ofList (if (words cs).length = 5 then '0' :: ' ' :: cs else cs)

def parseExpression (expression : String) : Except ScheduleError Cron.Pattern :=
  match Cron.Pattern.ofChars? (normalizeExpression expression).toList with
  | some pattern => .ok pattern
  | none =>
    .error (.invalidExpression expression "Invalid expression: Invalid cron expression.")

/-- The next `count` occurrences of an expression after an instant. -/
def nextOccurrences (expression : String) (after : Instant) (count : Nat) :
    Except ScheduleError (List Instant) := do
  let pattern ← parseExpression expression
  pattern.occurrences count after

/-! ## Repeat specifications -/

inductive RepeatSpec where
  | every (millis : Nat)
  | cron (expression : String)
deriving DecidableEq, Inhabited

namespace RepeatSpec

/-- The part of queue ids that stands for the specification. -/
def id : RepeatSpec → String
  | every millis => "every:" ++ natText millis
  | cron expression => "cron:" ++ expression

/-- The multiple of `every` next after a number of milliseconds. -/
def nextMultiple (every ms : Int) : Int := (ms / every + 1) * every

/-- The fire at a multiple next after an instant, as long as a word can hold it; none beyond the end of the
calendar. -/
def nextFire (every : Int) (after : Instant) : Except ScheduleError (Option Instant) :=
  let ms := nextMultiple every after.millis
  if FitsWord ms then .ok (Instant.ofMillis? ms) else .error .outOfRange

/-- The next fire after an instant; none beyond the end of the calendar. -/
def nextAfter (spec : RepeatSpec) (after : Instant) : Except ScheduleError (Option Instant) :=
  match spec with
  | every 0 => .error (.noNextExecution ScheduleType.interval.text)
  | every millis => nextFire (signedWord millis) after
  | cron expression => (nextOccurrences expression after 1).map List.head?

def toJson : RepeatSpec → Json
  | every millis => .obj [("kind", .str "every"), ("millis", .ofNat millis)]
  | cron expression => .obj [("expression", .str expression), ("kind", .str "cron")]

/-- The specification of a kind from the rest of its record; milliseconds fit 64 bits. -/
def ofKind? (rest : Json) : String → Option RepeatSpec
  | "every" => do
    let [millis] ← Json.record? ["millis"] rest | none
    some (every (← millis.required Json.nat64?))
  | "cron" => do
    let [expression] ← Json.record? ["expression"] rest | none
    some (cron (← expression.required Json.string?))
  | _ => none

/-- The specification of a record, all of which has to be read: the kind may come last. -/
def ofJson? (j : Json) : Option RepeatSpec :=
  if !j.isWhole then none
  else
    match j with
    | .obj members => do
      let [kind] ← Json.record? ["kind"] (.obj members) | none
      ofKind? (.obj members) (← kind.required Json.string?)
    | .arr (.str kind :: rest) => ofKind? (.arr rest) kind
    | _ => none

end RepeatSpec

example : RepeatSpec.nextMultiple 7 (-13) = -7 := by decide
example : RepeatSpec.nextMultiple (signedWord 18446744073709551615) 0 = -1 := by decide
example : normalizeExpression " 0 * * * *\n" = "0 0 * * * *" := by decide +kernel

end Timetable
