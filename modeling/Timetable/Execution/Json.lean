import Timetable.Execution.Basic
import Timetable.Job.Json

/-!
# Executions in JSON

A call's code is left out where there is none; every other missing value is written as null.
-/

namespace Timetable

open Json

namespace CallResult

def toJson (r : CallResult) : Json :=
  .obj ([("fatalError", .bool r.fatal), ("functionId", .str r.functionId)] ++
    match r.statusCode with
    | some code => [("statusCode", .ofNat code)]
    | none => [])

def ofJson? (j : Json) : Option CallResult := do
  let [id, code, fatal] ← record? ["functionId", "statusCode", "fatalError"] j | none
  some
    { functionId := ← id.required string?
      statusCode := ← code.optionalOrElse nat16?
      fatal := ← fatal.required bool? }

end CallResult

namespace JobExecution

def toJson (e : JobExecution) : Json :=
  .obj [("createdAt", ofInstant e.createdAt), ("executionType", e.executionType.toJson),
    ("finishedOn", ofOption ofInstant e.finishedOn),
    ("functions", .ofList FunctionSpec.toJson e.functions), ("id", ofIdentifier e.id),
    ("jobId", ofIdentifier e.jobId), ("processedOn", ofOption ofInstant e.processedOn),
    ("results", .ofList CallResult.toJson e.results), ("schedule", e.schedule.toJson),
    ("status", e.status.toJson)]

def ofJson? (j : Json) : Option JobExecution := do
  let [id, jobId, processedOn, finishedOn, results, functions, executionType, status, schedule,
      createdAt] ←
    record? ["id", "jobId", "processedOn", "finishedOn", "results", "functions", "executionType",
      "status", "schedule", "createdAt"] j | none
  some
    { id := ← id.required identifier?
      jobId := ← jobId.required identifier?
      processedOn := ← processedOn.optional instant?
      finishedOn := ← finishedOn.optional instant?
      results := ← results.required (list? CallResult.ofJson?)
      functions := ← functions.required (list? FunctionSpec.ofJson?)
      executionType := ← executionType.required ExecutionType.ofJson?
      status := ← status.required ExecutionStatus.ofJson?
      schedule := ← schedule.required Schedule.ofJson?
      createdAt := ← createdAt.required instant? }

end JobExecution

namespace ExecutionView

def toJson (v : ExecutionView) : Json :=
  .obj [("duration", ofOption .real v.duration), ("finishedOn", ofOption ofInstant v.finishedOn),
    ("functions", .ofList FunctionSpec.toJson v.functions), ("id", ofIdentifier v.id),
    ("jobId", ofIdentifier v.jobId), ("processedOn", ofOption ofInstant v.processedOn),
    ("results", .ofList CallResult.toJson v.results), ("schedule", v.schedule.toJson),
    ("status", v.status.toJson), ("type", v.executionType.toJson)]

def ofJson? (j : Json) : Option ExecutionView := do
  let [id, jobId, processedOn, finishedOn, duration, results, functions, executionType, status,
      schedule] ←
    record? ["id", "jobId", "processedOn", "finishedOn", "duration", "results", "functions", "type",
      "status", "schedule"] j | none
  some
    { id := ← id.required identifier?
      jobId := ← jobId.required identifier?
      processedOn := ← processedOn.optional instant?
      finishedOn := ← finishedOn.optional instant?
      duration := ← duration.optional real?
      results := ← results.required (list? CallResult.ofJson?)
      functions := ← functions.required (list? FunctionSpec.ofJson?)
      executionType := ← executionType.required ExecutionType.ofJson?
      status := ← status.required ExecutionStatus.ofJson?
      schedule := ← schedule.required Schedule.ofJson? }

end ExecutionView

namespace ExecutionFilter

def toJson (f : ExecutionFilter) : Json := .obj [("status", ofOption ExecutionStatus.toJson f.status)]

def ofJson? (j : Json) : Option ExecutionFilter := do
  let [status] ← record? ["status"] j | none
  some { status := ← status.optional ExecutionStatus.ofJson? }

end ExecutionFilter

end Timetable
