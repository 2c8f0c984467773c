import Timetable.Job.Basic

/-!
# Jobs in JSON

Members are written in alphabetical order, and read in any. Of a function's payloads each may be
missing, which stands for an empty object.
-/

namespace Timetable

open Json

namespace FunctionSpec

def toJson (f : FunctionSpec) : Json :=
  .obj [("eventPayload", f.event), ("functionId", .str f.functionId),
    ("headersPayload", f.headers), ("paramsPayload", f.params)]

def ofJson? (j : Json) : Option FunctionSpec := do
  let [id, event, headers, params] ←
    record? ["functionId", "eventPayload", "headersPayload", "paramsPayload"] j | none
  some
    { functionId := ← id.required string?
      event := ← event.orElse payload? .empty
      headers := ← headers.orElse payload? .empty
      params := ← params.orElse payload? .empty }

end FunctionSpec

namespace FunctionRequest

def toJson (f : FunctionRequest) : Json :=
  .obj [("eventPayload", f.event.getD .null), ("functionId", .str f.functionId),
    ("headersPayload", f.headers.getD .null), ("paramsPayload", f.params.getD .null)]

def ofJson? (j : Json) : Option FunctionRequest := do
  let [id, event, headers, params] ←
    record? ["functionId", "eventPayload", "headersPayload", "paramsPayload"] j | none
  some
    { functionId := ← id.required string?
      event := ← event.optionalOrElse payload?
      headers := ← headers.optionalOrElse payload?
      params := ← params.optionalOrElse payload? }

end FunctionRequest

namespace Job

def toJson (j : Job) : Json :=
  .obj [("createdAt", ofInstant j.createdAt), ("environmentId", .str j.environment),
    ("executionType", j.executionType.toJson), ("functions", .ofList FunctionSpec.toJson j.functions),
    ("id", ofIdentifier j.id), ("name", .str j.name), ("schedule", j.schedule.toJson),
    ("status", j.status.toJson), ("updatedAt", ofInstant j.updatedAt)]

def ofJson? (j : Json) : Option Job := do
  let [id, environment, name, schedule, functions, executionType, status, createdAt, updatedAt] ←
    record? ["id", "environmentId", "name", "schedule", "functions", "executionType", "status",
      "createdAt", "updatedAt"] j | none
  some
    { id := ← id.required identifier?
      environment := ← environment.required string?
      name := ← name.required string?
      schedule := ← schedule.required Schedule.ofJson?
      functions := ← functions.required (list? FunctionSpec.ofJson?)
      executionType := ← executionType.required ExecutionType.ofJson?
      status := ← status.required JobStatus.ofJson?
      createdAt := ← createdAt.required instant?
      updatedAt := ← updatedAt.required instant? }

end Job

namespace JobChanges

def ofJson? (j : Json) : Option JobChanges := do
  let [name, schedule, functions, executionType, status] ←
    record? ["name", "schedule", "functions", "executionType", "status"] j | none
  some
    { name := ← name.optional string?
      schedule := ← schedule.optional Schedule.ofJson?
      functions := ← functions.optional (list? FunctionSpec.ofJson?)
      executionType := ← executionType.optional ExecutionType.ofJson?
      status := ← status.optional JobStatus.ofJson? }

end JobChanges

namespace CreateJobRequest

def toJson (r : CreateJobRequest) : Json :=
  .obj [("enabled", ofOption .bool r.enabled), ("executionType", r.executionType.toJson),
    ("functions", .ofList FunctionRequest.toJson r.functions), ("name", .str r.name),
    ("schedule", r.schedule.toJson)]

def ofJson? (j : Json) : Option CreateJobRequest := do
  let [name, schedule, functions, executionType, enabled] ←
    record? ["name", "schedule", "functions", "executionType", "enabled"] j | none
  some
    { name := ← name.required string?
      schedule := ← schedule.required Schedule.ofJson?
      functions := ← functions.required (list? FunctionRequest.ofJson?)
      executionType := ← executionType.required ExecutionType.ofJson?
      enabled := ← enabled.optionalOrElse bool? }

end CreateJobRequest

namespace UpdateJobRequest

def toJson (r : UpdateJobRequest) : Json :=
  .obj [("enabled", ofOption .bool r.enabled),
    ("executionType", ofOption ExecutionType.toJson r.executionType),
    ("functions", ofOption (.ofList FunctionRequest.toJson) r.functions),
    ("name", ofOption .str r.name), ("schedule", ofOption Schedule.toJson r.schedule)]

def ofJson? (j : Json) : Option UpdateJobRequest := do
  let [name, schedule, functions, executionType, enabled] ←
    record? ["name", "schedule", "functions", "executionType", "enabled"] j | none
  some
    { name := ← name.optionalOrElse string?
      schedule := ← schedule.optionalOrElse Schedule.ofJson?
      functions := ← functions.optionalOrElse (list? FunctionRequest.ofJson?)
      executionType := ← executionType.optionalOrElse ExecutionType.ofJson?
      enabled := ← enabled.optionalOrElse bool? }

end UpdateJobRequest

namespace JobView

def toJson (v : JobView) : Json :=
  .obj [("environmentId", .str v.environment), ("executionType", v.executionType.toJson),
    ("functions", .ofList FunctionSpec.toJson v.functions), ("id", ofIdentifier v.id),
    ("name", .str v.name), ("nextExecutionAt", ofOption ofInstant v.nextExecutionAt),
    ("schedule", v.schedule.toJson), ("status", v.status.toJson)]

def ofJson? (j : Json) : Option JobView := do
  let [id, name, environment, schedule, functions, executionType, status, nextExecutionAt] ←
    record? ["id", "name", "environmentId", "schedule", "functions", "executionType", "status",
      "nextExecutionAt"] j | none
  some
    { id := ← id.required identifier?
      name := ← name.required string?
      environment := ← environment.required string?
      schedule := ← schedule.required Schedule.ofJson?
      functions := ← functions.required (list? FunctionSpec.ofJson?)
      executionType := ← executionType.required ExecutionType.ofJson?
      status := ← status.required JobStatus.ofJson?
      nextExecutionAt := ← nextExecutionAt.optional instant? }

end JobView

end Timetable
