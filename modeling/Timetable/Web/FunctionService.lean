import Timetable.Engine.Basic
import Timetable.Error
import Timetable.Execution.Run
import Timetable.Json.Printer
import Timetable.Json.Reader
import Timetable.Json.Record
import Timetable.Web.Exchange
import Timetable.Web.Url

/-!
# Functions on a web server

A function is called by posting its payloads to `functions/<id>/execute` below the base URL of the
service, and exists if `functions/<id>` does. Its identifier is one segment of the path.

The status in the body of an answer counts; where the whole body does not read as one, the status of
the answer does.
-/

namespace Timetable.Web

/-- The base URL of a service. -/
def baseUrl (text : String) : Except InvocationError Url :=
  match Location.ofText text with
  | .ok (.url u) => .ok u
  | .ok (.opaqueUrl u) => .error (.invalidBaseUrl u.text)
  | .error e => .error (.invalidBaseUrl e.message)

/-- Identifiers that would not be a segment of their own. -/
def isUnaddressable (id : String) : Bool := ["", ".", ".."].contains id

/-- The path of a function below a base path, with what follows it. -/
def functionPath (special : Bool) (base : Path) (id : String) (trailing : List String) : Path :=
  base.trimEnd.pushAll special ("functions" :: id :: trailing)

def functionUrl (base : Url) (id : String) (trailing : List String) :
    Except InvocationError Url :=
  if isUnaddressable id then .error (.invalidFunctionId id)
  else .ok { base with path := functionPath (isSpecial base.scheme) base.path id trailing }

variable {ω : Type}

/-- The answer to a request about a function. What is no end of the exchange is no answer. -/
def exchange (server : Server ω) (r : Request) (id : String) : Act InvocationError ω Response :=
  .of fun s =>
    let (response, s) := server r s
    match response.filter (isFinal ·.status) with
    | some response => (.ok response, s)
    | none => (.error (.callFailed id none), s)

/-! ## Calling -/

def payloadJson (spec : FunctionSpec) : Json :=
  .obj [("eventPayload", spec.event), ("headersPayload", spec.headers),
    ("paramsPayload", spec.params)]

/-- A value read back from its text. A fraction may come back as one of its neighbours. -/
def readBack (j : Json) : Json := (Json.ofText? j.text).getD j

/-- A call as the service gets it, if it does: its identifier as it stands in the path, and payloads from
text. -/
def received? (spec : FunctionSpec) : Option FunctionSpec :=
  if isUnaddressable spec.functionId then none
  else
    some
      { functionId := String.ofList (spec.functionId.toList.filter fun c => !isTabOrNewline c)
        event := readBack spec.event
        headers := readBack spec.headers
        params := readBack spec.params }

/-- The status that a body reports, if the whole body reads as a report that has one. -/
def reportedStatus? (body : String) : Option Nat := do
  let [status] ← Json.record? ["statusCode"] (← Json.outline? body) | none
  (← status.optional Json.nat16?)

/-- The body as far as it is there to be read. -/
def Response.readableBody (r : Response) : String := if isBodiless r.status then "" else r.body

/-- Calls a function; the status code that it answered. -/
def invoke (server : Server ω) (base : Url) (spec : FunctionSpec) : Act InvocationError ω Nat := do
  let url ← .ofExcept (functionUrl base spec.functionId ["execute"])
  let response ← exchange server ⟨.post, url.target, some (payloadJson spec).text⟩ spec.functionId
  if response.isCut ∧ !isBodiless response.status then
    throw (.invalidResponse spec.functionId "error decoding response body")
  return (reportedStatus? response.readableBody).getD response.status

/-- The result that is kept of a call. -/
def call (server : Server ω) (base : Url) (spec : FunctionSpec) : Act InvocationError ω CallResult := do
  match ← (invoke server base spec).attempt with
  | .ok status => return .completed spec.functionId (some status)
  | .error _ => return .failed spec.functionId

/-! ## Looking functions up -/

/-- Whether a function is missing. -/
def isMissing (server : Server ω) (base : Url) (id : String) : Act InvocationError ω Bool := do
  match functionUrl base id [] with
  | .error (.invalidFunctionId _) => return true
  | .error e => throw e
  | .ok url =>
    let response ← exchange server ⟨.head, url.target, none⟩ id
    if response.status = 404 then return true
    if isSuccess response.status then return false
    throw (.invalidResponse id ("unexpected status " ++ statusText response.status))

/-- Those of some functions that are missing, asked for one after the other. -/
def missingFunctions (server : Server ω) (base : Url) :
    List String → Act InvocationError ω (List String)
  | [] => return []
  | id :: ids => do
    let missing ← isMissing server base id
    let rest ← missingFunctions server base ids
    return if missing then id :: rest else rest

/-- Whether a request below a URL gets to a server. -/
def Url.leadsTo (base : Url) (place : Endpoint) : Bool :=
  let port := (base.port <|> defaultPort? base.scheme).getD 0
  base.scheme == "http" && base.host.any fun host => decide (Endpoint.mk host.resolved port = place)

/-- The service as what calls the functions of an engine. -/
def invoker (answer : Request → Option Response) (base : Url) : Invoker where
  missing ids := ((missingFunctions (.ofFunction answer) base ids).on ()).1
  reply _ spec := { outcome := ((invoke (.ofFunction answer) base spec).on ()).1.map some }

end Timetable.Web
