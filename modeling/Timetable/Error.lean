import Timetable.Text.Digits

/-!
# Errors

What can go wrong, by cause, and the one wording of each cause. An error of a part becomes an
`EngineError` unchanged; `EngineError.isClientError` tells the caller's mistakes from failures
behind the engine.
-/

namespace Timetable

/-! ## Causes -/

inductive ScheduleError where
  | invalidExpression (expression reason : String)
  | tooShort (minimum : Nat)
  | tooLong (maximum : Nat)
  | dateInPast
  /-- A schedule of this type has no further occurrence. -/
  | noNextExecution (scheduleType : String)
  /-- What comes up on the way to the next occurrence lies outside the calendar or its counts. -/
  | outOfRange
deriving DecidableEq, Repr

inductive ValidationError where
  | missingField (field : String)
  | invalidField (field reason : String)
  | functionsNotFound (ids : String)
  | schedule (e : ScheduleError)
deriving DecidableEq, Repr

inductive InvocationError where
  | clientBuild (reason : String)
  | invalidBaseUrl (reason : String)
  | invalidFunctionId (id : String)
  /-- No answer came. The reason is unknown where only the network could tell it. -/
  | callFailed (functionId : String) (reason : Option String)
  | invalidResponse (functionId reason : String)
deriving DecidableEq, Repr

inductive StoreError where
  | connectionFailed (reason : String)
  | healthCheckFailed (reason : String)
  | queryFailed (reason : String)
  | transactionFailed (reason : String)
  | notFound (what : String)
  /-- A stored row does not read as a value of the domain. -/
  | corruptRow (table reason : String)
  | migrationFailed (reason : String)
deriving DecidableEq, Repr

inductive QueueError where
  | connection (reason : String)
  | command (reason : String)
  | unwritable (reason : String)
  /-- A stored text does not read as what it should be. -/
  | unreadable (reason : Option String)
  | healthCheck (reason : String)
  | invalidRepeat (reason : String)
  /-- The calendar does not reach an instant that was asked for. -/
  | outOfRange
deriving DecidableEq, Repr

inductive EngineError where
  | validation (e : ValidationError)
  | jobNotFound (id : String)
  | executionNotFound (id : String)
  | store (e : StoreError)
  | queue (e : QueueError)
  | invocation (e : InvocationError)
deriving DecidableEq, Repr

/-! ## Wording -/

/-- Reads a word of some kind, or says what is wrong with it. -/
def parseWord {α : Type} (kind : String) (read : String → Option α) (text : String) :
    Except String α :=
  match read text with
  | some a => .ok a
  | none => .error ("Invalid " ++ kind ++ ": " ++ text)

/-- A reason behind a colon, where there is one. -/
def withReason (what : String) : Option String → String
  | some reason => what ++ ": " ++ reason
  | none => what

def ScheduleError.message : ScheduleError → String
  | invalidExpression expression reason => s!"Invalid cron expression '{expression}': {reason}"
  | tooShort minimum =>
    "Execution interval must be at least " ++ Text.natText minimum ++ " minutes"
  | tooLong maximum =>
    "Execution interval must be at most " ++ Text.natText maximum ++ " minutes"
  | dateInPast => "Job will not be executed since the given date is in the past"
  | noNextExecution scheduleType =>
    s!"No next execution time available for {scheduleType} schedule"
  | outOfRange => "Instant out of range"

def ValidationError.message : ValidationError → String
  | missingField field => s!"Missing required field: {field}"
  | invalidField field reason => s!"Invalid field value for {field}: {reason}"
  | functionsNotFound ids => s!"Functions with ids {ids} not found"
  | schedule e => e.message

def InvocationError.message : InvocationError → String
  | clientBuild reason => s!"Failed to create HTTP client: {reason}"
  | invalidBaseUrl reason => s!"Invalid function service URL: {reason}"
  | invalidFunctionId id => s!"Function id '{id}' cannot be addressed"
  | callFailed functionId reason => withReason s!"Function call to {functionId} failed" reason
  | invalidResponse functionId reason =>
    s!"Unexpected response for function {functionId}: {reason}"

def StoreError.message : StoreError → String
  | connectionFailed reason => s!"Database connection failed: {reason}"
  | healthCheckFailed reason => s!"Database health check failed: {reason}"
  | queryFailed reason => s!"Query execution failed: {reason}"
  | transactionFailed reason => s!"Transaction failed: {reason}"
  | notFound what => s!"Record not found: {what}"
  | corruptRow table reason => s!"Corrupt row in {table}: {reason}"
  | migrationFailed reason => s!"Migration failed: {reason}"

def QueueError.message : QueueError → String
  | connection reason => s!"Failed to connect to queue: {reason}"
  | command reason => s!"Queue command failed: {reason}"
  | unwritable reason => s!"Message serialization failed: {reason}"
  | unreadable reason => withReason "Message deserialization failed" reason
  | healthCheck reason => s!"Health check failed: {reason}"
  | invalidRepeat reason => s!"Invalid repeat specification: {reason}"
  | outOfRange => "Instant out of range"

def EngineError.message : EngineError → String
  | validation e => e.message
  | jobNotFound id => s!"Job not found: {id}"
  | executionNotFound id => s!"Execution not found: {id}"
  | store e => e.message
  | queue e => e.message
  | invocation e => e.message

/-- Whether the caller asked for something impossible. -/
def EngineError.isClientError : EngineError → Bool
  | validation _ | jobNotFound _ | executionNotFound _ => true
  | store _ | queue _ | invocation _ => false

/-- Whether an instant came up that the calendar does not reach. Such an error breaks everything off: nothing
catches it, and nothing is undone after it. -/
def EngineError.isOutOfRange : EngineError → Bool
  | validation (.schedule .outOfRange) | queue .outOfRange => true
  | _ => false

/-! ## Names

The name of a cause, without its particulars: what a caller tells errors apart by. -/

def ScheduleError.name : ScheduleError → String
  | invalidExpression .. => "InvalidCronExpression"
  | tooShort _ => "IntervalTooShort"
  | tooLong _ => "IntervalTooLong"
  | dateInPast => "DateInPast"
  | noNextExecution _ => "NoNextExecution"
  | outOfRange => "OutOfRange"

def ValidationError.name : ValidationError → String
  | missingField _ => "MissingField"
  | invalidField .. => "InvalidFieldValue"
  | functionsNotFound _ => "FunctionsNotFound"
  | schedule e => e.name

def InvocationError.name : InvocationError → String
  | clientBuild _ => "ClientBuild"
  | invalidBaseUrl _ => "InvalidBaseUrl"
  | invalidFunctionId _ => "InvalidFunctionId"
  | callFailed .. => "CallFailed"
  | invalidResponse .. => "InvalidResponse"

def StoreError.name : StoreError → String
  | connectionFailed _ => "ConnectionFailed"
  | healthCheckFailed _ => "HealthCheckFailed"
  | queryFailed _ => "QueryFailed"
  | transactionFailed _ => "TransactionFailed"
  | notFound _ => "NotFound"
  | corruptRow .. => "CorruptRow"
  | migrationFailed _ => "MigrationFailed"

def QueueError.name : QueueError → String
  | connection _ => "Connection"
  | command _ => "Command"
  | unwritable _ => "SerializationFailed"
  | unreadable _ => "DeserializationFailed"
  | healthCheck _ => "HealthCheck"
  | invalidRepeat _ => "InvalidRepeat"
  | outOfRange => "OutOfRange"

def EngineError.name : EngineError → String
  | validation e => e.name
  | jobNotFound _ => "JobNotFound"
  | executionNotFound _ => "ExecutionNotFound"
  | store e => e.name
  | queue e => e.name
  | invocation e => e.name

instance : Coe ScheduleError EngineError := ⟨fun e => .validation (.schedule e)⟩
instance : Coe ValidationError EngineError := ⟨.validation⟩
instance : Coe StoreError EngineError := ⟨.store⟩
instance : Coe QueueError EngineError := ⟨.queue⟩
instance : Coe InvocationError EngineError := ⟨.invocation⟩

/-! ## Failures of the services behind the store and the queue -/

/-- How a statement on the database can fail. -/
inductive DatabaseFailure where
  | rowMissing
  | poolTimedOut
  | poolClosed
  | columnMissing (name : String)
  | protocol (reason : String)
  /-- The server refused the statement. -/
  | reported (reason : String)
deriving DecidableEq, Repr

def DatabaseFailure.text : DatabaseFailure → String
  | rowMissing => "no rows returned by a query that expected to return at least one row"
  | poolTimedOut => "pool timed out while waiting for an open connection"
  | poolClosed => "attempted to acquire a connection on a closed pool"
  | columnMissing name => s!"no column found for name: {name}"
  | protocol reason => s!"encountered unexpected or invalid data: {reason}"
  | reported reason => s!"error returned from database: {reason}"

/-- A failed statement: the server's own words if it refused, else the failure's text. -/
def StoreError.ofFailure : DatabaseFailure → StoreError
  | .rowMissing => .notFound "Record not found"
  | .reported reason => .queryFailed reason
  | failure => .queryFailed failure.text

/-- How a command to the queue's server can fail. -/
inductive CommandFailure where
  /-- The connection was refused, broken or closed. -/
  | disconnected (reason : String)
  | other (reason : String)
deriving DecidableEq, Repr

def QueueError.ofFailure : CommandFailure → QueueError
  | .disconnected reason => .connection reason
  | .other reason => .command reason

end Timetable
