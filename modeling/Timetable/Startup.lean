import Timetable.Keyspace.Address
import Timetable.Queue.Shared
import Timetable.Settings.Basic
import Timetable.Store.Address
import Timetable.Store.Relational
import Timetable.Web.FunctionService

/-!
# Start-up

From settings to a queue, a store and an engine. Each part is checked when it is connected; what
goes wrong is told as a chain of texts, from what was attempted down to the cause.

The database is migrated before it is used, by the statements `migrationOpenings`.
-/

namespace Timetable

/-- Why something could not be started: what was attempted, down to the cause. -/
structure StartError where
  chain : List String
deriving DecidableEq, Repr

/-- The servers there are, and how they treat what they are asked. -/
structure Servers where
  database : Web.Endpoint := ⟨Web.loopback, 5432⟩
  broker : Web.Endpoint := ⟨Web.loopback, 6379⟩
  functions : Web.Endpoint := ⟨Web.loopback, 8080⟩
  /-- What the database keeps of JSON. -/
  columns : JsonColumn := .jsonb
  /-- How the statements begin that the database refuses. -/
  refusedStatements : List String := []
  /-- The commands that the broker refuses. -/
  refusedCommands : List String := []
  /-- The broker's sign of life. -/
  pong : String := "PONG"
  /-- What refusals say. -/
  words : String := "injected"

namespace Startup

/-- Settings for the servers. -/
def settings : Settings :=
  { Settings.default with
    database :=
      { Settings.default.database with
        url := "postgresql://u:p@127.0.0.1:5432/db?sslmode=disable"
        maxConnections := 1
        minConnections := 0 }
    brokerUrl := "redis://127.0.0.1:6379"
    functions := { Settings.default.functions with baseUrl := "http://127.0.0.1:8080" } }

def fail {α : Type} (attempt cause : String) : Except StartError α := .error ⟨[attempt, cause]⟩

/-! ## The database -/

/-- How the statements of a migration begin, in order. -/
def migrationOpenings : List String :=
  ["SELECT current_database()", "SELECT pg_advisory_lock(", "CREATE TABLE IF NOT EXISTS",
    "SELECT version FROM", "BEGIN", "CREATE TABLE jobs", "INSERT INTO _sqlx_migrations", "COMMIT"]

def isRefused (servers : Servers) (statement : String) : Bool :=
  servers.refusedStatements.any fun o => o.toList.isPrefixOf statement.toList

/-- What waiting for a connection comes to, if it ends in time. -/
def reachDatabase (servers : Servers) (a : DatabaseAddress) : Except String Unit :=
  if a.atSocket then .error "error communicating with database: No such file or directory (os error 2)"
  else if (Web.Host.name a.host).resolved = servers.database.host ∧ a.port = servers.database.port then
    .ok ()
  else .error DatabaseFailure.poolTimedOut.text

/-- Whether a connection is waited for at all, and the pool has place for one. -/
def admitsConnection (d : DatabaseSettings) : Bool :=
  d.connectTimeoutSeconds ≠ 0 && d.maxConnections ≠ 0

def connectDatabase (servers : Servers) (d : DatabaseSettings) : Except StoreError Unit :=
  Except.mapError .connectionFailed do
    let address ← (DatabaseAddress.ofUrl d.url).mapError (·.message)
    if admitsConnection d then reachDatabase servers address
    else .error DatabaseFailure.poolTimedOut.text

def refused (servers : Servers) : String := (DatabaseFailure.reported servers.words).text

def migrate (servers : Servers) : Except StoreError Unit :=
  if migrationOpenings.any (isRefused servers) then
    .error (.migrationFailed ("while executing migrations: " ++ refused servers))
  else .ok ()

def checkDatabase (servers : Servers) : Except StoreError Unit :=
  if isRefused servers "SELECT 1" then .error (.healthCheckFailed (refused servers)) else .ok ()

/-- What a check says once the pool is closed. -/
def checkClosedDatabase : Except StoreError Unit :=
  .error (.healthCheckFailed DatabaseFailure.poolClosed.text)

def attempt {ε : Type} (what : String) (message : ε → String) (x : Except ε Unit) :
    Except StartError Unit :=
  x.mapError fun e => ⟨[what, message e]⟩

def database (servers : Servers) (s : Settings) : Except StartError Unit := do
  attempt "Failed to initialize database pool" StoreError.message
    (connectDatabase servers s.database)
  attempt "Failed to run migrations" StoreError.message (migrate servers)
  attempt "Database health check failed" StoreError.message (checkDatabase servers)

/-! ## The queue -/

def reachBroker (servers : Servers) : BrokerAddress → Except String Unit
  | .server place =>
    if place = servers.broker then .ok () else .error "Connection refused (os error 111)"
  | .socket => .error "No such file or directory (os error 2)"

def connectBroker (servers : Servers) (url : String) : Except QueueError Unit :=
  Except.mapError .connection do
    let address ← (BrokerAddress.ofUrl url).mapError fun e =>
      "Failed to create Redis client: " ++ e ++ "- InvalidClientConfig"
    (reachBroker servers address).mapError ("Failed to create connection manager: " ++ ·)

def commandFaults (servers : Servers) : CommandFaults :=
  .ofVerbs (Verb.all.filter fun v => servers.refusedCommands.contains v.text) servers.words

def checkBroker (servers : Servers) : Except QueueError Unit :=
  if servers.refusedCommands.contains "ping" then
    .error (.healthCheck ("An error was signalled by the server - ResponseError: " ++ servers.words))
  else if servers.pong = "PONG" then .ok ()
  else .error (.healthCheck ("Unexpected PING response: " ++ servers.pong))

def queue (servers : Servers) (s : Settings) : Except StartError Unit := do
  attempt "Failed to initialize Redis pool" QueueError.message (connectBroker servers s.brokerUrl)
  attempt "Redis health check failed" QueueError.message (checkBroker servers)

/-! ## The engine -/

def functionService (s : Settings) : Except StartError Web.Url :=
  (Web.baseUrl s.functions.baseUrl).mapError fun e =>
    ⟨["Failed to initialize function invoker", e.message]⟩

def claimRules (s : Settings) : ClaimRules :=
  ClaimRules.withLease { overlap := s.queue.overlap } s.claimLease

def storeFaults (servers : Servers) : StoreFaults :=
  RelationalStore.refusing servers.refusedStatements servers.words

def jobStore (servers : Servers) : JobStore (StoreState Tables) (Transaction Tables) :=
  RelationalStore.jobStore servers.columns (storeFaults servers)

/-- Starts everything; the base URL of the functions. -/
def start (servers : Servers) (s : Settings) : Except StartError Web.Url := do
  database servers s
  queue servers s
  functionService s

/-- The engine over the servers; `answer` is what the function service answers. -/
def engine (servers : Servers) (s : Settings) (base : Web.Url)
    (answer : Web.Request → Option Web.Response) :
    Engine Link (StoreState Tables) (Transaction Tables) where
  queue := SharedQueue.workQueue (claimRules s) (commandFaults servers)
  store := jobStore servers
  invoker := Web.invoker
    (fun r => if base.leadsTo servers.functions then answer r else none) base
  policy := s.schedulePolicy
  threshold := s.jobs.autoDisableThreshold

end Startup

end Timetable
