import Timetable.Queue.Json
import Timetable.Schedule.Plan

/-!
# Settings

What an operator can set, the defaults, and the checks that a set of values has to pass before
anything is started with it. `Settings.problem?` names the first value that fails.
-/

namespace Timetable

open Json

structure DatabaseSettings where
  url : String
  maxConnections : Nat
  minConnections : Nat
  connectTimeoutSeconds : Nat
deriving DecidableEq

structure QueueSettings where
  /-- In front of every key that the queue writes. -/
  keyPrefix : String
  pollIntervalMillis : Nat
  /-- Dispatches that may run at the same time. -/
  concurrency : Nat
  overlap : OverlapPolicy
  /-- A claim that is not renewed within this time is handed out again. -/
  claimLeaseSeconds : Nat
deriving DecidableEq

structure JobsSettings where
  minimumMinutes : Nat
  reconciliationSeconds : Nat
  /-- Failed executions in a row that disable a job. -/
  autoDisableThreshold : Nat
deriving DecidableEq

structure FunctionsSettings where
  baseUrl : String
  timeoutSeconds : Option Nat
deriving DecidableEq

structure ObservabilitySettings where
  logLevel : String
  metricsPort : Nat
  tracingEndpoint : Option String
deriving DecidableEq

structure Settings where
  database : DatabaseSettings
  brokerUrl : String
  queue : QueueSettings
  jobs : JobsSettings
  functions : FunctionsSettings
  observability : ObservabilitySettings
deriving DecidableEq

def defaultLeaseSeconds : Nat := 300

namespace Settings

def default : Settings where
  database :=
    { url := "postgresql://localhost/function_jobs"
      maxConnections := 10
      minConnections := 2
      connectTimeoutSeconds := 30 }
  brokerUrl := "redis://localhost:6379"
  queue :=
    { keyPrefix := "jobs"
      pollIntervalMillis := 1000
      concurrency := 4
      overlap := .skip
      claimLeaseSeconds := defaultLeaseSeconds }
  jobs :=
    { minimumMinutes := 5
      reconciliationSeconds := 600
      autoDisableThreshold := 3 }
  functions :=
    { baseUrl := "http://localhost:3000"
      timeoutSeconds := none }
  observability :=
    { logLevel := "info"
      metricsPort := 9090
      tracingEndpoint := none }

/-! ## What follows from the settings, in nanoseconds -/

def pollInterval (s : Settings) : Nat := s.queue.pollIntervalMillis * 1000000

def claimLease (s : Settings) : Nat := s.queue.claimLeaseSeconds * 1000000000

/-- A lease is renewed three times in its time, but not more often than every second. -/
def leaseRenewal (s : Settings) : Nat := max (s.claimLease / 3) 1000000000

def schedulePolicy (s : Settings) : SchedulePolicy := ⟨s.jobs.minimumMinutes⟩

/-! ## Checks -/

/-- The checks in order, each with what is wrong if it holds. -/
def checks (s : Settings) : List (Bool × String) :=
  [ (s.database.url == "", "Database URL cannot be empty"),
    (s.database.maxConnections == 0, "Database max_connections must be greater than 0"),
    (s.brokerUrl == "", "Redis URL cannot be empty"),
    (s.queue.keyPrefix == "", "Queue key_prefix cannot be empty"),
    (s.queue.pollIntervalMillis == 0, "Queue poll_interval_ms must be greater than 0"),
    (s.queue.concurrency == 0, "Queue concurrency must be greater than 0"),
    (s.queue.claimLeaseSeconds < 3, "Queue claim_lease_seconds must be at least 3"),
    (s.jobs.minimumMinutes == 0, "Jobs minimum_execution_interval_minutes must be greater than 0"),
    (s.jobs.reconciliationSeconds == 0,
      "Jobs reconciliation_interval_seconds must be greater than 0"),
    (s.jobs.autoDisableThreshold == 0, "Jobs auto_disable_threshold must be greater than 0"),
    (s.functions.baseUrl == "", "Functions base_url cannot be empty"),
    (s.functions.timeoutSeconds == some 0,
      "Functions timeout_seconds must be greater than 0 when set") ]

/-- What is wrong with the first value that fails its check. -/
def problem? (s : Settings) : Option String := (s.checks.find? (·.1)).map (·.2)

example : default.problem? = none := by decide

/-! ## JSON -/

def databaseJson (d : DatabaseSettings) : Json :=
  .obj [("connect_timeout_seconds", .ofNat d.connectTimeoutSeconds),
    ("max_connections", .ofNat d.maxConnections), ("min_connections", .ofNat d.minConnections),
    ("url", .str d.url)]

def queueJson (q : QueueSettings) : Json :=
  .obj [("claim_lease_seconds", .ofNat q.claimLeaseSeconds), ("concurrency", .ofNat q.concurrency),
    ("key_prefix", .str q.keyPrefix), ("overlap_policy", q.overlap.toJson),
    ("poll_interval_ms", .ofNat q.pollIntervalMillis)]

def jobsJson (j : JobsSettings) : Json :=
  .obj [("auto_disable_threshold", .ofNat j.autoDisableThreshold),
    ("minimum_execution_interval_minutes", .ofNat j.minimumMinutes),
    ("reconciliation_interval_seconds", .ofNat j.reconciliationSeconds)]

def functionsJson (f : FunctionsSettings) : Json :=
  .obj [("base_url", .str f.baseUrl), ("timeout_seconds", ofOption .ofNat f.timeoutSeconds)]

def observabilityJson (o : ObservabilitySettings) : Json :=
  .obj [("log_level", .str o.logLevel), ("metrics_port", .ofNat o.metricsPort),
    ("tracing_endpoint", ofOption .str o.tracingEndpoint)]

def toJson (s : Settings) : Json :=
  .obj [("database", databaseJson s.database), ("functions", functionsJson s.functions),
    ("jobs", jobsJson s.jobs), ("observability", observabilityJson s.observability),
    ("queue", queueJson s.queue), ("redis", .obj [("url", .str s.brokerUrl)])]

def database? (j : Json) : Option DatabaseSettings := do
  let [url, maxConnections, minConnections, timeout] ←
    record? ["url", "max_connections", "min_connections", "connect_timeout_seconds"] j | none
  some
    { url := ← url.required string?
      maxConnections := ← maxConnections.required nat32?
      minConnections := ← minConnections.required nat32?
      connectTimeoutSeconds := ← timeout.required nat64? }

def queue? (j : Json) : Option QueueSettings := do
  let [keyPrefix, pollInterval, concurrency, overlap, lease] ←
    record? ["key_prefix", "poll_interval_ms", "concurrency", "overlap_policy",
      "claim_lease_seconds"] j | none
  some
    { keyPrefix := ← keyPrefix.required string?
      pollIntervalMillis := ← pollInterval.required nat64?
      concurrency := ← concurrency.required nat64?
      overlap := ← overlap.orElse OverlapPolicy.ofJson? .skip
      claimLeaseSeconds := ← lease.orElse nat64? defaultLeaseSeconds }

def jobs? (j : Json) : Option JobsSettings := do
  let [minimum, reconciliation, threshold] ←
    record? ["minimum_execution_interval_minutes", "reconciliation_interval_seconds",
      "auto_disable_threshold"] j | none
  some
    { minimumMinutes := ← minimum.required nat32?
      reconciliationSeconds := ← reconciliation.required nat64?
      autoDisableThreshold := ← threshold.required nat64? }

def functions? (j : Json) : Option FunctionsSettings := do
  let [baseUrl, timeout] ← record? ["base_url", "timeout_seconds"] j | none
  some
    { baseUrl := ← baseUrl.required string?
      timeoutSeconds := ← timeout.optionalOrElse nat64? }

def observability? (j : Json) : Option ObservabilitySettings := do
  let [logLevel, port, endpoint] ← record? ["log_level", "metrics_port", "tracing_endpoint"] j | none
  some
    { logLevel := ← logLevel.required string?
      metricsPort := ← port.required nat16?
      tracingEndpoint := ← endpoint.optional string? }

def url? (j : Json) : Option String := do
  let [url] ← record? ["url"] j | none
  url.required string?

def ofJson? (j : Json) : Option Settings := do
  let [database, broker, queue, jobs, functions, observability] ←
    record? ["database", "redis", "queue", "jobs", "functions", "observability"] j | none
  some
    { database := ← database.required database?
      brokerUrl := ← broker.required url?
      queue := ← queue.required queue?
      jobs := ← jobs.required jobs?
      functions := ← functions.required functions?
      observability := ← observability.required observability? }

/-- The settings with some values replaced, as JSON lays them over. -/
def patched? (s : Settings) (patch : Json) : Option Settings := ofJson? (s.toJson.overlay patch)

end Settings

end Timetable
