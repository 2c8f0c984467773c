import Timetable.Act
import Timetable.Cron.Expression
import Timetable.Cron.Field
import Timetable.Cron.Search
import Timetable.Decimal.Extended
import Timetable.Decimal.Nearest
import Timetable.Decimal.Shortest
import Timetable.Engine.Basic
import Timetable.Engine.Dispatch
import Timetable.Engine.Lifecycle
import Timetable.Engine.Queueing
import Timetable.Engine.Reconciliation
import Timetable.Error
import Timetable.Execution.Basic
import Timetable.Execution.Json
import Timetable.Execution.Run
import Timetable.Identifier
import Timetable.Instant.Basic
import Timetable.Instant.Civil
import Timetable.Instant.Text
import Timetable.Job.Basic
import Timetable.Job.Json
import Timetable.Journal
import Timetable.Json.Numeral
import Timetable.Json.Printer
import Timetable.Json.Reader
import Timetable.Json.Record
import Timetable.Json.Value
import Timetable.Keyspace.Address
import Timetable.Keyspace.Basic
import Timetable.Keyspace.Command
import Timetable.Keyspace.Program
import Timetable.Queue.Entry
import Timetable.Queue.Interface
import Timetable.Queue.Json
import Timetable.Queue.Local
import Timetable.Queue.Shared
import Timetable.Schedule.Basic
import Timetable.Schedule.Plan
import Timetable.Schedule.Repeat
import Timetable.Settings.Basic
import Timetable.Settings.KeyPath
import Timetable.Settings.Layers
import Timetable.Settings.Value
import Timetable.Startup
import Timetable.Store.Address
import Timetable.Store.Interface
import Timetable.Store.Local
import Timetable.Store.Relational
import Timetable.Store.Row
import Timetable.Table
import Timetable.Text.Basic
import Timetable.Text.Digits
import Timetable.Text.Hex
import Timetable.Text.Utf8
import Timetable.Toml.Document
import Timetable.Toml.Reader
import Timetable.Toml.Scalar
import Timetable.Toml.Text
import Timetable.Web.Address
import Timetable.Web.Exchange
import Timetable.Web.FunctionService
import Timetable.Web.Host
import Timetable.Web.Path
import Timetable.Web.Percent
import Timetable.Web.Punycode
import Timetable.Web.Stub
import Timetable.Web.Url
import Timetable.Worker
import Timetable.Proofs.Act
import Timetable.Proofs.Cron.Alphabet
import Timetable.Proofs.Cron.First
import Timetable.Proofs.Cron.Later
import Timetable.Proofs.Decimal.Nearest
import Timetable.Proofs.Decimal.Scaled
import Timetable.Proofs.Decimal.Shortest
import Timetable.Proofs.Engine.Breaker
import Timetable.Proofs.Engine.Calls
import Timetable.Proofs.Engine.Disabled
import Timetable.Proofs.Engine.Dispatch
import Timetable.Proofs.Engine.Events
import Timetable.Proofs.Engine.FailedDelete
import Timetable.Proofs.Engine.FailedUpdate
import Timetable.Proofs.Engine.Forms
import Timetable.Proofs.Engine.HandedOut
import Timetable.Proofs.Engine.Healing
import Timetable.Proofs.Engine.InStep
import Timetable.Proofs.Engine.Inverse
import Timetable.Proofs.Engine.Isolation
import Timetable.Proofs.Engine.Once
import Timetable.Proofs.Engine.Operations
import Timetable.Proofs.Engine.Orphans
import Timetable.Proofs.Engine.Owned
import Timetable.Proofs.Engine.Passes
import Timetable.Proofs.Engine.Race
import Timetable.Proofs.Engine.Recorded
import Timetable.Proofs.Engine.Requests
import Timetable.Proofs.Engine.Restoring
import Timetable.Proofs.Engine.Runs
import Timetable.Proofs.Engine.SecondPass
import Timetable.Proofs.Engine.Shares
import Timetable.Proofs.Engine.Shifts
import Timetable.Proofs.Engine.TakesEffect
import Timetable.Proofs.Engine.Undo
import Timetable.Proofs.Engine.World
import Timetable.Proofs.Execution.Run
import Timetable.Proofs.Identifier
import Timetable.Proofs.Instant.Civil
import Timetable.Proofs.Instant.Order
import Timetable.Proofs.Instant.Text
import Timetable.Proofs.Job.Storable
import Timetable.Proofs.Json.Faithful
import Timetable.Proofs.Json.Number
import Timetable.Proofs.Json.Representable
import Timetable.Proofs.Json.Reread
import Timetable.Proofs.Keyspace.Command
import Timetable.Proofs.Keyspace.Faults
import Timetable.Proofs.Keyspace.Program
import Timetable.Proofs.Queue.Apart
import Timetable.Proofs.Queue.AtLeastOnce
import Timetable.Proofs.Queue.Batch
import Timetable.Proofs.Queue.Calm
import Timetable.Proofs.Queue.Cells
import Timetable.Proofs.Queue.Chain
import Timetable.Proofs.Queue.Claims
import Timetable.Proofs.Queue.Delivery
import Timetable.Proofs.Queue.Exact
import Timetable.Proofs.Queue.Exclusion
import Timetable.Proofs.Queue.Faulty
import Timetable.Proofs.Queue.Fences
import Timetable.Proofs.Queue.Fencing
import Timetable.Proofs.Queue.Filled
import Timetable.Proofs.Queue.FirstDue
import Timetable.Proofs.Queue.Identifiers
import Timetable.Proofs.Queue.Inverse
import Timetable.Proofs.Queue.Leases
import Timetable.Proofs.Queue.Legible
import Timetable.Proofs.Queue.LocalDelivery
import Timetable.Proofs.Queue.LocalFaulty
import Timetable.Proofs.Queue.LocalFences
import Timetable.Proofs.Queue.Locks
import Timetable.Proofs.Queue.Lone
import Timetable.Proofs.Queue.Mirror
import Timetable.Proofs.Queue.MirrorClaims
import Timetable.Proofs.Queue.MirrorRequests
import Timetable.Proofs.Queue.Moves
import Timetable.Proofs.Queue.Names
import Timetable.Proofs.Queue.Nesting
import Timetable.Proofs.Queue.Operations
import Timetable.Proofs.Queue.Orderly
import Timetable.Proofs.Queue.Overlap
import Timetable.Proofs.Queue.Records
import Timetable.Proofs.Queue.Removal
import Timetable.Proofs.Queue.Reorder
import Timetable.Proofs.Queue.Represented
import Timetable.Proofs.Queue.Requests
import Timetable.Proofs.Queue.Ripe
import Timetable.Proofs.Queue.Run
import Timetable.Proofs.Queue.SharedCalm
import Timetable.Proofs.Queue.SharedDelivery
import Timetable.Proofs.Queue.SharedFaulty
import Timetable.Proofs.Queue.SharedFences
import Timetable.Proofs.Queue.SharedFiring
import Timetable.Proofs.Queue.SharedLeases
import Timetable.Proofs.Queue.Shares
import Timetable.Proofs.Queue.SideBySide
import Timetable.Proofs.Queue.Slots
import Timetable.Proofs.Queue.Sound
import Timetable.Proofs.Queue.Storable
import Timetable.Proofs.Queue.Stranded
import Timetable.Proofs.Queue.Texts
import Timetable.Proofs.Queue.Tidy
import Timetable.Proofs.Queue.Turns
import Timetable.Proofs.Queue.Writable
import Timetable.Proofs.Schedule.Fires
import Timetable.Proofs.Schedule.Gaps
import Timetable.Proofs.Schedule.Multiples
import Timetable.Proofs.Schedule.Occurrences
import Timetable.Proofs.Schedule.Plan
import Timetable.Proofs.Schedule.Repeat
import Timetable.Proofs.Store.Agreement
import Timetable.Proofs.Store.Columns
import Timetable.Proofs.Store.Faulty
import Timetable.Proofs.Store.Integrity
import Timetable.Proofs.Store.Local
import Timetable.Proofs.Store.Recent
import Timetable.Proofs.Store.Run
import Timetable.Proofs.Store.Twins
import Timetable.Proofs.Table
import Timetable.Proofs.Web.FunctionPaths
import Timetable.Proofs.Web.Percent
import Timetable.Proofs.Worker.Kept
import Timetable.Proofs.Worker.Permits
