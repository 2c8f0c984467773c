import Timetable.Settings.Basic
import Timetable.Settings.KeyPath
import Timetable.Text.Digits
import Timetable.Toml.Reader

/-!
# Settings in layers

Settings come from a file of defaults, a local file and the environment; what comes later wins, key
by key. The keys of a file are paths. A variable counts whose name starts with `APP__`, in any case, and
the rest of its name, with points for double underscores, is a path too.

Values are read generously: a number where text is asked for is its text, and text where a number is asked
for is read as one. A group of settings may be a list of them in order.
-/

namespace Timetable.Settings

/-! ## Variables -/

/-- A signed word in decimal digits. -/
def word? (cs : List Char) : Option Int :=
  let (negative, ds) := ExtendedFraction.readSign cs
  let n : Int := Text.ofDigits ds
  let n := if negative then -n else n
  if ds ≠ [] ∧ ds.all Char.isDigit ∧ -9223372036854775808 ≤ n ∧ n < 9223372036854775808 then some n
  else none

/-- The value of a variable: a truth value or number if it reads as one, else its text. -/
def variableValue (text : String) : Setting :=
  match text.toLower with
  | "true" => .bool true
  | "false" => .bool false
  | _ =>
    match word? text.toList, ExtendedFraction.ofText? text.toList with
    | some n, _ => .int n
    | none, some x => .real x
    | none, none => .text text

/-- With a point for each double underscore. -/
def withPoints : List Char → List Char
  | '_' :: '_' :: cs => '.' :: withPoints cs
  | c :: cs => c :: withPoints cs
  | [] => []

/-- The key of a variable that counts. -/
def variableKey? (name : String) : Option String :=
  match (Text.lower name).toList with
  | 'a' :: 'p' :: 'p' :: '_' :: '_' :: rest => some (String.ofList (withPoints rest))
  | _ => none

/-- The layer of the environment. -/
def environment (vars : List (String × String)) : List (String × Setting) :=
  vars.filterMap fun p => (variableKey? p.1).map fun key => (key, variableValue p.2)

/-! ## Generous reading -/

/-- What a key asks for. -/
inductive Kind where
  | text
  | number
  /-- One of some words, in any case, alone or as the one key of a table. -/
  | choice
deriving DecidableEq

/-- A value that is none of a kind. -/
def misfit : Json := .unread

def asText (s : Setting) : Json := ((s.text?).map .str).getD misfit

def wordLimit : Nat := 18446744073709551616

def wordOfText (text : String) : Json :=
  match text.toLower with
  | "true" | "on" | "yes" => .int 1
  | "false" | "off" | "no" => .int 0
  | _ =>
    match Text.readWord wordLimit text.toList with
    | .ok n => .int n
    | .error _ => misfit

def asNumber : Setting → Json
  | .text s => wordOfText s
  | .int n => .int n
  | .real x => .int x.word
  | .bool b => .int (if b then 1 else 0)
  | _ => misfit

def asChoice : Setting → Json
  | .text s => .str (Text.lower s)
  | .table [(key, _)] => .str (Text.lower key)
  | _ => misfit

def Kind.read (kind : Kind) (s : Setting) : Json :=
  match s, kind with
  | .unset, .choice => misfit
  | .unset, _ => .null
  | s, text => asText s
  | s, number => asNumber s
  | s, choice => asChoice s

/-- The groups of settings, and what their keys ask for. -/
def groups : List (String × List (String × Kind)) :=
  [("database", [("url", .text), ("max_connections", .number), ("min_connections", .number),
      ("connect_timeout_seconds", .number)]),
    ("redis", [("url", .text)]),
    ("queue", [("key_prefix", .text), ("poll_interval_ms", .number), ("concurrency", .number),
      ("overlap_policy", .choice), ("claim_lease_seconds", .number)]),
    ("jobs", [("minimum_execution_interval_minutes", .number),
      ("reconciliation_interval_seconds", .number), ("auto_disable_threshold", .number)]),
    ("functions", [("base_url", .text), ("timeout_seconds", .number)]),
    ("observability", [("log_level", .text), ("metrics_port", .number),
      ("tracing_endpoint", .text)])]

/-- A group as its keys ask for it: a table, or a list in their order. -/
def readGroup (keys : List (String × Kind)) : Setting → Json
  | .table members =>
    .obj (keys.filterMap fun k => (members.lookup k.1).map fun v => (k.1, k.2.read v))
  | .list items => .arr (List.zipWith (fun k v => k.2.read v) keys items)
  | _ => misfit

/-- Every value as its key asks for it. -/
def generously (s : Setting) : Json :=
  .obj (groups.filterMap fun g => (s.member? g.1).map fun v => (g.1, readGroup g.2 v))

/-! ## All layers -/

inductive LoadError where
  /-- A file is no TOML, or the values are no settings. -/
  | unreadable
  /-- A path names a place before the first item of a list. -/
  | noSuchPlace
deriving DecidableEq, Repr

def orError {α : Type} (e : LoadError) : Option α → Except LoadError α
  | some a => .ok a
  | none => .error e

/-- Lays the values of a layer over others, each at the path that its key is. -/
def addLayer (base : Setting) (layer : List (String × Setting)) : Except LoadError Setting :=
  orError .noSuchPlace
    (layer.foldlM (fun base p => p.2.putAt? (KeyPath.ofText p.1) base) base)

def fileLayer : Option String → Except LoadError (List (String × Setting))
  | some text => orError .unreadable ((Toml.ofText? text).map (·.members))
  | none => .ok []

/-- The settings from the texts of both files, where there are such, and the environment. -/
def load (defaults local_ : Option String) (vars : List (String × String)) :
    Except LoadError Settings := do
  let all ← addLayer (.table []) (← fileLayer defaults)
  let all ← addLayer all (← fileLayer local_)
  let all ← addLayer all (environment vars)
  orError .unreadable (ofJson? (generously all))

end Timetable.Settings
