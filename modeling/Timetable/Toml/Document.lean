import Timetable.Settings.Value

/-!
# Documents in TOML

What the keys and headers of a document build: tables in tables, and lists of tables.

Nothing is defined twice. A table comes about by its header, on the way of a header to another one, or on
the way of a dotted key. It gets a header only if it was passed by headers alone, and dotted keys
go only into tables that came about by dotted keys.
-/

namespace Timetable.Toml

/-- How a table came about. -/
inductive Origin where
  | header
  /-- On the way of a header to another one. -/
  | passed
  /-- On the way of a dotted key. -/
  | dotted
deriving DecidableEq

inductive Node where
  | value (v : Setting)
  | table (origin : Origin) (members : List (String × Node))
  | tables (elements : List Node)
deriving Inhabited

namespace Node

/-- Members with another node at a key. -/
def setMember (members : List (String × Node)) (key : String) (node : Node) : List (String × Node) :=
  (key, node) :: members.filter (·.1 != key)

/-- Changes the table at a path, of which missing tables are made. A list of tables stands for its last. The
path is that of a header or of a dotted key. -/
def modify? (dotted : Bool) (f : Node → Option Node) : List String → Node → Option Node
  | [], node => f node
  | key :: path, .table origin members => do
    let inner ← match members.lookup key with
      | none => modify? dotted f path (.table (if dotted then .dotted else .passed) [])
      | some (.value _) => none
      | some (.table origin members) =>
        if dotted ∧ origin = .header then none else modify? dotted f path (.table origin members)
      | some (.tables elements) => do
        let last ← modify? dotted f path (← elements.getLast?)
        some (.tables (elements.dropLast ++ [last]))
    some (.table origin (setMember members key inner))
  | _, _ => none

/-- Defines a key of a table that was reached by a dotted key or without one. -/
def defineHere? (dotted : Bool) (key : String) (v : Setting) : Node → Option Node
  | .table origin members =>
    if decide (origin = .dotted) = dotted ∧ (members.lookup key).isNone then
      some (.table origin ((key, .value v) :: members))
    else none
  | _ => none

/-- Defines a dotted key below a table. -/
def define? (path : List String) (v : Setting) (node : Node) : Option Node := do
  let way := path.dropLast
  node.modify? true (defineHere? (!way.isEmpty) (← path.getLast?) v) way

/-- Gives a table its header. -/
def openTableHere? (key : String) : Node → Option Node
  | .table origin members =>
    match members.lookup key with
    | none => some (.table origin ((key, .table .header []) :: members))
    | some (.table .passed inner) => some (.table origin (setMember members key (.table .header inner)))
    | some _ => none
  | _ => none

/-- Adds an element to a list of tables. -/
def openElementHere? (key : String) : Node → Option Node
  | .table origin members =>
    match members.lookup key with
    | none => some (.table origin ((key, .tables [.table .header []]) :: members))
    | some (.tables elements) =>
      some (.table origin (setMember members key (.tables (elements ++ [.table .header []]))))
    | some _ => none
  | _ => none

def empty : Node := .table .header []

mutual

/-- What is left of a node once it is complete. -/
def setting : Node → Setting
  | .value v => v
  | .table _ members => .table (settings members)
  | .tables elements => .list (elementSettings elements)

def settings : List (String × Node) → List (String × Setting)
  | [] => []
  | (key, node) :: rest => (key, node.setting) :: settings rest

def elementSettings : List Node → List Setting
  | [] => []
  | node :: rest => node.setting :: elementSettings rest

end

end Node

structure Document where
  root : Node := .empty
  /-- The path of the header that is in force. -/
  section_ : List String := []

namespace Document

def define? (d : Document) (path : List String) (v : Setting) : Option Document := do
  return { d with root := ← d.root.modify? false (·.define? path v) d.section_ }

def openTable? (d : Document) (path : List String) : Option Document := do
  let here := Node.openTableHere? (← path.getLast?)
  return { root := ← d.root.modify? false here path.dropLast, section_ := path }

def openElement? (d : Document) (path : List String) : Option Document := do
  let here := Node.openElementHere? (← path.getLast?)
  return { root := ← d.root.modify? false here path.dropLast, section_ := path }

/-- The table of a document. -/
def setting (d : Document) : Setting := d.root.setting

example : ((Document.openTable? {} ["a", "b"]).bind (·.openTable? ["a"])).isSome = true := by
  decide +kernel
example : ((Document.openTable? {} ["a"]).bind (·.openTable? ["a"])).isSome = false := by
  decide +kernel
example : ((Document.define? {} ["a", "b"] .unset).bind (·.openTable? ["a"])).isSome = false := by
  decide +kernel
example : ((Document.define? {} ["a", "b"] .unset).bind (·.openTable? ["a", "c"])).isSome = true := by
  decide +kernel

end Document

end Timetable.Toml
