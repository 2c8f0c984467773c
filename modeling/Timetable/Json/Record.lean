import Timetable.Json.Value
import Timetable.Instant.Text
import Timetable.Identifier

/-!
# Records in JSON

How the parts of a domain value are read from and written as JSON.

A record is an object with its members in any order, none of them twice and others ignored, or an
array of its parts in order. Each part is read by a rule of its own: `Slot.required`,
`Slot.optional` for one that may be missing or null, and `Slot.orElse` for one with a default. Only
a part with a default may be missing at the end of an array.
-/

namespace Timetable.Json

/-! ## Parts of a record -/

/-- What a record holds in the place of one of its parts. -/
inductive Slot where
  /-- A value was given. -/
  | given (j : Json)
  /-- The object has no member of that name. -/
  | missing
  /-- The array ends before that place. -/
  | ended
deriving DecidableEq, Inhabited

namespace Slot

def ofMember : Option Json → Slot
  | some j => given j
  | none => missing

def required {α : Type} (read : Json → Option α) : Slot → Option α
  | given j => read j
  | _ => none

/-- Null and a missing member are no value. -/
def optional {α : Type} (read : Json → Option α) : Slot → Option (Option α)
  | given null => some none
  | given j => (read j).map some
  | missing => some none
  | ended => none

def orElse {α : Type} (read : Json → Option α) (default : α) : Slot → Option α
  | given j => read j
  | _ => some default

/-- An optional part that may also be missing at the end of an array. -/
def optionalOrElse {α : Type} (read : Json → Option α) : Slot → Option (Option α)
  | ended => some none
  | slot => slot.optional read

end Slot

def occurrences (name : String) (members : List (String × Json)) : Nat :=
  members.countP (·.1 == name)

/-- The parts of a record with the given names, one slot for each. -/
def record? (names : List String) : Json → Option (List Slot)
  | .obj members =>
    if names.all fun name => occurrences name members ≤ 1 then
      some (names.map fun name => .ofMember (member? members name))
    else none
  | .arr items =>
    if items.length ≤ names.length then
      some (items.map .given ++ List.replicate (names.length - items.length) .ended)
    else none
  | _ => none

/-! ## Simple parts -/

def string? : Json → Option String
  | .str s => some s
  | _ => none

def bool? : Json → Option Bool
  | .bool b => some b
  | _ => none

/-- A whole number from 0 to below `limit`. -/
def natBelow? (limit : Nat) : Json → Option Nat
  | .int n => if 0 ≤ n ∧ n < limit then some n.toNat else none
  | _ => none

/-! Unsigned words of 16, 32 and 64 bits, and signed ones. -/

def nat16? : Json → Option Nat := natBelow? 65536

def nat32? : Json → Option Nat := natBelow? 4294967296

def nat64? : Json → Option Nat := natBelow? 18446744073709551616

/-- A whole number from `-limit` to below `limit`. -/
def intWithin? (limit : Int) : Json → Option Int
  | .int n => if -limit ≤ n ∧ n < limit then some n else none
  | _ => none

def int32? : Json → Option Int := intWithin? 2147483648

def int64? : Json → Option Int := intWithin? 9223372036854775808

/-- A number with a fraction; a whole number counts too. -/
def real? : Json → Option Decimal
  | .real d => some d
  | .int n => some (.ofInt n)
  | _ => none

def instant? : Json → Option Instant
  | .str s => Instant.ofText? s
  | _ => none

def identifier? : Json → Option Identifier
  | .str s => Identifier.ofText? s
  | _ => none

/-- Any value that was wholly read, in normal form. -/
def payload? (j : Json) : Option Json := if j.isWhole then some j.normal else none

def list? {α : Type} (read : Json → Option α) : Json → Option (List α)
  | .arr items => items.mapM read
  | _ => none

/-- The word of a choice, or an object with the word as its one member and null in it. -/
def word? : Json → Option String
  | .str s => some s
  | .obj [(s, .null)] => some s
  | _ => none

/-! ## Writing -/

def ofOption {α : Type} (write : α → Json) : Option α → Json
  | some a => write a
  | none => .null

def ofList {α : Type} (write : α → Json) (xs : List α) : Json := .arr (xs.map write)

def ofNat (n : Nat) : Json := .int n

def ofInstant (t : Instant) : Json := .str t.text

def ofIdentifier (id : Identifier) : Json := .str id.text

/-- An object without members. -/
def empty : Json := .obj []

example : record? ["a", "b"] (.obj [("b", .null), ("c", .null)]) = some [.missing, .given .null] := by
  decide
example : record? ["a"] (.obj [("a", .null), ("a", .null)]) = none := by decide
example : record? ["a", "b"] (.arr [.null]) = some [.given .null, .ended] := by decide

end Timetable.Json
