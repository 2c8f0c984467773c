import Timetable.Decimal.Extended
import Timetable.Text.Digits

/-!
# Values that settings are made of

What files and variables give, before anything is known about the settings it is for.

`Setting.put` lays a value over the one at a key: a table member by member, all else as a whole. Keys
are in lower case.
-/

namespace Timetable

inductive Setting where
  /-- An item of a list that was left out. -/
  | unset
  | bool (b : Bool)
  | int (n : Int)
  | real (x : ExtendedFraction)
  | text (s : String)
  | list (items : List Setting)
  | table (members : List (String × Setting))
deriving Inhabited

namespace Setting

/-- The members of a table; no other value has any. -/
def members : Setting → List (String × Setting)
  | table members => members
  | _ => []

/-- The items of a list; no other value has any. -/
def items : Setting → List Setting
  | list items => items
  | _ => []

def member? (s : Setting) (key : String) : Option Setting := s.members.lookup key

/-- As a table, with a value at a key. -/
def withMember (s : Setting) (key : String) (value : Setting) : Setting :=
  .table ((key, value) :: s.members.filter (·.1 != key))

mutual

/-- Lays a value over what is at a key. -/
def put (base : Setting) (key : String) : Setting → Setting
  | .table members =>
    let key := Text.lower key
    base.withMember key (putAll ((base.member? key).getD (.table [])) members)
  | value => base.withMember (Text.lower key) value

def putAll (base : Setting) : List (String × Setting) → Setting
  | [] => base
  | (key, value) :: rest => putAll (put base key value) rest

end

/-! ## As text and numbers -/

/-- The text of a value that is not made of others. -/
def text? : Setting → Option String
  | bool b => some (if b then "true" else "false")
  | int n => some (Text.intText n)
  | real x => some x.text
  | text s => some s
  | _ => none

end Setting

end Timetable
