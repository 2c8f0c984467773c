import Timetable.Settings.Value

/-!
# Paths of keys

A key may be the path of a value inside of others: `queue.concurrency` is a member of a table, and
`servers[0]` an item of a list, counted from the end where the number is negative. A key that is no such
path stands for itself.
-/

namespace Timetable

inductive KeyStep where
  | member (key : String)
  | item (place : Int)
deriving DecidableEq

abbrev KeyPath := List KeyStep

namespace KeyPath

/-! ## Reading -/

def isKeyChar (c : Char) : Bool := c.isAlphanum || c == ' ' || c == '_' || c == '-'

/-- A key, of at least one character, and what follows it. -/
def readKey? (cs : List Char) : Option (KeyStep × List Char) :=
  match cs.takeWhile isKeyChar with
  | [] => none
  | key => some (.member (String.ofList key), cs.dropWhile isKeyChar)

def skipBlanks (cs : List Char) : List Char := cs.dropWhile fun c => c == ' ' || c == '\t'

/-- A number from behind an opening bracket, and what follows the closing one. -/
def readPlace? (cs : List Char) : Option (KeyStep × List Char) := do
  let (negative, cs) := match skipBlanks cs with
    | '-' :: rest => (true, rest)
    | cs => (false, cs)
  let ds := cs.takeWhile Char.isDigit
  let n := Text.ofDigits ds
  if ds = [] ∨ 9223372036854775808 ≤ (if negative then n - 1 else n) then none
  match skipBlanks (cs.drop ds.length) with
  | ']' :: rest => some (.item (if negative then -n else n), rest)
  | _ => none

def readStep? : List Char → Option (KeyStep × List Char)
  | '.' :: rest => readKey? rest
  | '[' :: rest => readPlace? rest
  | _ => none

/-- The steps of a text, at most `limit`. -/
def readSteps? : Nat → List Char → Option KeyPath
  | _, [] => some []
  | 0, _ => none
  | limit + 1, cs => do
    let (step, rest) ← readStep? cs
    return step :: (← readSteps? limit rest)

def ofText (text : String) : KeyPath :=
  let path? := do
    let (key, rest) ← readKey? text.toList
    return key :: (← readSteps? rest.length rest)
  path?.getD [.member text]

end KeyPath

/-! ## Values at a path -/

/-- The place of an item, counted from the end if it is negative. -/
def placeOf? (count : Nat) (place : Int) : Option Nat :=
  if 0 ≤ place then some place.toNat
  else if place.natAbs ≤ count then some (count - place.natAbs)
  else none

/-- With an item at a place, and as many before it as there have to be. -/
def Setting.withItem (s : Setting) (place : Nat) (value : Setting) : Setting :=
  .list ((s.items ++ List.replicate (place + 1 - s.items.length) Setting.unset).set place value)

/-- Puts a value at a path. What is on the way becomes a table or list if it is none. There is no place
before the first item. -/
def Setting.putAt? (value : Setting) : KeyPath → Setting → Option Setting
  | [], _ => some value
  | [.member key], base => some (base.put key value)
  | .member key :: path, base => do
    let key := Text.lower key
    let inner ← value.putAt? path ((base.member? key).getD .unset)
    return base.withMember key inner
  | .item place :: path, base => do
    let place ← placeOf? base.items.length place
    let inner ← value.putAt? path (base.items.getD place .unset)
    return base.withItem place inner

example : KeyPath.ofText "a b.c[ -1 ]" = [.member "a b", .member "c", .item (-1)] := by
  decide +kernel
example : KeyPath.ofText "a..b" = [.member "a..b"] := by decide +kernel

end Timetable
