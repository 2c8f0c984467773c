import Timetable.Json.Numeral
import Timetable.Text.Hex

/-!
# Reading JSON

Strict JSON text: no comments, no commas at the end, no control characters in strings, nothing but blanks
behind the value.

What has the form of a value but is none is left unread: numbers that are too large, strings with half of a
surrogate pair, objects with such a name, and containers that nest more than 127 deep. `Json.outline?` keeps such
parts, for records whose unknown members do not matter; `Json.ofText?` refuses them.

`Json.readValue` recurses on a bound for the number of steps; `Json.outlineChars?` gives it twice the
length of the text, which is more than any text needs.
-/

namespace Timetable.Json

open Text

/-- How deep containers nest that are read. -/
def deepest : Nat := 127

def skipBlanks (cs : List Char) : List Char :=
  cs.dropWhile fun c => c == ' ' || c == '\n' || c == '\t' || c == '\r'

/-! ## Strings -/

def unescape : Char → Option Char
  | '"' => some '"'
  | '\\' => some '\\'
  | '/' => some '/'
  | 'b' => some '\x08'
  | 'f' => some '\x0c'
  | 'n' => some '\n'
  | 'r' => some '\r'
  | 't' => some '\t'
  | _ => none

def charOfUnit? (unit : Nat) : Option Char :=
  if h : unit.isValidChar then some (Char.ofNatAux unit h) else none

/-- The character of a pair of surrogates. -/
def charOfPair? (high low : Nat) : Option Char :=
  if 0xD800 ≤ high ∧ high < 0xDC00 ∧ 0xDC00 ≤ low ∧ low < 0xE000 then
    charOfUnit? (0x10000 + (high - 0xD800) * 0x400 + (low - 0xDC00))
  else none

/-- What stands for a character in a string, or for a half of one. -/
inductive Piece where
  | char (c : Char)
  /-- One of a pair of surrogates. -/
  | half (unit : Nat)

def Piece.ofUnit (unit : Nat) : Piece :=
  match charOfUnit? unit with
  | some c => .char c
  | none => .half unit

/-- The characters of some pieces, if every half has its other half behind it. -/
def join? : List Piece → Option (List Char)
  | [] => some []
  | .char c :: pieces => (join? pieces).map (c :: ·)
  | .half high :: .half low :: pieces => do
    let c ← charOfPair? high low
    (join? pieces).map (c :: ·)
  | .half _ :: _ => none

/-- The pieces of a string up to its closing quote, and what follows that. -/
def readPieces : List Char → Option (List Piece × List Char)
  | [] => none
  | '"' :: rest => some ([], rest)
  | '\\' :: 'u' :: a :: b :: c :: d :: rest => do
    let unit ← ofHex? [a, b, c, d]
    (readPieces rest).map fun (ps, rest) => (.ofUnit unit :: ps, rest)
  | '\\' :: e :: rest => do
    let ch ← unescape e
    (readPieces rest).map fun (ps, rest) => (.char ch :: ps, rest)
  | c :: rest =>
    if c.toNat < 32 ∨ c = '\\' then none
    else (readPieces rest).map fun (ps, rest) => (.char c :: ps, rest)

/-- A string from its opening quote on, and what follows it. There is none where a half stands alone. -/
def readString : List Char → Option (Option String × List Char)
  | '"' :: rest => (readPieces rest).map fun (ps, rest) => ((join? ps).map String.ofList, rest)
  | _ => none

/-! ## Values -/

def expect (c : Char) (cs : List Char) : Option (List Char) :=
  match skipBlanks cs with
  | d :: rest => if d = c then some rest else none
  | [] => none

/-- A container that is read as long as there is room for it. -/
def within (room : Nat) (j : Json) : Json := if room = 0 then .unread else j

mutual

/-- A value and what follows it. Containers are read up to `room` inside each other. -/
def readValue : Nat → Nat → List Char → Option (Json × List Char)
  | 0, _, _ => none
  | steps + 1, room, cs =>
    match skipBlanks cs with
    | 'n' :: 'u' :: 'l' :: 'l' :: rest => some (.null, rest)
    | 't' :: 'r' :: 'u' :: 'e' :: rest => some (.bool true, rest)
    | 'f' :: 'a' :: 'l' :: 's' :: 'e' :: rest => some (.bool false, rest)
    | '"' :: rest => (readString ('"' :: rest)).map fun (s, rest) => ((s.map .str).getD .unread, rest)
    | '[' :: rest =>
      match skipBlanks rest with
      | ']' :: rest => some (within room (.arr []), rest)
      | rest => (readItems steps (room - 1) rest).map fun (xs, rest) => (within room (.arr xs), rest)
    | '\x7b' :: rest =>
      match skipBlanks rest with
      | '\x7d' :: rest => some (within room (.obj []), rest)
      | rest =>
        (readMembers steps (room - 1) rest).map fun (ms, rest) =>
          (within room ((ms.map .obj).getD .unread), rest)
    | rest => readNumber? rest

/-- Items up to the closing bracket, at least one. -/
def readItems : Nat → Nat → List Char → Option (List Json × List Char)
  | 0, _, _ => none
  | steps + 1, room, cs => do
    let (x, cs) ← readValue steps room cs
    match skipBlanks cs with
    | ',' :: rest => (readItems steps room rest).map fun (xs, rest) => (x :: xs, rest)
    | ']' :: rest => some ([x], rest)
    | _ => none

/-- Members up to the closing brace, at least one. There are none if one of the names is unread. -/
def readMembers : Nat → Nat → List Char → Option (Option (List (String × Json)) × List Char)
  | 0, _, _ => none
  | steps + 1, room, cs => do
    let (k, cs) ← readString (skipBlanks cs)
    let cs ← expect ':' cs
    let (x, cs) ← readValue steps room cs
    match skipBlanks cs with
    | ',' :: rest =>
      (readMembers steps room rest).map fun (ms, rest) =>
        (do some ((← k, x) :: (← ms)), rest)
    | '\x7d' :: rest => some (k.map fun k => [(k, x)], rest)
    | _ => none

end

/-- The value of a text, of which parts may be unread. -/
def outlineChars? (cs : List Char) : Option Json := do
  let (j, rest) ← readValue (2 * cs.length + 1) deepest cs
  if skipBlanks rest = [] then some j else none

def outline? (s : String) : Option Json := outlineChars? s.toList

def ofChars? (cs : List Char) : Option Json := (outlineChars? cs).filter isWhole

/-- The value of a text, all of which is read. -/
def ofText? (s : String) : Option Json := ofChars? s.toList

example : ofChars? " \x7b\"a\": [1, \"\\ud83d\\ude00\\n\"]\x7d ".toList =
    some (.obj [("a", .arr [.int 1, .str "😀\n"])]) := by decide +kernel
example : ofChars? "[1,]".toList = none := by decide +kernel
example : ofChars? "\"\\ud83d\"".toList = none := by decide +kernel
example : outlineChars? "[\"\\ud83d\\u0041\", 1e999]".toList = some (.arr [.unread, .unread]) := by
  decide +kernel
example : ofChars? "null x".toList = none := by decide +kernel

end Timetable.Json
