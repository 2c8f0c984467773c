import Timetable.Json.Value
import Timetable.Text.Hex

/-!
# Printing JSON

Compact text: no blanks, members in their order, control characters escaped and all other
characters as they are; a part that is unread is written as null. Numbers with a fraction are printed in a given form.
Each function prints in front of a given rest, so that a printed value can be read back whatever follows it.
-/

namespace Timetable.Json

open Text

/-- The escape of a character inside a string, or the character itself. -/
def escape (c : Char) : List Char :=
  if c = '"' then ['\\', '"']
  else if c = '\\' then ['\\', '\\']
  else if c = '\n' then ['\\', 'n']
  else if c = '\r' then ['\\', 'r']
  else if c = '\t' then ['\\', 't']
  else if c = '\x08' then ['\\', 'b']
  else if c = '\x0c' then ['\\', 'f']
  else if c.toNat < 32 then '\\' :: 'u' :: hexDigits 4 c.toNat
  else [c]

def writeChars : List Char → List Char → List Char
  | [], rest => '"' :: rest
  | c :: cs, rest => escape c ++ writeChars cs rest

def writeString (s : String) (rest : List Char) : List Char := '"' :: writeChars s.toList rest

mutual

def write (form : Decimal → List Char) : Json → List Char → List Char
  | .null, rest => "null".toList ++ rest
  | .bool true, rest => "true".toList ++ rest
  | .bool false, rest => "false".toList ++ rest
  | .int n, rest => signed n ++ rest
  | .real d, rest => form d ++ rest
  | .str s, rest => writeString s rest
  | .arr items, rest => '[' :: writeItems form items (']' :: rest)
  | .obj members, rest => '\x7b' :: writeMembers form members ('\x7d' :: rest)
  | .unread, rest => "null".toList ++ rest

def writeItems (form : Decimal → List Char) : List Json → List Char → List Char
  | [], rest => rest
  | [x], rest => x.write form rest
  | x :: y :: xs, rest => x.write form (',' :: writeItems form (y :: xs) rest)

def writeMembers (form : Decimal → List Char) : List (String × Json) → List Char → List Char
  | [], rest => rest
  | [(k, x)], rest => writeString k (':' :: x.write form rest)
  | (k, x) :: m :: ms, rest => writeString k (':' :: x.write form (',' :: writeMembers form (m :: ms) rest))

end

/-- The text of a value with numbers in some form. -/
def textIn (form : Decimal → List Char) (j : Json) : String := String.ofList (j.write form [])

def chars (j : Json) : List Char := j.write Decimal.chars []

def text (j : Json) : String := String.ofList j.chars

example : (obj [("a\n", .arr [.int (-1), .null]), ("b", .str "é\x01")]).chars =
    "\x7b\"a\\n\":[-1,null],\"b\":\"é\\u0001\"\x7d".toList := by decide

end Timetable.Json
