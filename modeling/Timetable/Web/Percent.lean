import Timetable.Text.Basic
import Timetable.Text.Hex
import Timetable.Text.Utf8

/-!
# Percent-encoding, and queries

Characters that may not stand in a part of a URL are written as the bytes of their UTF-8 form, each
as `%` and two upper-case hexadecimal digits.

The parameters in the query of a URL are names and values, between which stands the first `=`, divided by
`&`. A plus sign stands for a blank.
-/

namespace Timetable.Web

def upperHexDigit (n : Nat) : Char :=
  "0123456789ABCDEF".toList.getD n '0'

def encodeByte (b : UInt8) : List Char :=
  ['%', upperHexDigit (b.toNat / 16), upperHexDigit (b.toNat % 16)]

/-- Control characters and everything beyond ASCII. -/
def isControl (c : Char) : Bool := c.toNat < 0x20 || 0x7F ≤ c.toNat

/-- Encodes the control characters and those of a set. -/
def percentEncode (set_ : List Char) (cs : List Char) : List Char :=
  cs.flatMap fun c =>
    if isControl c || set_.contains c then (String.utf8EncodeChar c).flatMap encodeByte else [c]

/-- What is encoded in a path. -/
def pathSet : List Char := [' ', '"', '#', '<', '>', '?', '`', '\x7b', '\x7d']

/-- What is encoded in one segment of a path. A backslash is, where it would be a slash. -/
def segmentSet (special : Bool) : List Char := pathSet ++ ['/', '%'] ++ if special then ['\\'] else []

/-- What is encoded in the query of a URL that nothing is below. -/
def opaqueQuerySet : List Char := [' ', '"', '#', '<', '>']

/-- What is encoded in a query. -/
def querySet : List Char := opaqueQuerySet ++ ['\'']

/-- What is encoded in a fragment. -/
def fragmentSet : List Char := [' ', '"', '<', '>', '`']

/-- The bytes that a text stands for; what is no encoded byte stands for itself. -/
def percentDecode : List Char → List UInt8
  | '%' :: a :: b :: rest =>
    match Text.hexValue? a, Text.hexValue? b with
    | some x, some y => UInt8.ofNat (16 * x + y) :: percentDecode rest
    | _, _ => String.utf8EncodeChar '%' ++ percentDecode (a :: b :: rest)
  | c :: rest => String.utf8EncodeChar c ++ percentDecode rest
  | [] => []

/-- The text that is encoded, if its bytes are one. -/
def percentText? (cs : List Char) : Option String :=
  String.fromUTF8? ⟨(percentDecode cs).toArray⟩

example : percentEncode (segmentSet true) "a/é%".toList = "a%2F%C3%A9%25".toList := by decide +kernel

example : percentDecode "a%2Fb%".toList = "a/b%".toList.flatMap String.utf8EncodeChar := by
  decide +kernel

/-! ## Queries -/

/-- The text of a part of a query. -/
def parameterText (cs : List Char) : List Char :=
  Text.mended (percentDecode (cs.map fun c => if c == '+' then ' ' else c))

/-- The parameters of a query, in order. -/
def parameters (query : List Char) : List (List Char × List Char) :=
  (Text.splitAtAll (· == '&') query).filter (· ≠ []) |>.map fun part =>
    let (name, value) := Text.cutAt '=' part
    (parameterText name, parameterText (value.getD []))

example : parameters "a=b+c&&d%3D=".toList =
    [(['a'], ['b', ' ', 'c']), (['d', '='], [])] := by decide +kernel

end Timetable.Web
