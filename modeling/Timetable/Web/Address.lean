import Timetable.Text.Digits
import Timetable.Text.Hex
import Timetable.Text.Basic

/-!
# Addresses of machines

* An IPv6 address is eight groups of hexadecimal digits, some of which a double colon may stand for;
* an IPv4 address is four bytes. `ofDecimalBytes?` reads them where each is written out, and `ipv4?` in
  the wider form of a host: up to four numbers of any base, of which the last fills what is left.
-/

namespace Timetable.Web

/-! ## IPv6 addresses -/

def isGroup (cs : List Char) : Bool :=
  1 ≤ cs.length && cs.length ≤ 4 && cs.all fun c => (Text.hexValue? c).isSome

def isDecimalByte (cs : List Char) : Bool :=
  cs.all Char.isDigit &&
    match cs with
    | [] => false
    | ['0'] => true
    | '0' :: _ => false
    | _ => cs.length ≤ 3 && Text.ofDigits cs < 256

/-- The address that four decimal bytes are. -/
def ofDecimalBytes? (cs : List Char) : Option Nat :=
  let bytes := Text.splitAtAll (· == '.') cs
  if bytes.length = 4 ∧ bytes.all isDecimalByte then
    some (bytes.foldl (fun address b => address * 256 + Text.ofDigits b) 0)
  else none

/-- The number of 16-bit groups that the parts stand for; the last may be four decimal bytes. -/
def groupCount? : List (List Char) → Option Nat
  | [] => some 0
  | [last] =>
    if isGroup last then some 1
    else (ofDecimalBytes? last).map fun _ => 2
  | part :: parts => if isGroup part then (groupCount? parts).map (· + 1) else none

/-- The text before and behind a double colon. -/
def splitAtGap : List Char → Option (List Char × List Char)
  | ':' :: ':' :: rest => some ([], rest)
  | c :: rest => (splitAtGap rest).map fun p => (c :: p.1, p.2)
  | [] => none

def groupsOf (cs : List Char) : List (List Char) := if cs = [] then [] else Text.splitAtAll (· == ':') cs

/-- Whether a text is an address of eight groups, some of which a double colon may stand for. -/
def isIpv6 (cs : List Char) : Bool :=
  match splitAtGap cs with
  | none => groupCount? (groupsOf cs) == some 8
  | some (before, behind) =>
    match groupCount? (groupsOf before), groupCount? (groupsOf behind) with
    | some m, some n => m + n ≤ 7 && !before.contains '.'
    | _, _ => false

/-! ## IPv4 addresses -/

/-- A number in an address: hexadecimal behind `0x`, octal behind another zero, else decimal. -/
def addressNumber? : List Char → Option Nat
  | [] => none
  | '0' :: d :: ds =>
    if d = 'x' ∨ d = 'X' then Text.ofHex? ds
    else if (d :: ds).all fun c => '0' ≤ c && c ≤ '7' then some (Nat.ofDigitChars 8 (d :: ds) 0)
    else none
  | ds => if ds.all Char.isDigit then some (Text.ofDigits ds) else none

/-- The labels of a name, without an empty one at the end. -/
def labels (name : List Char) : List (List Char) :=
  let parts := Text.splitAtAll (· == '.') name
  if parts.getLast? = some [] then parts.dropLast else parts

def endsInNumber (labels : List (List Char)) : Bool :=
  labels.getLast?.any fun last =>
    (last ≠ [] && last.all Char.isDigit) || (addressNumber? last).isSome

/-- The address that up to four numbers stand for: a byte each, and the last one what is left. -/
def ipv4? (labels : List (List Char)) : Option Nat := do
  let numbers ← labels.mapM addressNumber?
  let last ← numbers.getLast?
  let space := Nat.pow 256 (5 - numbers.length)
  if numbers.length ≤ 4 ∧ numbers.dropLast.all (· < 256) ∧ last < space then
    some (numbers.dropLast.foldl (fun address n => address * 256 + n) 0 * space + last)
  else none

example : isIpv6 "::ffff:1.2.3.4".toList = true := by decide +kernel
example : isIpv6 "1:2:3:4:5:6:7:8::".toList = false := by decide +kernel
example : ofDecimalBytes? "127.0.0.1".toList = some 0x7f000001 := by decide +kernel
example : ofDecimalBytes? "127.0.0.01".toList = none := by decide +kernel
example : ipv4? (labels "0x7f.1".toList) = some 0x7f000001 := by decide +kernel

end Timetable.Web
