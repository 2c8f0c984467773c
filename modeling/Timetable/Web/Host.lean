import Timetable.Text.Basic
import Timetable.Web.Address
import Timetable.Web.Percent
import Timetable.Web.Punycode

/-!
# Hosts

A host is a name or the address of a machine.

* `Host.ofDomain` reads a host as the schemes of the web do: percent-encoded, in any case, and an
  IPv4 address if its last label is a number;
* `Host.ofName` reads a host of any other scheme, of which the name is kept as it is.

Both read an IPv6 address in brackets.
-/

namespace Timetable.Web

inductive Host where
  | name (cs : List Char)
  | ipv4 (address : Nat)
  /-- With the text between the brackets. -/
  | ipv6 (text : List Char)
deriving DecidableEq, Repr

inductive HostError where
  | empty
  | invalidIpv4
  | invalidIpv6
  /-- No domain name. -/
  | invalidDomain
  /-- A character that no name has. -/
  | invalidCharacter
deriving DecidableEq, Repr

def HostError.message : HostError → String
  | empty => "empty host"
  | invalidIpv4 => "invalid IPv4 address"
  | invalidIpv6 => "invalid IPv6 address"
  | invalidDomain => "invalid international domain name"
  | invalidCharacter => "invalid domain character"

/-- Reads an address in brackets, from behind the first. -/
def ofBrackets (cs : List Char) : Except HostError Host :=
  if cs.getLast? = some ']' ∧ isIpv6 cs.dropLast then .ok (.ipv6 cs.dropLast) else .error .invalidIpv6

/-! ## Domain names -/

/-- Characters that leave no trace in a name. -/
def isIgnorable (c : Char) : Bool :=
  c == '\u00ad' || c == '\u034f' || c == '\u200b' || c == '\u2060' || c == '\ufeff' ||
    (0xfe00 ≤ c.toNat && c.toNat ≤ 0xfe0f) || (0xe0100 ≤ c.toNat && c.toNat ≤ 0xe01ef)

/-- The characters for which a character stands in a name: those of one case and width. -/
def foldName (c : Char) : List Char :=
  if isIgnorable c then []
  else if '\uff01' ≤ c ∧ c ≤ '\uff5e' then [(Char.ofNat (c.toNat - 0xfee0)).toLower]
  else if c == '\u3002' || c == '\uff61' then ['.']
  else if c == '\u212a' then ['k']
  else if c == '\u017f' then ['s']
  else [c.toLower]

/-- Characters that direct the text around them and are not seen themselves. -/
def isDirecting (n : Nat) : Bool :=
  n == 0x61c || (0x200c ≤ n && n ≤ 0x200f) || (0x202a ≤ n && n ≤ 0x202e) ||
    (0x2066 ≤ n && n ≤ 0x206f) || (0xfff9 ≤ n && n ≤ 0xfffd)

/-- Numbers that stand for no character, or for one of private use. -/
def isUnassigned (n : Nat) : Bool :=
  (0xe000 ≤ n && n ≤ 0xf8ff) || (0xfdd0 ≤ n && n ≤ 0xfdef) || 0xfffe ≤ n % 0x10000 || 0x40000 ≤ n

/-- The delimiters of a URL, and what is no visible character. -/
def isForbidden (c : Char) : Bool :=
  c.toNat < 0x20 || (0x7f ≤ c.toNat && c.toNat < 0xa0) || Text.isBlank c ||
    "%#/:<>?@[\\]^|".toList.contains c || isDirecting c.toNat || isUnassigned c.toNat

def isPlain (cs : List Char) : Bool := cs.all fun c => c.toNat < 0x80

/-- Whether a label that starts as an encoded one is one. -/
def isLabel : List Char → Bool
  | 'x' :: 'n' :: '-' :: '-' :: rest =>
    isPlain rest && (Punycode.decode? rest).any fun label =>
      !isPlain label && label.all fun c => foldName c = [c] && !isForbidden c
  | _ => true

def isDomain (name : List Char) : Bool :=
  !name.any isForbidden && (Text.splitAtAll (· == '.') name).all isLabel

/-- Reads the host of a scheme of the web. -/
def Host.ofDomain : List Char → Except HostError Host
  | '[' :: rest => ofBrackets rest
  | cs => do
    let some text := percentText? cs | .error .invalidDomain
    let name := text.toList.flatMap foldName
    if !isDomain name then .error .invalidDomain
    else if name = [] then .error .empty
    else if endsInNumber (labels name) then
      match ipv4? (labels name) with
      | some address => .ok (.ipv4 address)
      | none => .error .invalidIpv4
    else .ok (.name name)

/-- Reads the host of another scheme. -/
def Host.ofName : List Char → Except HostError Host
  | '[' :: rest => ofBrackets rest
  | cs =>
    if cs.any fun c => "\x00\t\n\r #/:<>?@[\\]^|".toList.contains c then .error .invalidCharacter
    else .ok (.name cs)

/-- The bytes of an address, the first one first. -/
def addressBytes (address : Nat) : List Nat :=
  [address / 16777216, address / 65536 % 256, address / 256 % 256, address % 256]

def Host.text : Host → List Char
  | name cs => cs
  | ipv4 address => ((addressBytes address).map Text.digits).intersperse ['.'] |>.flatten
  | ipv6 text => '[' :: text ++ [']']

/-! ## Finding a machine -/

/-- The machine of which a text is the address. -/
def Host.ofAddress? (cs : List Char) : Option Host :=
  match ofDecimalBytes? cs with
  | some address => some (.ipv4 address)
  | none => if isIpv6 cs then some (.ipv6 cs) else none

/-- The host that a machine is to itself. -/
def loopback : Host := .ipv4 0x7f000001

/-- The machine that goes by a name: a name that is an address is one, in the wider form too. -/
def Host.resolved : Host → Host
  | .name cs =>
    if cs.map Char.toLower = "localhost".toList then loopback
    else
      match ofAddress? cs, ipv4? (Text.splitAtAll (· == '.') cs) with
      | some host, _ => host
      | none, some address => .ipv4 address
      | none, none => .name cs
  | h => h

example : loopback.text = "127.0.0.1".toList := by decide +kernel

/-- Where a server listens. -/
structure Endpoint where
  host : Host
  port : Nat
deriving DecidableEq, Repr

example : (Host.ofDomain "127.0.0.1.".toList).toOption = some loopback := by decide +kernel
example : (Host.ofDomain "0x7F.1".toList).toOption = some loopback := by decide +kernel
example : (Host.ofDomain "1.2.3.256".toList).toOption = none := by decide +kernel
example : (Host.ofDomain "A%2e".toList).toOption = some (.name "a.".toList) := by decide +kernel
example : (Host.ofDomain "a%00".toList).toOption = none := by decide +kernel
example : (Host.ofDomain "xn--a".toList).toOption = none := by decide +kernel
example : (Host.name "127.1".toList).resolved = loopback := by decide +kernel
example : (Host.ofName "A%2e".toList).toOption = some (.name "A%2e".toList) := by decide +kernel

end Timetable.Web
