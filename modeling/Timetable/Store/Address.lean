import Timetable.Text.Hex
import Timetable.Text.Utf8
import Timetable.Text.Digits
import Timetable.Web.Percent
import Timetable.Web.Url

/-!
# Addresses of databases

The server of a database is where the host and port of a URL say, unless parameters of its query say
something else; of two of these the later counts. `DatabaseAddress.ofUrl` also checks the other
parameters and the parts of the URL that have to be text.
-/

namespace Timetable

open Web

structure DatabaseAddress where
  host : List Char := "localhost".toList
  port : Nat := 5432
  /-- Whether the server is to be found at a socket among the files. -/
  atSocket : Bool := false
deriving DecidableEq

/-- What is wrong with a URL. -/
inductive AddressError where
  | url (e : UrlError)
  | text (e : Text.Utf8Fault)
  | number (e : Text.WordFault)
  | address
  | securityMode (value : List Char)
deriving DecidableEq

def AddressError.message (e : AddressError) : String :=
  "error with configuration: " ++ match e with
    | url e => e.message
    | text e => e.message
    | number e => e.message
    | address => "invalid IP address syntax"
    | securityMode value =>
      "error with configuration: unknown value " ++ Text.quoted value ++ " for `ssl_mode`"

namespace DatabaseAddress

/-- A host that starts with a slash is the place of a socket. -/
def withHost (a : DatabaseAddress) (host : List Char) : DatabaseAddress :=
  if host.head? = some '/' then { a with atSocket := true } else { a with host }

def securityModes : List String :=
  ["disable", "allow", "prefer", "require", "verify-ca", "verify-full"]

def readNumber (limit : Nat) (value : List Char) : Except AddressError Nat :=
  (Text.readWord limit value).mapError .number

def withParameter (a : DatabaseAddress) (name : String) (value : List Char) :
    Except AddressError DatabaseAddress :=
  match name with
  | "host" => .ok (a.withHost value)
  | "hostaddr" => if (Host.ofAddress? value).isSome then .ok { a with host := value } else .error .address
  | "port" => (fun port => { a with port }) <$> readNumber 65536 value
  | "sslmode" | "ssl-mode" =>
    if securityModes.contains (String.ofList (value.map Char.toLower)) then .ok a
    else .error (.securityMode value)
  | "statement-cache-capacity" => (fun _ => a) <$> readNumber 18446744073709551616 value
  | _ => .ok a

def withQuery (a : DatabaseAddress) (query : Option (List Char)) :
    Except AddressError DatabaseAddress :=
  (parameters (query.getD [])).foldlM (fun a p => a.withParameter (String.ofList p.1) p.2) a

/-- Checks that an encoded part of a URL is text. -/
def checkText (cs : List Char) : Except AddressError Unit :=
  match Text.utf8Fault? (percentDecode cs) with
  | some e => .error (.text e)
  | none => .ok ()

def checkPath (path : List Char) : Except AddressError Unit := checkText (path.dropWhile (· == '/'))

/-- The host of a URL, which has its slashes encoded where it is the place of a socket. -/
def ofHost (a : DatabaseAddress) (host : List Char) : Except AddressError DatabaseAddress :=
  if (percentDecode host).head? = some '/'.toUInt8 then
    (fun _ => { a with atSocket := true }) <$> checkText host
  else .ok { a with host }

def ofLocation : Location → Except AddressError DatabaseAddress
  | .opaqueUrl u => do
    checkPath u.path
    withQuery {} u.query
  | .url u => do
    let a : DatabaseAddress := { port := u.port.getD 5432 }
    let a ← match u.host with
      | some host => a.ofHost host.text
      | none => pure a
    let (user, password) := Text.cutAt ':' u.user
    checkText user
    checkText (password.getD [])
    checkPath u.path.chars
    a.withQuery u.query

def ofUrl (text : String) : Except AddressError DatabaseAddress := do
  ofLocation (← (Location.ofText text).mapError .url)

end DatabaseAddress

end Timetable
