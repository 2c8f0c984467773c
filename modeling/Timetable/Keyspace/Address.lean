import Timetable.Web.Percent
import Timetable.Web.Url

/-!
# Addresses of brokers

The broker is at the host and port of a URL, whose path is the number of the database there, or at a
socket among the files. `BrokerAddress.ofUrl` says what is wrong with a URL that is no such address.
-/

namespace Timetable

open Web

inductive BrokerAddress where
  | server (place : Endpoint)
  /-- At a socket among the files. -/
  | socket
deriving DecidableEq

namespace BrokerAddress

/-- Whether a text is a signed 64-bit number. -/
def isWord (cs : List Char) : Bool :=
  let (negative, ds) : Bool × List Char := match cs with
    | '-' :: ds => (true, ds)
    | '+' :: ds => (false, ds)
    | _ => (false, cs)
  ds ≠ [] && ds.all Char.isDigit &&
    Text.ofDigits ds < 9223372036854775808 + (if negative then 1 else 0)

def trimSlashes (cs : List Char) : List Char :=
  ((cs.dropWhile (· == '/')).reverse.dropWhile (· == '/')).reverse

def checkDatabase (cs : List Char) : Except String Unit :=
  if cs = [] ∨ isWord cs then .ok () else .error "Invalid database number"

/-- Checks that an encoded part of a URL is text; `what` is its name. -/
def checkText (what : String) (cs : List Char) : Except String Unit :=
  if (percentText? cs).isSome then .ok () else .error (what ++ " is not valid UTF-8 string")

def checkUser (u : Url) : Except String Unit := do
  let (user, password) := Text.cutAt ':' u.user
  checkText "Username" user
  checkText "Password" (password.getD [])

def ofServerUrl (u : Url) : Except String BrokerAddress := do
  let some host := u.host | .error "Missing hostname"
  if u.scheme = "rediss" then throw "can't connect with TLS, the feature is not enabled"
  checkDatabase (trimSlashes u.path.chars)
  checkUser u
  return .server ⟨host.resolved, u.port.getD 6379⟩

/-- A socket has its place in the path of a URL, and the number of the database in the query. -/
def ofSocketUrl (u : Url) : Except String BrokerAddress := do
  if u.path = [] ∨ u.host.any (·.text ≠ "localhost".toList) then throw "Missing path"
  match (parameters (u.query.getD [])).reverse.lookup "db".toList with
  | some number => if isWord number then return .socket else throw "Invalid database number"
  | none => return .socket

def unread : Except String BrokerAddress := .error "Redis URL did not parse"

def ofUrl (text : String) : Except String BrokerAddress :=
  match Location.ofText text with
  | .ok (.url u) =>
    match u.scheme with
    | "redis" | "rediss" => ofServerUrl u
    | "unix" | "redis+unix" => ofSocketUrl u
    | _ => unread
  | .ok (.opaqueUrl u) =>
    match u.scheme with
    | "redis" | "rediss" => .error "Missing hostname"
    | "unix" | "redis+unix" => .error "Missing path"
    | _ => unread
  | .error _ => unread

end BrokerAddress

end Timetable
