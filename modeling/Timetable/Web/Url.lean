import Timetable.Web.Host
import Timetable.Web.Path

/-!
# URLs

As much of a URL as it takes to find a server and to address something below a path: a scheme, a user,
a host, a port, a path and a query. `Location.ofText` reads one, and says what is wrong with a text
that is none.

In the schemes of the web and of files a backslash is a slash, and a host is a domain name.
-/

namespace Timetable.Web

inductive UrlError where
  | relative
  | host (e : HostError)
  | invalidPort
deriving DecidableEq, Repr

def UrlError.message : UrlError → String
  | relative => "relative URL without a base"
  | host e => e.message
  | invalidPort => "invalid port number"

structure Url where
  scheme : String
  /-- What stands before an `@`. -/
  user : List Char := []
  host : Option Host := none
  /-- The port, where it is not the usual one of the scheme. -/
  port : Option Nat := none
  path : Path
  query : Option (List Char) := none
deriving DecidableEq

/-- A URL that nothing is below. -/
structure OpaqueUrl where
  scheme : String
  path : List Char
  query : Option (List Char)
  fragment : Option (List Char)
deriving DecidableEq

/-- What a text is read as. -/
inductive Location where
  | url (u : Url)
  | opaqueUrl (u : OpaqueUrl)
deriving DecidableEq

/-! ## Parts -/

def defaultPort? : String → Option Nat
  | "http" | "ws" => some 80
  | "https" | "wss" => some 443
  | "ftp" => some 21
  | _ => none

/-- The schemes that have a usual port. -/
def isWebScheme (scheme : String) : Bool := (defaultPort? scheme).isSome

/-- The schemes in which a backslash is a slash and no path is empty. -/
def isSpecial (scheme : String) : Bool := isWebScheme scheme || scheme == "file"

/-- A port, if there are digits for one. -/
def readPort (scheme : String) (cs : List Char) : Except UrlError (Option Nat) :=
  let port := Text.ofDigits cs
  if !cs.all Char.isDigit ∨ 65535 < port then .error .invalidPort
  else .ok (if cs = [] ∨ some port = defaultPort? scheme then none else some port)

/-- The text before the last `@`, and what is behind it. -/
def splitUser (authority : List Char) : List Char × List Char :=
  let address := (authority.reverse.takeWhile (· != '@')).reverse
  ((authority.take (authority.length - address.length)).dropLast, address)

/-- Cuts an address at the colon before its port, which is outside of brackets. -/
def cutAtPort (inBrackets : Bool) : List Char → List Char × Option (List Char)
  | [] => ([], none)
  | c :: cs =>
    if c == ':' && !inBrackets then ([], some cs)
    else
      let (host, port) := cutAtPort (if c == '[' then true else if c == ']' then false else inBrackets) cs
      (c :: host, port)

/-- Reads a host, of which only a scheme beyond the web may have none. -/
def readHost (web : Bool) (cs : List Char) : Except HostError (Option Host) :=
  if cs = [] then if web then .error .empty else .ok none
  else some <$> (if web then Host.ofDomain cs else Host.ofName cs)

/-- A URL with the path and query that a text is. Only a URL beyond the web may go without a path. -/
def Url.withRest (u : Url) (splits : Char → Bool) (rest : List Char) : Url :=
  let (path, query) := Text.cutAt '?' (Text.cutAt '#' rest).1
  let parts := (Text.splitAtAll splits path).map (percentEncode pathSet)
  { u with
    path :=
      if path = [] ∧ !isSpecial u.scheme then []
      else .through (if path.head?.any splits then parts.drop 1 else parts)
    query := query.map (percentEncode querySet) }

def isSlash (c : Char) : Bool := c == '/'

def isEitherSlash (c : Char) : Bool := c == '/' || c == '\\'

/-! ## Reading -/

/-- What stands behind the two slashes of a URL with an authority. -/
def readAuthority (scheme : String) (cs : List Char) : Except UrlError Url := do
  let web := isWebScheme scheme
  let splits := if web then isEitherSlash else isSlash
  let ends (c : Char) : Bool := splits c || c == '?' || c == '#'
  let authority := cs.takeWhile (!ends ·)
  let rest := cs.dropWhile (!ends ·)
  let (user, address) := splitUser authority
  let (name, behind) := cutAtPort false address
  if authority = ['@'] ∧ rest ≠ [] then throw (.host .empty)
  let host ← (readHost web name).mapError .host
  if host = none ∧ behind.isSome then throw (.host .empty)
  let digits := (behind.getD []).takeWhile (!isEitherSlash ·)
  let port ← readPort scheme digits
  if host = none ∧ user ≠ [] ∧ user ≠ [':'] then throw (.host .empty)
  let u : Url := { scheme, user, host, port, path := .root }
  return u.withRest splits ((behind.getD []).drop digits.length ++ rest)

/-- What stands behind `file:`, which has a host only behind two slashes. -/
def readFile (cs : List Char) : Except UrlError Url := do
  let u : Url := { scheme := "file", path := .root }
  let ends (c : Char) : Bool := isEitherSlash c || c == '?' || c == '#'
  match cs with
  | a :: b :: behind =>
    let name := behind.takeWhile (!ends ·)
    if !(isEitherSlash a && isEitherSlash b) then return u.withRest isEitherSlash cs
    else if name = [] ∨ Path.isDriveLetter name then return u.withRest isEitherSlash behind
    else
      let host ← (Host.ofDomain name).mapError .host
      return { u with host }.withRest isEitherSlash (behind.dropWhile (!ends ·))
  | _ => return u.withRest isEitherSlash cs

def readOpaque (scheme : String) (cs : List Char) : OpaqueUrl :=
  let (rest, fragment) := Text.cutAt '#' cs
  let (path, query) := Text.cutAt '?' rest
  { scheme
    path := percentEncode [] path
    query := query.map (percentEncode opaqueQuerySet)
    fragment := fragment.map (percentEncode fragmentSet) }

def isSchemeChar (c : Char) : Bool := c.isAlphanum || c == '+' || c == '-' || c == '.'

/-- What stands behind the colon of a scheme. -/
def readBehindScheme (scheme : String) (rest : List Char) : Except UrlError Location :=
  if isWebScheme scheme then .url <$> readAuthority scheme (rest.dropWhile isEitherSlash)
  else if scheme = "file" then .url <$> readFile rest
  else
    match rest with
    | '/' :: '/' :: behind => .url <$> readAuthority scheme behind
    | '/' :: _ => .ok (.url (Url.withRest { scheme, path := .root } isSlash rest))
    | _ => .ok (.opaqueUrl (readOpaque scheme rest))

/-- Without control characters and blanks around it, and without tabs and line ends. -/
def cleaned (text : String) : List Char :=
  let isBlank (c : Char) : Bool := c.toNat ≤ 0x20
  ((text.toList.dropWhile isBlank).reverse.dropWhile isBlank).reverse.filter (!isTabOrNewline ·)

/-- Reads a URL. -/
def Location.ofText (text : String) : Except UrlError Location :=
  let cs := cleaned text
  let scheme := cs.takeWhile isSchemeChar
  match scheme.head?, cs.drop scheme.length with
  | some first, ':' :: rest =>
    if first.isAlpha then readBehindScheme (String.ofList (scheme.map Char.toLower)) rest
    else .error .relative
  | _, _ => .error .relative

/-! ## Writing -/

def withMark (mark : Char) : Option (List Char) → List Char
  | some cs => mark :: cs
  | none => []

def OpaqueUrl.text (u : OpaqueUrl) : String :=
  u.scheme ++ String.ofList (':' :: u.path ++ withMark '?' u.query ++ withMark '#' u.fragment)

/-- What a request for a URL names: its path and query. -/
def Url.target (u : Url) : String := String.ofList (u.path.chars ++ withMark '?' u.query)

example : ((Location.ofText "http://127.1:8080/a").toOption) =
    some (.url { scheme := "http", host := some loopback, port := some 8080, path := [['a']] }) := by
  decide +kernel

end Timetable.Web
