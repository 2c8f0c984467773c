import Timetable.Act
import Timetable.Json.Reader
import Timetable.Text.Digits

/-!
# Requests and answers

One request to a web server and what comes back. A `Server ω` answers requests and keeps a state.
-/

namespace Timetable.Web

inductive Method where
  | head
  | post
deriving DecidableEq, Repr

def Method.text : Method → String
  | head => "HEAD"
  | post => "POST"

structure Request where
  method : Method
  /-- The path and query that are asked for. -/
  target : String
  /-- The JSON text that is sent along. -/
  body : Option String := none
deriving DecidableEq

/-- The type of the body. -/
def Request.contentType (r : Request) : Option String := r.body.map fun _ => "application/json"

/-- What the server reads in the body. -/
def Request.readBody? (r : Request) : Option Json := r.body >>= Json.ofText?

structure Response where
  status : Nat
  body : String := ""
  /-- Less comes than was promised. -/
  isCut : Bool := false
deriving DecidableEq, Inhabited

/-- What comes of a request; none if no answer comes. -/
abbrev Server (ω : Type) := Request → ω → Option Response × ω

/-- A server that answers every request in the same way. -/
def Server.ofFunction (answer : Request → Option Response) : Server Unit := fun r s => (answer r, s)

/-- Status codes without a body. -/
def isBodiless (status : Nat) : Bool := status == 101 || status == 204 || status == 304

/-- Whether a status code is the end of an exchange. It has three digits, and of those below 200, which
announce an answer that is still to come, only a switch of protocols is one. -/
def isFinal (status : Nat) : Bool := status == 101 || 200 ≤ status && status < 1000

def isSuccess (status : Nat) : Bool := 200 ≤ status && status < 300

/-- The phrases of the status codes that have one. -/
def statusPhrases : List (Nat × String) :=
  [(100, "Continue"), (101, "Switching Protocols"), (102, "Processing"), (200, "OK"),
    (201, "Created"), (202, "Accepted"), (203, "Non Authoritative Information"),
    (204, "No Content"), (205, "Reset Content"), (206, "Partial Content"), (207, "Multi-Status"),
    (208, "Already Reported"), (226, "IM Used"), (300, "Multiple Choices"),
    (301, "Moved Permanently"), (302, "Found"), (303, "See Other"), (304, "Not Modified"),
    (305, "Use Proxy"), (307, "Temporary Redirect"), (308, "Permanent Redirect"),
    (400, "Bad Request"), (401, "Unauthorized"), (402, "Payment Required"), (403, "Forbidden"),
    (404, "Not Found"), (405, "Method Not Allowed"), (406, "Not Acceptable"),
    (407, "Proxy Authentication Required"), (408, "Request Timeout"), (409, "Conflict"),
    (410, "Gone"), (411, "Length Required"), (412, "Precondition Failed"),
    (413, "Payload Too Large"), (414, "URI Too Long"), (415, "Unsupported Media Type"),
    (416, "Range Not Satisfiable"), (417, "Expectation Failed"), (418, "I'm a teapot"),
    (421, "Misdirected Request"), (422, "Unprocessable Entity"), (423, "Locked"),
    (424, "Failed Dependency"), (426, "Upgrade Required"), (428, "Precondition Required"),
    (429, "Too Many Requests"), (431, "Request Header Fields Too Large"),
    (451, "Unavailable For Legal Reasons"), (500, "Internal Server Error"),
    (501, "Not Implemented"), (502, "Bad Gateway"), (503, "Service Unavailable"),
    (504, "Gateway Timeout"), (505, "HTTP Version Not Supported"),
    (506, "Variant Also Negotiates"), (507, "Insufficient Storage"), (508, "Loop Detected"),
    (510, "Not Extended"), (511, "Network Authentication Required")]

def statusText (status : Nat) : String :=
  Text.natText status ++ " " ++ (statusPhrases.lookup status).getD "<unknown status code>"

/-! ## Servers for trying out -/

/-- A server that gives some answers in order and then none, with the requests it got. -/
structure Rehearsed where
  answers : List (Option Response)
  requests : List Request := []
deriving Inhabited

def Rehearsed.server : Server Rehearsed := fun r s =>
  (s.answers.head?.join, ⟨s.answers.drop 1, s.requests ++ [r]⟩)

end Timetable.Web
