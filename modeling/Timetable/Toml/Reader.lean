import Timetable.Toml.Document
import Timetable.Toml.Scalar

/-!
# Reading TOML

A header in brackets opens a table, in double brackets one more of a list of tables; `key = value` puts a
value into the open table, and `#` starts a comment. `Toml.ofText?` gives the table of a text.

Readers that go on for as long as there is more of the same have a bound for the number of steps, which
is the length of the text. Lists and tables in values nest up to a depth.
-/

namespace Timetable.Toml

def skipBlanks (cs : List Char) : List Char := cs.dropWhile isBlank

/-- What follows a comment. A comment has no control characters. -/
def skipComment : List Char → Option (List Char)
  | '#' :: rest =>
    let rest := rest.dropWhile fun c => !isControl c
    if rest = [] ∨ rest.head? = some '\n' then some rest else none
  | cs => some cs

/-- The next line, if nothing but a comment is left on this one. -/
def nextLine? (cs : List Char) : Option (List Char) := do
  match ← skipComment (skipBlanks cs) with
  | [] => some []
  | '\n' :: rest => some rest
  | _ => none

/-- Leaves out blanks, line ends and comments. -/
def skipLines : Nat → List Char → Option (List Char)
  | 0, cs => some cs
  | steps + 1, cs =>
    match skipBlanks cs with
    | '\n' :: rest => skipLines steps rest
    | '#' :: rest => do skipLines steps (← skipComment ('#' :: rest))
    | rest => some rest

/-! ## Keys -/

def isKeyChar (c : Char) : Bool := c.isAlphanum || c == '-' || c == '_'

def simpleKey? : List Char → Option (String × List Char)
  | '"' :: rest => (basicText rest).map fun p => (String.ofList p.1, p.2)
  | '\'' :: rest => (literalText rest).map fun p => (String.ofList p.1, p.2)
  | cs =>
    match cs.takeWhile isKeyChar with
    | [] => none
    | key => some (String.ofList key, cs.dropWhile isKeyChar)

/-- Keys with points between them, at most `limit`, and what follows them and blanks. -/
def keys? : Nat → List Char → Option (List String × List Char)
  | 0, _ => none
  | limit + 1, cs => do
    let (key, rest) ← simpleKey? (skipBlanks cs)
    match skipBlanks rest with
    | '.' :: rest => (keys? limit rest).map fun p => (key :: p.1, p.2)
    | rest => some ([key], rest)

/-- How many keys there may be in a path, and how deep values nest. -/
def deepest : Nat := 79

/-! ## Values -/

/-- How a value is read. -/
abbrev Reads := List Char → Option (Setting × List Char)

/-- The items of a list up to its closing bracket. The last one may have a comma behind it. -/
def readItems? (read : Reads) : Nat → List Char → Option (List Setting × List Char)
  | 0, _ => none
  | steps + 1, cs => do
    match ← skipLines cs.length cs with
    | ']' :: rest => some ([], rest)
    | cs =>
      let (v, cs) ← read cs
      match ← skipLines cs.length cs with
      | ',' :: rest => (readItems? read steps rest).map fun p => (v :: p.1, p.2)
      | ']' :: rest => some ([v], rest)
      | _ => none

/-- A path and the value behind an equals sign, and what follows blanks behind it. -/
def readPair? (read : Reads) (cs : List Char) : Option ((List String × Setting) × List Char) := do
  match ← keys? deepest cs with
  | (path, '=' :: rest) =>
    let (v, rest) ← read (skipBlanks rest)
    return ((path, v), skipBlanks rest)
  | _ => none

/-- The pairs of a table in braces up to the closing one, on one line. -/
def readPairs? (read : Reads) (node : Node) : Nat → List Char → Option (Node × List Char)
  | 0, _ => none
  | steps + 1, cs => do
    let ((path, v), cs) ← readPair? read cs
    let node ← node.define? path v
    match cs with
    | ',' :: rest => readPairs? read node steps rest
    | '\x7d' :: rest => some (node, rest)
    | _ => none

/-- The value at the front of a text, and what follows it. -/
def readValue? : Nat → Reads
  | room, cs =>
    match quotedText? cs with
    | some (text, rest) => some (.text (String.ofList text), rest)
    | none =>
      match room, cs with
      | room + 1, '[' :: rest =>
        (readItems? (readValue? room) rest.length rest).map fun p => (.list p.1, p.2)
      | room + 1, '\x7b' :: rest =>
        match skipBlanks rest with
        | '\x7d' :: rest => some (.table [], rest)
        | _ => (readPairs? (readValue? room) .empty rest.length rest).map fun p => (p.1.setting, p.2)
      | _, _ => readScalar? cs

/-! ## Documents -/

/-- What a header opens, and what follows its closing bracket. -/
def readHeader? (d : Document) (cs : List Char) : Option (Document × List Char) := do
  match ← keys? deepest cs with
  | (path, ']' :: rest) => return (← d.openTable? path, rest)
  | _ => none

def readElementHeader? (d : Document) (cs : List Char) : Option (Document × List Char) := do
  match ← keys? deepest cs with
  | (path, ']' :: ']' :: rest) => return (← d.openElement? path, rest)
  | _ => none

/-- Reads on from the start of a line, which is not empty. -/
def readLine? (d : Document) (cs : List Char) : Option (Document × List Char) := do
  match cs with
  | '[' :: '[' :: rest => readElementHeader? d rest
  | '[' :: rest => readHeader? d rest
  | cs =>
    let ((path, v), rest) ← readPair? (readValue? deepest) cs
    return (← d.define? path v, rest)

def readLines? : Nat → Document → List Char → Option Document
  | 0, _, _ => none
  | steps + 1, d, cs => do
    match ← skipLines cs.length cs with
    | [] => some d
    | cs =>
      let (d, rest) ← readLine? d cs
      readLines? steps d (← nextLine? rest)

/-- Every line end as a line feed. -/
def withLineFeeds : List Char → List Char
  | '\r' :: '\n' :: rest => '\n' :: withLineFeeds rest
  | c :: rest => c :: withLineFeeds rest
  | [] => []

/-- Without the mark that a text may begin with. -/
def dropMark : List Char → List Char
  | '\ufeff' :: rest => rest
  | cs => cs

/-- The table of a text. -/
def ofText? (text : String) : Option Setting :=
  let cs := withLineFeeds (dropMark text.toList)
  (readLines? (cs.length + 1) {} cs).map (·.setting)

example : ((ofText? "a = 1 # one\n[b]\nc.d = 'x'").bind (·.member? "b")).any
    (·.member? "c" |>.isSome) = true := by decide +kernel
example : (ofText? "a = 1\na = 2").isNone = true := by decide +kernel
example : (ofText? "[b\n").isNone = true := by decide +kernel
example : (ofText? "[[a]]\n[a.b]\n[[a]]\n[a.b]").isSome = true := by decide +kernel

end Timetable.Toml
