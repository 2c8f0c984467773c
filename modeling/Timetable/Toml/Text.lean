import Timetable.Text.Hex

/-!
# Text in TOML

Text in double quotes has escapes, text in single quotes has none. In one quote of a kind text ends with its
line; in three it may go on over several, and the first line does not count if nothing is on it. Line
ends are line feeds alone.
-/

namespace Timetable.Toml

open Text

def isBlank (c : Char) : Bool := c == ' ' || c == '\t'

def isControl (c : Char) : Bool := c != '\t' && (c.toNat < 0x20 || c == '\x7f')

/-- The character with a number in hexadecimal digits. -/
def scalar? (digits : List Char) : Option Char := do
  let n ← ofHex? digits
  if n.isValidChar then some (Char.ofNat n) else none

/-- The character that a letter behind a backslash stands for. -/
def escaped? : Char → Option Char
  | 'b' => some '\x08'
  | 't' => some '\t'
  | 'n' => some '\n'
  | 'f' => some '\x0c'
  | 'r' => some '\r'
  | '"' => some '"'
  | '\\' => some '\\'
  | _ => none

/-- Characters in front of those that are read behind them. -/
def after (front : List Char) (p : List Char × List Char) : List Char × List Char := (front ++ p.1, p.2)

/-- A text in double quotes from behind the first, and what follows it. -/
def basicText : List Char → Option (List Char × List Char)
  | '"' :: rest => some ([], rest)
  | '\\' :: 'u' :: a :: b :: c :: d :: rest => do
    let x ← scalar? [a, b, c, d]
    (basicText rest).map (after [x])
  | '\\' :: 'U' :: a :: b :: c :: d :: e :: f :: g :: h :: rest => do
    let x ← scalar? [a, b, c, d, e, f, g, h]
    (basicText rest).map (after [x])
  | '\\' :: c :: rest => do
    let x ← escaped? c
    (basicText rest).map (after [x])
  | c :: rest => if isControl c then none else (basicText rest).map (after [c])
  | [] => none

/-- A text in single quotes from behind the first, and what follows it. -/
def literalText : List Char → Option (List Char × List Char)
  | '\'' :: rest => some ([], rest)
  | c :: rest => if isControl c then none else (literalText rest).map (after [c])
  | [] => none

/-! ## Text over several lines -/

/-- What follows three closing quotes: up to two more belong to the text. -/
def closeMultiline (quote : Char) : List Char → List Char × List Char
  | a :: b :: rest =>
    if a == quote && b == quote then ([a, b], rest)
    else if a == quote then ([a], b :: rest)
    else ([], a :: b :: rest)
  | [a] => if a == quote then ([a], []) else ([], [a])
  | [] => ([], [])

/-- Whether nothing more is on a line that another one follows. -/
def endsLine (cs : List Char) : Bool := (cs.dropWhile isBlank).head? == some '\n'

/-- A text in three double quotes from behind them, and what follows it. A backslash at the end of a line
leaves out everything up to the next visible character; `skips` is where that goes on. -/
def multilineBasicText (skips : Bool) : List Char → Option (List Char × List Char)
  | '"' :: '"' :: '"' :: rest => some (closeMultiline '"' rest)
  | '\\' :: 'u' :: a :: b :: c :: d :: rest => do
    let x ← scalar? [a, b, c, d]
    (multilineBasicText false rest).map (after [x])
  | '\\' :: 'U' :: a :: b :: c :: d :: e :: f :: g :: h :: rest => do
    let x ← scalar? [a, b, c, d, e, f, g, h]
    (multilineBasicText false rest).map (after [x])
  | '\\' :: c :: rest =>
    if endsLine (c :: rest) then multilineBasicText true (c :: rest)
    else do
      let x ← escaped? c
      (multilineBasicText false rest).map (after [x])
  | c :: rest =>
    if skips && (isBlank c || c == '\n') then multilineBasicText true rest
    else if c != '\n' && isControl c then none
    else (multilineBasicText false rest).map (after [c])
  | [] => none

/-- A text in three single quotes from behind them, and what follows it. -/
def multilineLiteralText : List Char → Option (List Char × List Char)
  | '\'' :: '\'' :: '\'' :: rest => some (closeMultiline '\'' rest)
  | c :: rest =>
    if c != '\n' && isControl c then none else (multilineLiteralText rest).map (after [c])
  | [] => none

/-- Without a first line that nothing is on. -/
def dropFirstLineEnd : List Char → List Char
  | '\n' :: rest => rest
  | cs => cs

/-- A text in quotes of any kind, and what follows it. -/
def quotedText? : List Char → Option (List Char × List Char)
  | '"' :: '"' :: '"' :: rest => multilineBasicText false (dropFirstLineEnd rest)
  | '\'' :: '\'' :: '\'' :: rest => multilineLiteralText (dropFirstLineEnd rest)
  | '"' :: rest => basicText rest
  | '\'' :: rest => literalText rest
  | _ => none

example : quotedText? "\"\\u00e9\\t\"x".toList = some ("é\t".toList, ['x']) := by decide +kernel
example : quotedText? "\"\"\"\nab\\ \n  c\"\"\"\"".toList = some ("abc\"".toList, []) := by decide +kernel
example : quotedText? "'''a\n'b'''".toList = some ("a\n'b".toList, []) := by decide +kernel
example : quotedText? "'a\nb'".toList = none := by decide +kernel

end Timetable.Toml
