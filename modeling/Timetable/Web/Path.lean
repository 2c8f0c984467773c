import Timetable.Web.Percent

/-!
# Paths

A path is the list of its segments; its text has a slash in front of each. The segments `.` and `..`,
also in their encoded forms, are not kept: they stay where they are, or go up by one.
-/

namespace Timetable.Web

def isTabOrNewline (c : Char) : Bool := c == '\t' || c == '\n' || c == '\r'

abbrev Path := List (List Char)

namespace Path

def chars (p : Path) : List Char := p.flatMap ('/' :: ·)

/-- The path of which the text is a slash. -/
def root : Path := [[]]

def singleDots : List String := [".", "%2e", "%2E"]

def doubleDots : List String :=
  ["..", "%2e%2e", "%2e%2E", "%2E%2e", "%2E%2E", "%2e.", "%2E.", ".%2e", ".%2E"]

def isSingleDot (segment : List Char) : Bool := singleDots.any (·.toList == segment)

def isDoubleDot (segment : List Char) : Bool := doubleDots.any (·.toList == segment)

/-- A letter with a colon or bar behind it; going up does not leave it. -/
def isDriveLetter : List Char → Bool
  | [letter, mark] => letter.isAlpha && (mark == ':' || mark == '|')
  | _ => false

def up (p : Path) : Path := if p.getLast?.any isDriveLetter then p else p.dropLast

/-- Goes through a segment that another one follows. -/
def enter (p : Path) (segment : List Char) : Path :=
  if isDoubleDot segment then p.up else if isSingleDot segment then p else p ++ [segment]

/-- Ends a path with its last segment. -/
def close (p : Path) (segment : List Char) : Path :=
  if isDoubleDot segment || isSingleDot segment then p.enter segment ++ [[]] else p ++ [segment]

/-- The path that goes through some segments. -/
def through (segments : List (List Char)) : Path :=
  match segments.getLast? with
  | some last => (segments.dropLast.foldl enter []).close last
  | none => root

/-- Without an empty segment at the end. -/
def trimEnd (p : Path) : Path :=
  if p.length > 1 ∧ p.getLast? = some [] then p.dropLast else p

/-- With one more segment, which is encoded; the first one takes the place of an empty path. One or two dots as
such are left out. -/
def push (special : Bool) (p : Path) (segment : List Char) : Path :=
  if segment = ['.'] ∨ segment = ['.', '.'] then p
  else
    close (if p = root then [] else p)
      (percentEncode (segmentSet special) (segment.filter fun c => !isTabOrNewline c))

/-- With some more segments, one behind the other. -/
def pushAll (special : Bool) (p : Path) (segments : List String) : Path :=
  segments.foldl (fun p segment => p.push special segment.toList) p

end Path

end Timetable.Web
