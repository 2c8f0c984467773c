/-!
# Cutting text, and lower case

* `Text.trim` removes blanks, the characters with the property `White_Space`, at both ends;
* `Text.words` are the runs of other characters, in order;
* `Text.splitAtAll` gives the parts between all characters of a kind;
* `Text.cutAt` cuts a text at the first of one character;
* `Text.lower` is a text in lower case, as far as plain letters come of it: those of the alphabet, and the sign of a unit
  of temperature, of which the lower-case form is a plain letter too.
-/

namespace Timetable.Text

/-! ## Blanks -/

/-- The `White_Space` property of characters. -/
def isBlank (c : Char) : Bool :=
  (0x09 ≤ c.val && c.val ≤ 0x0d) || c.val == 0x20 || c.val == 0x85 || c.val == 0xa0 ||
    c.val == 0x1680 || (0x2000 ≤ c.val && c.val ≤ 0x200a) || c.val == 0x2028 ||
    c.val == 0x2029 || c.val == 0x202f || c.val == 0x205f || c.val == 0x3000

def trimStart (cs : List Char) : List Char := cs.dropWhile isBlank

def trimEnd (cs : List Char) : List Char := (cs.reverse.dropWhile isBlank).reverse

def trim (cs : List Char) : List Char := trimEnd (trimStart cs)

/-- One character more in front of the words that follow it: a blank closes the word to its
left, any other character joins the word to its right. -/
private def wordStep (c : Char) : List (List Char) → List (List Char)
  | [] => if isBlank c then [[]] else [[c]]
  | w :: ws => if isBlank c then [] :: w :: ws else (c :: w) :: ws

/-- The maximal runs of characters that are not blank. -/
def words (cs : List Char) : List (List Char) :=
  (cs.foldr wordStep []).filter (!·.isEmpty)

def trimText (s : String) : String := String.ofList (trim s.toList)

example : trim " \u00a0a b\n".toList = "a b".toList := by decide
example : words " ab\u3000 c\td ".toList = ["ab".toList, "c".toList, "d".toList] := by decide
example : words " \n".toList = [] := by decide

/-! ## Cutting -/

/-- The parts of a text between the characters that split it. -/
def splitAtAll (splits : Char → Bool) : List Char → List (List Char)
  | [] => [[]]
  | c :: cs =>
    match splitAtAll splits cs with
    | part :: parts => if splits c then [] :: part :: parts else (c :: part) :: parts
    | [] => [[c]]

/-- Cuts a text at the first of a character. -/
def cutAt (mark : Char) (cs : List Char) : List Char × Option (List Char) :=
  match cs.dropWhile (· != mark) with
  | _ :: behind => (cs.takeWhile (· != mark), some behind)
  | [] => (cs, none)

example : splitAtAll (· == ',') "a,,b".toList = [['a'], [], ['b']] := by decide
example : cutAt '=' "a=b=c".toList = (['a'], some "b=c".toList) := by decide
example : cutAt '=' "a".toList = (['a'], none) := by decide

/-! ## Lower case -/

def lowerChar (c : Char) : Char := if c == '\u212a' then 'k' else c.toLower

def lower (s : String) : String := String.ofList (s.toList.map lowerChar)

example : lower "S\u212aIP" = "skip" := by decide +kernel

end Timetable.Text
