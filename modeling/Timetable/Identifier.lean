import Timetable.Text.Hex

/-!
# Identifiers

128-bit identifiers, written as 32 hexadecimal digits in five groups. The `n`-th identifier that a
run hands out is the number `n` with the version and variant bits of a random identifier.
-/

namespace Timetable

structure Identifier where
  value : Nat
  bounded : value < 0x100000000000000000000000000000000 := by decide
deriving DecidableEq

namespace Identifier

open Text

instance : Inhabited Identifier := ⟨{ value := 0 }⟩

/-- A number in units of `unit`, up to multiples of `limit`. -/
private def field (n unit limit : Nat) : Nat := n / unit % limit

/-- The `n`-th identifier of a run: version 4 in bits 76 to 79, variant 2 in bits 62 and 63. -/
def generated (n : Nat) : Identifier where
  value :=
    0x40000000000000000000 + 0x8000000000000000 + field n 1 0x4000000000000000 +
      field n 0x10000000000000000 0x1000 * 0x10000000000000000 +
      field n 0x100000000000000000000 0x1000000000000 * 0x100000000000000000000
  bounded := by simp only [field]; omega

/-! ## Writing -/

def chars (id : Identifier) : List Char :=
  hexDigits 8 (id.value / 0x1000000000000000000000000) ++
    '-' :: hexDigits 4 (id.value / 0x100000000000000000000) ++
    '-' :: hexDigits 4 (id.value / 0x10000000000000000) ++
    '-' :: hexDigits 4 (id.value / 0x1000000000000) ++ '-' :: hexDigits 12 id.value

def text (id : Identifier) : String := String.ofList id.chars

/-! ## Reading -/

def ofDigits? (cs : List Char) : Option Identifier := do
  let n ← ofHex? cs
  if h : cs.length = 32 ∧ n < 0x100000000000000000000000000000000 then some ⟨n, h.2⟩ else none

/-- Drops the hyphens between groups of the given lengths. -/
def ungroup : List Nat → List Char → Option (List Char)
  | [], _ => none
  | [n], cs => if cs.length = n then some cs else none
  | n :: m :: ns, cs =>
    match cs.drop n with
    | '-' :: rest => (ungroup (m :: ns) rest).map (cs.take n ++ ·)
    | _ => none

def ofGroups? (cs : List Char) : Option Identifier := ungroup [8, 4, 4, 4, 12] cs >>= ofDigits?

/-- Plain digits, groups, groups in braces, or groups behind `urn:uuid:`. -/
def ofChars? (cs : List Char) : Option Identifier :=
  if cs.length = 32 then ofDigits? cs
  else if cs.length = 38 ∧ cs.head? = some '\x7b' ∧ cs.getLast? = some '\x7d' then
    ofGroups? (cs.drop 1).dropLast
  else if "urn:uuid:".toList.isPrefixOf cs then ofGroups? (cs.drop 9)
  else ofGroups? cs

def ofText? (s : String) : Option Identifier := ofChars? s.toList

example : (generated 1).chars = "00000000-0000-4000-8000-000000000001".toList := by decide
example : ofChars? "00000000-0000-4000-8000-0000000000AA".toList = some (generated 170) := by decide
example : ofChars? "00000000_0000_4000_8000_0000000000aa".toList = none := by decide

end Identifier

end Timetable
