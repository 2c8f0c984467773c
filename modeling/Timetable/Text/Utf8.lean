/-!
# Bytes that are no text

Where the UTF-8 form of a text breaks off or goes wrong: `Text.utf8Fault?` finds the first such place
in some bytes, and `Text.mended` puts a mark in each.
-/

namespace Timetable.Text

inductive Utf8Fault where
  /-- At an index so many bytes start a character that does not go on as it should. -/
  | invalid (index count : Nat)
  /-- The bytes end within the character at an index. -/
  | incomplete (index : Nat)
deriving DecidableEq, Repr

def Utf8Fault.message : Utf8Fault → String
  | invalid index count => s!"invalid utf-8 sequence of {count} bytes from index {index}"
  | incomplete index => s!"incomplete utf-8 byte sequence from index {index}"

/-- The bounds of the bytes that follow the first byte of a character. -/
def followers? (b : Nat) : Option (List (Nat × Nat)) :=
  let any := (0x80, 0xbf)
  if b < 0x80 then some []
  else if b < 0xc2 then none
  else if b < 0xe0 then some [any]
  else if b = 0xe0 then some [(0xa0, 0xbf), any]
  else if b = 0xed then some [(0x80, 0x9f), any]
  else if b < 0xf0 then some [any, any]
  else if b = 0xf0 then some [(0x90, 0xbf), any, any]
  else if b < 0xf4 then some [any, any, any]
  else if b = 0xf4 then some [(0x80, 0x8f), any, any]
  else none

/-- Goes on at a byte of the character at an index, of which some are read and some wanted. -/
def faultFrom? (index read : Nat) : List (Nat × Nat) → List UInt8 → Option Utf8Fault
  | [], [] => none
  | _ :: _, [] => some (.incomplete index)
  | [], b :: bs =>
    match followers? b.toNat with
    | some wanted => faultFrom? (index + read) 1 wanted bs
    | none => some (.invalid (index + read) 1)
  | (low, high) :: wanted, b :: bs =>
    if low ≤ b.toNat ∧ b.toNat ≤ high then faultFrom? index (read + 1) wanted bs
    else some (.invalid index read)

def utf8Fault? (bytes : List UInt8) : Option Utf8Fault := faultFrom? 0 0 [] bytes

/-- The text that bytes are, if they are one. -/
def ofUtf8 (bytes : List UInt8) : List Char := ((String.fromUTF8? ⟨bytes.toArray⟩).getD "").toList

/-- The text of bytes, with a mark for each of so many faults. -/
def mendedTo : Nat → List UInt8 → List Char
  | 0, _ => []
  | faults + 1, bytes =>
    match utf8Fault? bytes with
    | none => ofUtf8 bytes
    | some (.incomplete index) => ofUtf8 (bytes.take index) ++ ['\ufffd']
    | some (.invalid index count) =>
      ofUtf8 (bytes.take index) ++ '\ufffd' :: mendedTo faults (bytes.drop (index + count))

/-- The text of bytes, with a mark for each place where they are none. -/
def mended (bytes : List UInt8) : List Char := mendedTo (bytes.length + 1) bytes

example : utf8Fault? [0x61, 0xc3, 0xa9, 0x62] = none := by decide
example : utf8Fault? [0x61, 0xff] = some (.invalid 1 1) := by decide
example : utf8Fault? [0x61, 0xe2, 0x82] = some (.incomplete 1) := by decide
example : utf8Fault? [0xf0, 0x9f, 0x98, 0x41] = some (.invalid 0 3) := by decide
example : mended [0x61, 0xff, 0xe2, 0x82, 0x62] = "a\ufffd\ufffdb".toList := by decide +kernel
example : utf8Fault? [0xed, 0xa0, 0x80] = some (.invalid 0 1) := by decide

end Timetable.Text
