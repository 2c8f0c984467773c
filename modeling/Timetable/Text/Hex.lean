/-!
# Hexadecimal digits, and quoted text

Text between double quotes, as it is shown in messages, has quotes, backslashes and control characters written behind a
backslash (`Text.quoted`).
-/

namespace Timetable.Text

def hexDigit (n : Nat) : Char := "0123456789abcdef".toList.getD n '0'

/-- The last `width` hexadecimal digits of a number, in lower case. -/
def hexDigits : Nat → Nat → List Char
  | 0, _ => []
  | width + 1, n => hexDigits width (n / 16) ++ [hexDigit (n % 16)]

/-- The value of a hexadecimal digit in either case. -/
def hexValue? (c : Char) : Option Nat :=
  if '0' ≤ c ∧ c ≤ '9' then some (c.toNat - 48)
  else if 'a' ≤ c ∧ c ≤ 'f' then some (c.toNat - 87)
  else if 'A' ≤ c ∧ c ≤ 'F' then some (c.toNat - 55)
  else none

def ofHex? (cs : List Char) : Option Nat :=
  cs.foldlM (fun n c => do some (n * 16 + (← hexValue? c))) 0

theorem hexValue?_hexDigit {n : Nat} (h : n < 16) : hexValue? (hexDigit n) = some n := by
  revert n; decide

@[simp] theorem length_hexDigits (width n : Nat) : (hexDigits width n).length = width := by
  induction width generalizing n with
  | zero => rfl
  | succ width ih => simp [hexDigits, ih]

theorem ofHex?_hexDigits (width n : Nat) : ofHex? (hexDigits width n) = some (n % Nat.pow 16 width) := by
  induction width generalizing n with
  | zero => simp [hexDigits, ofHex?, Nat.mod_one]
  | succ width ih =>
    have h : List.foldlM (fun n c => do some (n * 16 + (← hexValue? c))) 0
        (hexDigits width (n / 16)) = some (n / 16 % Nat.pow 16 width) := ih (n / 16)
    have hd := hexValue?_hexDigit (Nat.mod_lt n (by decide : 0 < 16))
    rw [ofHex?, hexDigits, List.foldlM_append, h]
    simp only [Option.bind_eq_bind, Option.bind_some, List.foldlM_cons, List.foldlM_nil, hd,
      Option.pure_def]
    rw [show Nat.pow 16 (width + 1) = Nat.pow 16 width * 16 from rfl,
      Nat.mul_comm (Nat.pow 16 width) 16, Nat.mod_mul]
    congr 1
    omega

/-! ## Quoted text -/

/-- The hexadecimal digits of a character's number, without leading zeros. -/
def codeDigits (c : Char) : List Char :=
  match (hexDigits 6 c.toNat).dropWhile (· == '0') with
  | [] => ['0']
  | ds => ds

def escapedChar (c : Char) : List Char :=
  if c == '"' || c == '\\' then ['\\', c]
  else if c == '\n' then ['\\', 'n']
  else if c == '\r' then ['\\', 'r']
  else if c == '\t' then ['\\', 't']
  else if c == '\x00' then ['\\', '0']
  else if c.toNat < 0x20 || (0x7f ≤ c.toNat && c.toNat < 0xa0) then
    "\\u\x7b".toList ++ codeDigits c ++ ['\x7d']
  else [c]

def quoted (cs : List Char) : String := String.ofList ('"' :: cs.flatMap escapedChar ++ ['"'])

example : quoted "a\"b".toList = "\"a\\\"b\"" := by decide +kernel

end Timetable.Text
