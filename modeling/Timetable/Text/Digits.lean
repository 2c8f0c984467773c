/-!
# Decimal numerals in text

Writing a number with its decimal digits, and reading digits from the front of a text. What was
written is read back, up to the next character that is no digit (`Text.spanDigits_append`,
`Text.ofDigits_digits`).

An unsigned word is digits, behind a plus sign if one likes. `Text.readWord` says of other text what is wrong first: a
character that is no digit, or the digit with which the number gets too large.
-/

namespace Timetable.Text

/-- The decimal digits of a number, without leading zeros. -/
def digits (n : Nat) : List Char := Nat.toDigits 10 n

/-- The decimal digits of a number behind as many zeros as fill the width. -/
def padded (width n : Nat) : List Char :=
  List.replicate (width - (digits n).length) '0' ++ digits n

/-- An integer, with a sign only if it is negative. -/
def signed : Int → List Char
  | .ofNat n => digits n
  | .negSucc n => '-' :: digits (n + 1)

def natText (n : Nat) : String := String.ofList (digits n)

def intText (n : Int) : String := String.ofList (signed n)

/-- The longest run of digits at the front, no longer than `limit`, and what follows it. -/
def spanDigits : Nat → List Char → List Char × List Char
  | 0, cs => ([], cs)
  | _ + 1, [] => ([], [])
  | limit + 1, c :: cs =>
    if c.isDigit then
      let (ds, rest) := spanDigits limit cs
      (c :: ds, rest)
    else ([], c :: cs)

def ofDigits (ds : List Char) : Nat := Nat.ofDigitChars 10 ds 0

/-- The number at the front of a text, of one to `limit` digits, and what follows it. -/
def readNat (limit : Nat) (cs : List Char) : Option (Nat × List Char) :=
  match spanDigits limit cs with
  | ([], _) => none
  | (d :: ds, rest) => some (ofDigits (d :: ds), rest)

/-! ## What was written is read back -/

theorem isDigit_of_mem_digits {n : Nat} {c : Char} (h : c ∈ digits n) : c.isDigit :=
  Nat.isDigit_of_mem_toDigits (by decide) (by decide) h

theorem digits_ne_nil (n : Nat) : digits n ≠ [] := Nat.toDigits_ne_nil

@[simp] theorem ofDigits_digits (n : Nat) : ofDigits (digits n) = n :=
  Nat.ofDigitChars_ten_toDigits

theorem ofDigits_padded (width n : Nat) : ofDigits (padded width n) = n := by
  simp [padded, ofDigits, Nat.ofDigitChars_append, Nat.ofDigitChars_replicate_zero, digits]

/-- A run of digits of at most `limit` is taken whole if no digit follows it, or if it is as
long as the limit. -/
theorem spanDigits_append {limit : Nat} {ds rest : List Char} (hd : ∀ c ∈ ds, c.isDigit)
    (hl : ds.length ≤ limit)
    (hr : ds.length = limit ∨ ∀ c, rest.head? = some c → ¬ c.isDigit) :
    spanDigits limit (ds ++ rest) = (ds, rest) := by
  induction ds generalizing limit with
  | nil =>
    cases limit with
    | zero => simp [spanDigits]
    | succ limit =>
      cases rest with
      | nil => simp [spanDigits]
      | cons c cs => simpa [spanDigits] using hr
  | cons d ds ih =>
    cases limit with
    | zero => simp at hl
    | succ limit =>
      have hd' : d.isDigit := hd d (by simp)
      simp only [List.cons_append, spanDigits, hd', if_true]
      rw [ih (fun c hc => hd c (by simp [hc])) (by simpa using hl) (by simpa using hr)]

example : padded 4 7 = "0007".toList := by decide
example : signed (-12) = "-12".toList := by decide
example : readNat 2 "123".toList = some (12, ['3']) := by decide
example : readNat 2 "x".toList = none := by decide

/-! ## Unsigned words -/

inductive WordFault where
  | empty
  | invalidDigit
  | tooLarge
deriving DecidableEq, Repr

def WordFault.message : WordFault → String
  | empty => "cannot parse integer from empty string"
  | invalidDigit => "invalid digit found in string"
  | tooLarge => "number too large to fit in target type"

def readWordDigits (limit n : Nat) : List Char → Except WordFault Nat
  | [] => .ok n
  | c :: cs =>
    if !c.isDigit then .error .invalidDigit
    else
      let next := n * 10 + (c.toNat - 48)
      if next < limit then readWordDigits limit next cs else .error .tooLarge

/-- The number below a limit that a text is. -/
def readWord (limit : Nat) : List Char → Except WordFault Nat
  | [] => .error .empty
  | ['+'] => .error .invalidDigit
  | '+' :: cs => readWordDigits limit 0 cs
  | cs => readWordDigits limit 0 cs

example : (readWord 65536 "+05432".toList).toOption = some 5432 := by decide +kernel
example : (readWord 65536 "99999x".toList).toOption = none := by decide +kernel

end Timetable.Text
