import Timetable.Json.Printer
import Timetable.Json.Reader
import Timetable.Proofs.Json.Number

/-!
# Written values are read back

A string is read back as it was written, whatever follows it (`readString_writeString`).

`rereadIn form room j` is what becomes of a value that is written, its fractions as certain numerals, and read again by
a reader with some room: numbers may lose digits, and what is nested too deep is lost. `reread room j` is what becomes
of one that is printed. The text of a value ends where the value ends, whatever follows (`readValue_write`), so the
whole text is read (`outline?_textIn`, `outline?_text`).
-/

namespace Timetable.Json

open Text

/-! ## Strings -/

theorem ofUnit_toNat (c : Char) : Piece.ofUnit c.toNat = .char c := by
  have valid : c.toNat.isValidChar := c.valid
  rw [Piece.ofUnit, charOfUnit?, dif_pos valid]
  rfl

theorem join?_map_char (cs : List Char) : join? (cs.map .char) = some cs := by
  induction cs with
  | nil => rfl
  | cons c cs ih => simp [join?, ih]

theorem readPieces_plain {c : Char} {rest : List Char} (hq : c ≠ '"') (hb : c ≠ '\\')
    (hc : ¬ c.toNat < 32) :
    readPieces (c :: rest) = (readPieces rest).map fun p => (.char c :: p.1, p.2) := by
  rw [readPieces.eq_def]
  split
  · contradiction
  · simp_all
  · simp_all
  · simp_all
  · next c' rest' _ _ _ h =>
    cases h
    rw [if_neg (by simp [hb, hc])]

theorem readPieces_escape (c : Char) (rest : List Char) :
    readPieces (escape c ++ rest) = (readPieces rest).map fun p => (.char c :: p.1, p.2) := by
  have short {e : Char} (he : e ≠ 'u') (hu : unescape e = some c) :
      readPieces ('\\' :: e :: rest) = (readPieces rest).map fun p => (.char c :: p.1, p.2) := by
    simp [readPieces, he, hu]
  unfold escape
  split_ifs with h₁ h₂ h₃ h₄ h₅ h₆ h₇ h₈
  · exact short (by decide) (by rw [h₁]; rfl)
  · exact short (by decide) (by rw [h₂]; rfl)
  · exact short (by decide) (by rw [h₃]; rfl)
  · exact short (by decide) (by rw [h₄]; rfl)
  · exact short (by decide) (by rw [h₅]; rfl)
  · exact short (by decide) (by rw [h₆]; rfl)
  · exact short (by decide) (by rw [h₇]; rfl)
  · have read := ofHex?_hexDigits 4 c.toNat
    rw [show c.toNat % Nat.pow 16 4 = c.toNat from Nat.mod_eq_of_lt (by simp; omega)] at read
    simp only [hexDigits, List.nil_append, List.cons_append] at read ⊢
    simp [readPieces, read, ofUnit_toNat]
  · exact readPieces_plain h₁ h₂ h₈

theorem readPieces_writeChars (cs rest : List Char) :
    readPieces (writeChars cs rest) = some (cs.map .char, rest) := by
  induction cs with
  | nil => simp [writeChars, readPieces]
  | cons c cs ih => simp [writeChars, readPieces_escape, ih]

theorem readString_writeString (s : String) (rest : List Char) :
    readString (writeString s rest) = some (some s, rest) := by
  simp [writeString, readString, readPieces_writeChars, join?_map_char]

/-! ## What is read -/

/-- The number that a numeral is read as. -/
def Numeral.reread (n : Numeral) : Json := n.value?.getD .unread

mutual

/-- What a value is read as that was written with certain numerals. -/
def rereadIn (form : Decimal → Numeral) (room : Nat) : Json → Json
  | .int n => (ofInt n).reread
  | .real d => (form d).reread
  | .arr items => within room (.arr (rereadItems form (room - 1) items))
  | .obj members => within room (.obj (rereadMembers form (room - 1) members))
  | .unread => .null
  | j => j

def rereadItems (form : Decimal → Numeral) (room : Nat) : List Json → List Json
  | [] => []
  | x :: xs => x.rereadIn form room :: rereadItems form room xs

def rereadMembers (form : Decimal → Numeral) (room : Nat) : List (String × Json) → List (String × Json)
  | [] => []
  | (k, x) :: ms => (k, x.rereadIn form room) :: rereadMembers form room ms

end

/-- What a value is read as that was printed. -/
abbrev reread (room : Nat) (j : Json) : Json := j.rereadIn ofDecimal room

/-- How a decimal is written as a numeral. -/
def formChars (form : Decimal → Numeral) (d : Decimal) : List Char := (form d).chars

theorem formChars_ofDecimal : formChars ofDecimal = Decimal.chars := funext chars_ofDecimal

/-! ## Texts -/

theorem writeChars_append (cs rest tail : List Char) :
    writeChars cs (rest ++ tail) = writeChars cs rest ++ tail := by
  induction cs with
  | nil => rfl
  | cons c cs ih => simp [writeChars, ih]

theorem writeString_append (s : String) (rest tail : List Char) :
    writeString s (rest ++ tail) = writeString s rest ++ tail := by
  simp [writeString, writeChars_append]

mutual

theorem write_append (form : Decimal → List Char) (j : Json) (rest tail : List Char) :
    j.write form (rest ++ tail) = j.write form rest ++ tail := by
  cases j with
  | arr items => simp [write, ← writeItems_append]
  | obj members => simp [write, ← writeMembers_append]
  | bool b => cases b <;> simp [write]
  | str s => simp [write, writeString_append]
  | _ => simp [write]

theorem writeItems_append (form : Decimal → List Char) (items : List Json) (rest tail : List Char) :
    writeItems form items (rest ++ tail) = writeItems form items rest ++ tail := by
  match items with
  | [] => rfl
  | [x] => simp [writeItems, write_append form x]
  | x :: y :: xs =>
    simp only [writeItems]
    rw [writeItems_append form (y :: xs), ← List.cons_append, write_append form x]

theorem writeMembers_append (form : Decimal → List Char) (members : List (String × Json)) (rest tail : List Char) :
    writeMembers form members (rest ++ tail) = writeMembers form members rest ++ tail := by
  match members with
  | [] => rfl
  | [(k, x)] =>
    simp only [writeMembers]
    rw [write_append form x, ← List.cons_append, writeString_append]
  | (k, x) :: m :: ms =>
    simp only [writeMembers]
    rw [writeMembers_append form (m :: ms), ← List.cons_append, write_append form x, ← List.cons_append,
      writeString_append]

end

theorem write_eq (form : Decimal → List Char) (j : Json) (rest : List Char) :
    j.write form rest = j.write form [] ++ rest :=
  write_append form j [] rest

/-! ## Reading a written value -/

/-- A character that is neither blank nor closes anything. -/
def Opens (c : Char) : Prop := c ∉ [' ', '\n', '\t', '\r', ']', '\x7d']

instance (c : Char) : Decidable (Opens c) := inferInstanceAs (Decidable (¬ _))

theorem opens_of_isDigit {c : Char} (h : c.isDigit) : Opens c := by
  intro hc
  simp only [List.mem_cons, List.not_mem_nil, or_false] at hc
  rcases hc with rfl | rfl | rfl | rfl | rfl | rfl <;> simp at h

theorem skipBlanks_of_opens {c : Char} {cs : List Char} (h : Opens c) :
    skipBlanks (c :: cs) = c :: cs := by
  simp only [Opens, List.mem_cons, List.not_mem_nil, or_false, not_or] at h
  simp [skipBlanks, h]

theorem skipBlanks_of_follows {cs : List Char} (h : Follows cs) : skipBlanks cs = cs := by
  cases cs with
  | nil => rfl
  | cons c cs =>
    have mem := h c rfl
    simp only [List.mem_cons, List.not_mem_nil, or_false] at mem
    rcases mem with rfl | rfl | rfl <;> rfl

theorem exists_chars_eq_cons {n : Numeral} (h : n.Valid) :
    ∃ c cs, n.chars = c :: cs ∧ (c.isDigit ∨ c = '-') := by
  cases hw : n.whole with
  | nil => exact absurd hw h.nonempty
  | cons d ds =>
    have digit : d.isDigit := h.digits d (hw ▸ List.mem_cons_self)
    cases hn : n.negative with
    | false => exact ⟨d, ds ++ (n.fractionChars ++ n.powerChars), by simp [Numeral.chars, hn, hw], .inl digit⟩
    | true => exact ⟨'-', n.whole ++ (n.fractionChars ++ n.powerChars), by simp [Numeral.chars, hn], .inr rfl⟩

theorem readValue_numeral {n : Numeral} (h : n.Valid) (steps room : Nat) {rest : List Char}
    (hr : Follows rest) : readValue (steps + 1) room (n.chars ++ rest) = some (n.reread, rest) := by
  have number := readNumber?_chars h hr
  obtain ⟨c, cs, hc, first⟩ := exists_chars_eq_cons h
  have opens : Opens c := by
    rcases first with digit | rfl
    · exact opens_of_isDigit digit
    · decide
  have other {d : Char} (hd : ¬ (d.isDigit ∨ d = '-')) : c ≠ d := fun e => hd (e ▸ first)
  rw [hc, List.cons_append] at number ⊢
  rw [readValue, skipBlanks_of_opens opens]
  split
  · next h => exact absurd (List.cons.inj h).1 (other (by decide))
  · next h => exact absurd (List.cons.inj h).1 (other (by decide))
  · next h => exact absurd (List.cons.inj h).1 (other (by decide))
  · next h => exact absurd (List.cons.inj h).1 (other (by decide))
  · next h => exact absurd (List.cons.inj h).1 (other (by decide))
  · next h => exact absurd (List.cons.inj h).1 (other (by decide))
  · exact number

variable {form : Decimal → Numeral}

/-- A written value starts with a character that opens it. -/
theorem exists_write_eq_cons (valid : ∀ d, (form d).Valid) (j : Json) (rest : List Char) :
    ∃ c cs, j.write (formChars form) rest = c :: cs ∧ Opens c := by
  have number {n : Numeral} (h : n.Valid) (hj : j.write (formChars form) rest = n.chars ++ rest) :
      ∃ c cs, j.write (formChars form) rest = c :: cs ∧ Opens c := by
    obtain ⟨c, cs, hc, first⟩ := exists_chars_eq_cons h
    refine ⟨c, cs ++ rest, by rw [hj, hc, List.cons_append], ?_⟩
    rcases first with digit | rfl
    · exact opens_of_isDigit digit
    · decide
  cases j with
  | null => exact ⟨'n', _, rfl, by decide⟩
  | bool b => cases b <;> exact ⟨_, _, rfl, by decide⟩
  | int n => exact number (valid_ofInt n) (by rw [chars_ofInt, write])
  | real d => exact number (valid d) (by rw [write, formChars])
  | str s => exact ⟨'"', _, rfl, by decide⟩
  | arr items => exact ⟨'[', _, by rw [write], by decide⟩
  | obj members => exact ⟨'\x7b', _, by rw [write], by decide⟩
  | unread => exact ⟨'n', _, rfl, by decide⟩

theorem exists_writeItems_eq_cons (valid : ∀ d, (form d).Valid) (x : Json) (items : List Json) (rest : List Char) :
    ∃ c cs, writeItems (formChars form) (x :: items) rest = c :: cs ∧ Opens c := by
  cases items with
  | nil => exact exists_write_eq_cons valid x rest
  | cons y ys => exact exists_write_eq_cons valid x _

theorem exists_writeMembers_eq_cons (m : String × Json) (members : List (String × Json))
    (rest : List Char) : ∃ cs, writeMembers (formChars form) (m :: members) rest = '"' :: cs := by
  cases members with
  | nil => exact ⟨_, rfl⟩
  | cons m' ms => exact ⟨_, rfl⟩

/-- An array is read as its items are. -/
theorem readValue_arr {c : Char} {cs rest : List Char} {items : List Json} {steps room : Nat}
    (hc : Opens c) (h : readItems steps (room - 1) (c :: cs) = some (items, rest)) :
    readValue (steps + 1) room ('[' :: c :: cs) = some (within room (.arr items), rest) := by
  rw [readValue, skipBlanks_of_opens (by decide)]
  simp only [skipBlanks_of_opens hc]
  split
  · next h' =>
    rw [(List.cons.inj h').1] at hc
    exact absurd hc (by decide)
  · rw [h]
    rfl

/-- An object is read as its members are. -/
theorem readValue_obj {cs rest : List Char} {members : List (String × Json)} {steps room : Nat}
    (h : readMembers steps (room - 1) ('"' :: cs) = some (some members, rest)) :
    readValue (steps + 1) room ('\x7b' :: '"' :: cs) = some (within room (.obj members), rest) := by
  rw [readValue, skipBlanks_of_opens (by decide)]
  simp only [skipBlanks_of_opens (show Opens '"' by decide)]
  show (readMembers steps (room - 1) ('"' :: cs)).map _ = _
  rw [h]
  rfl

mutual

theorem readValue_write (valid : ∀ d, (form d).Valid) (j : Json) (steps room : Nat) {rest : List Char}
    (h : 2 * (j.write (formChars form) []).length ≤ steps) (hr : Follows rest) :
    readValue steps room (j.write (formChars form) rest) = some (j.rereadIn form room, rest) := by
  obtain ⟨c, cs, hc, _⟩ := exists_write_eq_cons valid j []
  obtain ⟨steps, rfl⟩ : ∃ n, steps = n + 1 := by
    have length : (j.write (formChars form) []).length = cs.length + 1 := by rw [hc, List.length_cons]
    exact ⟨steps - 1, by omega⟩
  cases j with
  | null => rfl
  | bool b => cases b <;> rfl
  | int n =>
    rw [write, ← chars_ofInt, rereadIn]
    exact readValue_numeral (valid_ofInt n) steps room hr
  | real d =>
    rw [write, formChars, rereadIn]
    exact readValue_numeral (valid d) steps room hr
  | str s =>
    rw [write, writeString, readValue, skipBlanks_of_opens (by decide)]
    have read := readString_writeString s rest
    rw [writeString] at read
    simp [read, rereadIn]
  | arr items =>
    cases items with
    | nil => rfl
    | cons x xs =>
      obtain ⟨c, cs, hc, opens⟩ := exists_writeItems_eq_cons valid x xs (']' :: rest)
      have len : (writeItems (formChars form) (x :: xs) [']']).length =
          (writeItems (formChars form) (x :: xs) []).length + 1 := by
        rw [← List.nil_append [']'], writeItems_append, List.length_append]
        rfl
      have read := readItems_write valid x xs steps (room - 1) rest (by
        simp only [write, List.length_cons, len] at h
        omega)
      rw [hc] at read
      rw [write, hc, readValue_arr opens read, rereadIn]
  | obj members =>
    cases members with
    | nil => rfl
    | cons m ms =>
      obtain ⟨cs, hc⟩ : ∃ cs, writeMembers (formChars form) (m :: ms) ('\x7d' :: rest) = _ :=
        exists_writeMembers_eq_cons m ms _
      have len : (writeMembers (formChars form) (m :: ms) ['\x7d']).length =
          (writeMembers (formChars form) (m :: ms) []).length + 1 := by
        rw [← List.nil_append ['\x7d'], writeMembers_append, List.length_append]
        rfl
      have read := readMembers_write valid m ms steps (room - 1) rest (by
        simp only [write, List.length_cons, len] at h
        omega)
      rw [hc] at read
      rw [write, hc, readValue_obj read, rereadIn]
  | unread => rfl
termination_by steps

theorem readItems_write (valid : ∀ d, (form d).Valid) (x : Json) (items : List Json) (steps room : Nat)
    (rest : List Char) (h : 2 * (writeItems (formChars form) (x :: items) []).length + 1 ≤ steps) :
    readItems steps room (writeItems (formChars form) (x :: items) (']' :: rest)) =
      some (rereadItems form room (x :: items), rest) := by
  obtain ⟨steps, rfl⟩ : ∃ n, steps = n + 1 := ⟨steps - 1, by omega⟩
  cases items with
  | nil =>
    simp only [writeItems] at h ⊢
    rw [readItems, readValue_write valid x steps room (by omega) (follows_cons _ (by decide))]
    simp [skipBlanks_of_follows (follows_cons _ _), rereadItems]
  | cons y ys =>
    simp only [writeItems, write_eq _ x (_ :: _), List.length_append, List.length_cons] at h
    rw [writeItems, readItems, readValue_write valid x steps room (by omega) (follows_cons _ (by decide))]
    have rest := readItems_write valid y ys steps room rest (by omega)
    simp [skipBlanks_of_follows (follows_cons _ _), rest, rereadItems]
termination_by steps

theorem readMembers_write (valid : ∀ d, (form d).Valid) (m : String × Json) (members : List (String × Json))
    (steps room : Nat) (rest : List Char) (h : 2 * (writeMembers (formChars form) (m :: members) []).length + 1 ≤ steps) :
    readMembers steps room (writeMembers (formChars form) (m :: members) ('\x7d' :: rest)) =
      some (some (rereadMembers form room (m :: members)), rest) := by
  obtain ⟨steps, rfl⟩ : ∃ n, steps = n + 1 := ⟨steps - 1, by omega⟩
  obtain ⟨k, x⟩ := m
  have name (tail : List Char) : readString (skipBlanks (writeString k tail)) = some (some k, tail) := by
    rw [writeString, skipBlanks_of_opens (by decide)]
    exact readString_writeString k tail
  have colon (tail : List Char) : expect ':' (':' :: tail) = some tail := rfl
  have size (tail : List Char) : tail.length ≤ (writeString k tail).length := by
    rw [show writeString k tail = writeString k [] ++ tail from writeString_append k [] tail,
      List.length_append]
    omega
  cases members with
  | nil =>
    have len := size (':' :: x.write (formChars form) [])
    simp only [writeMembers, List.length_cons] at h len ⊢
    rw [readMembers, name]
    simp only [Option.bind_eq_bind, Option.bind_some, colon]
    rw [readValue_write valid x steps room (by omega) (follows_cons _ (by decide))]
    simp [skipBlanks_of_follows (follows_cons _ _), rereadMembers]
  | cons m' ms =>
    have len := size (':' :: x.write (formChars form) (',' :: writeMembers (formChars form) (m' :: ms) []))
    simp only [writeMembers, List.length_cons, write_eq _ x (_ :: _), List.length_append] at h len
    rw [writeMembers, readMembers, name]
    simp only [Option.bind_eq_bind, Option.bind_some, colon]
    rw [readValue_write valid x steps room (by omega) (follows_cons _ (by decide))]
    have rest := readMembers_write valid m' ms steps room rest (by omega)
    simp [skipBlanks_of_follows (follows_cons _ _), rest, rereadMembers]
termination_by steps

end

theorem outlineChars?_of_readValue {cs : List Char} {j : Json}
    (h : readValue (2 * cs.length + 1) deepest cs = some (j, [])) : outlineChars? cs = some j := by
  unfold outlineChars?
  rw [h]
  rfl

/-- The text of a value is read to its end. -/
theorem outline?_textIn (valid : ∀ d, (form d).Valid) (j : Json) :
    outline? (j.textIn (formChars form)) = some (j.rereadIn form deepest) := by
  have read := readValue_write valid j (2 * (j.write (formChars form) []).length + 1) deepest (Nat.le_succ _) follows_nil
  show outlineChars? (String.ofList (j.write (formChars form) [])).toList = _
  rw [String.toList_ofList]
  exact outlineChars?_of_readValue read

theorem outline?_text (j : Json) : outline? j.text = some (j.reread deepest) := by
  rw [← outline?_textIn valid_ofDecimal, formChars_ofDecimal]
  rfl

end Timetable.Json
