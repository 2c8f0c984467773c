import Timetable.Web.Path

/-!
# What percent-encoding keeps

A text is read back from what it is encoded as (`percentText?_percentEncode`), if the sign that marks the encoded bytes
is encoded too, and so two texts are never encoded alike (`percentEncode_inj`). What the set names does not stand in what
it encodes (`not_mem_percentEncode`). Hence a segment that is no dots stays none, whatever is encoded in it
(`isSingleDot_percentEncode`, `isDoubleDot_percentEncode`).
-/

namespace Timetable.Web

/-! ## Bytes -/

theorem hexValue?_upperHexDigit {n : Nat} (small : n < 16) : Text.hexValue? (upperHexDigit n) = some n := by
  revert n
  decide

theorem percentDecode_encodeByte (b : UInt8) (rest : List Char) :
    percentDecode (encodeByte b ++ rest) = b :: percentDecode rest := by
  have bound := b.toNat_lt
  have value : 16 * (b.toNat / 16) + b.toNat % 16 = b.toNat := Nat.div_add_mod b.toNat 16
  change percentDecode ('%' :: upperHexDigit (b.toNat / 16) :: upperHexDigit (b.toNat % 16) :: rest) = _
  rw [percentDecode, hexValue?_upperHexDigit (by omega), hexValue?_upperHexDigit (by omega)]
  dsimp only
  rw [value, UInt8.ofNat_toNat]

theorem percentDecode_encodeBytes (bytes : List UInt8) (rest : List Char) :
    percentDecode (bytes.flatMap encodeByte ++ rest) = bytes ++ percentDecode rest := by
  induction bytes with
  | nil => rfl
  | cons b bytes ih => rw [List.flatMap_cons, List.append_assoc, percentDecode_encodeByte, ih, List.cons_append]

theorem percentDecode_cons {c : Char} (plain : c ≠ '%') (rest : List Char) :
    percentDecode (c :: rest) = String.utf8EncodeChar c ++ percentDecode rest := by
  rw [percentDecode]
  rintro _ _ _ rfl
  exact absurd rfl plain

/-! ## Texts -/

variable {set_ : List Char} {cs ds : List Char} {c : Char}

theorem percentEncode_cons (set_ : List Char) (c : Char) (cs : List Char) :
    percentEncode set_ (c :: cs) =
      (if isControl c || set_.contains c then (String.utf8EncodeChar c).flatMap encodeByte else [c]) ++
        percentEncode set_ cs := List.flatMap_cons

/-- Decoding gives the bytes of the text. -/
theorem percentDecode_percentEncode (marked : '%' ∈ set_) (cs : List Char) :
    percentDecode (percentEncode set_ cs) = cs.flatMap String.utf8EncodeChar := by
  induction cs with
  | nil => rfl
  | cons c cs ih =>
    rw [percentEncode_cons, List.flatMap_cons]
    split
    · rw [percentDecode_encodeBytes, ih]
    · next kept =>
      have plain : c ≠ '%' := by
        rintro rfl
        simp [marked] at kept
      rw [List.singleton_append, percentDecode_cons plain, ih]

/-- What was encoded is read back. -/
theorem percentText?_percentEncode (marked : '%' ∈ set_) (cs : List Char) :
    percentText? (percentEncode set_ cs) = some (String.ofList cs) := by
  have bytes : (⟨(cs.flatMap String.utf8EncodeChar).toArray⟩ : ByteArray) = cs.utf8Encode :=
    ByteArray.ext List.data_toByteArray.symm
  rw [percentText?, percentDecode_percentEncode marked, bytes, String.fromUTF8?, dif_pos ⟨cs, rfl⟩]
  rfl

/-- Texts that are encoded alike are the same. -/
theorem percentEncode_inj (marked : '%' ∈ set_) (same : percentEncode set_ cs = percentEncode set_ ds) : cs = ds := by
  have texts := (percentText?_percentEncode marked cs).symm.trans (same ▸ percentText?_percentEncode marked ds)
  exact String.ofList_injective (Option.some.inj texts)

theorem percentEncode_eq_self (free : ∀ c ∈ cs, isControl c = false ∧ c ∉ set_) : percentEncode set_ cs = cs := by
  induction cs with
  | nil => rfl
  | cons c cs ih =>
    obtain ⟨⟨control, named⟩, rest⟩ := List.forall_mem_cons.mp free
    rw [percentEncode_cons, ih rest, control, Bool.false_or, if_neg (mt List.contains_iff_mem.mp named)]
    rfl

/-- What a text is encoded as consists of marks, of digits, and of characters that need no encoding. -/
theorem mem_percentEncode (h : c ∈ percentEncode set_ cs) :
    c = '%' ∨ (Text.hexValue? c).isSome ∨ c ∈ cs ∧ c ∉ set_ := by
  obtain ⟨d, mem, h⟩ := List.mem_flatMap.mp h
  split at h
  · obtain ⟨b, -, h⟩ := List.mem_flatMap.mp h
    have bound := b.toNat_lt
    rw [encodeByte, List.mem_cons, List.mem_cons, List.mem_singleton] at h
    rcases h with mark | high | low
    · exact .inl mark
    · refine .inr (.inl ?_)
      rw [high, hexValue?_upperHexDigit (by omega), Option.isSome_some]
    · refine .inr (.inl ?_)
      rw [low, hexValue?_upperHexDigit (by omega), Option.isSome_some]
  · next kept =>
    obtain rfl := List.mem_singleton.mp h
    refine .inr (.inr ⟨mem, fun named => kept ?_⟩)
    rw [List.contains_iff_mem.mpr named, Bool.or_true]

/-- A character of the set does not come up in what is encoded, unless it is a mark or a digit. -/
theorem not_mem_percentEncode (named : c ∈ set_) (mark : c ≠ '%') (digit : Text.hexValue? c = none) :
    c ∉ percentEncode set_ cs := by
  intro h
  rcases mem_percentEncode h with rfl | value | ⟨-, free⟩
  · exact mark rfl
  · rw [digit] at value
    cases value
  · exact free named

/-! ## Dots -/

/-- Dots are all that encoded dots stand for, so that only dots are encoded as dots. -/
theorem eq_of_percentEncode_eq_dots {names : List String} {dots : String}
    (stand : ∀ name ∈ names, percentText? name.toList = some dots) (marked : '%' ∈ set_)
    (h : names.any (·.toList == percentEncode set_ cs) = true) : cs = dots.toList := by
  obtain ⟨name, mem, same⟩ := List.any_eq_true.mp h
  have text := stand name mem
  rw [beq_iff_eq.mp same, percentText?_percentEncode marked] at text
  rw [← Option.some.inj text, String.toList_ofList]

theorem isSingleDot_percentEncode (marked : '%' ∈ set_) (free : '.' ∉ set_) :
    Path.isSingleDot (percentEncode set_ cs) = true ↔ cs = ['.'] := by
  constructor
  · have stand : ∀ name ∈ Path.singleDots, percentText? name.toList = some "." := by decide +kernel
    exact eq_of_percentEncode_eq_dots stand marked
  · rintro rfl
    rw [percentEncode_eq_self (by simp [free, isControl])]
    decide

theorem isDoubleDot_percentEncode (marked : '%' ∈ set_) (free : '.' ∉ set_) :
    Path.isDoubleDot (percentEncode set_ cs) = true ↔ cs = ['.', '.'] := by
  constructor
  · have stand : ∀ name ∈ Path.doubleDots, percentText? name.toList = some ".." := by decide +kernel
    exact eq_of_percentEncode_eq_dots stand marked
  · rintro rfl
    rw [percentEncode_eq_self (by simp [free, isControl])]
    decide

end Timetable.Web
