import Timetable.Identifier

/-!
# Identifiers as text

The text of an identifier tells it apart from all others, is as long as every other, and is read as that identifier.
-/

namespace Timetable.Identifier

open Text

theorem length_chars (id : Identifier) : id.chars.length = 36 := by
  simp [chars, length_hexDigits]

theorem length_toList_text (id : Identifier) : id.text.toList.length = 36 := by
  rw [text, String.toList_ofList, length_chars]

theorem mod_eq_of_hexDigits_eq {k m n : Nat} (h : hexDigits k m = hexDigits k n) :
    m % Nat.pow 16 k = n % Nat.pow 16 k := by
  have read := congrArg ofHex? h
  rw [ofHex?_hexDigits, ofHex?_hexDigits] at read
  exact Option.some.inj read

theorem chars_injective {a b : Identifier} (h : a.chars = b.chars) : a = b := by
  simp only [chars, List.append_assoc, List.cons_append] at h
  have len (k m n) : (hexDigits k m).length = (hexDigits k n).length := by
    rw [length_hexDigits, length_hexDigits]
  obtain ⟨h₁, h⟩ := List.append_inj h (len 8 _ _)
  obtain ⟨h₂, h⟩ := List.append_inj (List.cons.inj h).2 (len 4 _ _)
  obtain ⟨h₃, h⟩ := List.append_inj (List.cons.inj h).2 (len 4 _ _)
  obtain ⟨h₄, h⟩ := List.append_inj (List.cons.inj h).2 (len 4 _ _)
  have h₅ := (List.cons.inj h).2
  have e₁ := mod_eq_of_hexDigits_eq h₁
  have e₂ := mod_eq_of_hexDigits_eq h₂
  have e₃ := mod_eq_of_hexDigits_eq h₃
  have e₄ := mod_eq_of_hexDigits_eq h₄
  have e₅ := mod_eq_of_hexDigits_eq h₅
  obtain ⟨m, hm⟩ := a
  obtain ⟨n, hn⟩ := b
  simp only [mk.injEq, Nat.pow_eq, Nat.reducePow] at *
  omega

theorem text_injective {a b : Identifier} (h : a.text = b.text) : a = b :=
  chars_injective (String.ofList_injective h)

/-! ## Reading -/

theorem hexDigits_add (m k n : Nat) :
    hexDigits (m + k) n = hexDigits m (n / Nat.pow 16 k) ++ hexDigits k n := by
  induction k generalizing n with
  | zero => simp [hexDigits]
  | succ k ih =>
    have power : 16 * Nat.pow 16 k = Nat.pow 16 (k + 1) := Nat.pow_succ'.symm
    rw [← Nat.add_assoc, hexDigits, ih, hexDigits, List.append_assoc, Nat.div_div_eq_div_mul, power]

theorem exists_of_mem_hexDigits {width n : Nat} {c : Char} (h : c ∈ hexDigits width n) : ∃ d < 16, c = hexDigit d := by
  induction width generalizing n with
  | zero => cases h
  | succ width ih =>
    rw [hexDigits, List.mem_append, List.mem_singleton] at h
    rcases h with h | rfl
    · exact ih h
    · exact ⟨n % 16, Nat.mod_lt n (by decide), rfl⟩

theorem ne_of_mem_hexDigits {width n : Nat} {c : Char} (h : c ∈ hexDigits width n) : c ≠ 'u' := by
  have digit : ∀ d < 16, hexDigit d ≠ 'u' := by decide
  obtain ⟨d, small, rfl⟩ := exists_of_mem_hexDigits h
  exact digit d small

theorem colon_not_mem_text (id : Identifier) : ':' ∉ id.text.toList := by
  have digits (width n : Nat) : ':' ∉ hexDigits width n := by
    have digit : ∀ d < 16, ':' ≠ hexDigit d := by decide
    intro colon
    obtain ⟨d, small, same⟩ := exists_of_mem_hexDigits colon
    exact digit d small same
  simp [text, chars, digits]

theorem ungroup_append {n m : Nat} {ns : List Nat} {cs rest : List Char} (h : cs.length = n) :
    ungroup (n :: m :: ns) (cs ++ '-' :: rest) = (ungroup (m :: ns) rest).map (cs ++ ·) := by
  subst h
  simp [ungroup]

theorem ofGroups?_chars (id : Identifier) : ofGroups? id.chars = some id := by
  obtain ⟨v, bounded⟩ := id
  have digits : ungroup [8, 4, 4, 4, 12] (chars ⟨v, bounded⟩) = some (hexDigits 32 v) := by
    simp only [chars, List.append_assoc, List.cons_append]
    rw [ungroup_append (length_hexDigits _ _), ungroup_append (length_hexDigits _ _),
      ungroup_append (length_hexDigits _ _), ungroup_append (length_hexDigits _ _), ungroup,
      if_pos (length_hexDigits _ _), hexDigits_add 8 24, hexDigits_add 4 20, hexDigits_add 4 16, hexDigits_add 4 12]
    rfl
  have value : v % Nat.pow 16 32 = v := Nat.mod_eq_of_lt bounded
  rw [ofGroups?, digits, Option.bind_eq_bind, Option.bind_some, ofDigits?, ofHex?_hexDigits, value,
    Option.bind_eq_bind, Option.bind_some, dif_pos ⟨length_hexDigits 32 v, bounded⟩]

theorem ofText?_text (id : Identifier) : ofText? id.text = some id := by
  have length := length_chars id
  have noUrn : "urn:uuid:".toList.isPrefixOf id.chars = false := by
    refine Bool.eq_false_iff.mpr fun urn => ?_
    have first : id.chars.head? = (hexDigits 8 (id.value / 0x1000000000000000000000000)).head? := by
      rw [chars, List.append_assoc, List.append_assoc, List.append_assoc, List.head?_append]
      simp [hexDigits]
    obtain ⟨rest, urn⟩ := List.isPrefixOf_iff_prefix.mp urn
    rw [← urn] at first
    exact ne_of_mem_hexDigits (List.mem_of_head? first.symm) rfl
  rw [ofText?, text, String.toList_ofList, ofChars?, if_neg (by omega), if_neg (by omega), noUrn, if_neg Bool.false_ne_true]
  exact ofGroups?_chars id

end Timetable.Identifier
