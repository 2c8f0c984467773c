import Timetable.Json.Record
import Timetable.Proofs.Decimal.Shortest
import Timetable.Proofs.Json.Reread

/-!
# Values that are read whole

A value is `Representable` if its numbers are machine words or 53-bit fractions and nothing in it is unread, as in
every value that comes from outside. What is printed of such a value is read as such a value again
(`Representable.reread`), and so is its normal form. Nothing gets lost, though fractions may change in their last place.

However a value is written, what is read of it without loss is representable (`representable_of_isWhole_reread`), and it
is the same value if all its fractions are kept (`FractionsKept.reread_eq`).
-/

namespace Timetable

namespace Decimal

theorem negative_ofBinary (negative : Bool) (f : BinaryFraction) : (ofBinary negative f).negative = negative := by
  unfold ofBinary
  split
  · rfl
  · dsimp only
    split <;> rfl

/-- A numeral with few digits below the limit is a number. -/
theorem Readable.ofNumeral? {digits : Nat} {power : Int} (h : Readable digits power) (negative : Bool) :
    ∃ f : BinaryFraction, f.InRange ∧ Decimal.ofNumeral? negative digits power = some (ofBinary negative f) := by
  obtain ⟨f, hf, range⟩ := BinaryFraction.scaled?_isSome h.few h.below h.known
  exact ⟨f, range, by rw [Decimal.ofNumeral?, hf, Option.map_some]⟩

end Decimal

namespace Json

open Text

/-! ## Numbers -/

/-- The value of a numeral with a point or a power, none of whose digits is in excess. -/
theorem Numeral.value?_of_lt {n : Numeral} (decimal : n.fraction ≠ none ∨ n.power ≠ none)
    (small : ofDigits (n.whole ++ n.fraction.getD []) < wordLimit) :
    n.value? = (Decimal.ofNumeral? n.negative (ofDigits (n.whole ++ n.fraction.getD []))
      (n.power.getD 0 - (n.fraction.getD []).length)).map .real := by
  obtain ⟨negative, whole, fraction, power⟩ := n
  dsimp only at *
  rw [ofDigits, Nat.ofDigitChars_append] at small
  have first := appendDigits_of_lt (Nat.lt_of_le_of_lt (mono_ofDigitChars (fraction.getD []) _) small)
  have second := appendDigits_of_lt small
  rw [ofDigits, Nat.ofDigitChars_append]
  unfold value?
  dsimp only
  rw [first]
  dsimp only
  split
  · exact absurd rfl (decimal.resolve_right fun h => h rfl)
  · rw [second]
    simp [Int.sub_eq_add_neg, Int.add_comm]

/-- A decimal that can be read is written as such a numeral. -/
theorem value?_ofDecimal {d : Decimal} (h : Decimal.Readable d.digits d.exponent) :
    ∃ digits power, Decimal.Readable digits power ∧
      (ofDecimal d).value? = (Decimal.ofNumeral? d.negative digits power).map .real := by
  have digits_lt : d.digits < wordLimit := Nat.lt_of_le_of_lt h.few (by decide)
  -- all cases but one write the digits as they are, and place the point by the exponent
  have plain {n : Numeral} (decimal : n.fraction ≠ none ∨ n.power ≠ none) (sign : n.negative = d.negative)
      (whole : ofDigits (n.whole ++ n.fraction.getD []) = d.digits)
      (place : n.power.getD 0 - (n.fraction.getD []).length = d.exponent) :
      ∃ digits power, Decimal.Readable digits power ∧
        n.value? = (Decimal.ofNumeral? d.negative digits power).map .real := by
    refine ⟨_, _, h, ?_⟩
    rw [Numeral.value?_of_lt decimal (whole ▸ digits_lt), sign, whole, place]
  have some_digits := List.length_pos_iff.mpr (digits_ne_nil d.digits)
  unfold ofDecimal
  dsimp only
  split_ifs with zero right inside left single
  · exact ⟨0, -1, Decimal.readable_zero (-1), Numeral.value?_of_lt (.inl (Option.some_ne_none _)) (show 0 < wordLimit by decide)⟩
  · obtain ⟨e, he⟩ := Int.eq_ofNat_of_zero_le right.1
    have whole : ofDigits (digits d.digits ++ List.replicate d.exponent.toNat '0' ++ ['0']) =
        d.digits * 10 ^ (e + 1) := by
      have value : Nat.ofDigitChars 10 (digits d.digits) 0 = d.digits := ofDigits_digits _
      rw [ofDigits, Nat.ofDigitChars_append, Nat.ofDigitChars_append, value, Nat.ofDigitChars_replicate_zero, he,
        Int.toNat_natCast, Nat.ofDigitChars_cons, Nat.ofDigitChars_nil, pow_succ]
      simp
      ring
    have readable : Decimal.Readable (d.digits * 10 ^ (e + 1)) (-1) := by
      have few : d.digits * 10 ^ (e + 1) ≤ 10 ^ 17 :=
        calc d.digits * 10 ^ (e + 1) ≤ 10 ^ (digits d.digits).length * 10 ^ (e + 1) :=
              Nat.mul_le_mul_right _ (length_digits (Nat.pos_of_ne_zero zero)).2.le
          _ = 10 ^ ((digits d.digits).length + (e + 1)) := (Nat.pow_add ..).symm
          _ ≤ 10 ^ 17 := Nat.pow_le_pow_right (by decide) (by omega)
      have shifted := h.mul_pow few
      rwa [show d.exponent - ((e + 1 : Nat) : Int) = -1 by omega] at shifted
    refine ⟨_, _, readable, ?_⟩
    have small := Nat.lt_of_le_of_lt readable.few (show 10 ^ 17 < wordLimit by decide)
    rw [← whole] at small ⊢
    exact Numeral.value?_of_lt (.inl (by simp)) small
  · refine plain (.inl (Option.some_ne_none _)) rfl ?_ ?_
    · simp
    · simp
      omega
  · refine plain (.inl (Option.some_ne_none _)) rfl ?_ ?_
    · have value : Nat.ofDigitChars 10 (digits d.digits) 0 = d.digits := ofDigits_digits _
      simp [ofDigits, Nat.ofDigitChars_cons, Nat.ofDigitChars_append, Nat.ofDigitChars_replicate_zero, value]
    · simp
      omega
  · refine plain (.inr (Option.some_ne_none _)) rfl ?_ ?_
    · rw [Option.getD_none, List.append_nil, List.take_of_length_le single.le, ofDigits_digits]
    · simp
      omega
  · refine plain (.inr (Option.some_ne_none _)) rfl ?_ ?_
    · rw [Option.getD_some, List.take_append_drop, ofDigits_digits]
    · simp
      omega

/-! ## Representable values -/

mutual

/-- Every number is a machine word or a 53-bit fraction, and nothing is unread. -/
def Representable : Json → Prop
  | .int n => -9223372036854775808 ≤ n ∧ n < wordLimit
  | .real d => ∃ negative f, f.InRange ∧ d = .ofBinary negative f
  | .arr items => RepresentableItems items
  | .obj members => RepresentableMembers members
  | .unread => False
  | _ => True

def RepresentableItems : List Json → Prop
  | [] => True
  | x :: xs => x.Representable ∧ RepresentableItems xs

def RepresentableMembers : List (String × Json) → Prop
  | [] => True
  | (_, x) :: rest => x.Representable ∧ RepresentableMembers rest

end

mutual

theorem Representable.isWhole {j : Json} (h : j.Representable) : j.isWhole = true := by
  cases j with
  | arr items => exact itemsAreWhole_of_representable h
  | obj members => exact membersAreWhole_of_representable h
  | unread => exact h.elim
  | _ => rfl

theorem itemsAreWhole_of_representable {items : List Json} (h : RepresentableItems items) :
    itemsAreWhole items = true := by
  cases items with
  | nil => rfl
  | cons x xs => rw [itemsAreWhole, h.1.isWhole, itemsAreWhole_of_representable h.2, Bool.and_self]

theorem membersAreWhole_of_representable {members : List (String × Json)} (h : RepresentableMembers members) :
    membersAreWhole members = true := by
  cases members with
  | nil => rfl
  | cons m ms => rw [membersAreWhole, h.1.isWhole, membersAreWhole_of_representable h.2, Bool.and_self]

end

/-! ## Reading -/

mutual

/-- A representable value is read as one, if it is not too deep. -/
theorem Representable.reread {j : Json} {room : Nat} (h : j.Representable) (shallow : j.depth ≤ room) :
    (j.reread room).Representable ∧ (j.reread room).depth = j.depth := by
  cases j with
  | int n =>
    rw [Json.reread, rereadIn, Numeral.reread, value?_ofInt h.1 h.2]
    exact ⟨h, rfl⟩
  | real d =>
    obtain ⟨negative, f, range, rfl⟩ := h
    obtain ⟨digits, power, readable, value⟩ := value?_ofDecimal (Decimal.readable_ofBinary negative range)
    obtain ⟨g, range', number⟩ := readable.ofNumeral? negative
    rw [Decimal.negative_ofBinary, number] at value
    rw [Json.reread, rereadIn, Numeral.reread, value]
    exact ⟨⟨negative, g, range', rfl⟩, rfl⟩
  | arr items =>
    obtain ⟨room, rfl⟩ : ∃ n, room = n + 1 := ⟨room - 1, by rw [depth] at shallow; omega⟩
    obtain ⟨items', depth'⟩ := rereadItems_representable h (Nat.le_of_succ_le_succ shallow)
    exact ⟨items', congrArg (· + 1) depth'⟩
  | obj members =>
    obtain ⟨room, rfl⟩ : ∃ n, room = n + 1 := ⟨room - 1, by rw [depth] at shallow; omega⟩
    obtain ⟨members', depth'⟩ := rereadMembers_representable h (Nat.le_of_succ_le_succ shallow)
    exact ⟨members', congrArg (· + 1) depth'⟩
  | unread => exact h.elim
  | _ => exact ⟨h, rfl⟩

theorem rereadItems_representable {items : List Json} {room : Nat} (h : RepresentableItems items)
    (shallow : depthItems items ≤ room) :
    RepresentableItems (rereadItems ofDecimal room items) ∧
      depthItems (rereadItems ofDecimal room items) = depthItems items := by
  cases items with
  | nil => exact ⟨h, rfl⟩
  | cons x xs =>
    rw [depthItems, Nat.max_le] at shallow
    obtain ⟨first, depth⟩ := h.1.reread shallow.1
    obtain ⟨rest, depths⟩ := rereadItems_representable h.2 shallow.2
    exact ⟨⟨first, rest⟩, by rw [rereadItems, depthItems, depth, depths, depthItems]⟩

theorem rereadMembers_representable {members : List (String × Json)} {room : Nat} (h : RepresentableMembers members)
    (shallow : depthMembers members ≤ room) :
    RepresentableMembers (rereadMembers ofDecimal room members) ∧
      depthMembers (rereadMembers ofDecimal room members) = depthMembers members := by
  cases members with
  | nil => exact ⟨h, rfl⟩
  | cons m ms =>
    rw [depthMembers, Nat.max_le] at shallow
    obtain ⟨first, depth⟩ := h.1.reread shallow.1
    obtain ⟨rest, depths⟩ := rereadMembers_representable h.2 shallow.2
    exact ⟨⟨first, rest⟩, by rw [rereadMembers, depthMembers, depth, depths, depthMembers]⟩

end

/-! ## What is read whole -/

theorem appendDigits_lt {n : Nat} (h : n < wordLimit) (ds : List Char) : (appendDigits n ds).1 < wordLimit := by
  induction ds generalizing n with
  | nil => exact h
  | cons d ds ih =>
    unfold appendDigits
    dsimp only
    split
    · next small => exact ih small
    · exact h

theorem representable_of_ofNumeral? {negative : Bool} {digits : Nat} {power : Int} {j : Json}
    (h : (Decimal.ofNumeral? negative digits power).map Json.real = some j) : j.Representable := by
  obtain ⟨d, number, rfl⟩ := Option.map_eq_some_iff.mp h
  obtain ⟨f, scaled, rfl⟩ := Option.map_eq_some_iff.mp number
  exact ⟨negative, f, BinaryFraction.scaled?_inRange scaled, rfl⟩

/-- Whatever a numeral stands for. -/
theorem Numeral.representable_of_value? {n : Numeral} {j : Json} (h : n.value? = some j) : j.Representable := by
  have head := appendDigits_lt (show 0 < wordLimit by decide) n.whole
  unfold value? at h
  dsimp only at h
  split at h
  · split_ifs at h with unsigned signed
    · cases h
      exact ⟨by omega, by omega⟩
    · cases h
      exact ⟨by omega, by simp only [wordLimit]; omega⟩
    · exact representable_of_ofNumeral? h
  · exact representable_of_ofNumeral? h

theorem Numeral.representable_of_isWhole {n : Numeral} (h : n.reread.isWhole = true) :
    n.reread.Representable := by
  unfold reread at h ⊢
  cases value : n.value? with
  | none =>
    rw [value] at h
    cases h
  | some j => exact representable_of_value? value

theorem isWhole_within {room : Nat} {j : Json} (h : (within room j).isWhole = true) : 0 < room ∧ j.isWhole = true := by
  unfold within at h
  split at h
  · cases h
  · next some => exact ⟨Nat.pos_of_ne_zero some, h⟩

theorem within_of_pos {room : Nat} (h : 0 < room) (j : Json) : within room j = j := if_neg h.ne'

mutual

/-- What is written in any way and read whole is representable. -/
theorem representable_of_isWhole_reread {form : Decimal → Numeral} {j : Json} {room : Nat}
    (h : (j.rereadIn form room).isWhole = true) : (j.rereadIn form room).Representable := by
  cases j with
  | int n => exact Numeral.representable_of_isWhole h
  | real d => exact Numeral.representable_of_isWhole h
  | arr items =>
    obtain ⟨some, whole⟩ := isWhole_within h
    rw [rereadIn, within_of_pos some]
    exact representableItems_of_areWhole whole
  | obj members =>
    obtain ⟨some, whole⟩ := isWhole_within h
    rw [rereadIn, within_of_pos some]
    exact representableMembers_of_areWhole whole
  | _ => trivial

theorem representableItems_of_areWhole {form : Decimal → Numeral} {items : List Json} {room : Nat}
    (h : itemsAreWhole (rereadItems form room items) = true) : RepresentableItems (rereadItems form room items) := by
  cases items with
  | nil => trivial
  | cons x xs =>
    rw [rereadItems, itemsAreWhole, Bool.and_eq_true] at h
    exact ⟨representable_of_isWhole_reread h.1, representableItems_of_areWhole h.2⟩

theorem representableMembers_of_areWhole {form : Decimal → Numeral} {members : List (String × Json)} {room : Nat}
    (h : membersAreWhole (rereadMembers form room members) = true) :
    RepresentableMembers (rereadMembers form room members) := by
  cases members with
  | nil => trivial
  | cons m ms =>
    rw [rereadMembers, membersAreWhole, Bool.and_eq_true] at h
    exact ⟨representable_of_isWhole_reread h.1, representableMembers_of_areWhole h.2⟩

end

theorem Numeral.depth_reread (n : Numeral) : n.reread.depth = 0 := by
  unfold reread
  cases value : n.value? with
  | none => rfl
  | some j =>
    unfold value? at value
    dsimp only at value
    split at value
    · split_ifs at value
      · cases value
        rfl
      · cases value
        rfl
      · obtain ⟨d, -, rfl⟩ := Option.map_eq_some_iff.mp value
        rfl
    · obtain ⟨d, -, rfl⟩ := Option.map_eq_some_iff.mp value
      rfl

theorem depth_within_le (room : Nat) (j : Json) : (within room j).depth ≤ j.depth := by
  unfold within
  split
  · exact Nat.zero_le _
  · exact Nat.le_refl _

mutual

/-- Nothing gets deeper. -/
theorem depth_reread_le (form : Decimal → Numeral) (room : Nat) (j : Json) :
    (j.rereadIn form room).depth ≤ j.depth := by
  cases j with
  | int n => exact (Numeral.depth_reread _).le
  | real d => exact (Numeral.depth_reread _).le
  | arr items => exact (depth_within_le room _).trans (Nat.succ_le_succ (depthItems_reread_le form (room - 1) items))
  | obj members =>
    exact (depth_within_le room _).trans (Nat.succ_le_succ (depthMembers_reread_le form (room - 1) members))
  | _ => exact Nat.le_refl _

theorem depthItems_reread_le (form : Decimal → Numeral) (room : Nat) (items : List Json) :
    depthItems (rereadItems form room items) ≤ depthItems items := by
  cases items with
  | nil => exact Nat.le_refl _
  | cons x xs => exact max_le_max (depth_reread_le form room x) (depthItems_reread_le form room xs)

theorem depthMembers_reread_le (form : Decimal → Numeral) (room : Nat) (members : List (String × Json)) :
    depthMembers (rereadMembers form room members) ≤ depthMembers members := by
  cases members with
  | nil => exact Nat.le_refl _
  | cons m ms => exact max_le_max (depth_reread_le form room m.2) (depthMembers_reread_le form room ms)

end

/-! ## Normal forms -/

theorem representable_putMember {name : String} {value : Json} {members : List (String × Json)}
    (h : value.Representable) (hs : RepresentableMembers members) :
    RepresentableMembers (putMember name value members) := by
  induction members with
  | nil => exact ⟨h, hs⟩
  | cons m ms ih =>
    rw [putMember]
    split_ifs
    · exact ⟨h, hs⟩
    · exact ⟨h, hs.2⟩
    · exact ⟨hs.1, ih hs.2⟩

theorem depthMembers_putMember (name : String) (value : Json) (members : List (String × Json)) :
    depthMembers (putMember name value members) ≤ max value.depth (depthMembers members) := by
  induction members with
  | nil => simp [putMember, depthMembers]
  | cons m ms ih =>
    rw [putMember]
    split_ifs <;> simp only [depthMembers]
    · exact le_rfl
    · omega
    · omega

mutual

theorem Representable.normal {j : Json} (h : j.Representable) : j.normal.Representable ∧ j.normal.depth ≤ j.depth := by
  cases j with
  | arr items =>
    obtain ⟨items', depth'⟩ := normalItems_representable h
    exact ⟨items', Nat.succ_le_succ depth'⟩
  | obj members =>
    obtain ⟨members', depth'⟩ := normalMembers_representable (show RepresentableMembers [] from trivial) h
    exact ⟨members', Nat.succ_le_succ (by simpa [depthMembers] using depth')⟩
  | _ => exact ⟨h, le_rfl⟩

theorem normalItems_representable {items : List Json} (h : RepresentableItems items) :
    RepresentableItems (normalItems items) ∧ depthItems (normalItems items) ≤ depthItems items := by
  cases items with
  | nil => exact ⟨h, le_rfl⟩
  | cons x xs =>
    obtain ⟨first, depth⟩ := h.1.normal
    obtain ⟨rest, depths⟩ := normalItems_representable h.2
    exact ⟨⟨first, rest⟩, max_le_max depth depths⟩

theorem normalMembers_representable {sorted members : List (String × Json)} (hs : RepresentableMembers sorted)
    (h : RepresentableMembers members) : RepresentableMembers (normalMembers sorted members) ∧
      depthMembers (normalMembers sorted members) ≤ max (depthMembers sorted) (depthMembers members) := by
  cases members with
  | nil => exact ⟨hs, Nat.le_max_left _ _⟩
  | cons m ms =>
    obtain ⟨name, x⟩ := m
    obtain ⟨first, depth⟩ := h.1.normal
    have put : RepresentableMembers (putMember name x.normal sorted) := representable_putMember first hs
    obtain ⟨rest, depths⟩ := normalMembers_representable put h.2
    refine ⟨rest, depths.trans ?_⟩
    have put := depthMembers_putMember name x.normal sorted
    simp only [depthMembers]
    omega

end

/-- A payload is read in normal form. -/
theorem Representable.payload? {j : Json} {room : Nat} (h : j.Representable) (shallow : j.depth ≤ room) :
    ∃ j', payload? (j.reread room) = some j' ∧ j'.Representable ∧ j'.depth ≤ j.depth := by
  obtain ⟨read, depth⟩ := h.reread shallow
  obtain ⟨normal, depth'⟩ := read.normal
  exact ⟨_, if_pos read.isWhole, normal, depth ▸ depth'⟩

/-! ## Values that are read as they were written -/

mutual

/-- Every fraction is read as it was, written as a certain numeral. -/
def FractionsKept (form : Decimal → Numeral) : Json → Prop
  | .real d => (form d).reread = .real d
  | .arr items => FractionsKeptItems form items
  | .obj members => FractionsKeptMembers form members
  | _ => True

def FractionsKeptItems (form : Decimal → Numeral) : List Json → Prop
  | [] => True
  | x :: xs => x.FractionsKept form ∧ FractionsKeptItems form xs

def FractionsKeptMembers (form : Decimal → Numeral) : List (String × Json) → Prop
  | [] => True
  | (_, x) :: rest => x.FractionsKept form ∧ FractionsKeptMembers form rest

end

mutual

theorem FractionsKept.reread_eq {form : Decimal → Numeral} {j : Json} {room : Nat} (kept : j.FractionsKept form)
    (h : j.Representable) (shallow : j.depth ≤ room) : j.rereadIn form room = j := by
  cases j with
  | int n =>
    rw [rereadIn, Numeral.reread, value?_ofInt h.1 h.2]
    rfl
  | real d => exact kept
  | arr items =>
    obtain ⟨room, rfl⟩ : ∃ n, room = n + 1 := ⟨room - 1, by rw [depth] at shallow; omega⟩
    rw [rereadIn, Nat.add_sub_cancel, rereadItems_eq kept h (Nat.le_of_succ_le_succ shallow)]
    rfl
  | obj members =>
    obtain ⟨room, rfl⟩ : ∃ n, room = n + 1 := ⟨room - 1, by rw [depth] at shallow; omega⟩
    rw [rereadIn, Nat.add_sub_cancel, rereadMembers_eq kept h (Nat.le_of_succ_le_succ shallow)]
    rfl
  | unread => exact h.elim
  | _ => rfl

theorem rereadItems_eq {form : Decimal → Numeral} {items : List Json} {room : Nat} (kept : FractionsKeptItems form items)
    (h : RepresentableItems items) (shallow : depthItems items ≤ room) : rereadItems form room items = items := by
  cases items with
  | nil => rfl
  | cons x xs =>
    rw [depthItems, Nat.max_le] at shallow
    rw [rereadItems, kept.1.reread_eq h.1 shallow.1, rereadItems_eq kept.2 h.2 shallow.2]

theorem rereadMembers_eq {form : Decimal → Numeral} {members : List (String × Json)} {room : Nat}
    (kept : FractionsKeptMembers form members) (h : RepresentableMembers members) (shallow : depthMembers members ≤ room) :
    rereadMembers form room members = members := by
  cases members with
  | nil => rfl
  | cons m ms =>
    rw [depthMembers, Nat.max_le] at shallow
    rw [rereadMembers, kept.1.reread_eq h.1 shallow.1, rereadMembers_eq kept.2 h.2 shallow.2]

end

theorem putMember_last {name : String} {value : Json} {members : List (String × Json)}
    (earlier : ∀ m ∈ members, m.1 < name) : putMember name value members = members ++ [(name, value)] := by
  induction members with
  | nil => rfl
  | cons m ms ih =>
    have before : m.1 < name := earlier m List.mem_cons_self
    rw [putMember, if_neg (String.lt_asymm before), if_neg (String.ne_of_lt before).symm,
      ih fun m mem => earlier m (List.mem_cons_of_mem _ mem)]
    rfl

mutual

theorem Normal.normal_eq {j : Json} (h : j.Normal) : j.normal = j := by
  cases j with
  | arr items => rw [normal, normalItems_eq h]
  | obj members => rw [normal, normalMembers_eq (by simpa using h.1) h.2, List.nil_append]
  | _ => rfl

theorem normalItems_eq {items : List Json} (h : NormalItems items) : normalItems items = items := by
  cases items with
  | nil => rfl
  | cons x xs => rw [normalItems, h.1.normal_eq, normalItems_eq h.2]

theorem normalMembers_eq {sorted members : List (String × Json)}
    (order : (sorted ++ members).Pairwise fun a b => a.1 < b.1) (h : NormalMembers members) :
    normalMembers sorted members = sorted ++ members := by
  cases members with
  | nil => rw [normalMembers, List.append_nil]
  | cons m ms =>
    obtain ⟨name, x⟩ := m
    have earlier (m : String × Json) (mem : m ∈ sorted) : m.1 < name :=
      (List.pairwise_append.mp order).2.2 m mem _ List.mem_cons_self
    rw [normalMembers, h.1.normal_eq, putMember_last earlier, normalMembers_eq (by simpa using order) h.2]
    simp

end

/-- A value in normal form whose fractions are kept is read as it was written. -/
theorem FractionsKept.payload?_eq {j : Json} {room : Nat} (kept : j.FractionsKept ofDecimal) (h : j.Representable)
    (normal : j.Normal) (shallow : j.depth ≤ room) : Json.payload? (j.reread room) = some j := by
  rw [Json.reread, kept.reread_eq h shallow, Json.payload?, if_pos h.isWhole, normal.normal_eq]

end Json

end Timetable
