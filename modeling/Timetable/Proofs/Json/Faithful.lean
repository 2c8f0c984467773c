import Timetable.Proofs.Json.Representable
import Timetable.Store.Row

/-!
# Values that come back as they were

A value is *proper* (`Json.Proper`) if its numbers fit and its members are in order, and *faithful* (`Json.Faithful`) if
it is read as it was written: its fractions also keep their values in the form in which they are written, and it is not
too deep for its reader. The lists and records around faithful values are faithful with more room.

The form is that of the place where the text is kept. A column for JSON keeps the printed numerals or the digits in their
places (`JsonColumn.numeral`), and what is faithful in that form is read of it (`Json.Faithful.readJson?`).
-/

namespace Timetable

open Json

namespace Json

variable {form : Decimal → Numeral} {j x : Json} {room : Nat} {items : List Json} {members : List (String × Json)}

/-! ## Parts of values -/

theorem representableItems_iff : RepresentableItems items ↔ ∀ x ∈ items, x.Representable := by
  induction items with
  | nil => simp [RepresentableItems]
  | cons x xs ih => rw [RepresentableItems, ih, List.forall_mem_cons]

theorem representableMembers_iff : RepresentableMembers members ↔ ∀ m ∈ members, m.2.Representable := by
  induction members with
  | nil => simp [RepresentableMembers]
  | cons m ms ih => rw [RepresentableMembers, ih, List.forall_mem_cons]

theorem normalItems_iff : NormalItems items ↔ ∀ x ∈ items, x.Normal := by
  induction items with
  | nil => simp [NormalItems]
  | cons x xs ih => rw [NormalItems, ih, List.forall_mem_cons]

theorem normalMembers_iff : NormalMembers members ↔ ∀ m ∈ members, m.2.Normal := by
  induction members with
  | nil => simp [NormalMembers]
  | cons m ms ih => rw [NormalMembers, ih, List.forall_mem_cons]

theorem fractionsKeptItems_iff : FractionsKeptItems form items ↔ ∀ x ∈ items, x.FractionsKept form := by
  induction items with
  | nil => simp [FractionsKeptItems]
  | cons x xs ih => rw [FractionsKeptItems, ih, List.forall_mem_cons]

theorem fractionsKeptMembers_iff : FractionsKeptMembers form members ↔ ∀ m ∈ members, m.2.FractionsKept form := by
  induction members with
  | nil => simp [FractionsKeptMembers]
  | cons m ms ih => rw [FractionsKeptMembers, ih, List.forall_mem_cons]

theorem depthItems_le_iff : depthItems items ≤ room ↔ ∀ x ∈ items, x.depth ≤ room := by
  induction items with
  | nil => simp [depthItems]
  | cons x xs ih => rw [depthItems, Nat.max_le, ih, List.forall_mem_cons]

theorem depthMembers_le_iff : depthMembers members ≤ room ↔ ∀ m ∈ members, m.2.depth ≤ room := by
  induction members with
  | nil => simp [depthMembers]
  | cons m ms ih => rw [depthMembers, Nat.max_le, ih, List.forall_mem_cons]

/-! ## Faithful values -/

/-- A value such as readers make: its numbers fit, and its members are in order. -/
structure Proper (j : Json) : Prop where
  representable : j.Representable
  normal : j.Normal

theorem Proper.payload? (h : j.Proper) : payload? j = some j := by
  rw [Json.payload?, if_pos h.representable.isWhole, h.normal.normal_eq]

/-- A value that is read as it was written in some form, with room for some containers inside of each other. -/
structure Faithful (form : Decimal → Numeral) (room : Nat) (j : Json) : Prop where
  representable : j.Representable
  normal : j.Normal
  fractions : j.FractionsKept form
  shallow : j.depth ≤ room

theorem Faithful.proper (h : j.Faithful form room) : j.Proper := ⟨h.representable, h.normal⟩

theorem Faithful.mono {room' : Nat} (h : j.Faithful form room) (le : room ≤ room') : j.Faithful form room' :=
  ⟨h.representable, h.normal, h.fractions, h.shallow.trans le⟩

theorem faithful_null : null.Faithful form room := ⟨trivial, trivial, trivial, Nat.zero_le _⟩

theorem faithful_str (s : String) : (str s).Faithful form room := ⟨trivial, trivial, trivial, Nat.zero_le _⟩

theorem faithful_bool (b : Bool) : (bool b).Faithful form room := ⟨trivial, trivial, trivial, Nat.zero_le _⟩

theorem faithful_ofNat {n : Nat} (h : n < 4294967296) : (ofNat n).Faithful form room := by
  refine ⟨⟨?_, ?_⟩, trivial, trivial, Nat.zero_le _⟩
  · omega
  · simp only [wordLimit]
    omega

theorem natBelow?_ofNat {limit n : Nat} (h : n < limit) : natBelow? limit (ofNat n) = some n := by
  rw [ofNat, natBelow?, if_pos ⟨Int.natCast_nonneg n, Int.ofNat_lt.mpr h⟩, Int.toNat_natCast]

theorem faithful_arr (h : ∀ x ∈ items, x.Faithful form room) : (arr items).Faithful form (room + 1) where
  representable := representableItems_iff.mpr fun x mem => (h x mem).representable
  normal := normalItems_iff.mpr fun x mem => (h x mem).normal
  fractions := fractionsKeptItems_iff.mpr fun x mem => (h x mem).fractions
  shallow := Nat.succ_le_succ (depthItems_le_iff.mpr fun x mem => (h x mem).shallow)

theorem faithful_obj (sorted : (members.map Prod.fst).Pairwise (· < ·)) (h : ∀ m ∈ members, m.2.Faithful form room) :
    (obj members).Faithful form (room + 1) where
  representable := representableMembers_iff.mpr fun m mem => (h m mem).representable
  normal := ⟨List.pairwise_map.mp sorted, normalMembers_iff.mpr fun m mem => (h m mem).normal⟩
  fractions := fractionsKeptMembers_iff.mpr fun m mem => (h m mem).fractions
  shallow := Nat.succ_le_succ (depthMembers_le_iff.mpr fun m mem => (h m mem).shallow)

theorem faithful_ofList {α : Type} {write : α → Json} {xs : List α} (h : ∀ x ∈ xs, (write x).Faithful form room) :
    (ofList write xs).Faithful form (room + 1) := by
  refine faithful_arr fun x mem => ?_
  obtain ⟨a, own, rfl⟩ := List.mem_map.mp mem
  exact h a own

theorem list?_ofList {α : Type} {read : Json → Option α} {write : α → Json} {xs : List α}
    (h : ∀ x ∈ xs, read (write x) = some x) : list? read (ofList write xs) = some xs := by
  show (xs.map write).mapM read = some xs
  induction xs with
  | nil => rfl
  | cons x xs ih =>
    obtain ⟨first, rest⟩ := List.forall_mem_cons.mp h
    rw [List.map_cons, List.mapM_cons, first, ih rest]
    rfl

end Json

/-! ## Columns -/

namespace JsonColumn

/-- The numeral that a column keeps of a decimal. -/
def numeral : JsonColumn → Decimal → Numeral
  | json => ofDecimal
  | jsonb => Numeral.inPlace

theorem valid_numeral (kind : JsonColumn) (d : Decimal) : (kind.numeral d).Valid := by
  cases kind with
  | json => exact valid_ofDecimal d
  | jsonb => exact valid_inPlace d

theorem decimalChars_eq (kind : JsonColumn) : kind.decimalChars = formChars kind.numeral := by
  cases kind with
  | json => exact formChars_ofDecimal.symm
  | jsonb => rfl

theorem outline?_text (kind : JsonColumn) (j : Json) :
    outline? (kind.text j) = some (j.rereadIn kind.numeral deepest) := by
  rw [text, decimalChars_eq, outline?_textIn kind.valid_numeral]

/-- What is read of a column, whatever the value was. -/
theorem readJson?_text {α : Type} (kind : JsonColumn) (read : Json → Option α) (j : Json) :
    readJson? read (kind.text j) =
      ((some (j.rereadIn kind.numeral deepest)).filter isWhole).bind fun x => read x.normal := by
  have found : ofText? (kind.text j) = (outline? (kind.text j)).filter isWhole := rfl
  rw [Timetable.readJson?, found, kind.outline?_text]
  rfl

end JsonColumn

/-- A column that was given such a value holds it. -/
theorem Json.Faithful.readJson? {α : Type} {kind : JsonColumn} {read : Json → Option α} {j : Json}
    (h : j.Faithful kind.numeral deepest) : readJson? read (kind.text j) = read j := by
  rw [kind.readJson?_text, h.fractions.reread_eq h.representable h.shallow, Option.filter_some,
    if_pos h.representable.isWhole, Option.bind_some, h.normal.normal_eq]

end Timetable
