/-!
# Tables

Finite maps as lists of pairs, in the order in which keys first came in, with one pair for each key.

Main statements:
* `get?_set`, `get?_erase`, `get?_filter`: what is found after a change;
* `mem_pairs_iff`, `mem_keys_iff`, `mem_values_iff`: a table as a list holds what is found in it;
* `erase_set_of_not_contains`: taking out what was new leaves what there was.
-/

namespace Timetable

structure Table (κ α : Type) where
  pairs : List (κ × α)
  nodup : (pairs.map (·.1)).Nodup
deriving DecidableEq

namespace Table

variable {κ α β : Type}

theorem nodup_keys_filter (keep : κ × α → Bool) {pairs : List (κ × α)}
    (h : (pairs.map (·.1)).Nodup) : ((pairs.filter keep).map (·.1)).Nodup :=
  h.sublist (List.filter_sublist.map _)

def mapPairs? (f : α → Option β) : List (κ × α) → Option (List (κ × β))
  | [] => some []
  | (k, a) :: rest => do
    let b ← f a
    some ((k, b) :: (← mapPairs? f rest))

theorem keys_mapPairs? {f : α → Option β} {pairs : List (κ × α)} {mapped : List (κ × β)}
    (h : mapPairs? f pairs = some mapped) : mapped.map (·.1) = pairs.map (·.1) := by
  induction pairs generalizing mapped with
  | nil => simp only [mapPairs?, Option.some.injEq] at h; simp [← h]
  | cons p rest ih =>
    obtain ⟨k, a⟩ := p
    simp only [mapPairs?, Option.bind_eq_bind, Option.bind_eq_some_iff, Option.some.injEq] at h
    obtain ⟨b, _, tail, ht, rfl⟩ := h
    simp [ih ht]

variable [DecidableEq κ]

def lookup : List (κ × α) → κ → Option α
  | [], _ => none
  | (k, a) :: rest, key => if k = key then some a else lookup rest key

def put (key : κ) (value : α) : List (κ × α) → List (κ × α)
  | [] => [(key, value)]
  | (k, a) :: rest => if k = key then (key, value) :: rest else (k, a) :: put key value rest

theorem mem_keys_put {key : κ} {value : α} {pairs : List (κ × α)} {k : κ}
    (h : k ∈ (put key value pairs).map (·.1)) : k = key ∨ k ∈ pairs.map (·.1) := by
  induction pairs with
  | nil => simpa [put] using h
  | cons p rest ih =>
    obtain ⟨k', a⟩ := p
    by_cases hk : k' = key
    · subst hk
      simp only [put, if_true, List.map_cons, List.mem_cons] at h ⊢
      exact .inr h
    · simp only [put, hk, if_false, List.map_cons, List.mem_cons] at h ⊢
      rcases h with rfl | h
      · exact .inr (.inl rfl)
      · exact (ih h).imp_right .inr

theorem nodup_keys_put (key : κ) (value : α) {pairs : List (κ × α)}
    (h : (pairs.map (·.1)).Nodup) : ((put key value pairs).map (·.1)).Nodup := by
  induction pairs with
  | nil => simp [put]
  | cons p rest ih =>
    obtain ⟨k', a⟩ := p
    simp only [List.map_cons, List.nodup_cons] at h
    by_cases hk : k' = key
    · subst hk
      simpa [put] using h
    · simp only [put, hk, if_false, List.map_cons, List.nodup_cons]
      refine ⟨fun hm => ?_, ih h.2⟩
      exact (mem_keys_put hm).elim hk h.1

def empty : Table κ α := ⟨[], .nil⟩

instance : Inhabited (Table κ α) := ⟨empty⟩

def get? (t : Table κ α) (key : κ) : Option α := lookup t.pairs key

def contains (t : Table κ α) (key : κ) : Bool := (t.get? key).isSome

def set (t : Table κ α) (key : κ) (value : α) : Table κ α :=
  ⟨put key value t.pairs, nodup_keys_put key value t.nodup⟩

def erase (t : Table κ α) (key : κ) : Table κ α :=
  ⟨t.pairs.filter (·.1 ≠ key), nodup_keys_filter _ t.nodup⟩

/-- Leaves a key that is there as it is. -/
def setIfAbsent (t : Table κ α) (key : κ) (value : α) : Table κ α :=
  if t.contains key then t else t.set key value

def keys (t : Table κ α) : List κ := t.pairs.map (·.1)

def values (t : Table κ α) : List α := t.pairs.map (·.2)

def size (t : Table κ α) : Nat := t.pairs.length

def filter (t : Table κ α) (keep : κ → α → Bool) : Table κ α :=
  ⟨t.pairs.filter fun p => keep p.1 p.2, nodup_keys_filter _ t.nodup⟩

/-- Changes every value, if all of them can be changed. -/
def mapValues? (f : α → Option β) (t : Table κ α) : Option (Table κ β) :=
  match h : mapPairs? f t.pairs with
  | some pairs => some ⟨pairs, keys_mapPairs? h ▸ t.nodup⟩
  | none => none

/-! ## Looking up after a change -/

theorem lookup_put (key : κ) (value : α) (pairs : List (κ × α)) (k : κ) :
    lookup (put key value pairs) k = if key = k then some value else lookup pairs k := by
  induction pairs with
  | nil => simp [put, lookup]
  | cons p rest ih =>
    obtain ⟨k', a⟩ := p
    by_cases h : k' = key
    · subst h
      by_cases hk : k' = k <;> simp [put, lookup, hk]
    · by_cases hk : k' = k
      · subst hk
        simp [put, lookup, h, Ne.symm h]
      · simp [put, lookup, h, hk, ih]

theorem lookup_filter_ne (key : κ) (pairs : List (κ × α)) (k : κ) :
    lookup (pairs.filter (·.1 ≠ key)) k = if key = k then none else lookup pairs k := by
  induction pairs with
  | nil => simp [lookup]
  | cons p rest ih =>
    obtain ⟨k', a⟩ := p
    by_cases h : k' = key
    · subst h
      by_cases hk : k' = k
      · simpa [hk] using ih
      · simpa [lookup, hk] using ih
    · by_cases hk : k' = k
      · subst hk
        simp [lookup, h, Ne.symm h]
      · simp only [List.filter_cons, ne_eq, h, not_false_eq_true, decide_true, if_true, lookup, hk,
          if_false]
        exact ih

@[simp] theorem get?_empty (k : κ) : (empty : Table κ α).get? k = none := rfl

@[simp] theorem get?_set (t : Table κ α) (key k : κ) (value : α) :
    (t.set key value).get? k = if key = k then some value else t.get? k :=
  lookup_put key value t.pairs k

@[simp] theorem get?_erase (t : Table κ α) (key k : κ) :
    (t.erase key).get? k = if key = k then none else t.get? k :=
  lookup_filter_ne key t.pairs k

theorem lookup_eq_some_iff {pairs : List (κ × α)} (hn : (pairs.map (·.1)).Nodup) {k : κ} {a : α} :
    lookup pairs k = some a ↔ (k, a) ∈ pairs := by
  induction pairs with
  | nil => simp [lookup]
  | cons p rest ih =>
    obtain ⟨k', a'⟩ := p
    simp only [List.map_cons, List.nodup_cons] at hn
    by_cases h : k' = k
    · subst h
      have absent : (k', a) ∉ rest := fun hm => hn.1 (List.mem_map_of_mem hm)
      simp [lookup, absent, eq_comm]
    · simp [lookup, h, Ne.symm h, ih hn.2]

theorem mem_pairs_iff {t : Table κ α} {k : κ} {a : α} : (k, a) ∈ t.pairs ↔ t.get? k = some a :=
  (lookup_eq_some_iff t.nodup).symm

theorem mem_values_iff {t : Table κ α} {a : α} : a ∈ t.values ↔ ∃ k, t.get? k = some a := by
  simp only [values, List.mem_map, Prod.exists, mem_pairs_iff, exists_eq_right]

theorem mem_keys_iff {t : Table κ α} {k : κ} : k ∈ t.keys ↔ t.contains k = true := by
  simp only [keys, contains, List.mem_map, Prod.exists, mem_pairs_iff, exists_and_right,
    exists_eq_right, Option.isSome_iff_exists]

theorem contains_iff {t : Table κ α} {k : κ} : t.contains k = true ↔ ∃ a, t.get? k = some a :=
  Option.isSome_iff_exists

theorem contains_eq_false_iff {t : Table κ α} {k : κ} : t.contains k = false ↔ t.get? k = none := by
  simp [contains]

@[simp] theorem contains_empty (k : κ) : (empty : Table κ α).contains k = false := rfl

@[simp] theorem contains_set (t : Table κ α) (key k : κ) (value : α) :
    (t.set key value).contains k = (decide (key = k) || t.contains k) := by
  by_cases h : key = k <;> simp [contains, h]

@[simp] theorem contains_erase (t : Table κ α) (key k : κ) :
    (t.erase key).contains k = (!decide (key = k) && t.contains k) := by
  by_cases h : key = k <;> simp [contains, h]

theorem get?_setIfAbsent (t : Table κ α) (key k : κ) (value : α) :
    (t.setIfAbsent key value).get? k =
      if key = k ∧ t.contains key = false then some value else t.get? k := by
  unfold setIfAbsent
  by_cases h : t.contains key <;> simp [h]

theorem get?_filter (t : Table κ α) (keep : κ → α → Bool) (k : κ) :
    (t.filter keep).get? k = (t.get? k).filter (keep k) := by
  ext a
  rw [← mem_pairs_iff]
  simp only [filter, List.mem_filter, mem_pairs_iff, Option.filter_eq_some_iff]

theorem erase_set_of_not_contains {t : Table κ α} {k : κ} {value : α} (h : t.contains k = false) :
    (t.set k value).erase k = t := by
  obtain ⟨pairs, hn⟩ := t
  simp only [set, erase, mk.injEq]
  induction pairs with
  | nil => simp [put]
  | cons p rest ih =>
    obtain ⟨k', a⟩ := p
    have hn' := (List.nodup_cons.mp hn).2
    by_cases hk : k' = k
    · simp [contains, get?, lookup, hk] at h
    · have hr : (Table.mk rest hn').contains k = false := by
        simpa [contains, get?, lookup, hk] using h
      simpa [put, hk] using ih hn' hr

end Table

end Timetable
