import Mathlib.Data.List.Nodup
import Mathlib.Data.List.Perm.Basic
import Timetable.Table

/-!
# Tables in step

Two tables that hold the same keys, with values that are made of each other, hold them as lists up to their order
(`Table.perm_pairs`). What is put into a part of a table or taken out of it may as well be put into the part alone
(`Table.filter_set`, `Table.filter_erase`).
-/

namespace Timetable.Table

variable {κ α β : Type} [DecidableEq κ]

theorem erase_of_not_contains {t : Table κ α} {k : κ} (h : t.contains k = false) : t.erase k = t := by
  obtain ⟨pairs, hn⟩ := t
  simp only [erase, mk.injEq, List.filter_eq_self]
  rintro ⟨k', a⟩ hm
  have absent : (Table.mk pairs hn).get? k = none := contains_eq_false_iff.mp h
  simp only [ne_eq, decide_eq_true_eq]
  rintro rfl
  rw [mem_pairs_iff.mp hm] at absent
  cases absent

theorem ne_of_contains {t : Table κ α} {k k' : κ} (absent : t.contains k = false) (there : t.contains k' = true) :
    k ≠ k' := by
  rintro rfl
  rw [there] at absent
  cases absent

omit [DecidableEq κ] in
theorem nodup_pairs (t : Table κ α) : t.pairs.Nodup := .of_map _ t.nodup

variable {t : Table κ α} {u : Table κ β} {f : α → β}

theorem perm_pairs (h : ∀ k, u.get? k = (t.get? k).map f) : u.pairs.Perm (t.pairs.map fun p => (p.1, f p.2)) := by
  have keys : (t.pairs.map fun p => (p.1, f p.2)).map Prod.fst = t.pairs.map Prod.fst := by
    rw [List.map_map]
    rfl
  have nodup : (t.pairs.map fun p => (p.1, f p.2)).Nodup := .of_map Prod.fst (keys ▸ t.nodup)
  refine (List.perm_ext_iff_of_nodup u.nodup_pairs nodup).mpr ?_
  rintro ⟨k, b⟩
  rw [mem_pairs_iff, h, Option.map_eq_some_iff, List.mem_map]
  constructor
  · rintro ⟨a, at_, rfl⟩
    exact ⟨(k, a), mem_pairs_iff.mpr at_, rfl⟩
  · rintro ⟨⟨k', a⟩, mem, same⟩
    cases same
    exact ⟨a, mem_pairs_iff.mp mem, rfl⟩

theorem perm_values (h : ∀ k, u.get? k = (t.get? k).map f) : u.values.Perm (t.values.map f) := by
  have pairs := (perm_pairs h).map Prod.snd
  rw [List.map_map] at pairs
  rw [values, values, List.map_map]
  exact pairs

theorem size_eq (h : ∀ k, u.get? k = (t.get? k).map f) : u.size = t.size := by
  have pairs := (perm_pairs h).length_eq
  rwa [List.length_map] at pairs

/-! ## Parts of a table -/

variable {k : κ} {a : α} {keep : κ → α → Bool}

theorem filter_put {pairs : List (κ × α)} (new : keep k a = true)
    (old : ∀ b, (k, b) ∈ pairs → keep k b = true) :
    (put k a pairs).filter (fun p => keep p.1 p.2) = put k a (pairs.filter fun p => keep p.1 p.2) := by
  induction pairs with
  | nil => simp [put, new]
  | cons p rest ih =>
    obtain ⟨k', b⟩ := p
    by_cases same : k' = k
    · subst same
      have kept : keep k' b = true := old b List.mem_cons_self
      simp [put, new, kept]
    · have rest := ih fun b mem => old b (List.mem_cons_of_mem _ mem)
      by_cases kept : keep k' b = true
      · simp [put, same, kept, rest]
      · simp [put, same, kept, rest]

/-- What is put in among what is kept is put in its part of the table. -/
theorem filter_set (new : keep k a = true) (old : ∀ b, t.get? k = some b → keep k b = true) :
    (t.set k a).filter keep = (t.filter keep).set k a := by
  simp only [filter, set, mk.injEq]
  exact filter_put new fun b mem => old b (mem_pairs_iff.mp mem)

theorem filter_erase (t : Table κ α) (k : κ) (keep : κ → α → Bool) :
    (t.erase k).filter keep = (t.filter keep).erase k := by
  simp only [filter, erase, mk.injEq, List.filter_filter]
  exact List.filter_congr fun p _ => Bool.and_comm _ _

end Timetable.Table
