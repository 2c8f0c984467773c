import Mathlib.Order.WithBot
import Timetable.Engine.Dispatch
import Timetable.Proofs.Instant.Order
import Timetable.Store.Local

/-!
# The latest executions of a job

What counts as the latest of a history does not depend on how it is sorted: one execution comes before another if it was
begun later, or began like it and was stored later (`Precedes`), and the latest `n` are those that fewer than `n` others
precede. `allFailed_recent` says so of the window that the store gives, from the stability of the sort.
-/

namespace Timetable

/-- Where every item of a list is related to all later ones and to no other, as many are related to an item as stand
before it. -/
theorem countP_eq_of_pairwise {α : Type} {R : α → α → Prop} [DecidableRel R] {l : List α}
    (asymm : ∀ {a b}, R a b → ¬ R b a) (sorted : l.Pairwise R) {k : Nat} (hk : k < l.length) :
    l.countP (R · l[k]) = k := by
  induction l generalizing k with
  | nil => cases hk
  | cons a l ih =>
    obtain ⟨first, rest⟩ := List.pairwise_cons.mp sorted
    cases k with
    | zero =>
      refine List.countP_eq_zero.mpr fun b mem => ?_
      rw [decide_eq_true_eq]
      rcases List.mem_cons.mp mem with rfl | mem
      · exact fun self => asymm self self
      · exact asymm (first b mem)
    | succ k =>
      have hk : k < l.length := Nat.lt_of_succ_lt_succ hk
      have before : R a l[k] := first _ (List.getElem_mem hk)
      simp only [List.getElem_cons_succ]
      rw [List.countP_cons, ih rest hk, if_pos (decide_eq_true before)]

namespace JobExecution

/-- When an execution was begun; one that never was comes before all times. -/
def begun (e : JobExecution) : WithBot Instant := e.processedOn

/-- Of executions with their places in a history, newest first: one comes before the other among the latest. -/
def Precedes (a b : JobExecution × Nat) : Prop := b.1.begun < a.1.begun ∨ a.1.begun = b.1.begun ∧ a.2 < b.2

instance : DecidableRel Precedes := fun _ _ => inferInstanceAs (Decidable (_ ∨ _))

/-- A history, newest first, is as long as asked for, and as many of its latest executions failed. -/
def Failing (n : Nat) (history : List JobExecution) : Prop :=
  n ≤ history.length ∧
    ∀ a ∈ history.zipIdx, history.zipIdx.countP (Precedes · a) < n → a.1.status = .jobError

instance (n : Nat) (history : List JobExecution) : Decidable (Failing n history) :=
  inferInstanceAs (Decidable (_ ∧ _))

theorem begunNoEarlier_iff {a b : JobExecution} : a.begunNoEarlier b = true ↔ b.begun ≤ a.begun := by
  unfold begunNoEarlier begun
  cases a.processedOn with
  | none =>
    cases b.processedOn with
    | none => exact iff_of_true rfl le_rfl
    | some y => exact iff_of_false Bool.false_ne_true (WithBot.not_coe_le_bot y)
  | some x =>
    cases b.processedOn with
    | none => exact iff_of_true rfl bot_le
    | some y => exact decide_eq_true_iff.trans WithBot.coe_le_coe.symm

theorem precedes_asymm {a b : JobExecution × Nat} (h : Precedes a b) : ¬ Precedes b a := by
  rintro (later | ⟨same, before⟩)
  · rcases h with later' | ⟨same', -⟩
    · exact lt_asymm later later'
    · exact later.ne same'
  · rcases h with later' | ⟨-, before'⟩
    · exact later'.ne same
    · exact Nat.lt_asymm before before'

/-- What a stable sort puts first is what precedes. -/
theorem precedes_of_zipIdxLE {a b : JobExecution × Nat} (h : List.zipIdxLE begunNoEarlier a b = true) (ne : a.2 ≠ b.2) :
    Precedes a b := by
  unfold List.zipIdxLE at h
  split at h
  · next le =>
    split at h
    · next ge =>
      have same : a.1.begun = b.1.begun := le_antisymm (begunNoEarlier_iff.mp ge) (begunNoEarlier_iff.mp le)
      exact .inr ⟨same, Nat.lt_of_le_of_ne (of_decide_eq_true h) ne⟩
    · next later => exact .inl (lt_of_not_ge (mt begunNoEarlier_iff.mpr later))
  · cases h

/-- A history that is sorted by when its executions were begun is in the order of precedence. -/
theorem pairwise_precedes (h : List JobExecution) :
    (h.zipIdx.mergeSort (List.zipIdxLE begunNoEarlier)).Pairwise Precedes := by
  let sorted := h.zipIdx.mergeSort (List.zipIdxLE begunNoEarlier)
  have perm : sorted.Perm h.zipIdx := List.mergeSort_perm _ _
  have places : (sorted.map (·.2)).Nodup := by
    rw [(perm.map _).nodup_iff, List.zipIdx_map_snd]
    exact List.nodup_range'
  have ordered : sorted.Pairwise fun a b => List.zipIdxLE begunNoEarlier a b = true := by
    refine List.pairwise_mergeSort (List.zipIdxLE_trans ?_) (List.zipIdxLE_total ?_) _
    · exact fun a b c h h' => begunNoEarlier_iff.mpr ((begunNoEarlier_iff.mp h').trans (begunNoEarlier_iff.mp h))
    · exact fun a b => by simpa [begunNoEarlier_iff] using le_total b.begun a.begun
  exact (ordered.and (List.pairwise_map.mp places)).imp fun both => precedes_of_zipIdxLE both.1 both.2

end JobExecution

open JobExecution in
/-- The window of the store holds failures alone iff the latest executions all failed. -/
theorem allFailed_recent (s : LocalStore) (id : Identifier) (n : Nat) :
    Engine.allFailed n (s.recent id n) = true ↔ Failing n (s.executionsOf id) := by
  generalize history : s.executionsOf id = h
  let sorted := h.zipIdx.mergeSort (List.zipIdxLE begunNoEarlier)
  have perm : sorted.Perm h.zipIdx := List.mergeSort_perm _ _
  have window : s.recent id n = (sorted.take n).map (·.1) := by
    rw [LocalStore.recent, history, ← List.mergeSort_zipIdx, List.map_take]
  have length : sorted.length = h.length := by rw [perm.length_eq, List.length_zipIdx]
  have pairwise : sorted.Pairwise Precedes := pairwise_precedes h
  -- an item stands within the window iff fewer than its size precede it
  have within (a : JobExecution × Nat) : a ∈ sorted.take n ↔ a ∈ h.zipIdx ∧ h.zipIdx.countP (Precedes · a) < n := by
    rw [← perm.mem_iff, ← perm.countP_eq, List.mem_take_iff_getElem]
    constructor
    · rintro ⟨k, hk, rfl⟩
      rw [countP_eq_of_pairwise precedes_asymm pairwise]
      exact ⟨List.getElem_mem _, by omega⟩
    · rintro ⟨mem, few⟩
      obtain ⟨k, hk, rfl⟩ := List.getElem_of_mem mem
      rw [countP_eq_of_pairwise precedes_asymm pairwise] at few
      exact ⟨k, by omega, rfl⟩
  have enough : (sorted.take n).length = n ↔ n ≤ h.length := by
    rw [List.length_take, length]
    omega
  rw [Engine.allFailed, window, Bool.and_eq_true, beq_iff_eq, List.length_map, enough, List.all_map, List.all_eq_true]
  simp only [within, Function.comp_apply, beq_iff_eq, and_imp, Failing]

end Timetable
