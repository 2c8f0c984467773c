import Timetable.Proofs.Keyspace.Faults
import Timetable.Proofs.Queue.Texts

/-!
# Order in a shared keyspace under any faults

A script that is hit by a fault in its middle may leave an entry that neither waits nor is claimed, or a claim without
a lease. It still leaves the keyspace `Orderly`: what is claimed does not wait. And it leaves every claim alone that it
does not name (`Leaves`).
-/

namespace Timetable.SharedQueue

open Program

/-- Entries are stored under their own identifiers, and what waits or is claimed is stored and not both. -/
structure Orderly (s : Keyspace) : Prop where
  named : ∀ {id text}, s.entries.get? id = some text → ∃ e, text = entryText e ∧ e.id = id
  waiting : ∀ {id}, s.delayed.contains id = true → s.entries.contains id = true
  claimed : ∀ {id}, s.active.contains id = true → s.entries.contains id = true ∧ s.delayed.contains id = false

/-- A claim is held, with the end of its lease. -/
structure Held (s : Keyspace) (id text : String) (expiry : Int) : Prop where
  claim : s.active.get? id = some text
  lease : s.leases.get? id = some expiry

/-- The claim under an identifier stays, if there is one with a lease. -/
def Stays (s s' : Keyspace) (id : String) : Prop := ∀ text expiry, Held s id text expiry → Held s' id text expiry

/-- What is left of an orderly keyspace is orderly, and some claims stay. -/
structure Leaves (s : Keyspace) (P : String → Prop) (s' : Keyspace) : Prop where
  orderly : Orderly s'
  stays : ∀ {id}, P id → Stays s s' id

/-- No claim is held under an identifier. -/
def Free (s : Keyspace) (id : String) : Prop := ∀ text expiry, ¬ Held s id text expiry

variable {s s' s'' : Keyspace} {P P' : String → Prop} {id x text : String} {expiry : Int} {e : StoredEntry}

theorem Held.active (h : Held s id text expiry) : s.active.contains id = true := Table.contains_iff.mpr ⟨text, h.claim⟩

theorem Held.of_eq (h : Held s id text expiry) (active : s'.active = s.active) (leases : s'.leases = s.leases) :
    Held s' id text expiry :=
  ⟨active ▸ h.claim, leases ▸ h.lease⟩

theorem Leaves.refl (orderly : Orderly s) : Leaves s P s := ⟨orderly, fun _ _ _ h => h⟩

theorem Leaves.trans (h : Leaves s P s') (h' : Leaves s' P s'') : Leaves s P s'' :=
  ⟨h'.orderly, fun hx text expiry held => h'.stays hx text expiry (h.stays hx text expiry held)⟩

theorem Leaves.mono (h : Leaves s P s') (sub : ∀ x, P' x → P x) : Leaves s P' s' := ⟨h.orderly, fun hx => h.stays (sub _ hx)⟩

theorem Leaves.of_eq (orderly : Orderly s') (active : s'.active = s.active) (leases : s'.leases = s.leases) :
    Leaves s P s' :=
  ⟨orderly, fun _ _ _ held => held.of_eq active leases⟩

/-! ## Changes of an orderly keyspace -/

namespace Orderly

theorem empty : Orderly {} := ⟨(fun h => by cases h), (fun h => by cases h), fun h => by cases h⟩

theorem setEntry (h : Orderly s) (own : e.id = id) : Orderly { s with entries := s.entries.set id (entryText e) } where
  named {x text} hx := by
    rw [Table.get?_set] at hx
    split at hx
    · next same => exact ⟨e, (Option.some.inj hx).symm, own.trans same⟩
    · exact h.named hx
  waiting hx := by simp [h.waiting hx]
  claimed hx := ⟨by simp [(h.claimed hx).1], (h.claimed hx).2⟩

/-- An entry that is stored and not claimed may wait. -/
theorem schedule (h : Orderly s) (stored : s.entries.contains id = true) (free : s.active.contains id = false)
    (score : Int) : Orderly { s with delayed := s.delayed.set id score } where
  named := h.named
  waiting {x} hx := by
    by_cases same : id = x
    · exact same ▸ stored
    · exact h.waiting (by simpa [same] using hx)
  claimed {x} hx := by
    have ne := Table.ne_of_contains free hx
    exact ⟨(h.claimed hx).1, by simp [ne, (h.claimed hx).2]⟩

theorem unschedule (h : Orderly s) (id : String) : Orderly { s with delayed := s.delayed.erase id } where
  named := h.named
  waiting {x} hx := h.waiting (by
    simp only [Table.contains_erase, Bool.and_eq_true] at hx
    exact hx.2)
  claimed hx := ⟨(h.claimed hx).1, by simp [(h.claimed hx).2]⟩

/-- An entry that neither waits nor is claimed may go. -/
theorem eraseEntry (h : Orderly s) (parked : s.delayed.contains id = false) (free : s.active.contains id = false) :
    Orderly { s with entries := s.entries.erase id } where
  named hx := by
    simp only [Table.get?_erase, Option.ite_none_left_eq_some] at hx
    exact h.named hx.2
  waiting {x} hx := by
    have ne := Table.ne_of_contains parked hx
    simp [ne, h.waiting hx]
  claimed {x} hx := by
    have ne := Table.ne_of_contains free hx
    exact ⟨by simp [ne, (h.claimed hx).1], (h.claimed hx).2⟩

/-- An entry that does not wait may be claimed. -/
theorem hold (h : Orderly s) (stored : s.entries.contains id = true) (parked : s.delayed.contains id = false)
    (text : String) : Orderly { s with active := s.active.set id text } where
  named := h.named
  waiting := h.waiting
  claimed {x} hx := by
    by_cases same : id = x
    · exact same ▸ ⟨stored, parked⟩
    · exact h.claimed (by simpa [same] using hx)

theorem unhold (h : Orderly s) (id : String) : Orderly { s with active := s.active.erase id } where
  named := h.named
  waiting := h.waiting
  claimed {x} hx := h.claimed (by
    simp only [Table.contains_erase, Bool.and_eq_true] at hx
    exact hx.2)

theorem withLeases (h : Orderly s) (leases : SortedSet) : Orderly { s with leases } := ⟨h.named, h.waiting, h.claimed⟩

theorem withRepeats (h : Orderly s) (repeats : Hash) : Orderly { s with repeats } := ⟨h.named, h.waiting, h.claimed⟩

/-- What is not stored is not claimed. -/
theorem free (h : Orderly s) (absent : s.entries.contains id = false) : s.active.contains id = false := by
  by_contra active
  rw [Bool.not_eq_false] at active
  rw [(h.claimed active).1] at absent
  cases absent

/-- What waits is not claimed. -/
theorem free_of_waiting (h : Orderly s) (waits : s.delayed.contains id = true) : s.active.contains id = false := by
  by_contra active
  rw [Bool.not_eq_false] at active
  rw [(h.claimed active).2] at waits
  cases waits

end Orderly

/-! ## Scripts -/

section

open Command

variable {fails : Verb → Bool}

theorem insertScript_leaves (orderly : Orderly s) (own : e.id = id) (score : Int) :
    (insertScript fails id (entryText e) score).Ends s (fun _ => Leaves s P) fun _ => Leaves s P := by
  have stay : Leaves s P s := .refl orderly
  refine Act.ends_bind.mpr (guard_ends stay (Act.ends_bind.mpr ?_))
  refine hsetnxStep_ends stay (fun _ => Act.ends_pure.mpr stay) fun absent => ?_
  have stored := orderly.setEntry own
  exact zaddStep_ends (.of_eq stored rfl rfl)
    (.of_eq (stored.schedule (by simp) (orderly.free absent) score) rfl rfl)

theorem removePendingScript_leaves (orderly : Orderly s) (id : String) :
    (removePendingScript fails id).Ends s (fun _ => Leaves s P) fun _ => Leaves s P := by
  have stay : Leaves s P s := .refl orderly
  have parked := orderly.unschedule id
  have left : Leaves s P { s with delayed := s.delayed.erase id } := .of_eq parked rfl rfl
  refine Act.ends_bind.mpr (guard_ends stay (Act.ends_bind.mpr (zremStep_ends stay ?_)))
  cases waits : s.delayed.contains id with
  | false =>
    simp only [Keyspace.sortedSet, waits, Bool.false_eq_true, if_false, Act.ends_pure]
    exact left
  | true =>
    simp only [Keyspace.sortedSet, waits, if_true, Act.ends_bind]
    refine hdelStep_ends left (Act.ends_pure.mpr (.of_eq ?_ rfl rfl))
    exact parked.eraseEntry (by simp) (orderly.free_of_waiting waits)

/-- A claim that is won was not held, and is held now. -/
theorem claimScript_leaves (orderly : Orderly s) (id text : String) (expiry : Int) :
    (claimScript fails id text expiry).Ends s
      (fun won s' => Leaves s (fun _ => True) s' ∧
        (won = true → s.active.contains id = false ∧ Held s' id text expiry))
      fun _ => Leaves s fun _ => True := by
  have stay : Leaves s (fun _ => True) s := .refl orderly
  have parked := orderly.unschedule id
  have left : Leaves s (fun _ => True) { s with delayed := s.delayed.erase id } := .of_eq parked rfl rfl
  refine Act.ends_bind.mpr (guard_ends stay (Act.ends_bind.mpr (zremStep_ends stay ?_)))
  cases waits : s.delayed.contains id with
  | false =>
    simp only [Keyspace.sortedSet, waits, Bool.false_eq_true, if_false, Act.ends_pure]
    exact ⟨left, fun won => by cases won⟩
  | true =>
    have free := orderly.free_of_waiting waits
    have other {x : String} {s' : Keyspace} {t : String} {n : Int} (held : Held s x t n)
        (active : id ≠ x → s'.active.get? x = s.active.get? x)
        (leases : id ≠ x → s'.leases.get? x = s.leases.get? x) : Held s' x t n := by
      have ne := Table.ne_of_contains free held.active
      exact ⟨(active ne).trans held.claim, (leases ne).trans held.lease⟩
    have claimed := parked.hold (orderly.waiting waits) (by simp) text
    simp only [Keyspace.sortedSet, waits, if_true, Act.ends_bind]
    refine hsetStep_ends left (zaddStep_ends ?_ (Act.ends_pure.mpr ⟨?_, fun _ => ⟨free, ?_⟩⟩))
    all_goals simp only [Keyspace.hash, Keyspace.sortedSet, Keyspace.withHash, Keyspace.withSet]
    · exact ⟨claimed, fun _ t n held => other held (fun ne => by simp [ne]) fun _ => rfl⟩
    · exact ⟨claimed.withLeases _, fun _ t n held => other held (fun ne => by simp [ne]) fun ne => by simp [ne]⟩
    · constructor <;> simp

/-- A lease is extended if its claim is named. -/
theorem renewScript_leaves (orderly : Orderly s) (id text : String) (expiry : Int) :
    (renewScript fails id text expiry).Ends s
      (fun renewed s' => Leaves s (fun x => renewed = true → x ≠ id) s' ∧
        (renewed = true → s.active.get? id = some text ∧ Held s' id text expiry))
      fun _ => Leaves s fun _ => True := by
  have stay {P : String → Prop} : Leaves s P s := .refl orderly
  refine Act.ends_bind.mpr (guard_ends stay (Act.ends_bind.mpr (hgetStep_ends stay ?_)))
  by_cases claimed : s.active.get? id = some text
  · simp only [Keyspace.hash, claimed, if_true, Act.ends_bind]
    refine zaddStep_ends stay (Act.ends_pure.mpr ⟨⟨orderly.withLeases _, fun {x} ne t n held => ?_⟩, fun _ => ?_⟩)
    · have ne : id ≠ x := Ne.symm (ne rfl)
      exact ⟨held.claim, by simpa [Keyspace.sortedSet, Keyspace.withSet, ne] using held.lease⟩
    · exact ⟨trivial, claimed, by simp [Keyspace.withSet, Keyspace.sortedSet]⟩
  · simp only [Keyspace.hash, claimed, if_false, Act.ends_pure]
    exact ⟨stay, fun h => by cases h⟩

/-- A claim is taken out if it is named. -/
theorem releaseScript_leaves (orderly : Orderly s) (id text : String) :
    (releaseScript fails id text).Ends s (fun _ => Leaves s fun x => s.active.get? id = some text → x ≠ id)
      fun _ => Leaves s fun x => s.active.get? id = some text → x ≠ id := by
  have stay {P : String → Prop} : Leaves s P s := .refl orderly
  refine Act.ends_bind.mpr (guard_ends stay (Act.ends_bind.mpr (hgetStep_ends stay ?_)))
  by_cases claimed : s.active.get? id = some text
  · have dropped := orderly.unhold id
    have parked := (orderly.claimed (Table.contains_iff.mpr ⟨text, claimed⟩)).2
    have other {x : String} {t : String} {n : Int} (ne : id ≠ x) (held : Held s x t n) {leases : SortedSet}
        {entries : Hash} (same : leases.get? x = s.leases.get? x) :
        Held { s with active := s.active.erase id, leases, entries } x t n :=
      ⟨by simpa [ne] using held.claim, same.trans held.lease⟩
    simp only [Keyspace.hash, claimed, if_true, forall_const, Act.ends_bind, Act.ends_discard]
    refine hdelStep_ends stay (zremStep_ends ?_ (hdelStep_ends ?_ (Act.ends_pure.mpr ?_)))
    all_goals dsimp only [Keyspace.hash, Keyspace.sortedSet, Keyspace.withHash, Keyspace.withSet]
    · exact ⟨dropped, fun ne t n held => other (Ne.symm ne) held rfl⟩
    · refine ⟨dropped.withLeases _, fun ne t n held => other (Ne.symm ne) held ?_⟩
      simp [Ne.symm ne]
    · refine ⟨(dropped.withLeases _).eraseEntry parked (by simp), fun ne t n held => other (Ne.symm ne) held ?_⟩
      simp [Ne.symm ne]
  · simpa only [Keyspace.hash, claimed, if_false, Act.ends_pure] using stay

/-- Only claims in a list are given up. -/
theorem recoverEach_leaves (orderly : Orderly s) (now : Int) (ids : List String) :
    (recoverEach fails now ids).Ends s (fun _ => Leaves s (· ∉ ids)) fun _ => Leaves s (· ∉ ids) := by
  induction ids generalizing s with
  | nil => exact Act.ends_pure.mpr (.refl orderly)
  | cons id ids ih =>
    have rest {s₁ : Keyspace} (left : Leaves s (· ≠ id) s₁) : Leaves s (· ∉ id :: ids) s₁ :=
      left.mono fun x absent => fun same => absent (same ▸ List.mem_cons_self)
    have later {s₁ : Keyspace} (left : Leaves s (· ≠ id) s₁) : (recoverEach fails now ids).Ends s₁
        (fun _ => Leaves s (· ∉ id :: ids)) fun _ => Leaves s (· ∉ id :: ids) := by
      have through {s' : Keyspace} (h : Leaves s₁ (· ∉ ids) s') : Leaves s (· ∉ id :: ids) s' :=
        (rest left).trans (h.mono fun x absent mem => absent (List.mem_cons_of_mem _ mem))
      exact (ih left.orderly).mono (fun _ _ => through) fun _ _ => through
    have first : Leaves s (· ≠ id) { s with leases := s.leases.erase id } :=
      ⟨orderly.withLeases _, fun ne t n held => ⟨held.claim, by simpa [Ne.symm ne] using held.lease⟩⟩
    have second : Leaves s (· ≠ id) { s with leases := s.leases.erase id, active := s.active.erase id } :=
      ⟨(orderly.withLeases (s.leases.erase id)).unhold id, fun ne t n held =>
        ⟨by simpa [Ne.symm ne] using held.claim, by simpa [Ne.symm ne] using held.lease⟩⟩
    simp only [recoverEach, Act.ends_bind, Act.ends_discard]
    refine zremStep_ends (.refl orderly) (hdelStep_ends (rest first) (hexistsStep_ends (rest second) ?_))
    dsimp only [Keyspace.withSet, Keyspace.withHash, Keyspace.hash, Keyspace.sortedSet]
    cases stored : s.entries.contains id with
    | false => exact later second
    | true =>
      simp only [if_true, Act.ends_bind]
      refine zaddStep_ends (rest second) (later ⟨?_, fun ne t n held => (second.stays ne t n held).of_eq rfl rfl⟩)
      exact second.orderly.schedule stored (by simp) now

theorem recoverScript_leaves (orderly : Orderly s) (now : Int) :
    (recoverScript fails now).Ends s (fun _ => Leaves s (· ∉ s.leases.upTo now))
      fun _ => Leaves s (· ∉ s.leases.upTo now) := by
  have stay {P : String → Prop} : Leaves s P s := .refl orderly
  refine Act.ends_bind.mpr (guard_ends stay (Act.ends_bind.mpr (upToStep_ends stay ?_)))
  refine Act.ends_bind.mpr ((recoverEach_leaves orderly now _).mono ?_ fun _ _ => id)
  exact fun _ _ left => Act.ends_pure.mpr left

end

end Timetable.SharedQueue
