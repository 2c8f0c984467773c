import Timetable.Proofs.Keyspace.Command
import Timetable.Proofs.Queue.Texts

/-!
# The cells of a shared queue

What a shared queue holds under one identifier is a `Cell`: nothing, an entry that waits, or an entry with its
claim. The keyspace keeps a cell in four places, which agree if it is `Consistent`. Every script turns one cell into
another and leaves all others alone.
-/

namespace Timetable

namespace SharedQueue

inductive Cell where
  | absent
  | waiting (e : StoredEntry) (score : Int)
  | claimed (e : StoredEntry) (claim : ActiveClaim) (expiry : Int)

namespace Cell

def entry? : Cell → Option StoredEntry
  | absent => none
  | waiting e _ => some e
  | claimed e _ _ => some e

def score? : Cell → Option Int
  | waiting _ score => some score
  | _ => none

def claim? : Cell → Option ActiveClaim
  | claimed _ claim _ => some claim
  | _ => none

def expiry? : Cell → Option Int
  | claimed _ _ expiry => some expiry
  | _ => none

end Cell

/-- What is held under an identifier. -/
structure At (s : Keyspace) (id : String) (c : Cell) : Prop where
  entry : s.entries.get? id = c.entry?.map entryText
  score : s.delayed.get? id = c.score?
  claim : s.active.get? id = c.claim?.map ActiveClaim.text
  expiry : s.leases.get? id = c.expiry?
  ownId : ∀ {e}, c.entry? = some e → e.id = id
  ownKey : ∀ {e a}, c.entry? = some e → c.claim? = some a → e.key = a.key

/-- Two keyspaces hold the same under an identifier. -/
structure Same (s s' : Keyspace) (id : String) : Prop where
  entry : s'.entries.get? id = s.entries.get? id
  score : s'.delayed.get? id = s.delayed.get? id
  claim : s'.active.get? id = s.active.get? id
  expiry : s'.leases.get? id = s.leases.get? id

variable {s s' s'' : Keyspace} {id k : String} {c : Cell} {e : StoredEntry} {a : ActiveClaim}
  {score expiry : Int}

theorem Same.refl (s : Keyspace) (id : String) : Same s s id := ⟨rfl, rfl, rfl, rfl⟩

theorem Same.trans (h : Same s s' id) (h' : Same s' s'' id) : Same s s'' id :=
  ⟨h'.entry.trans h.entry, h'.score.trans h.score, h'.claim.trans h.claim, h'.expiry.trans h.expiry⟩

theorem At.same (h : At s id c) (same : Same s s' id) : At s' id c :=
  { h with
    entry := same.entry.trans h.entry
    score := same.score.trans h.score
    claim := same.claim.trans h.claim
    expiry := same.expiry.trans h.expiry }

/-- Every cell is in order, and every record is kept in its own field. -/
structure Consistent (s : Keyspace) : Prop where
  cell : ∀ id, ∃ c, At s id c
  record : ∀ {f text}, s.repeats.get? f = some text → ∃ r, text = recordText r ∧ r.field = f

theorem Consistent.empty : Consistent {} where
  cell id := ⟨.absent, rfl, rfl, rfl, rfl, fun h => (by cases h), fun h => (by cases h)⟩
  record h := by cases h

/-- One cell may change. -/
theorem Consistent.update (h : Consistent s) (hid : At s' id c) (records : s'.repeats = s.repeats)
    (same : ∀ {k}, id ≠ k → Same s s' k) : Consistent s' where
  cell k := by
    by_cases hk : id = k
    · exact ⟨c, hk ▸ hid⟩
    · obtain ⟨c', hc'⟩ := h.cell k
      exact ⟨c', hc'.same (same hk)⟩
  record hf := h.record (records ▸ hf)

theorem Consistent.setRecord (h : Consistent s) (r : RepeatRecord) :
    Consistent { s with repeats := s.repeats.set r.field (recordText r) } where
  cell k := by
    obtain ⟨c, hc⟩ := h.cell k
    exact ⟨c, hc.same ⟨rfl, rfl, rfl, rfl⟩⟩
  record {f text} hf := by
    rw [Table.get?_set] at hf
    split at hf
    · next hfield => exact ⟨r, (Option.some.inj hf).symm, hfield⟩
    · exact h.record hf

theorem Consistent.eraseRecord (h : Consistent s) (field : String) :
    Consistent { s with repeats := s.repeats.erase field } where
  cell k := by
    obtain ⟨c, hc⟩ := h.cell k
    exact ⟨c, hc.same ⟨rfl, rfl, rfl, rfl⟩⟩
  record {f text} hf := by
    rw [Table.get?_erase] at hf
    split at hf
    · cases hf
    · exact h.record hf

/-! ## Changes of a cell -/

theorem At.absent_of_free (h : At s id c) (free : s.entries.contains id = false) : c = .absent := by
  have none := Table.contains_eq_false_iff.mp free
  rw [h.entry, Option.map_eq_none_iff] at none
  cases c <;> simp_all [Cell.entry?]

theorem At.waiting_of_delayed (h : At s id c) (delayed : s.delayed.contains id = true) :
    ∃ e score, c = .waiting e score := by
  obtain ⟨score, hs⟩ := Table.contains_iff.mp delayed
  rw [h.score] at hs
  cases c <;> simp_all [Cell.score?]

theorem At.claimed_of_active {text : String} (h : At s id c) (active : s.active.get? id = some text) :
    ∃ e a expiry, c = .claimed e a expiry ∧ text = a.text := by
  rw [h.claim] at active
  cases c with
  | claimed e a expiry => exact ⟨e, a, expiry, rfl, (Option.some.inj active).symm⟩
  | _ => cases active

theorem at_addPending (h : At s e.id .absent) (score : Int) :
    At (s.addPending e.id (entryText e) score) e.id (.waiting e score) where
  entry := by simp [Keyspace.addPending, Cell.entry?]
  score := by simp [Keyspace.addPending, Cell.score?]
  claim := h.claim
  expiry := h.expiry
  ownId hc := by cases hc; rfl
  ownKey _ hc := by cases hc

theorem same_addPending (ne : id ≠ k) (text : String) (score : Int) :
    Same s (s.addPending id text score) k := by
  constructor <;> simp [Keyspace.addPending, ne]

theorem at_dropPending (h : At s id (.waiting e score)) : At (s.dropPending id) id .absent where
  entry := by simp [Keyspace.dropPending, Cell.entry?]
  score := by simp [Keyspace.dropPending, Cell.score?]
  claim := h.claim
  expiry := h.expiry
  ownId hc := by cases hc
  ownKey hc := by cases hc

theorem same_dropPending (ne : id ≠ k) : Same s (s.dropPending id) k := by
  constructor <;> simp [Keyspace.dropPending, ne]

theorem at_addClaim (h : At s id (.waiting e score)) (key : e.key = a.key) (expiry : Int) :
    At (s.addClaim id a.text expiry) id (.claimed e a expiry) where
  entry := h.entry
  score := by simp [Keyspace.addClaim, Cell.score?]
  claim := by simp [Keyspace.addClaim, Cell.claim?]
  expiry := by simp [Keyspace.addClaim, Cell.expiry?]
  ownId := h.ownId
  ownKey hc ha := by
    cases hc
    cases ha
    exact key

theorem same_addClaim (ne : id ≠ k) (text : String) (expiry : Int) :
    Same s (s.addClaim id text expiry) k := by
  constructor <;> simp [Keyspace.addClaim, ne]

theorem at_setEntry {e' : StoredEntry} (h : At s id (.claimed e a expiry)) (own : e'.id = id)
    (key : e'.key = a.key) :
    At { s with entries := s.entries.set id (entryText e') } id (.claimed e' a expiry) where
  entry := by simp [Cell.entry?]
  score := h.score
  claim := h.claim
  expiry := h.expiry
  ownId hc := by
    cases hc
    exact own
  ownKey hc ha := by
    cases hc
    cases ha
    exact key

theorem same_setEntry (ne : id ≠ k) (text : String) :
    Same s { s with entries := s.entries.set id text } k := by
  constructor <;> simp [ne]

theorem at_extendLease (h : At s id (.claimed e a expiry)) (expiry' : Int) :
    At (s.extendLease id expiry') id (.claimed e a expiry') where
  entry := h.entry
  score := h.score
  claim := h.claim
  expiry := by simp [Keyspace.extendLease, Cell.expiry?]
  ownId := h.ownId
  ownKey := h.ownKey

theorem same_extendLease (ne : id ≠ k) (expiry : Int) : Same s (s.extendLease id expiry) k := by
  constructor <;> simp [Keyspace.extendLease, ne]

theorem at_dropClaimed (h : At s id (.claimed e a expiry)) : At (s.dropClaimed id) id .absent where
  entry := by simp [Keyspace.dropClaimed, Cell.entry?]
  score := h.score
  claim := by simp [Keyspace.dropClaimed, Cell.claim?]
  expiry := by simp [Keyspace.dropClaimed, Cell.expiry?]
  ownId hc := by cases hc
  ownKey hc := by cases hc

theorem same_dropClaimed (ne : id ≠ k) : Same s (s.dropClaimed id) k := by
  constructor <;> simp [Keyspace.dropClaimed, ne]

/-! ## Claims that are given up -/

/-- Whether an entry is held by a claim that is given up at some time. -/
def Late (now : Instant) (s : Keyspace) (id : String) : Prop :=
  ∃ expiry, s.leases.get? id = some expiry ∧ expiry ≤ now.millis

theorem at_giveUp (h : At s id (.claimed e a expiry)) (now : Int) :
    At (s.giveUp now id) id (.waiting e now) where
  entry := h.entry
  score := by
    have stored : s.entries.contains id = true := Table.contains_iff.mpr ⟨_, h.entry⟩
    simp [Keyspace.giveUp, stored, Cell.score?]
  claim := by simp [Keyspace.giveUp, Cell.claim?]
  expiry := by simp [Keyspace.giveUp, Cell.expiry?]
  ownId := h.ownId
  ownKey _ hc := by cases hc

theorem same_giveUp (ne : id ≠ k) (now : Int) : Same s (s.giveUp now id) k := by
  constructor <;> simp only [Keyspace.giveUp, Table.get?_erase, ne, if_false]
  split <;> simp [ne]

/-- What is left of a cell when claims up to some score are given up. -/
def Cell.recovered (now : Int) : Cell → Cell
  | claimed e a expiry => if expiry ≤ now then waiting e now else claimed e a expiry
  | c => c

theorem same_foldl_giveUp {ids : List String} (h : id ∉ ids) (now : Int) :
    Same s (ids.foldl (·.giveUp now) s) id := by
  induction ids generalizing s with
  | nil => exact .refl s id
  | cons i ids ih =>
    simp only [List.mem_cons, not_or] at h
    exact (same_giveUp (Ne.symm h.1) now).trans (ih h.2)

theorem at_foldl_giveUp {ids : List String} (nodup : ids.Nodup) (mem : id ∈ ids) (now : Int)
    (h : At s id (.claimed e a expiry)) :
    At (ids.foldl (·.giveUp now) s) id (.waiting e now) := by
  induction ids generalizing s with
  | nil => cases mem
  | cons i ids ih =>
    obtain ⟨absent, nodup⟩ := List.nodup_cons.mp nodup
    by_cases hi : i = id
    · subst hi
      exact (at_giveUp h now).same (same_foldl_giveUp absent now)
    · exact ih nodup ((List.mem_cons.mp mem).resolve_left (Ne.symm hi)) (h.same (same_giveUp hi now))

theorem at_recover (h : At s id c) (now : Int) :
    At ((s.leases.upTo now).foldl (·.giveUp now) s) id (c.recovered now) := by
  have due {n : Int} (hn : c.expiry? = some n) : id ∈ s.leases.upTo now ↔ n ≤ now := by
    rw [SortedSet.mem_upTo, h.expiry, hn]
    simp
  have notDue (hn : c.expiry? = none) : id ∉ s.leases.upTo now := by
    rw [SortedSet.mem_upTo, h.expiry, hn]
    simp
  cases c with
  | absent => exact h.same (same_foldl_giveUp (notDue rfl) now)
  | waiting e score => exact h.same (same_foldl_giveUp (notDue rfl) now)
  | claimed e a expiry =>
    rw [Cell.recovered]
    split
    · next hle =>
      exact at_foldl_giveUp (SortedSet.nodup_upTo s.leases now) ((due rfl).mpr hle) now h
    · next hle => exact h.same (same_foldl_giveUp (mt (due rfl).mp hle) now)

theorem repeats_foldl_giveUp (ids : List String) (now : Int) (s : Keyspace) :
    (ids.foldl (·.giveUp now) s).repeats = s.repeats := by
  induction ids generalizing s with
  | nil => rfl
  | cons i ids ih => exact ih _

theorem Consistent.recover (h : Consistent s) (now : Int) :
    Consistent ((s.leases.upTo now).foldl (·.giveUp now) s) where
  cell id := by
    obtain ⟨c, hc⟩ := h.cell id
    exact ⟨_, at_recover hc now⟩
  record hf := h.record (repeats_foldl_giveUp _ now s ▸ hf)

end SharedQueue

end Timetable
