import Timetable.Proofs.Queue.Cells
import Timetable.Proofs.Queue.Exact

/-!
# A shared queue that mirrors one in memory

A keyspace `Mirrors` a queue in memory if its cells are the `Twin`s of what the queue holds: the same entries, and the
same claims at the precision of milliseconds. Only the score of an entry that came back differs from its fire time.
Each change of the queue has a change of the keyspace for its twin.
-/

namespace Timetable.SharedQueue

variable {clock now expiry : Instant} {q q' : LocalQueue} {s s' : Keyspace} {id k : String} {c : Cell}
  {e : StoredEntry} {r : RepeatRecord}

/-- The cell for what a queue in memory holds under an identifier: an entry, and the end of its lease. -/
inductive Twin (clock : Instant) : Option StoredEntry → Option Instant → Cell → Prop
  | absent : Twin clock none none .absent
  | fresh {e : StoredEntry} : e.processedOn = none → Twin clock (some e) none (.waiting e e.fireAt.millis)
  /-- An entry that was claimed before waits since its claim was given up. -/
  | back {e : StoredEntry} {score : Int} : e.processedOn.isSome → e.fireAt ≤ clock → Instant.ofMillis score ≤ clock →
    Twin clock (some e) none (.waiting e score)
  | held {e : StoredEntry} {claimed expiry : Instant} : e.processedOn = some claimed → claimed.Storable →
    e.fireAt ≤ clock → expiry.Whole → Twin clock (some e) (some expiry) (.claimed e ⟨e.key, claimed.millis⟩ expiry.millis)

namespace Twin

variable {entry : Option StoredEntry} {lease : Option Instant}

theorem mono (h : Twin clock entry lease c) (le : clock ≤ now) : Twin now entry lease c := by
  cases h with
  | absent => exact .absent
  | fresh new => exact .fresh new
  | back claimed due since => exact .back claimed (due.trans le) (since.trans le)
  | held claimed time due whole => exact .held claimed time (due.trans le) whole

theorem entry_eq (h : Twin clock entry lease c) : c.entry? = entry := by
  cases h <;> rfl

theorem expiry_eq (h : Twin clock entry lease c) : c.expiry? = lease.map (·.millis) := by
  cases h <;> rfl

theorem isSome_claim (h : Twin clock entry lease c) : c.claim?.isSome = lease.isSome := by
  cases h <;> rfl

theorem isSome_score (h : Twin clock entry lease c) : c.score?.isSome = (entry.isSome && !lease.isSome) := by
  cases h <;> rfl

theorem free (h : Twin clock none lease c) : c = .absent ∧ lease = none := by
  cases h
  exact ⟨rfl, rfl⟩

theorem waits (h : Twin clock (some e) none c) : ∃ score, c = .waiting e score ∧
    (e.processedOn = none ∧ score = e.fireAt.millis ∨
      e.processedOn.isSome ∧ e.fireAt ≤ clock ∧ Instant.ofMillis score ≤ clock) := by
  cases h with
  | fresh new => exact ⟨_, rfl, .inl ⟨new, rfl⟩⟩
  | back claimed due since => exact ⟨_, rfl, .inr ⟨claimed, due, since⟩⟩

theorem claimed (h : Twin clock (some e) (some expiry) c) : ∃ claimed, e.processedOn = some claimed ∧
    claimed.Storable ∧ e.fireAt ≤ clock ∧ c = .claimed e ⟨e.key, claimed.millis⟩ expiry.millis := by
  cases h with
  | held claimed time due _ => exact ⟨_, claimed, time, due, rfl⟩

theorem ends_whole (h : Twin clock entry (some expiry) c) : expiry.Whole := by
  cases h with
  | held _ _ _ whole => exact whole

theorem stored (h : Twin clock entry (some expiry) c) : ∃ e, entry = some e := by
  cases h with
  | held => exact ⟨_, rfl⟩

end Twin

/-- What a keyspace holds is what a queue in memory holds. -/
structure Mirrors (clock : Instant) (q : LocalQueue) (s : Keyspace) : Prop where
  record : ∀ f, s.repeats.get? f = (q.repeats.get? f).map recordText
  cell : ∀ id, ∃ c, At s id c ∧ Twin clock (q.entries.get? id) (q.active.get? id) c

namespace Mirrors

theorem empty (clock : Instant) : Mirrors clock {} {} where
  record _ := rfl
  cell id := by
    obtain ⟨c, hc⟩ := Consistent.empty.cell id
    obtain rfl := hc.absent_of_free rfl
    exact ⟨_, hc, .absent⟩

theorem mono (h : Mirrors clock q s) (le : clock ≤ now) : Mirrors now q s where
  record := h.record
  cell id := by
    obtain ⟨c, hc, twin⟩ := h.cell id
    exact ⟨c, hc, twin.mono le⟩

theorem alike (h : Mirrors clock q s) (same : q.Alike q') : Mirrors clock q' s where
  record f := by rw [same.record, h.record]
  cell id := by
    rw [same.entry, same.lease]
    exact h.cell id

/-! ## What is found -/

theorem entry (h : Mirrors clock q s) (id : String) : s.entries.get? id = (q.entries.get? id).map entryText := by
  obtain ⟨c, hc, twin⟩ := h.cell id
  rw [hc.entry, twin.entry_eq]

theorem lease (h : Mirrors clock q s) (id : String) : s.leases.get? id = (q.active.get? id).map (·.millis) := by
  obtain ⟨c, hc, twin⟩ := h.cell id
  rw [hc.expiry, twin.expiry_eq]

theorem contains_entry (h : Mirrors clock q s) (id : String) : s.entries.contains id = q.entries.contains id := by
  rw [Table.contains, h.entry, Option.isSome_map, Table.contains]

theorem contains_active (h : Mirrors clock q s) (id : String) : s.active.contains id = q.active.contains id := by
  obtain ⟨c, hc, twin⟩ := h.cell id
  rw [Table.contains, hc.claim, Option.isSome_map, twin.isSome_claim, Table.contains]

/-- What is pending waits. -/
theorem contains_delayed (h : Mirrors clock q s) (id : String) :
    s.delayed.contains id = (q.entries.contains id && !q.active.contains id) := by
  obtain ⟨c, hc, twin⟩ := h.cell id
  rw [Table.contains, hc.score, twin.isSome_score, Table.contains, Table.contains]

theorem free (h : Mirrors clock q s) (absent : q.entries.get? id = none) : At s id .absent ∧ q.active.get? id = none := by
  obtain ⟨c, hc, twin⟩ := h.cell id
  rw [absent] at twin
  obtain ⟨rfl, free⟩ := twin.free
  exact ⟨hc, free⟩

theorem waits (h : Mirrors clock q s) (stored : q.entries.get? id = some e) (free : q.active.contains id = false) :
    ∃ score, At s id (.waiting e score) ∧ (e.processedOn = none ∧ score = e.fireAt.millis ∨
      e.processedOn.isSome ∧ e.fireAt ≤ clock ∧ Instant.ofMillis score ≤ clock) := by
  obtain ⟨c, hc, twin⟩ := h.cell id
  rw [stored, Table.contains_eq_false_iff.mp free] at twin
  obtain ⟨score, rfl, since⟩ := twin.waits
  exact ⟨score, hc, since⟩

theorem claimed (h : Mirrors clock q s) (stored : q.entries.get? id = some e) (held : q.active.get? id = some expiry) :
    ∃ claimed, e.processedOn = some claimed ∧ claimed.Storable ∧ e.fireAt ≤ clock ∧
      At s id (.claimed e ⟨e.key, claimed.millis⟩ expiry.millis) := by
  obtain ⟨c, hc, twin⟩ := h.cell id
  rw [stored, held] at twin
  obtain ⟨claimed, stamp, time, due, rfl⟩ := twin.claimed
  exact ⟨claimed, stamp, time, due, hc⟩

theorem ends_whole (h : Mirrors clock q s) (held : q.active.get? id = some expiry) : expiry.Whole := by
  obtain ⟨c, _, twin⟩ := h.cell id
  rw [held] at twin
  exact twin.ends_whole

theorem stored (h : Mirrors clock q s) (held : q.active.get? id = some expiry) : ∃ e, q.entries.get? id = some e := by
  obtain ⟨c, _, twin⟩ := h.cell id
  rw [held] at twin
  exact twin.stored

/-- As many leases are over in one as in the other. -/
theorem length_upTo (h : Mirrors now q s) (whole : now.Whole) :
    (s.leases.upTo now.millis).length = q.active.size - (q.recover now).active.size := by
  let ended (p : String × Instant) : Bool := decide (p.2 ≤ now)
  have late : (s.leases.upTo now.millis).length = (q.active.pairs.filter ended).length := by
    rw [(s.leases.perm_upTo now.millis).length_eq, List.length_map, ((Table.perm_pairs h.lease).filter _).length_eq,
      List.filter_map, List.length_map]
    refine congrArg _ (List.filter_congr fun p mem => ?_)
    exact decide_eq_decide.mpr ((h.ends_whole (Table.mem_pairs_iff.mp mem)).millis_le_millis whole)
  have all := q.active.pairs.length_eq_length_filter_add ended
  rw [late]
  exact Nat.eq_sub_of_add_eq all.symm

/-! ## Changes -/

/-- One cell may change along with its twin. -/
theorem update (h : Mirrors clock q s) (hid : At s' id c) (twin : Twin clock (q'.entries.get? id) (q'.active.get? id) c)
    (entries : ∀ {k}, id ≠ k → q'.entries.get? k = q.entries.get? k)
    (leases : ∀ {k}, id ≠ k → q'.active.get? k = q.active.get? k) (same : ∀ {k}, id ≠ k → Same s s' k)
    (records : ∀ f, s'.repeats.get? f = (q'.repeats.get? f).map recordText) : Mirrors clock q' s' where
  record := records
  cell k := by
    by_cases hk : id = k
    · subst hk
      exact ⟨c, hid, twin⟩
    · obtain ⟨c', hc', twin'⟩ := h.cell k
      rw [entries hk, leases hk]
      exact ⟨c', hc'.same (same hk), twin'⟩

theorem setRecord (h : Mirrors clock q s) (r : RepeatRecord) :
    Mirrors clock (q.setRecord r) { s with repeats := s.repeats.set r.field (recordText r) } where
  record f := by
    simp only [LocalQueue.setRecord, Table.get?_set]
    split
    · rfl
    · exact h.record f
  cell id := by
    obtain ⟨c, hc, twin⟩ := h.cell id
    exact ⟨c, hc.same ⟨rfl, rfl, rfl, rfl⟩, twin⟩

theorem eraseRecord (h : Mirrors clock q s) (field : String) :
    Mirrors clock (q.eraseRecord field) { s with repeats := s.repeats.erase field } where
  record f := by
    simp only [LocalQueue.eraseRecord, Table.get?_erase]
    split
    · rfl
    · exact h.record f
  cell id := by
    obtain ⟨c, hc, twin⟩ := h.cell id
    exact ⟨c, hc.same ⟨rfl, rfl, rfl, rfl⟩, twin⟩

theorem insertIfAbsent (h : Mirrors clock q s) (new : e.processedOn = none) : Mirrors clock (q.insertIfAbsent e)
    (if s.entries.contains e.id then s else s.addPending e.id (entryText e) e.fireAt.millis) := by
  rw [h.contains_entry]
  cases there : q.entries.contains e.id with
  | true =>
    rw [if_pos rfl, LocalQueue.insertIfAbsent, Table.setIfAbsent, if_pos there]
    exact h
  | false =>
    rw [if_neg Bool.false_ne_true, LocalQueue.insertIfAbsent, Table.setIfAbsent, if_neg (by simp [there])]
    obtain ⟨absent, free⟩ := h.free (Table.contains_eq_false_iff.mp there)
    refine h.update (at_addPending absent _) ?_ (fun ne => by simp [ne]) (fun _ => rfl)
      (fun ne => same_addPending ne _ _) h.record
    rw [Table.get?_set, if_pos rfl, free]
    exact .fresh new

/-- What is pending is taken out, and what is claimed stays. -/
theorem dropPending (h : Mirrors clock q s) (id : String) :
    Mirrors clock (if q.active.contains id then q else q.eraseEntry id)
      (if s.delayed.contains id then s.dropPending id else s) := by
  rw [h.contains_delayed]
  cases held : q.active.contains id with
  | true => simpa [held] using h
  | false =>
    have free := Table.contains_eq_false_iff.mp held
    rw [if_neg Bool.false_ne_true, Bool.not_false, Bool.and_true]
    have entries {k : String} (ne : id ≠ k) : (q.eraseEntry id).entries.get? k = q.entries.get? k := by
      simp [LocalQueue.eraseEntry, ne]
    have gone : (q.eraseEntry id).entries.get? id = none := by simp [LocalQueue.eraseEntry]
    have twin : Twin clock ((q.eraseEntry id).entries.get? id) ((q.eraseEntry id).active.get? id) .absent := by
      rw [gone, LocalQueue.eraseEntry, free]
      exact .absent
    cases stored : q.entries.get? id with
    | none =>
      obtain ⟨absent, _⟩ := h.free stored
      rw [Table.contains, stored]
      exact h.update absent twin entries (fun _ => rfl) (fun _ => .refl s _) h.record
    | some e =>
      obtain ⟨score, waits, _⟩ := h.waits stored held
      rw [Table.contains, stored]
      exact h.update (at_dropPending waits) twin entries (fun _ => rfl) same_dropPending h.record

/-- An entry that waits is dropped once its claim is won. -/
theorem dropWon (h : Mirrors clock q s) {score : Int} (free : q.active.contains id = false)
    (waits : At s id (.waiting e score)) {a : ActiveClaim} (key : e.key = a.key) (end_ : Int) :
    Mirrors clock (q.eraseEntry id) ((s.addClaim id a.text end_).dropClaimed id) := by
  refine h.update (at_dropClaimed (at_addClaim waits key end_)) ?_ (fun ne => by simp [LocalQueue.eraseEntry, ne])
    (fun _ => rfl) (fun ne => (same_addClaim ne _ _).trans (same_dropClaimed ne)) h.record
  rw [LocalQueue.eraseEntry, Table.get?_erase, if_pos rfl, Table.contains_eq_false_iff.mp free]
  exact .absent

/-- An entry that waits is claimed. -/
theorem hold (h : Mirrors now q s) {score : Int} (own : e.id = id) (due : e.fireAt ≤ now) (time : now.Storable)
    (waits : At s id (.waiting e score)) (whole : expiry.Whole) :
    Mirrors now (q.holdEntry { e with processedOn := some now } expiry)
      { s.addClaim id (ActiveClaim.mk e.key now.millis).text expiry.millis with
        entries := s.entries.set id (entryText { e with processedOn := some now }) } := by
  subst own
  have won := at_addClaim (a := ⟨e.key, now.millis⟩) waits rfl expiry.millis
  have stamped : At _ e.id (.claimed { e with processedOn := some now } _ expiry.millis) := at_setEntry won rfl rfl
  refine h.update stamped ?_
    (fun ne => by simp [LocalQueue.holdEntry, ne]) (fun ne => by simp [LocalQueue.holdEntry, ne])
    (fun ne => (same_addClaim ne _ _).trans (same_setEntry ne _)) h.record
  simp only [LocalQueue.holdEntry, Table.get?_set, if_true]
  exact .held rfl time due whole

/-- An entry that is claimed is taken out. -/
theorem dropHeld (h : Mirrors clock q s) {a : ActiveClaim} {end_ : Int} (held : At s id (.claimed e a end_)) :
    Mirrors clock { q with active := q.active.erase id, entries := q.entries.erase id } (s.dropClaimed id) := by
  refine h.update (at_dropClaimed held) ?_ (fun ne => by simp [ne]) (fun ne => by simp [ne]) same_dropClaimed h.record
  simp only [Table.get?_erase, if_true]
  exact .absent

theorem extendLease (h : Mirrors clock q s) {before : Instant} (stored : q.entries.get? id = some e)
    (held : q.active.get? id = some before) (whole : expiry.Whole) :
    Mirrors clock { q with active := q.active.set id expiry } (s.extendLease id expiry.millis) := by
  obtain ⟨claimed, stamp, time, due, cell⟩ := h.claimed stored held
  refine h.update (at_extendLease cell _) ?_ (fun _ => rfl) (fun ne => by simp [ne]) (fun ne => same_extendLease ne _)
    h.record
  rw [stored, Table.get?_set, if_pos rfl]
  exact .held stamp time due whole

theorem recover (h : Mirrors now q s) (whole : now.Whole) :
    Mirrors now (q.recover now) ((s.leases.upTo now.millis).foldl (·.giveUp now.millis) s) where
  record f := by
    rw [repeats_foldl_giveUp]
    exact h.record f
  cell id := by
    obtain ⟨c, hc, twin⟩ := h.cell id
    refine ⟨_, at_recover hc now.millis, ?_⟩
    simp only [LocalQueue.recover, Table.get?_filter]
    generalize q.entries.get? id = entry at twin
    generalize q.active.get? id = lease at twin
    cases twin with
    | absent => exact .absent
    | fresh new => exact .fresh new
    | back claimed due since => exact .back claimed due since
    | @held e claimed expiry stamp time due ends =>
      -- one compares milliseconds and the other instants, which is the same for whole milliseconds
      rw [Cell.recovered, Option.filter_some]
      by_cases late : expiry ≤ now
      · rw [if_pos ((ends.millis_le_millis whole).mpr late), if_neg (by simp [late])]
        exact .back (by rw [stamp]; rfl) due whole.le
      · rw [if_neg (mt (ends.millis_le_millis whole).mp late), if_pos (by simp [late])]
        exact .held stamp time due ends

end Mirrors

end Timetable.SharedQueue
