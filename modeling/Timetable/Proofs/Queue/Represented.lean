import Timetable.Proofs.Queue.Requests

/-!
# The representation of a shared queue

Whatever requests were asked, and whichever of their commands failed as a whole, the five keys of a queue fit together
(`represented_of_run`). A claim of due entries then finds an entry under each identifier, so it never sends the command
that drops one without.
-/

namespace Timetable.SharedQueue

variable {s : Keyspace} {id : String}

/-- The five keys of a queue fit together. -/
structure Represented (s : Keyspace) : Prop where
  held : ∀ id, s.entries.contains id = true ↔ s.delayed.contains id = true ∨ s.active.contains id = true
  disjoint : ∀ id, s.delayed.contains id = true → s.active.contains id = false
  leased : ∀ id, s.leases.contains id = s.active.contains id
  /-- A stored entry was written with the identifier it is stored under, and is read with it. -/
  entry : ∀ {id text}, s.entries.get? id = some text →
    (∃ e, text = entryText e ∧ e.id = id) ∧ ∀ e, decodeEntry text = .ok e → e.id = id
  /-- A stored record was written with the field it is stored in, and is read with it. -/
  record : ∀ {field text}, s.repeats.get? field = some text →
    (∃ r, text = recordText r ∧ r.field = field) ∧ ∀ r, decodeRecord text = .ok r → r.field = field
  /-- A claim was written with the key of its entry, and both are read with it. -/
  claim : ∀ {id claimed text}, s.active.get? id = some claimed → s.entries.get? id = some text →
    (∃ a e, claimed = ActiveClaim.text a ∧ text = entryText e ∧ a.key = e.key) ∧
      ∀ a e, decodeClaim claimed = .ok a → decodeEntry text = .ok e → a.key = e.key

theorem At.contains {c : Cell} (h : At s id c) :
    s.entries.contains id = c.entry?.isSome ∧ s.delayed.contains id = c.score?.isSome ∧
      s.active.contains id = c.claim?.isSome ∧ s.leases.contains id = c.expiry?.isSome := by
  simp only [Table.contains, h.entry, h.score, h.claim, h.expiry, Option.isSome_map, and_self]

theorem At.claim_of_active {c : Cell} {claimed text : String} (h : At s id c)
    (active : s.active.get? id = some claimed) (entry : s.entries.get? id = some text) :
    ∃ a e, claimed = ActiveClaim.text a ∧ text = entryText e ∧ a.key = e.key := by
  obtain ⟨e, a, expiry, rfl, rfl⟩ := h.claimed_of_active active
  rw [h.entry] at entry
  exact ⟨a, e, rfl, (Option.some.inj entry).symm, (h.ownKey rfl rfl).symm⟩

theorem Consistent.represented (h : Consistent s) : Represented s where
  held id := by
    obtain ⟨c, hc⟩ := h.cell id
    obtain ⟨entries, delayed, active, _⟩ := hc.contains
    rw [entries, delayed, active]
    cases c <;> simp [Cell.entry?, Cell.score?, Cell.claim?]
  disjoint id := by
    obtain ⟨c, hc⟩ := h.cell id
    obtain ⟨_, delayed, active, _⟩ := hc.contains
    rw [delayed, active]
    cases c <;> simp [Cell.score?, Cell.claim?]
  leased id := by
    obtain ⟨c, hc⟩ := h.cell id
    obtain ⟨_, _, active, leases⟩ := hc.contains
    rw [leases, active]
    cases c <;> rfl
  entry {id text} stored := by
    obtain ⟨c, hc⟩ := h.cell id
    rw [hc.entry, Option.map_eq_some_iff] at stored
    obtain ⟨e, he, rfl⟩ := stored
    refine ⟨⟨e, rfl, hc.ownId he⟩, fun e' read => ?_⟩
    exact (StoredEntry.named_of_decode read).1.trans (hc.ownId he)
  record {field text} stored := by
    obtain ⟨r, rfl, rfl⟩ := h.record stored
    refine ⟨⟨r, rfl, rfl⟩, fun r' read => ?_⟩
    obtain ⟨key, spec⟩ := RepeatRecord.field_of_decode read
    rw [RepeatRecord.field, key, spec, RepeatRecord.field]
  claim {id claimed text} active stored := by
    obtain ⟨c, hc⟩ := h.cell id
    obtain ⟨a, e, rfl, rfl, key⟩ := hc.claim_of_active active stored
    refine ⟨⟨a, e, rfl, rfl, key⟩, fun a' e' readClaim readEntry => ?_⟩
    rw [ActiveClaim.key_of_decode readClaim, (StoredEntry.named_of_decode readEntry).2.1, key]

variable {rules : ClaimRules} {faults : CommandFaults} {may : WorkQueue.Rule Link} {t₀ t : Instant}
  {link : Link}

theorem preserved_true (rules : ClaimRules) (now : Instant) (request : QueueRequest) :
    Preserved rules now request (fun _ => True) fun _ => True :=
  ⟨fun _ _ _ => trivial, fun _ _ => trivial⟩

theorem consistent_of_run (whole : faults.Whole)
    (run : (workQueue rules faults).Run may t₀ {} t link) : Consistent link.keys := by
  induction run with
  | start => exact Consistent.empty
  | step _ _ ih =>
    exact (Kept.ask ⟨ih, trivial⟩ (preserved_true ..) whole).consistent

theorem represented_of_run (whole : faults.Whole)
    (run : (workQueue rules faults).Run may t₀ {} t link) :
    Represented link.keys ∧ ∀ now limit, ∀ c ∈ (claimDue rules now limit).trace faults link,
      ∀ z member, c ≠ .zrem z member := by
  have consistent := consistent_of_run whole run
  refine ⟨consistent.represented, fun now limit c sent => ?_⟩
  have claims := safe_claimDue (preserved_true rules now (.claimDue limit)) ⟨consistent, trivial⟩ limit
  obtain ⟨_, _, kind⟩ := claims.mem_trace whole rfl sent
  exact kind

/-- A link whose sixth command fails. -/
def failing : WorkQueue Link := workQueue {} (.single 5 "")

/-- An entry was added and claimed, but the time of its claim could not be stored. -/
def unstamped : Link :=
  ((failing.ask (.ofMillis 0) (.claimDue 1)).on
    ((failing.ask (.ofMillis 0) (.addDelayed "a" 0 (.obj []))).on {}).2).2

theorem represented_after_failed_stamp :
    (CommandFaults.single 5 "").Whole ∧
      failing.Run (fun _ _ _ _ => True) (.ofMillis 0) {} (.ofMillis 0) unstamped ∧
      unstamped.keys.active.size = 1 ∧ Represented unstamped.keys := by
  have whole := CommandFaults.whole_single 5 ""
  have added : failing.Run (fun _ _ _ _ => True) (.ofMillis 0) {} (.ofMillis 0) _ :=
    .step (r := .addDelayed "a" 0 (.obj [])) .start trivial
  have run : failing.Run (fun _ _ _ _ => True) (.ofMillis 0) {} (.ofMillis 0) unstamped :=
    .step (r := .claimDue 1) added trivial
  exact ⟨whole, run, by decide +kernel, (represented_of_run whole run).1⟩

end Timetable.SharedQueue
