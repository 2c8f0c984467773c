import Timetable.Proofs.Act
import Timetable.Proofs.Queue.Claims
import Timetable.Proofs.Queue.Locks

/-!
# Leases in the queue in memory

In the queue in memory a claim is known by identifier and time. What is claimed is stored with that time, and every
operation leaves it and its lease alone, but for the holder and the giving up of late claims (`LocalQueue.Steady`). So
the queue excludes claims of what is claimed, whatever is asked of it (`LocalQueue.excludes`).
-/

namespace Timetable

namespace LocalQueue

variable {rules : ClaimRules} {now : Instant} {q q' q'' : LocalQueue} {e : StoredEntry} {r : RepeatRecord}
  {x : String}

theorem named_eraseEntry (id : String) (h : q.Named) : (q.eraseEntry id).Named := by
  intro id' e' he
  simp only [eraseEntry, Table.get?_erase, Option.ite_none_left_eq_some] at he
  exact h id' e' he.2

theorem named_holdEntry (e : StoredEntry) (expiry : Instant) (h : q.Named) : (q.holdEntry e expiry).Named := by
  intro id' e' he
  simp only [holdEntry, Table.get?_set] at he
  split at he
  · next same => exact Option.some.inj he ▸ same
  · exact h id' e' he

/-- What is stored under an identifier and its claim stay as they are, and entries have their own identifiers. -/
structure Steady (x : String) (q q' : LocalQueue) : Prop where
  named : q.Named → q'.Named
  entry : q.entries.contains x = true → q'.entries.get? x = q.entries.get? x
  lease : q'.active.get? x = q.active.get? x

namespace Steady

theorem refl (x : String) (q : LocalQueue) : Steady x q q := ⟨id, fun _ => rfl, rfl⟩

theorem trans (h : Steady x q q') (h' : Steady x q' q'') : Steady x q q'' where
  named := h'.named ∘ h.named
  entry stored := by
    have kept := h.entry stored
    rw [← kept]
    exact h'.entry (by rw [Table.contains, kept]; exact stored)
  lease := h'.lease.trans h.lease

theorem of_records {repeats : Table String RepeatRecord} : Steady x q { q with repeats } :=
  ⟨id, fun _ => rfl, rfl⟩

theorem insertIfAbsent (e : StoredEntry) : Steady x q (q.insertIfAbsent e) where
  named h id e' he := by
    rcases insertIfAbsent_entries_eq_some.mp he with he | ⟨_, rfl, rfl⟩
    · exact h id e' he
    · rfl
  entry stored := by
    obtain ⟨e', he⟩ := Table.contains_iff.mp stored
    rw [he]
    exact insertIfAbsent_entries_eq_some.mpr (.inl he)
  lease := rfl

theorem putRecord (r : RepeatRecord) : Steady x q (q.putRecord r) := by
  have inserted : Steady x q (q.insertCurrent r) := by
    unfold LocalQueue.insertCurrent
    cases r.currentInstance with
    | none => exact .refl x q
    | some e => exact .insertIfAbsent e
  exact inserted.trans of_records

theorem eraseEntry {id : String} (ne : id ≠ x) : Steady x q (q.eraseEntry id) where
  named := named_eraseEntry id
  entry _ := by simp [LocalQueue.eraseEntry, ne]
  lease := rfl

theorem holdEntry {expiry : Instant} (ne : e.id ≠ x) : Steady x q (q.holdEntry e expiry) where
  named := named_holdEntry e expiry
  entry _ := by simp [LocalQueue.holdEntry, ne]
  lease := by simp [LocalQueue.holdEntry, ne]

end Steady

/-- An entry that was handed out is stored as it was, and its lease ends as the rules say. -/
structure Claimed (rules : ClaimRules) (now : Instant) (q : LocalQueue) (e : StoredEntry) : Prop where
  time : e.processedOn = some now
  entry : q.entries.get? e.id = some e
  lease : ∃ expiry, now.add? rules.lease = some expiry ∧ q.active.get? e.id = some expiry

theorem Claimed.steady (h : Claimed rules now q e) (steady : Steady e.id q q') : Claimed rules now q' e where
  time := h.time
  entry := (steady.entry (Table.contains_iff.mpr ⟨e, h.entry⟩)).trans h.entry
  lease := by
    rw [steady.lease]
    exact h.lease

/-! ## Operations -/

theorem hold_steady (e : StoredEntry) (q : LocalQueue) : (hold rules now e).Ends q
    (fun c q' => c.id = e.id ∧ Claimed rules now q' c ∧ (q.Named → q'.Named) ∧ ∀ x, e.id ≠ x → Steady x q q')
    fun _ q' => q' = q := by
  unfold hold
  cases inTime : now.add? rules.lease with
  | none => exact Act.ends_throw.mpr rfl
  | some expiry =>
    refine Act.ends_bind.mpr (Act.ends_modify.mpr (Act.ends_pure.mpr ⟨rfl, ⟨rfl, ?_, expiry, inTime, ?_⟩, ?_, ?_⟩))
    · simp [holdEntry]
    · simp [holdEntry]
    · exact named_holdEntry _ expiry
    · exact fun x ne => .holdEntry ne

theorem advanceChain_steady (record : Option RepeatRecord) (e : StoredEntry) (q : LocalQueue) :
    (advanceChain now record e).Ends q (fun _ q' => ∀ x, Steady x q q') fun _ q' => ∀ x, Steady x q q' := by
  unfold advanceChain
  cases record with
  | none => exact Act.ends_pure.mpr fun x => .refl x q
  | some r =>
    dsimp only
    split
    · cases r.advance now with
      | ok next => exact Act.ends_modify.mpr fun x => .putRecord next
      | error error => exact Act.ends_bind.mpr (Act.ends_modify.mpr (Act.ends_throw.mpr fun x => .of_records))
    · exact Act.ends_pure.mpr fun x => .refl x q

/-- What is handed out is claimed, and whatever else is stored or claimed stays so. -/
theorem claimEntry_steady (e : StoredEntry) (q : LocalQueue) : (claimEntry rules now e).Ends q
    (fun out q' => (q.Named → q'.Named) ∧ (∀ x, e.id ≠ x → Steady x q q') ∧
      ∀ c, out = some c → c.id = e.id ∧ Claimed rules now q' c)
    fun _ q' => (q.Named → q'.Named) ∧ ∀ x, e.id ≠ x → Steady x q q' := by
  have erased (x : String) (ne : e.id ≠ x) : Steady x q (q.eraseEntry e.id) := .eraseEntry ne
  have held {q₁ : LocalQueue} (named : q.Named → q₁.Named) (steady : ∀ x, e.id ≠ x → Steady x q q₁) :
      (do return some (← hold rules now e)).Ends q₁
        (fun out q' => (q.Named → q'.Named) ∧ (∀ x, e.id ≠ x → Steady x q q') ∧
          ∀ c, out = some c → c.id = e.id ∧ Claimed rules now q' c)
        fun _ q' => (q.Named → q'.Named) ∧ ∀ x, e.id ≠ x → Steady x q q' := by
    refine Act.ends_bind.mpr ((hold_steady e q₁).mono ?_ ?_)
    · rintro c q' ⟨own, claimed, named', steady'⟩
      refine Act.ends_pure.mpr ⟨named' ∘ named, fun x ne => (steady x ne).trans (steady' x ne), ?_⟩
      rintro _ ⟨⟩
      exact ⟨own, claimed⟩
    · rintro _ _ rfl
      exact ⟨named, steady⟩
  simp only [claimEntry, Act.ends_bind, Act.ends_modify]
  cases e.repeats with
  | none => exact held (named_eraseEntry e.id) erased
  | some spec =>
    simp only [Act.ends_bind, Act.ends_get]
    split
    · exact Act.ends_pure.mpr ⟨named_eraseEntry e.id, erased, fun _ h => by cases h⟩
    · refine Act.ends_bind.mpr ((advanceChain_steady _ e _).mono (fun _ q₁ moved => ?_) fun _ q₁ moved => ?_)
      · have named : q.Named → q₁.Named := (moved "").named ∘ named_eraseEntry e.id
        have steady (x : String) (ne : e.id ≠ x) : Steady x q q₁ := (erased x ne).trans (moved x)
        simp only [Act.ends_bind, Act.ends_get]
        split
        · exact Act.ends_pure.mpr ⟨named, steady, fun _ h => by cases h⟩
        · exact held named steady
      · exact ⟨(moved "").named ∘ named_eraseEntry e.id, fun x ne => (erased x ne).trans (moved x)⟩

theorem claimEach_steady (es : List StoredEntry) (limit : Nat) (nodup : (es.map (·.id)).Nodup) (q : LocalQueue) :
    (claimEach rules now es limit).Ends q
      (fun out q' => (q.Named → q'.Named) ∧ (∀ x, x ∉ es.map (·.id) → Steady x q q') ∧
        (out.map (·.id)).Sublist (es.map (·.id)) ∧ ∀ c ∈ out, Claimed rules now q' c)
      fun _ q' => (q.Named → q'.Named) ∧ ∀ x, x ∉ es.map (·.id) → Steady x q q' := by
  induction es generalizing limit q with
  | nil => exact Act.ends_pure.mpr ⟨id, fun x _ => .refl x q, .slnil, fun _ h => by cases h⟩
  | cons e es ih =>
    obtain ⟨absent, nodup⟩ := List.nodup_cons.mp nodup
    cases limit with
    | zero => exact Act.ends_pure.mpr ⟨id, fun x _ => .refl x q, List.nil_sublist _, fun _ h => by cases h⟩
    | succ limit =>
      have other {x : String} (h : x ∉ (e :: es).map (·.id)) : e.id ≠ x ∧ x ∉ es.map (·.id) := by
        simpa [eq_comm] using h
      simp only [claimEach, Act.ends_bind]
      refine (claimEntry_steady e q).mono ?_ ?_
      · rintro one q₁ ⟨named, steady, claimed⟩
        cases one with
        | none =>
          refine (ih (limit + 1) nodup q₁).mono ?_ ?_
          · rintro out q' ⟨named', steady', sub, rest⟩
            refine ⟨named' ∘ named, fun x h => ?_, sub.cons e.id, rest⟩
            exact (steady x (other h).1).trans (steady' x (other h).2)
          · rintro _ q' ⟨named', steady'⟩
            exact ⟨named' ∘ named, fun x h => (steady x (other h).1).trans (steady' x (other h).2)⟩
        | some c =>
          obtain ⟨own, held⟩ := claimed c rfl
          refine Act.ends_bind.mpr ((ih limit nodup q₁).mono ?_ ?_)
          · rintro out q' ⟨named', steady', sub, rest⟩
            refine Act.ends_pure.mpr ⟨named' ∘ named, fun x h => ?_, ?_, ?_⟩
            · exact (steady x (other h).1).trans (steady' x (other h).2)
            · rw [List.map_cons, List.map_cons, own]
              exact sub.cons_cons e.id
            · intro c' mem
              rcases List.mem_cons.mp mem with rfl | mem
              · exact held.steady (steady' _ (own ▸ absent))
              · exact rest c' mem
          · rintro _ q' ⟨named', steady'⟩
            exact ⟨named' ∘ named, fun x h => (steady x (other h).1).trans (steady' x (other h).2)⟩
      · rintro _ q₁ ⟨named, steady⟩
        exact ⟨named, fun x h => steady x (other h).1⟩

/-- Whether an entry is claimed at some time, by a claim that is not late. -/
def Live (now : Instant) (q : LocalQueue) (x : String) : Prop :=
  q.entries.contains x = true ∧ ∃ expiry, q.active.get? x = some expiry ∧ ¬ expiry ≤ now

theorem recover_steady (live : q.Live now x) : Steady x q (q.recover now) where
  named := id
  entry _ := rfl
  lease := by
    obtain ⟨expiry, held, notLate⟩ := live.2
    rw [recover, Table.get?_filter, held]
    simp [Option.filter, notLate]

/-- A claim of due entries leaves alone what is claimed, and hands out something else. -/
theorem claimDue_steady (named : q.Named) (limit : Nat) : (claimDue rules now limit).Ends q
    (fun out q' => q'.Named ∧ (∀ x, q.Live now x → Steady x q q') ∧ (out.map (·.id)).Nodup ∧
      ∀ c ∈ out, Claimed rules now q' c ∧ ¬ q.Live now c.id)
    fun _ q' => q'.Named ∧ ∀ x, q.Live now x → Steady x q q' := by
  have recovered : (q.recover now).Named := named
  -- whatever is claimed stays so when late claims are given up, so it is not due
  have shut (x : String) (live : q.Live now x) : x ∉ ((q.recover now).due now).map (·.id) := by
    intro mem
    obtain ⟨e, due, rfl⟩ := List.mem_map.mp mem
    obtain ⟨expiry, held, _⟩ := live.2
    have free := (recovered.mem_due.mp due).2.1
    rw [Table.contains, (recover_steady live).lease, held] at free
    cases free
  have nodup : (((q.recover now).due now).map (·.id)).Nodup := recovered.nodup_due
  simp only [claimDue, Act.ends_bind, Act.ends_modify, Act.ends_get]
  refine (claimEach_steady _ limit nodup (q.recover now)).mono ?_ ?_
  · rintro out q' ⟨named', steady, sub, claimed⟩
    refine ⟨named' recovered, fun x live => (recover_steady live).trans (steady x (shut x live)), ?_, ?_⟩
    · exact nodup.sublist sub
    · exact fun c mem => ⟨claimed c mem, fun live => shut c.id live (sub.subset (List.mem_map_of_mem mem))⟩
  · rintro _ q' ⟨named', steady⟩
    exact ⟨named' recovered, fun x live => (recover_steady live).trans (steady x (shut x live))⟩

theorem addRepeating_steady {key : String} {spec : RepeatSpec} {payload : Json} :
    Steady x q ((addRepeating now key spec payload).on q).2 := by
  refine (Act.ends_iff_forall (P := Steady x q)).mp ?_
  simp only [addRepeating, Act.ends_bind, Act.ends_get]
  cases q.repeats.get? (repeatField key spec) with
  | some old => exact Act.ends_set.mpr (.putRecord _)
  | none =>
    refine Act.ends_bind.mpr (Act.ends_ofExcept.mpr ⟨fun r _ => ?_, fun _ _ => .refl x q⟩)
    exact Act.ends_set.mpr (.putRecord r)

theorem addDelayed_steady {key : String} {delay : Nat} {payload : Json} :
    Steady x q ((addDelayed now key delay payload).on q).2 := by
  unfold addDelayed
  cases now.addMillis? (signedWord delay) with
  | none => exact .refl x q
  | some fireAt => exact .insertIfAbsent _

/-- What a removal leaves: it takes out no entry but one that nobody claimed. -/
inductive Dropped (q : LocalQueue) : LocalQueue → Prop
  | records (repeats : Table String RepeatRecord) : Dropped q { q with repeats }
  | entry (repeats : Table String RepeatRecord) {id : String} :
    q.active.contains id = false → Dropped q (eraseEntry { q with repeats } id)

theorem Dropped.named (h : Dropped q q') (named : q.Named) : q'.Named := by
  cases h with
  | records repeats => exact named
  | entry repeats _ => exact named_eraseEntry (q := { q with repeats }) _ named

theorem Dropped.steady (h : Dropped q q') (claimed : q.active.contains x = true) : Steady x q q' := by
  cases h with
  | records repeats => exact .of_records
  | @entry repeats id free =>
    refine Steady.of_records.trans (.eraseEntry (q := { q with repeats }) ?_)
    rintro rfl
    rw [claimed] at free
    cases free

theorem removeRepeating_dropped {key : String} {spec : RepeatSpec} :
    Dropped q ((removeRepeating key spec).on q).2 := by
  refine (Act.ends_iff_forall (P := Dropped q)).mp ?_
  simp only [removeRepeating, Act.ends_bind, Act.ends_get]
  cases q.repeats.get? (repeatField key spec) with
  | none => exact Act.ends_pure.mpr (.records q.repeats)
  | some r =>
    dsimp only
    cases r.currentInstance with
    | none => exact Act.ends_bind.mpr (Act.ends_set.mpr (Act.ends_pure.mpr (.records _)))
    | some e =>
      refine Act.ends_bind.mpr (Act.ends_set.mpr (Act.ends_pure.mpr ?_))
      split
      · exact .records _
      · next free => exact .entry _ (Bool.not_eq_true _ ▸ free)

theorem removeDelayed_dropped {key : String} : Dropped q ((removeDelayed key).on q).2 := by
  refine (Act.ends_iff_forall (P := Dropped q)).mp ?_
  simp only [removeDelayed, Act.ends_bind, Act.ends_get]
  split
  · exact Act.ends_pure.mpr (.records q.repeats)
  · next there =>
    rw [Bool.or_eq_true, not_or, Bool.not_eq_true] at there
    exact Act.ends_bind.mpr (Act.ends_set.mpr (Act.ends_pure.mpr (.entry q.repeats there.1)))

/-- Some entry is stored and claimed at some time, under the identifier with which it was claimed. -/
def Held (q : LocalQueue) (e : StoredEntry) : Prop :=
  q.active.contains e.id = true ∧ ∃ stored, q.entries.get? e.id = some stored ∧ stored.processedOn = e.processedOn

theorem holdsClaim_iff : q.holdsClaim e = true ↔ q.Held e := by
  rw [holdsClaim, Bool.and_eq_true, Option.any_eq_true, Held]
  simp only [beq_iff_eq]

theorem renewLease_on : (renewLease rules e now).on q =
    if q.holdsClaim e then
      match now.add? rules.lease with
      | none => (.error .outOfRange, q)
      | some expiry => (.ok true, { q with active := q.active.set e.id expiry })
    else (.ok false, q) := by
  simp only [renewLease, Act.on_bind, Act.on_get]
  cases q.holdsClaim e with
  | false => rfl
  | true => cases now.add? rules.lease <;> rfl

theorem finish_on : (finish e).on q =
    (.ok (), if q.holdsClaim e then { q with active := q.active.erase e.id, entries := q.entries.erase e.id } else q) := by
  simp only [finish, Act.on_bind, Act.on_get]
  cases q.holdsClaim e <;> rfl

/-! ## Exclusion -/

/-- Whoever holds one of two entries holds the other: they bear one identifier and one time of claim. -/
def SameClaim (e f : StoredEntry) : Prop := f.id = e.id ∧ f.processedOn = e.processedOn

/-- The lease that started at some time is over. -/
def LeaseOver (rules : ClaimRules) (start now : Instant) : Prop :=
  ∃ expiry, start.add? rules.lease = some expiry ∧ expiry ≤ now

/-- The claim of an entry is held, with a lease that started at some time. -/
structure Locked (rules : ClaimRules) (e : StoredEntry) (start : Instant) (q : LocalQueue) : Prop where
  entry : ∃ stored, q.entries.get? e.id = some stored ∧ stored.processedOn = e.processedOn
  lease : ∃ expiry, start.add? rules.lease = some expiry ∧ q.active.get? e.id = some expiry

namespace Locked

variable {start : Instant} {f : StoredEntry}

theorem held (h : Locked rules e start q) : q.active.contains e.id = true :=
  let ⟨expiry, _, at_⟩ := h.lease
  Table.contains_iff.mpr ⟨expiry, at_⟩

theorem steady (h : Locked rules e start q) (steady : Steady e.id q q') : Locked rules e start q' where
  entry := by
    obtain ⟨stored, at_, time⟩ := h.entry
    rw [steady.entry (Table.contains_iff.mpr ⟨stored, at_⟩)]
    exact ⟨stored, at_, time⟩
  lease := by
    rw [steady.lease]
    exact h.lease

/-- As long as its lease is not over, a claim is not late. -/
theorem live (h : Locked rules e start q) (running : ¬ LeaseOver rules start now) : q.Live now e.id := by
  obtain ⟨stored, at_, _⟩ := h.entry
  obtain ⟨expiry, inTime, lease⟩ := h.lease
  exact ⟨Table.contains_iff.mpr ⟨stored, at_⟩, expiry, lease, fun late => running ⟨expiry, inTime, late⟩⟩

/-- Only a holder has the identifier and the time of a claim. -/
theorem sameClaim (h : Locked rules e start q) (holds : q.Held f) (same : f.id = e.id) : SameClaim e f := by
  obtain ⟨stored, at_, time⟩ := h.entry
  obtain ⟨_, stored', at', time'⟩ := holds
  rw [same, at_] at at'
  obtain rfl := Option.some.inj at'
  exact ⟨same, time'.symm.trans time⟩

end Locked

theorem renewLease_locked (holds : SameClaim e f) (renewed : ((renewLease rules f now).on q).1 = .ok true) :
    Locked rules e now ((renewLease rules f now).on q).2 := by
  rw [renewLease_on] at renewed ⊢
  cases held : q.holdsClaim f with
  | false => simp [held] at renewed
  | true =>
    obtain ⟨_, stored, at_, time⟩ := holdsClaim_iff.mp held
    simp only [held, if_true] at renewed ⊢
    cases inTime : now.add? rules.lease with
    | none => simp [inTime] at renewed
    | some expiry => exact ⟨⟨stored, holds.1 ▸ at_, time.trans holds.2⟩, expiry, inTime, by simp [holds.1]⟩

theorem ask_named (named : q.Named) (request : QueueRequest) :
    (((workQueue rules).ask now request).on q).2.Named := by
  cases request with
  | addRepeating key spec payload => exact (addRepeating_steady (x := "")).named named
  | addDelayed key delay payload => exact (addDelayed_steady (x := "")).named named
  | removeRepeating key spec => exact removeRepeating_dropped.named named
  | removeDelayed key => exact removeDelayed_dropped.named named
  | claimDue limit =>
    exact (Act.ends_iff_forall (P := Named)).mp
      ((claimDue_steady named limit).mono (fun _ _ h => h.1) fun _ _ h => h.1)
  | renewLease f =>
    show ((renewLease rules f now).on q).2.Named
    rw [renewLease_on]
    split
    · split <;> exact named
    · exact named
  | finish f =>
    show ((finish f).on q).2.Named
    rw [finish_on]
    split
    · exact named_eraseEntry f.id named
    · exact named
  | _ => exact named

/-- Nothing takes out a claim but its holder, or the end of its lease. -/
theorem ask_locked {start : Instant} (named : q.Named) (locked : Locked rules e start q) (request : QueueRequest)
    (unfinished : ∀ f, SameClaim e f → request ≠ .finish f)
    (notExtended : ∀ f, SameClaim e f → request = .renewLease f →
      (((workQueue rules).ask now (.renewLease f)).on q).1 ≠ .ok true) :
    LeaseOver rules start now ∨ Locked rules e start (((workQueue rules).ask now request).on q).2 := by
  by_cases running : LeaseOver rules start now
  · exact .inl running
  have live := locked.live running
  refine .inr ?_
  cases request with
  | addRepeating key spec payload => exact locked.steady addRepeating_steady
  | addDelayed key delay payload => exact locked.steady addDelayed_steady
  | removeRepeating key spec => exact locked.steady (removeRepeating_dropped.steady locked.held)
  | removeDelayed key => exact locked.steady (removeDelayed_dropped.steady locked.held)
  | claimDue limit =>
    refine locked.steady ((Act.ends_iff_forall (P := Steady e.id q)).mp ?_)
    exact (claimDue_steady named limit).mono (fun _ _ h => h.2.1 _ live) fun _ _ h => h.2 _ live
  | recoverStalled => exact locked.steady (recover_steady live)
  | renewLease f =>
    have extended := notExtended f
    change SameClaim e f → _ → ((renewLease rules f now).on q).1 ≠ _ at extended
    show Locked rules e start ((renewLease rules f now).on q).2
    rw [renewLease_on] at extended ⊢
    split
    · next held =>
      cases inTime : now.add? rules.lease with
      | none => exact locked
      | some expiry =>
        refine locked.steady ⟨id, fun _ => rfl, ?_⟩
        have ne : f.id ≠ e.id := fun same =>
          extended (locked.sameClaim (holdsClaim_iff.mp held) same) rfl (by simp [held, inTime])
        simp [ne]
    · exact locked
  | finish f =>
    show Locked rules e start ((finish f).on q).2
    rw [finish_on]
    split
    · next held =>
      have ne : f.id ≠ e.id := fun same =>
        unfinished f (locked.sameClaim (holdsClaim_iff.mp held) same) rfl
      exact locked.steady ⟨named_eraseEntry f.id, fun _ => by simp [ne], by simp [ne]⟩
    · exact locked
  | _ => exact locked

/-- A claim of due entries locks what it hands out. -/
theorem claimDue_locked {limit : Nat} {out : List StoredEntry} (named : q.Named)
    (on : (claimDue rules now limit).on q = (.ok out, q')) :
    (out.map (·.id)).Nodup ∧ ∀ c ∈ out, Locked rules c now q' ∧ ¬ q.Live now c.id := by
  obtain ⟨_, _, nodup, claimed⟩ := (Act.ends_of_on_ok on).mp (claimDue_steady named limit)
  refine ⟨nodup, fun c mem => ⟨⟨⟨c, (claimed c mem).1.entry, rfl⟩, (claimed c mem).1.lease⟩, (claimed c mem).2⟩⟩

theorem lock (rules : ClaimRules) (clock : Instant → Prop) :
    WorkQueue.Lock (workQueue rules) clock Named SameClaim (LeaseOver rules) (Locked rules) where
  step request named := ask_named named request
  claim named on := (claimDue_locked named on).imp_right fun h c mem => (h c mem).1
  renew _ holds renewed := renewLease_locked holds renewed
  keep request named locked := ask_locked named locked request
  shut {now s limit out s' e r f} named locked on mem same := by
    by_contra running
    exact ((claimDue_locked named on).2 f mem).2 (same ▸ locked.live running)
  mono := fun ⟨expiry, inTime, late⟩ _ le => ⟨expiry, inTime, le_trans late le⟩

/-- The queue in memory excludes claims of what is claimed, whatever is asked of it. -/
theorem excludes (rules : ClaimRules) (clock : Instant → Prop) :
    WorkQueue.Excludes (workQueue rules) clock {} SameClaim (LeaseOver rules) :=
  .of_lock (lock rules clock) fun _ _ h => by cases h

end LocalQueue

end Timetable
