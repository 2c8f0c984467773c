import Timetable.Proofs.Queue.Sound

/-!
# Claiming from a sound queue

`LocalQueue.claimEntry_claims` says what becomes of a sound queue when one due entry is claimed or dropped,
`LocalQueue.claimDue_keeps` when all are gone through. Only the end of the calendar can break a claim off. Even then
the queue stays sound, and where it does not, every chain is kept.
-/

namespace Timetable

/-- The calendar reaches the end of a lease that starts now, and the next second. -/
def ClaimRules.Reach (rules : ClaimRules) (now : Instant) : Prop :=
  (now.add? rules.lease).isSome ∧ (now.add? Instant.nanosPerSecond).isSome

instance (rules : ClaimRules) (now : Instant) : Decidable (rules.Reach now) :=
  inferInstanceAs (Decidable (_ ∧ _))

namespace RepeatRecord

/-- A record apart from the fire that it waits for. -/
def chain (r : RepeatRecord) : RepeatRecord := { r with next := none }

variable {r r' : RepeatRecord} {now : Instant}

theorem advance_eq_ok (h : r.advance now = .ok r') :
    r'.chain = r.chain ∧ r.spec.nextAfter now = .ok r'.next := by
  unfold advance at h
  split at h
  · next hn =>
    cases h
    exact ⟨rfl, hn⟩
  · cases h
  · cases h

/-- A record that has moved on stays where it is at that time. -/
theorem advance_settles (h : r.advance now = .ok r') : r'.advance now = .ok r' := by
  unfold advance at h
  split at h
  · next hn =>
    cases h
    rw [advance, hn]
  · cases h
  · cases h

/-- Only the end of the calendar can keep a record from moving on. -/
theorem advance_eq_error (hu : r.spec.Usable) {e : QueueError} (h : r.advance now = .error e) :
    e = .outOfRange ∧ ¬ (now.add? Instant.nanosPerSecond).isSome := by
  unfold advance at h
  split at h
  · cases h
  · next hn =>
    cases h
    refine ⟨rfl, fun hs => ?_⟩
    obtain ⟨next, hok⟩ := RepeatSpec.nextAfter_isOk hu hs
    simp [hn] at hok
  · next error ne hn =>
    exact absurd (RepeatSpec.nextAfter_eq_error hu hn) ne

theorem chain_eq_iff : r'.chain = r.chain ↔
    r'.key = r.key ∧ r'.spec = r.spec ∧ r'.payload = r.payload := by
  simp [chain]

end RepeatRecord

namespace LocalQueue

/-- The same chains, whatever they wait for. -/
def SameChains (q q' : LocalQueue) : Prop :=
  ∀ f, (q'.repeats.get? f).map (·.chain) = (q.repeats.get? f).map (·.chain)

theorem SameChains.refl (q : LocalQueue) : q.SameChains q := fun _ => rfl

theorem SameChains.trans {q q' q'' : LocalQueue} (h : q.SameChains q') (h' : q'.SameChains q'') :
    q.SameChains q'' := fun f => (h' f).trans (h f)

variable {rules : ClaimRules} {now : Instant} {q : LocalQueue} {e : StoredEntry} {r : RepeatRecord}

/-! ## The steps of a claim -/

theorem hold_on (rules : ClaimRules) (now : Instant) (e : StoredEntry) (q : LocalQueue) :
    (hold rules now e).on q = match now.add? rules.lease with
      | none => (.error .outOfRange, q)
      | some expiry => (.ok { e with processedOn := some now },
          q.holdEntry { e with processedOn := some now } expiry) := by
  unfold hold
  cases now.add? rules.lease <;> rfl

theorem claimEntry_single (h : e.repeats = none) :
    (claimEntry rules now e).on q = (some <$> hold rules now e).on (q.eraseEntry e.id) := by
  simp only [claimEntry, h, Act.on_bind, Act.on_modify, Act.on_map, hold_on]
  cases now.add? rules.lease <;> rfl

theorem claimEntry_superseded {spec : RepeatSpec} (hs : e.repeats = some spec)
    (h : isSuperseded (q.repeats.get? (repeatField e.key spec)) e = true) :
    (claimEntry rules now e).on q = (.ok none, q.eraseEntry e.id) := by
  have h' : isSuperseded ((q.eraseEntry e.id).repeats.get? (repeatField e.key spec)) e = true := h
  simp only [claimEntry, hs, Act.on_bind, Act.on_modify, Act.on_get, h', if_true, Act.on_pure]

theorem claimEntry_current {spec : RepeatSpec} (hs : e.repeats = some spec)
    (hr : q.repeats.get? (repeatField e.key spec) = some r) (hn : r.next = some e.fireAt) :
    (claimEntry rules now e).on q = match r.advance now with
      | .error error => (.error error, (q.eraseEntry e.id).eraseRecord r.field)
      | .ok next =>
        if rules.overlap = .skip ∧ ((q.eraseEntry e.id).putRecord next).keyIsActive e.key then
          (.ok none, (q.eraseEntry e.id).putRecord next)
        else (some <$> hold rules now e).on ((q.eraseEntry e.id).putRecord next) := by
  have hr' : (q.eraseEntry e.id).repeats.get? (repeatField e.key spec) = some r := hr
  have current : r.isCurrent e = true := by simp [RepeatRecord.isCurrent, hn]
  have waited : isSuperseded (some r) e = false := by simp [isSuperseded, current]
  simp only [claimEntry, hs, Act.on_bind, Act.on_modify, Act.on_get, hr', waited, advanceChain,
    current, if_true, Bool.false_eq_true, if_false]
  cases r.advance now with
  | error error => rfl
  | ok next =>
    simp only [Act.on_modify]
    split
    · rfl
    · simp only [Act.on_bind, Act.on_map, hold_on]
      cases now.add? rules.lease <;> rfl

/-! ## What a claim leaves -/

/-- Only the entry with this identifier may have been changed or claimed. -/
structure Frame (id : String) (q q' : LocalQueue) : Prop where
  stored : ∀ {id' e}, id ≠ id' → q.entries.get? id' = some e → q'.entries.get? id' = some e
  held : ∀ {id'}, id ≠ id' → q'.active.contains id' = q.active.contains id'

namespace Frame

variable {id : String} {q' q'' : LocalQueue}

theorem refl (q : LocalQueue) : Frame id q q := ⟨fun _ he => he, fun _ => rfl⟩

theorem trans (h : Frame id q q') (h' : Frame id q' q'') : Frame id q q'' where
  stored ne he := h'.stored ne (h.stored ne he)
  held ne := (h'.held ne).trans (h.held ne)

theorem eraseEntry (id : String) (q : LocalQueue) : Frame id q (q.eraseEntry id) where
  stored ne he := by simpa [LocalQueue.eraseEntry, ne] using he
  held _ := rfl

theorem eraseRecord (f : String) : Frame id q (q.eraseRecord f) where
  stored _ he := he
  held _ := rfl

theorem putRecord (r : RepeatRecord) : Frame id q (q.putRecord r) where
  stored _ he := putRecord_entries_eq_some.mpr (.inl he)
  held _ := by rw [putRecord_active]

theorem holdEntry (e : StoredEntry) (expiry : Instant) : Frame e.id q (q.holdEntry e expiry) where
  stored ne he := by simpa [LocalQueue.holdEntry, ne] using he
  held ne := by simp [LocalQueue.holdEntry, ne]

end Frame

/-- What a part of a claim does to a queue, apart from its entries. -/
structure Keeps (rules : ClaimRules) (now : Instant) (q : LocalQueue) {α : Type}
    (out : Except QueueError α × LocalQueue) : Prop where
  sound : Sound now out.2
  /-- Only the end of the calendar breaks it off. -/
  error : ∀ e, out.1 = .error e → e = .outOfRange ∧ ¬ rules.Reach now
  /-- Otherwise all chains are kept. -/
  same : ∀ a, out.1 = .ok a → q.SameChains out.2

/-- What a part of a claim of some entry does to a queue. -/
structure Claims (rules : ClaimRules) (now : Instant) (id : String) (q : LocalQueue) {α : Type}
    (out : Except QueueError α × LocalQueue) : Prop extends Keeps rules now q out where
  frame : Frame id q out.2

theorem Claims.after {id : String} {q' : LocalQueue} {α : Type}
    {out : Except QueueError α × LocalQueue} (h : Claims rules now id q' out) (frame : Frame id q q')
    (same : q.SameChains q') : Claims rules now id q out where
  sound := h.sound
  error := h.error
  same a ha := same.trans (h.same a ha)
  frame := frame.trans h.frame

theorem hold_claims (h : Sound now q) (hm : e.WellMade)
    (hf : ∀ spec, e.repeats = some spec → e.fireAt ≤ now ∧
      ∀ r, q.repeats.get? (repeatField e.key spec) = some r → ∀ t, r.next = some t → now < t) :
    Claims rules now e.id q ((some <$> hold rules now e).on q) := by
  rw [Act.on_map, hold_on]
  cases hl : now.add? rules.lease with
  | none =>
    refine ⟨⟨h, fun e he => ?_, (fun _ h => by cases h)⟩, .refl q⟩
    cases he
    exact ⟨rfl, fun hr => by simp [ClaimRules.Reach, hl] at hr⟩
  | some expiry =>
    have frame := Frame.holdEntry (q := q) { e with processedOn := some now } expiry
    exact ⟨⟨h.holdEntry hm hf expiry, (fun _ h => by cases h), fun _ _ => .refl q⟩, frame⟩

/-- A record that has moved on takes its old place, without the entry it waited for. -/
theorem Sound.moveOn {next : RepeatRecord} {f : String} (h : Sound now q)
    (hr : q.repeats.get? f = some r) (hc : e.id = instanceId r.key r.spec e.fireAt) (hn : r.next = some e.fireAt)
    (ha : r.advance now = .ok next) : Sound now ((q.eraseEntry e.id).putRecord next) := by
  obtain ⟨same, hnext⟩ := RepeatRecord.advance_eq_ok ha
  obtain ⟨hk, hs, _⟩ := RepeatRecord.chain_eq_iff.mp same
  have field : next.field = r.field := by rw [RepeatRecord.field, hk, hs, RepeatRecord.field]
  have fires (t) (ht : next.next = some t) : now < t ∧ t.Firable :=
    RepeatSpec.nextAfter_spec (h.usable hr) (ht ▸ hnext)
  have added : Sound now ((q.eraseChain r).putRecord next) :=
    (h.dropChain hr).addChain (by rw [eraseChain_repeats, field, if_pos rfl])
      (hs ▸ h.usable hr) fires
  -- the record that was there is overwritten, so it makes no difference that it was taken out
  refine added.congr (funext fun g => ?_) (funext fun id => ?_) ?_
  · rw [putRecord_repeats, putRecord_repeats, eraseChain_repeats, field]
    split <;> rfl
  · ext e'
    simp only [putRecord_entries_eq_some, eraseChain_of_next hn, hc, eraseEntry, eraseRecord]
  · rw [putRecord_active, putRecord_active, eraseChain_active]
    rfl

/-- How a stored entry stands to its chain: it has none, was claimed before and is left behind, or is the one that its
record waits for. -/
inductive Standing (q : LocalQueue) (e : StoredEntry) : Prop
  | single : e.repeats = none → Standing q e
  | left {spec : RepeatSpec} : e.repeats = some spec → e.processedOn.isSome →
    isSuperseded (q.repeats.get? (repeatField e.key spec)) e = true → Standing q e
  | current {spec : RepeatSpec} {r : RepeatRecord} : e.repeats = some spec → e.processedOn = none →
    q.repeats.get? (repeatField e.key spec) = some r → r.next = some e.fireAt →
    e.id = instanceId r.key r.spec e.fireAt → Standing q e

theorem Sound.standing (h : Sound now q) {id : String} (he : q.entries.get? id = some e) : Standing q e := by
  cases hs : e.repeats with
  | none => exact .single hs
  | some spec =>
    have follows := h.follows he hs
    cases hp : e.processedOn with
    | some p =>
      refine .left hs (by rw [hp]; rfl) ?_
      rw [StoredEntry.follows_of_some hp] at follows
      cases hr : q.repeats.get? (repeatField e.key spec) with
      | none => simp [isSuperseded, hs, hp]
      | some r =>
        have notCurrent : r.isCurrent e = false := by
          simp only [RepeatRecord.isCurrent, beq_eq_false_iff_ne]
          exact fun hn => absurd (follows.2 r hr _ hn) (not_lt.mpr follows.1)
        simp [isSuperseded, hs, hp, notCurrent]
    | none =>
      rw [StoredEntry.follows_of_none hp] at follows
      obtain ⟨r, hr, hn⟩ := follows
      obtain ⟨hu, hid, _⟩ := (h.made he).fire spec hs
      obtain ⟨hk, hspec⟩ := h.record_of_field hu.colonless hr
      exact .current hs hp hr hn (by rw [hid, hk, hspec])

/-- What becomes of a sound queue when one due entry is claimed or dropped. -/
theorem claimEntry_claims (h : Sound now q) (he : q.entries.get? e.id = some e)
    (ha : q.active.contains e.id = false) (hd : e.fireAt ≤ now) :
    Claims rules now e.id q ((claimEntry rules now e).on q) := by
  have made := h.made he
  have drop (hp : e.repeats = none ∨ e.processedOn.isSome) : Sound now (q.eraseEntry e.id) :=
    h.dropEntry ha fun {e'} he' => by
      obtain rfl : e = e' := Option.some.inj (he.symm.trans he')
      exact hp
  cases h.standing he with
  | single hs =>
    rw [claimEntry_single hs]
    refine (hold_claims (drop (.inl hs)) made ?_).after (.eraseEntry e.id q) (.refl q)
    intro spec hspec
    simp [hs] at hspec
  | left hs hp left =>
    rw [claimEntry_superseded hs left]
    exact ⟨⟨drop (.inr hp), (fun _ h => by cases h), fun _ _ => .refl q⟩, .eraseEntry e.id q⟩
  | @current spec r hs _ hr hn hc =>
    rw [claimEntry_current hs hr hn]
    split
    · next error hadv =>
      refine ⟨⟨?_, fun error' he' => ?_, (fun _ h => by cases h)⟩,
        (Frame.eraseEntry e.id q).trans (.eraseRecord r.field)⟩
      · have dropped := h.dropChain hr
        rw [eraseChain_of_next hn, ← hc] at dropped
        exact dropped
      · cases he'
        obtain ⟨rfl, hend⟩ := RepeatRecord.advance_eq_error (h.usable hr) hadv
        exact ⟨rfl, fun hreach => hend hreach.2⟩
    · next next hadv =>
      have moved := h.moveOn hr hc hn hadv
      have frame : Frame e.id q ((q.eraseEntry e.id).putRecord next) :=
        (Frame.eraseEntry e.id q).trans (.putRecord next)
      obtain ⟨chain, hnext⟩ := RepeatRecord.advance_eq_ok hadv
      obtain ⟨hk', hs', _⟩ := RepeatRecord.chain_eq_iff.mp chain
      have records (f) : ((q.eraseEntry e.id).putRecord next).repeats.get? f =
          if r.field = f then some next else q.repeats.get? f := by
        rw [putRecord_repeats, RepeatRecord.field, hk', hs']
        rfl
      have same : q.SameChains ((q.eraseEntry e.id).putRecord next) := by
        intro f
        rw [records]
        split
        · next hf =>
          rw [← hf, h.ownField hr, hr, Option.map_some, Option.map_some, chain]
        · rfl
      split
      · exact ⟨⟨moved, (fun _ h => by cases h), fun _ _ => same⟩, frame⟩
      · refine (hold_claims moved made ?_).after frame same
        intro spec' hspec'
        refine ⟨hd, fun r' hr' t ht => ?_⟩
        obtain rfl : spec = spec' := Option.some.inj (hs.symm.trans hspec')
        rw [records, if_pos (h.ownField hr)] at hr'
        cases hr'
        exact (RepeatSpec.nextAfter_spec (h.usable hr) (ht ▸ hnext)).1

/-! ## Going through what is due -/

/-- Every entry is stored under its own identifier. -/
def Named (q : LocalQueue) : Prop := ∀ id e, q.entries.get? id = some e → e.id = id

theorem Sound.named (h : Sound now q) : q.Named := fun _ _ => h.ownId

theorem Named.mem_due (h : q.Named) : e ∈ q.due now ↔
    q.entries.get? e.id = some e ∧ q.active.contains e.id = false ∧ e.fireAt ≤ now := by
  simp only [due, List.mem_mergeSort, List.mem_filter, Table.mem_values_iff, Bool.and_eq_true,
    Bool.not_eq_true', decide_eq_true_eq]
  refine and_congr_left fun _ => ⟨?_, fun he => ⟨e.id, he⟩⟩
  rintro ⟨id, he⟩
  rwa [h id e he]

theorem Named.nodup_due (h : q.Named) : ((q.due now).map (·.id)).Nodup := by
  have ids : q.entries.values.map (·.id) = q.entries.keys := by
    simp only [Table.values, Table.keys, List.map_map]
    exact List.map_congr_left fun p hp => h p.1 p.2 (Table.mem_pairs_iff.mp hp)
  have all : (q.entries.values.map (·.id)).Nodup := ids ▸ q.entries.nodup
  exact (((List.mergeSort_perm _ _).map _).nodup_iff).mpr (all.sublist (List.filter_sublist.map _))

theorem length_due_le (now : Instant) (q : LocalQueue) : (q.due now).length ≤ q.entries.size := by
  have all : (q.due now).length ≤ q.entries.values.length := by
    rw [due, List.length_mergeSort]
    exact List.length_filter_le _ _
  rwa [Table.values, List.length_map] at all

theorem claimEach_keeps {es : List StoredEntry} (limit : Nat) (h : Sound now q)
    (hes : ∀ e ∈ es,
      q.entries.get? e.id = some e ∧ q.active.contains e.id = false ∧ e.fireAt ≤ now)
    (hd : (es.map (·.id)).Nodup) : Keeps rules now q ((claimEach rules now es limit).on q) := by
  induction es generalizing q limit with
  | nil => exact ⟨h, (fun _ h => by cases h), fun _ _ => .refl q⟩
  | cons e es ih =>
    cases limit with
    | zero => exact ⟨h, (fun _ h => by cases h), fun _ _ => .refl q⟩
    | succ limit =>
      obtain ⟨he, ha, hdue⟩ := hes e List.mem_cons_self
      obtain ⟨hout, hd⟩ := List.nodup_cons.mp hd
      have claims : Claims rules now e.id q ((claimEntry rules now e).on q) :=
        claimEntry_claims h he ha hdue
      simp only [claimEach, Act.on_bind]
      generalize (claimEntry rules now e).on q = out at claims ⊢
      obtain ⟨r, q'⟩ := out
      have rest : ∀ e' ∈ es, q'.entries.get? e'.id = some e' ∧
          q'.active.contains e'.id = false ∧ e'.fireAt ≤ now := by
        intro e' he'
        obtain ⟨hs, ha', hdue'⟩ := hes e' (List.mem_cons_of_mem _ he')
        have ne : e.id ≠ e'.id := fun hid => hout (List.mem_map.mpr ⟨e', he', hid.symm⟩)
        exact ⟨claims.frame.stored ne hs, (claims.frame.held ne).trans ha', hdue'⟩
      cases r with
      | error error =>
        exact ⟨claims.sound, fun e' he' => claims.error e' (by cases he'; rfl), (fun _ h => by cases h)⟩
      | ok claimed =>
        have same := claims.same _ rfl
        cases claimed with
        | none =>
          have keeps := ih (limit + 1) claims.sound rest hd
          exact ⟨keeps.sound, keeps.error, fun a ha => same.trans (keeps.same a ha)⟩
        | some c =>
          have keeps := ih limit claims.sound rest hd
          simp only [Act.on_bind]
          generalize (claimEach rules now es limit).on q' = out at keeps ⊢
          obtain ⟨r, q''⟩ := out
          cases r with
          | error error =>
            exact ⟨keeps.sound, fun e' he' => keeps.error e' (by cases he'; rfl), (fun _ h => by cases h)⟩
          | ok cs => exact ⟨keeps.sound, (fun _ h => by cases h), fun _ _ => same.trans (keeps.same cs rfl)⟩

theorem Sound.recover (h : Sound now q) : Sound now (q.recover now) :=
  h.withActive fun id hid => by
    simp only [Table.contains_iff, Table.get?_filter, Option.filter_eq_some_iff] at hid ⊢
    obtain ⟨expiry, hid, _⟩ := hid
    exact ⟨expiry, hid⟩

theorem claimDue_on (rules : ClaimRules) (now : Instant) (limit : Nat) (q : LocalQueue) :
    (claimDue rules now limit).on q =
      (claimEach rules now ((q.recover now).due now) limit).on (q.recover now) := by
  simp only [claimDue, Act.on_bind, Act.on_modify, Act.on_get]

/-- A claim keeps a queue sound. Unless the end of the calendar breaks it off, it keeps every chain. -/
theorem claimDue_keeps (h : Sound now q) (limit : Nat) :
    Keeps rules now q ((claimDue rules now limit).on q) := by
  rw [claimDue_on]
  have keeps : Keeps rules now (q.recover now) _ :=
    claimEach_keeps limit h.recover (fun e he => h.recover.named.mem_due.mp he) h.recover.named.nodup_due
  exact ⟨keeps.sound, keeps.error, keeps.same⟩

end LocalQueue

end Timetable
