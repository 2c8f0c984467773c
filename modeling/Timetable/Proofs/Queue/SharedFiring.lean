import Timetable.Proofs.Queue.SharedCalm

/-!
# Fires in the queue in a shared keyspace

A claim without faults goes through whatever is due, turn by turn. A turn moves on no record but one that waits for the
fire it takes up (`SharedQueue.Turn`), and then hands the fire out, or drops it because it came back too late or another
entry of its key is at work (`SharedQueue.Barred`). So the fire that a record waits for does not get lost: a claim that is
late enough and may take up all entries deals with it, and the record waits for the next one
(`SharedQueue.claimDue_fires`).
-/

namespace Timetable

/-- The record of a field moves on if it waits for an entry, and the other ones stay as they are. -/
structure QueueContents.Advanced (now : Instant) (e : StoredEntry) (field : String) (c c' : QueueContents) : Prop where
  others : ∀ f, f ≠ field → c'.record f = c.record f
  moved : ∀ r, c.record field = some r → r.isCurrent e = true →
    ∃ r', c'.record field = some r' ∧ r'.key = r.key ∧ r'.spec = r.spec ∧ r.spec.nextAfter now = .ok r'.next
  stays : (∀ r, c.record field = some r → r.isCurrent e = false) → c'.record field = c.record field

theorem QueueContents.Advanced.congr {now : Instant} {e e' : StoredEntry} {field : String} {c c' d d' : QueueContents}
    (h : Advanced now e field c c') (time : e'.fireAt = e.fireAt) (before : d.record = c.record)
    (after : d'.record = c'.record) : Advanced now e' field d d' := by
  obtain ⟨others, moved, stays⟩ := h
  rw [← before, ← after] at others moved stays
  have current (r : RepeatRecord) : r.isCurrent e' = r.isCurrent e := by
    rw [RepeatRecord.isCurrent, RepeatRecord.isCurrent, time]
  exact ⟨others, fun r hr waits => moved r hr (current r ▸ waits),
    fun past => stays fun r hr => (current r).symm.trans (past r hr)⟩

namespace SharedQueue

open Program QueueContents

variable {rules : ClaimRules} {clock now t : Instant} {s s' : Keyspace} {key id : String} {spec : RepeatSpec}
  {e stored : StoredEntry} {a : ActiveClaim} {r : RepeatRecord} {score expiry : Int}

/-- A time from which the calendar reaches what a claim needs. -/
structure Timely (rules : ClaimRules) (now : Instant) : Prop where
  storable : now.Storable
  reach : rules.Reach now

theorem preserved_claimDue (rules : ClaimRules) (storable : now.Storable) (limit : Nat) :
    Preserved rules now (.claimDue limit) (RepeatRecord.Writable now) (Readable now) :=
  preserved_readable rules storable trivial

theorem contents_congr (repeats : s'.repeats = s.repeats) : (contents s').record = (contents s).record := by
  funext f
  simp only [contents, repeats]

theorem advanced_of_repeats (repeats : s'.repeats = s.repeats) {field : String}
    (stays : ∀ r, (contents s).record field = some r → r.isCurrent e = false) :
    (contents s).Advanced now e field (contents s') :=
  ⟨fun f _ => congrFun (contents_congr repeats) f, fun r hr current => absurd current (by simp [stays r hr]),
    fun _ => congrFun (contents_congr repeats) field⟩

/-! ## Records that move on -/

/-- All milliseconds that are repeated fit a signed word. -/
def Countable (s : Keyspace) : Prop := ∀ f r, (contents s).record f = some r → r.spec.Countable

/-- No claim is won or lost, and nothing comes to be due or ceases to be. -/
structure Idle (now : Instant) (s s' : Keyspace) : Prop where
  active : s'.active = s.active
  due : Countable s → ∀ {k n}, n ≤ now.millis → (s'.delayed.get? k = some n ↔ s.delayed.get? k = some n)

theorem Idle.refl (now : Instant) (s : Keyspace) : Idle now s s := ⟨rfl, fun _ _ _ _ => Iff.rfl⟩

theorem Countable.of_repeats (h : Countable s) (repeats : s'.repeats = s.repeats) : Countable s' :=
  fun f r hr => h f r (congrFun (contents_congr repeats) f ▸ hr)

/-- An entry for the next fire of a record lies ahead as that fire does. -/
theorem insertCurrent_leaves (now : Instant) (consistent : Consistent s) (r : RepeatRecord) : Does (insertCurrent r) s
    (fun _ s' => s'.repeats = s.repeats ∧ s'.active = s.active ∧ ((∀ t, r.next = some t → now.millis < t.millis) →
      ∀ {k n}, n ≤ now.millis → (s'.delayed.get? k = some n ↔ s.delayed.get? k = some n)))
    fun _ _ => False := by
  unfold insertCurrent
  cases fire : r.currentInstance with
  | none => exact .done ⟨rfl, rfl, fun _ _ _ _ => Iff.rfl⟩
  | some e =>
    obtain ⟨t, next, rfl⟩ := Option.map_eq_some_iff.mp fire
    refine .send trivial (.done ?_)
    rw [Command.outcome]
    split
    · exact ⟨rfl, rfl, fun _ _ _ _ => Iff.rfl⟩
    · next free =>
      refine ⟨rfl, rfl, fun ahead k n past => ?_⟩
      obtain ⟨c, hc⟩ := consistent.cell (StoredEntry.ofFire r.key r.spec t r.payload).id
      obtain rfl := hc.absent_of_free (Bool.not_eq_true _ ▸ free)
      rw [Keyspace.addPending, Table.get?_set]
      split
      · next own =>
        -- nothing waited there before, and what waits there now does so for a later time
        rw [← own, show s.delayed.get? _ = none from hc.score, Option.some.injEq]
        have later := ahead t next
        exact ⟨fun same => absurd (same ▸ later) (not_lt.mpr past), fun none => by cases none⟩
      · exact Iff.rfl

theorem advanceChain_does (time : Timely rules now) (kept : Kept (Readable now) s) (field : String) :
    Does (advanceChain now ((contents s).record field) e) s
      (fun _ s' => Kept (Readable now) s' ∧ Grows s s' ∧ Idle now s s' ∧
        (contents s).Advanced now e field (contents s'))
      fun _ _ => False := by
  have preserved := preserved_claimDue rules time.storable 0
  have stay (stays : ∀ r, (contents s).record field = some r → r.isCurrent e = false) :
      Kept (Readable now) s ∧ Grows s s ∧ Idle now s s ∧ (contents s).Advanced now e field (contents s) :=
    ⟨kept, .refl s, .refl now s, advanced_of_repeats rfl stays⟩
  unfold advanceChain
  cases stored : (contents s).record field with
  | none => exact .done (stay fun r hr => by rw [stored] at hr; cases hr)
  | some r =>
    obtain ⟨_, own, writable⟩ := record_eq_some kept stored
    obtain ⟨next, fires⟩ := writable.started.nextAfter_isOk time.reach.2
    have moves : r.advance now = .ok { r with next } := by rw [RepeatRecord.advance, fires]
    have made : Made now (.claimDue 0) (RepeatRecord.Writable now) { r with next } := .advanced writable moves
    obtain ⟨payload, _, _, read⟩ := (made.writable time.storable trivial).decode
    dsimp only
    split
    · next current =>
      refine .ofExceptThen (fun _ failed => by cases moves.symm.trans failed) fun r' ok => ?_
      obtain rfl : { r with next } = r' := Except.ok.inj (moves.symm.trans ok)
      refine .askThen trivial ?_
      have kept₁ := kept.move preserved (.saveRecord made)
      have inserted := safe_insertCurrent (E := fun _ _ => False) preserved kept₁ made
      refine (inserted.and (insertCurrent_leaves now kept₁.consistent _)).mono (fun _ _ _ => trivial) ?_ fun _ _ h => h.1
      rintro ⟨⟩ s' ⟨⟨kept', grows⟩, repeats, active, due⟩
      have ahead (countable : Countable s) (t : Instant) (ht : next = some t) : now.millis < t.millis := by
        have usable : r.spec.Usable := writable.spec.parsed.usable (countable field r stored)
        obtain ⟨later, firable⟩ := RepeatSpec.nextAfter_spec usable (ht ▸ fires)
        by_contra past
        have reached := (Instant.millis_le_iff time.storable.ordinary).mp (not_lt.mp past)
        exact absurd later (not_lt.mpr (firable.whole ▸ reached))
      have record (f : String) : (contents s').record f =
          if field = f then some { r with next, payload } else (contents s).record f := by
        rw [contents_congr repeats, ← own]
        exact record_set_of_read s read f
      refine ⟨kept', fun k c held at_ => grows k c held (at_.same ⟨rfl, rfl, rfl, rfl⟩),
        ⟨active, fun countable _ _ past => due (ahead countable) past⟩, fun f ne => ?_, fun r₀ hr _ => ?_,
        fun stays => ?_⟩
      · rw [record, if_neg (Ne.symm ne)]
      · obtain rfl := Option.some.inj (stored.symm.trans hr)
        exact ⟨{ r with next, payload }, by rw [record, if_pos rfl], rfl, rfl, fires⟩
      · rw [stays r stored] at current
        cases current
    · next other =>
      refine .done (stay fun r' hr => ?_)
      obtain rfl := Option.some.inj (stored.symm.trans hr)
      exact eq_false_of_ne_true other

/-! ## Claims of one key -/

/-- Another entry of the key of an entry is at work, where they are not to overlap. -/
def Overlaps (rules : ClaimRules) (e : StoredEntry) (s : Keyspace) : Prop :=
  rules.overlap = .skip ∧ ∃ k c a expiry, k ≠ e.id ∧ At s k (.claimed c a expiry) ∧ c.key = e.key

/-- A claim of another entry shows the key of an entry. -/
def KeyHeld (s : Keyspace) (e : StoredEntry) : Prop :=
  ∃ k text claim, k ≠ e.id ∧ s.active.get? k = some text ∧ decodeClaim text = .ok claim ∧ claim.key = e.key

/-- The text of a claim is read, with the key of the entry that is claimed. -/
theorem claim_of_text (kept : Kept (Readable now) s) {text : String} (held : s.active.get? key = some text) :
    ∃ c a expiry, At s key (.claimed c a expiry) ∧ decodeClaim text = .ok a ∧ c.key = a.key := by
  obtain ⟨c, hc, readable⟩ := kept.holds.cell key
  obtain ⟨f, a, expiry, rfl, text⟩ := hc.claimed_of_active held
  exact ⟨f, a, expiry, hc, text ▸ ActiveClaim.decode readable.2, hc.ownKey rfl rfl⟩

theorem KeyHeld.claimed (held : KeyHeld s e) (kept : Kept (Readable now) s) :
    ∃ k c a expiry, k ≠ e.id ∧ At s k (.claimed c a expiry) ∧ c.key = e.key := by
  obtain ⟨k, text, claim, other, stored, read, key⟩ := held
  obtain ⟨c, a, expiry, held, read', own⟩ := claim_of_text kept stored
  cases read.symm.trans read'
  exact ⟨k, c, claim, expiry, other, held, own.trans key⟩

theorem keyIsActive_does (kept : Kept (Readable now) s) (e : StoredEntry) :
    Does (keyIsActive e) s (fun found s' => s' = s ∧ (found = true ↔ KeyHeld s e)) fun _ _ => False := by
  obtain ⟨found, on, same⟩ := otherClaim_of_read (e := e) fun p mem =>
    let ⟨_, a, _, _, read, _⟩ := claim_of_text kept (Table.mem_pairs_iff.mp mem)
    ⟨a, read⟩
  refine .askThen trivial ?_
  rw [Command.outcome, Keyspace.hash]
  dsimp only
  rw [on]
  refine .done ⟨rfl, same.trans ⟨?_, ?_⟩⟩
  · rintro ⟨⟨k, text⟩, mem, other, claim, read, key⟩
    exact ⟨k, text, claim, other, Table.mem_pairs_iff.mp mem, read, key⟩
  · rintro ⟨k, text, claim, other, stored, read, key⟩
    exact ⟨(k, text), Table.mem_pairs_iff.mpr stored, other, claim, read, key⟩

/-- Whether the fire of an entry is dropped in its turn: its record waits for another one and it came back, or it is not to
overlap with another entry of its key. -/
def Barred (rules : ClaimRules) (s : Keyspace) (e : StoredEntry) : Prop :=
  ∃ spec, e.repeats = some spec ∧ (isSuperseded ((contents s).record (repeatField e.key spec)) e = true ∨
    rules.overlap = .skip ∧ KeyHeld s e)

/-- To claim an entry does not bar it. -/
theorem barred_addClaim (own : e.id = id) {text : String} :
    Barred rules (s.addClaim id text expiry) e ↔ Barred rules s e := by
  have held : KeyHeld (s.addClaim id text expiry) e ↔ KeyHeld s e := by
    refine exists_congr fun k => exists_congr fun text => exists_congr fun claim => and_congr_right fun other => ?_
    rw [Keyspace.addClaim, Table.get?_set, if_neg fun same => other (same.symm.trans own.symm)]
  unfold Barred
  rw [held]
  rfl

/-! ## One turn -/

/-- What a turn of a claim makes of an entry that waits: the one record that waits for it moves on, and then it is
handed out unless it overlaps. Nothing else that is due is touched. -/
structure Turn (rules : ClaimRules) (now : Instant) (id : String) (stored : StoredEntry) (s s' : Keyspace)
    (out : Option StoredEntry) : Prop where
  kept : Kept (Readable now) s'
  grows : GrowsBut id s s'
  single : stored.repeats = none → (contents s').record = (contents s).record
  fire : ∀ spec, stored.repeats = some spec →
    (contents s).Advanced now stored (repeatField stored.key spec) (contents s')
  fate : Barred rules s stored ∧ out = none ∧ s'.entries.get? id = none ∨
    ¬ Barred rules s stored ∧ out = some { stored with processedOn := some now }
  due : Countable s → ∀ {k n}, n ≤ now.millis → (s'.delayed.get? k = some n ↔ k ≠ id ∧ s.delayed.get? k = some n)

/-- What holds for the specification that an entry repeats holds for any that it might. -/
theorem turn_of_fire {out : Option StoredEntry} (fire : stored.repeats = some spec) (kept : Kept (Readable now) s')
    (grows : GrowsBut id s s') (advanced : (contents s).Advanced now stored (repeatField stored.key spec) (contents s'))
    (fate : Barred rules s stored ∧ out = none ∧ s'.entries.get? id = none ∨
      ¬ Barred rules s stored ∧ out = some { stored with processedOn := some now })
    (due : Countable s → ∀ {k n}, n ≤ now.millis → (s'.delayed.get? k = some n ↔ k ≠ id ∧ s.delayed.get? k = some n)) :
    Turn rules now id stored s s' out := by
  refine ⟨kept, grows, fun single => absurd (single.symm.trans fire) nofun, fun spec' fire' => ?_, fate, due⟩
  obtain rfl := Option.some.inj (fire.symm.trans fire')
  exact advanced

theorem barred_iff (fire : stored.repeats = some spec) :
    Barred rules s stored ↔ isSuperseded ((contents s).record (repeatField stored.key spec)) stored = true ∨
      rules.overlap = .skip ∧ KeyHeld s stored := by
  refine ⟨?_, fun barred => ⟨spec, fire, barred⟩⟩
  rintro ⟨spec', fire', barred⟩
  obtain rfl := Option.some.inj (fire.symm.trans fire')
  exact barred

/-- A fire that is not handed out is dropped. -/
theorem release_does (storable : now.Storable) (kept : Kept (Readable now) s) (claimed : At s id (.claimed e a expiry))
    (repeats : e.repeats = some spec) :
    Does (release id a) s (fun _ s' => Kept (Readable now) s' ∧ GrowsBut id s s' ∧ s'.repeats = s.repeats ∧
      s'.delayed = s.delayed ∧ s'.entries.get? id = none) fun _ _ => False := by
  have preserved := preserved_claimDue {} storable 0
  refine .send trivial (.done ?_)
  rw [Command.outcome, if_pos (show s.active.get? id = some a.text from claimed.claim)]
  exact ⟨kept.move preserved (.skip claimed repeats), growsBut_of_same same_dropClaimed, rfl, rfl,
    (at_dropClaimed claimed).entry⟩

theorem saveEntry_does (storable : now.Storable) (kept : Kept (Readable now) s) (claimed : At s id (.claimed e a expiry))
    (read : decodeEntry (entryText e) = .ok stored) :
    Does (saveEntry id { stored with processedOn := some now }) s
      (fun _ s' => Kept (Readable now) s' ∧ GrowsBut id s s' ∧ s'.repeats = s.repeats ∧ Idle now s s' ∧
        At s' id (.claimed { stored with processedOn := some now } a expiry)) fun _ _ => False := by
  have preserved := preserved_claimDue {} storable 0
  have saved := does_of_safe (safe_saveEntry (E := fun _ _ => False) preserved kept claimed read)
  have idle : Does (saveEntry id { stored with processedOn := some now }) s (fun _ s' => Idle now s s') fun _ _ => False :=
    .send trivial (.done ⟨rfl, fun _ _ _ _ => Iff.rfl⟩)
  refine (saved.and idle).mono (fun _ _ _ => trivial) ?_ fun _ _ h => h.1
  rintro ⟨⟩ s' ⟨⟨kept', grows, same, claimed'⟩, idle⟩
  exact ⟨kept', grows, same, idle, claimed'⟩

theorem handOut_does (time : Timely rules now) (kept : Kept (Readable now) s)
    (claimed : At s id (.claimed e a expiry)) (read : decodeEntry (entryText e) = .ok stored) :
    Does (handOut rules now id stored a) s (fun out s' => Turn rules now id stored s s' out) fun _ _ => False := by
  obtain ⟨named, _, repeats⟩ := StoredEntry.named_of_decode read
  have own : stored.id = id := named.trans (claimed.ownId rfl)
  have saved := saveEntry_does time.storable kept claimed read
  -- what is claimed does not wait
  have but {s' : Keyspace}
      (same : Countable s → ∀ {k n}, n ≤ now.millis → (s'.delayed.get? k = some n ↔ s.delayed.get? k = some n)) :
      Countable s → ∀ {k n}, n ≤ now.millis → (s'.delayed.get? k = some n ↔ k ≠ id ∧ s.delayed.get? k = some n) := by
    refine fun countable k n past => (same countable past).trans ⟨fun waits => ⟨?_, waits⟩, And.right⟩
    rintro rfl
    cases waits.symm.trans claimed.score
  unfold handOut
  dsimp only
  split
  · next single =>
    refine saved.bind ?_
    rintro ⟨⟩ s₁ ⟨kept₁, grows₁, same, idle, _⟩
    exact .done ⟨kept₁, grows₁, fun _ => contents_congr same, fun spec fire => absurd (single.symm.trans fire) nofun,
      .inr ⟨fun ⟨spec, fire, _⟩ => absurd (single.symm.trans fire) nofun, rfl⟩, but idle.due⟩
  · next spec fire =>
    refine (loadRecord_does kept _).bind ?_
    rintro record s ⟨rfl, rfl⟩
    split
    · next superseded =>
      -- no record waits for the fire, so none may move on when it is dropped
      have past : ∀ r, (contents s).record (repeatField stored.key spec) = some r → r.isCurrent stored = false := by
        intro r hr
        simp only [isSuperseded, Bool.and_eq_true, hr, Option.any_some, Bool.not_eq_true'] at superseded
        exact superseded.2
      refine (release_does time.storable kept claimed (repeats.symm.trans fire)).discard.bind ?_
      rintro ⟨⟩ s' ⟨kept', grows, same, delayed, gone⟩
      exact .done (turn_of_fire fire kept' grows (advanced_of_repeats same past)
        (.inl ⟨(barred_iff fire).mpr (.inl superseded), rfl, gone⟩) (but fun _ _ _ _ => delayed ▸ Iff.rfl))
    · next standing =>
      refine saved.bind ?_
      rintro ⟨⟩ s₁ ⟨kept₁, grows₁, same, idle₁, claimed₁⟩
      rw [← contents_congr same]
      refine (advanceChain_does time kept₁ _).bind ?_
      rintro ⟨⟩ s₂ ⟨kept₂, grows₂, idle₂, advanced⟩
      have claimed₂ := grows₂ id _ (fun h => by cases h) claimed₁
      have grows := grows₁.trans (grows₂.but id)
      have moved : (contents s).Advanced now stored (repeatField stored.key spec) (contents s₂) :=
        advanced.congr rfl (contents_congr same).symm rfl
      have due := but fun countable _ _ past =>
        (idle₂.due (countable.of_repeats same) past).trans (idle₁.due countable past)
      have handed (free : ¬ (rules.overlap = .skip ∧ KeyHeld s stored)) : Turn rules now id stored s s₂ _ :=
        turn_of_fire fire kept₂ grows moved
          (.inr ⟨fun barred => ((barred_iff fire).mp barred).elim standing free, rfl⟩) due
      split
      · next skip =>
        refine (keyIsActive_does kept₂ _).bind ?_
        rintro blocked _ ⟨rfl, held⟩
        have held : blocked = true ↔ KeyHeld s stored := by
          rw [held, KeyHeld, idle₂.active, idle₁.active]
          exact Iff.rfl
        split
        · refine (release_does time.storable kept₂ claimed₂ fire).discard.bind ?_
          rintro ⟨⟩ s' ⟨kept', grows', same', delayed, gone⟩
          exact .done (turn_of_fire fire kept' (grows.trans grows') (moved.congr rfl rfl (contents_congr same'))
            (.inl ⟨(barred_iff fire).mpr (.inr ⟨skip, held.mp ‹_›⟩), rfl, gone⟩) (delayed ▸ due))
        · next free => exact .done (handed fun barred => free (held.mpr barred.2))
      · next allowed => exact .done (handed fun barred => allowed barred.1)

theorem claimId_does (time : Timely rules now) (kept : Kept (Readable now) s) (waits : At s id (.waiting e score))
    (due : score ≤ now.millis) :
    Does (claimId rules now id) s
      (fun out s' => ∃ stored, (contents s).entry id = some stored ∧ Turn rules now id stored s s' out)
      fun _ _ => False := by
  have preserved := preserved_claimDue rules time.storable 0
  have entry : s.entries.get? id = some (entryText e) := waits.entry
  obtain ⟨stored, read, own, _⟩ := kept.holds.read_entry entry
  obtain ⟨expiry, inTime⟩ := Option.isSome_iff_exists.mp time.reach.1
  have lease : leaseExpiry rules now = .ok expiry.millis := by rw [leaseExpiry, inTime]
  unfold claimId
  refine .askThen trivial ?_
  rw [Command.outcome, Keyspace.hash, entry]
  dsimp only
  refine .ofExceptThen (fun _ unread => by cases read.symm.trans unread) fun stored' read' => ?_
  obtain rfl : stored = stored' := Except.ok.inj (read.symm.trans read')
  refine .ofExceptThen (fun _ late => by cases lease.symm.trans late) fun expiry' lease' => ?_
  obtain rfl : expiry.millis = expiry' := Except.ok.inj (lease.symm.trans lease')
  have key : e.key = stored.key := (StoredEntry.named_of_decode read).2.1.symm
  have claimed := at_addClaim (a := ⟨stored.key, now.millis⟩) waits key expiry.millis
  refine .askThen trivial ?_
  rw [Command.outcome, if_pos (Table.contains_iff.mpr ⟨score, waits.score⟩)]
  dsimp only
  rw [if_pos rfl]
  refine (handOut_does time (kept.move preserved (.claim waits due read lease)) claimed read).weaken ?_
  rintro out s' ⟨kept', grows, single, fire, fate, rest⟩
  have others : GrowsBut id s _ := growsBut_of_same fun ne =>
    same_addClaim ne (ActiveClaim.mk stored.key now.millis).text expiry.millis
  rw [barred_addClaim own] at fate
  refine ⟨stored, contents_entry entry read, kept', others.trans grows, single,
    fun spec repeats => (fire spec repeats).congr rfl rfl rfl, fate, fun countable k n past => ?_⟩
  rw [rest countable past, Keyspace.addClaim, Table.get?_erase]
  exact and_congr_right fun other => by rw [if_neg (Ne.symm other)]

/-! ## Chains -/

/-- An entry under the identifier of a fire is that fire. -/
theorem fire_of_id (writable : e.Writable) (own : e.id = instanceId key spec t) (colonless : spec.Colonless)
    (whole : t.Whole) : e.key = key ∧ e.repeats = some spec ∧ e.fireAt = t := by
  cases repeats : e.repeats with
  | none => exact absurd ((writable.single repeats).symm.trans own) singleId_ne_instanceId
  | some spec' =>
    obtain ⟨parsed, named, whole'⟩ := writable.fire spec' repeats
    obtain ⟨key, rfl, millis⟩ := instanceId_inj parsed.parsed.colonless colonless (named.symm.trans own)
    exact ⟨key, rfl, Instant.eq_of_millis_eq whole' whole millis⟩

/-- The record of a chain waits for a fire. -/
def Awaits (s : Keyspace) (key : String) (spec : RepeatSpec) (t : Instant) : Prop :=
  ∃ r, (contents s).record (repeatField key spec) = some r ∧ r.key = key ∧ r.spec = spec ∧ r.next = some t

/-- The record of a chain waits for the next fire after some time. -/
def MovedOn (now : Instant) (s : Keyspace) (key : String) (spec : RepeatSpec) : Prop :=
  ∃ r, (contents s).record (repeatField key spec) = some r ∧ r.key = key ∧ r.spec = spec ∧
    spec.nextAfter now = .ok r.next

/-- A fire was handed out, or dropped because another entry of its key is at work. -/
def Fired (rules : ClaimRules) (now : Instant) (key : String) (spec : RepeatSpec) (t : Instant) (out : List StoredEntry)
    (s : Keyspace) : Prop :=
  (∃ e ∈ out, e.id = instanceId key spec t ∧ e.key = key ∧ e.repeats = some spec ∧ e.fireAt = t ∧
    e.processedOn = some now) ∨
  rules.overlap = .skip ∧ ∃ k c a expiry, k ≠ instanceId key spec t ∧ At s k (.claimed c a expiry) ∧ c.key = key

namespace Turn

variable {out : Option StoredEntry}

/-- A record that does not wait for the entry whose turn it is stays. -/
theorem stays (turn : Turn rules now id stored s s' out)
    (hr : (contents s).record (repeatField r.key r.spec) = some r)
    (past : ∀ spec', stored.repeats = some spec' → repeatField r.key r.spec = repeatField stored.key spec' →
      r.isCurrent stored = false) : (contents s').record (repeatField r.key r.spec) = some r := by
  cases repeats : stored.repeats with
  | none => rw [turn.single repeats, hr]
  | some spec' =>
    have advanced := turn.fire spec' repeats
    by_cases same : repeatField r.key r.spec = repeatField stored.key spec'
    · rw [same, advanced.stays, ← same, hr]
      intro r' hr'
      obtain rfl := Option.some.inj (hr.symm.trans (same ▸ hr'))
      exact past spec' repeats same
    · rw [advanced.others _ same, hr]

/-- A record that moved on waits for the same fire if it moves on again. -/
theorem movedOn (turn : Turn rules now id stored s s' out) (h : MovedOn now s key spec) : MovedOn now s' key spec := by
  obtain ⟨r, hr, rfl, rfl, fires⟩ := h
  by_cases again : ∃ spec', stored.repeats = some spec' ∧ repeatField r.key r.spec = repeatField stored.key spec' ∧
      r.isCurrent stored = true
  · obtain ⟨spec', repeats, same, current⟩ := again
    obtain ⟨r', hr', key, spec, next⟩ := (turn.fire spec' repeats).moved r (same ▸ hr) current
    exact ⟨r', same ▸ hr', key, spec, next⟩
  · refine ⟨r, turn.stays hr fun spec' repeats same => ?_, rfl, rfl, fires⟩
    exact Bool.eq_false_iff.mpr fun current => again ⟨spec', repeats, same, current⟩

/-- A record goes on waiting for its fire until it is the turn of that fire. -/
theorem awaits (turn : Turn rules now id stored s s' out) (kept : Kept (Readable now) s) (own : stored.id = id)
    (writable : stored.Writable) (other : id ≠ instanceId key spec t) (h : Awaits s key spec t) :
    Awaits s' key spec t := by
  obtain ⟨r, hr, rfl, rfl, next⟩ := h
  refine ⟨r, turn.stays hr fun spec' repeats same => Bool.eq_false_iff.mpr fun current => other ?_, rfl, rfl, next⟩
  rw [RepeatRecord.isCurrent, next, beq_iff_eq, Option.some.injEq] at current
  obtain ⟨parsed, named, _⟩ := writable.fire spec' repeats
  have colonless := (record_eq_some kept hr).2.2.spec.parsed.colonless
  obtain ⟨key, spec⟩ := repeatField_inj colonless parsed.parsed.colonless same
  rw [← own, named, key, spec, current]

/-- A fire that a record waits for is handed out, unless it overlaps. -/
theorem hands (turn : Turn rules now id stored s s' out) (kept : Kept (Readable now) s) (own : stored.id = id)
    (repeats : stored.repeats = some spec) (hr : (contents s).record (repeatField stored.key spec) = some r)
    (current : r.isCurrent stored = true) :
    out = some { stored with processedOn := some now } ∨ Overlaps rules stored s' := by
  rcases turn.fate with ⟨barred, -⟩ | ⟨-, handed⟩
  · rcases (barred_iff repeats).mp barred with superseded | ⟨skip, held⟩
    · simp [isSuperseded, hr, current] at superseded
    · -- what blocks the fire was at work before, and the turn leaves it so
      obtain ⟨k, c, a, expiry, ne, held, key⟩ := held.claimed kept
      exact .inr ⟨skip, k, c, a, expiry, ne, turn.grows k _ (own ▸ ne) (fun h => by cases h) held, key⟩
  · exact .inl handed

/-- In the turn of the fire that it waits for a record moves on. -/
theorem fires (turn : Turn rules now id stored s s' out) (kept : Kept (Readable now) s) (own : stored.id = id)
    (writable : stored.Writable) (same : id = instanceId key spec t) (h : Awaits s key spec t) :
    MovedOn now s' key spec ∧ Fired rules now key spec t out.toList s' := by
  obtain ⟨r, hr, rfl, rfl, next⟩ := h
  have record := (record_eq_some kept hr).2.2
  obtain ⟨key, repeats, time⟩ :=
    fire_of_id writable (own.trans same) record.spec.parsed.colonless (record.next t next).whole
  have current : r.isCurrent stored = true := by rw [RepeatRecord.isCurrent, next, time, beq_self_eq_true]
  rw [← key] at hr
  obtain ⟨r', hr', key', spec, next'⟩ := (turn.fire _ repeats).moved r hr current
  refine ⟨⟨r', key ▸ hr', key', spec, next'⟩, ?_⟩
  rcases turn.hands kept own repeats hr current with handed | ⟨skip, k, c, a, expiry, ne, held, at_work⟩
  · subst handed
    exact .inl ⟨_, List.mem_singleton_self _, own.trans same, key, repeats, time, rfl⟩
  · exact .inr ⟨skip, k, c, a, expiry, fun eq => ne (eq.trans (same.symm.trans own.symm)), held, at_work.trans key⟩

end Turn

/-- What waits is gone through, one entry after the other. -/
structure Passes (rules : ClaimRules) (now : Instant) (key : String) (spec : RepeatSpec) (t : Instant)
    (ids : List String) (s s' : Keyspace) (out : List StoredEntry) : Prop where
  kept : Kept (Readable now) s'
  grows : ∀ k c, k ∉ ids → c ≠ .absent → At s k c → At s' k c
  movedOn : MovedOn now s key spec → MovedOn now s' key spec
  fires : instanceId key spec t ∈ ids → Awaits s key spec t →
    MovedOn now s' key spec ∧ Fired rules now key spec t out s'

theorem Fired.mono {out out' : List StoredEntry} (h : Fired rules now key spec t out s) (sub : out ⊆ out')
    (grows : ∀ k e a expiry, k ≠ instanceId key spec t → At s k (.claimed e a expiry) → At s' k (.claimed e a expiry)) :
    Fired rules now key spec t out' s' := by
  rcases h with ⟨e, mem, handed⟩ | ⟨skip, k, c, a, expiry, ne, held, key⟩
  · exact .inl ⟨e, sub mem, handed⟩
  · exact .inr ⟨skip, k, c, a, expiry, ne, grows k c a expiry ne held, key⟩

/-- The turns of some entries, one after the other, and what they hand out. -/
inductive Turns (rules : ClaimRules) (now : Instant) : List String → Keyspace → List StoredEntry → Keyspace → Prop
  | none {s : Keyspace} : Turns rules now [] s [] s
  | turn {id : String} {ids : List String} {s s₁ s' : Keyspace} {stored : StoredEntry} {one : Option StoredEntry}
      {out : List StoredEntry} :
    (contents s).entry id = some stored → Turn rules now id stored s s₁ one → Turns rules now ids s₁ out s' →
    Turns rules now (id :: ids) s (one.toList ++ out) s'

/-- A turn leaves the rest due. -/
theorem Turn.due_rest {out : Option StoredEntry} {ids : List String} (turn : Turn rules now id stored s s' out)
    (nodup : (id :: ids).Nodup) (due : ∀ k ∈ id :: ids, Due now s k) : ∀ k ∈ ids, Due now s' k :=
  fun k mem => (due k (List.mem_cons_of_mem _ mem)).grows turn.grows fun same =>
    (List.nodup_cons.mp nodup).1 (same ▸ mem)

theorem claimEach_does (time : Timely rules now) {ids : List String} (kept : Kept (Readable now) s) (nodup : ids.Nodup)
    (due : ∀ id ∈ ids, Due now s id) :
    Does (claimEach rules now ids) s (fun out s' => Turns rules now ids s out s') fun _ _ => False := by
  induction ids generalizing s with
  | nil => exact .done .none
  | cons id ids ih =>
    obtain ⟨e, score, first, past⟩ := due id List.mem_cons_self
    rw [claimEach]
    refine (claimId_does time kept first past).bind ?_
    rintro one s₁ ⟨stored, entry, turn⟩
    have rest := ih turn.kept nodup.of_cons (turn.due_rest nodup due)
    cases one with
    | none => exact rest.weaken fun out s' turns => .turn entry turn turns
    | some e => exact rest.bind fun out s' turns => .done (.turn entry turn turns)

theorem Turns.passes {ids : List String} {out : List StoredEntry} (turns : Turns rules now ids s out s')
    (kept : Kept (Readable now) s) (nodup : ids.Nodup) (due : ∀ id ∈ ids, Due now s id) :
    Passes rules now key spec t ids s s' out := by
  induction turns with
  | none => exact ⟨kept, fun _ _ _ _ h => h, fun h => h, fun mem => by cases mem⟩
  | @turn id ids s s₁ s' stored one out entry turn _ ih =>
    obtain ⟨-, own, writable⟩ := entry_eq_some kept entry
    have due₁ := turn.due_rest nodup due
    have rest := ih turn.kept nodup.of_cons due₁
    refine ⟨rest.kept, fun k c outside held at_ => ?_, fun moved => rest.movedOn (turn.movedOn moved),
      fun mem awaits => ?_⟩
    · rw [List.mem_cons, not_or] at outside
      exact rest.grows k c outside.2 held (turn.grows k c outside.1 held at_)
    · by_cases same : id = instanceId key spec t
      · obtain ⟨moved, fired⟩ := turn.fires kept own writable same awaits
        -- what blocks the fire was claimed before, so no later turn takes it up
        refine ⟨rest.movedOn moved, fired.mono (List.subset_append_left _ _) fun k c a expiry _ held => ?_⟩
        refine rest.grows k _ (fun mem => ?_) (fun h => by cases h) held
        obtain ⟨e', score', hk, _⟩ := due₁ k mem
        cases hk.score.symm.trans held.score
      · obtain ⟨moved, fired⟩ := rest.fires ((List.mem_cons.mp mem).resolve_left (Ne.symm same))
          (turn.awaits kept own writable same awaits)
        exact ⟨moved, fired.mono (List.subset_append_right _ _) fun _ _ _ _ _ held => held⟩

/-! ## What is due -/

/-- What is kept once late claims are given up. -/
abbrev recovered (now : Instant) (s : Keyspace) : Keyspace := (s.leases.upTo now.millis).foldl (·.giveUp now.millis) s

/-- What is due once late claims are given up, in the order in which it is claimed. -/
def dueIds (now : Instant) (s : Keyspace) : List String := (recovered now s).delayed.upTo now.millis

theorem nodup_dueIds (now : Instant) (s : Keyspace) : (dueIds now s).Nodup := SortedSet.nodup_upTo _ _

theorem Kept.recovered (kept : Kept (Readable now) s) (storable : now.Storable) : Kept (Readable now) (recovered now s) :=
  kept.move (preserved_claimDue {} storable 0) .recover

/-- Without faults a claim takes up as many as it may of what is due, one after the other. -/
theorem claimDue_does (time : Timely rules now) (kept : Kept (Readable now) s) (limit : Nat) :
    Does (claimDue rules now limit) s
      (fun out s' => Turns rules now ((dueIds now s).take limit) (recovered now s) out s') fun _ _ => False := by
  have kept₁ := kept.recovered time.storable
  unfold claimDue
  refine Safe.bind (Q := fun _ s' => s' = recovered now s) (Safe.discard (.send trivial (.done rfl))) ?_
  rintro ⟨⟩ _ rfl
  refine .askThen trivial ?_
  rw [Command.outcome, Keyspace.sortedSet]
  refine claimEach_does time kept₁ ((nodup_dueIds now s).sublist (List.take_sublist _ _)) fun id mem => ?_
  exact kept₁.consistent.due (List.mem_of_mem_take mem)

/-- The fire that a record waits for is due once late claims are given up. -/
theorem Awaits.due (awaits : Awaits s key spec t) (storable : now.Storable) (kept : Kept (Readable now) s)
    (past : t ≤ now) (stored : ((contents s).entry (instanceId key spec t)).isSome)
    (free : ∀ n, s.leases.get? (instanceId key spec t) = some n → n ≤ now.millis) :
    instanceId key spec t ∈ dueIds now s := by
  obtain ⟨r, hr, rfl, rfl, next⟩ := awaits
  have record := (record_eq_some kept hr).2.2
  obtain ⟨e, at_⟩ := Option.isSome_iff_exists.mp stored
  obtain ⟨c, hc, readable⟩ := kept.holds.cell (instanceId r.key r.spec t)
  have waits := at_recover hc now.millis
  cases c with
  | absent =>
    rw [contents_entry_none hc.entry] at at_
    cases at_
  | waiting f score =>
    refine SortedSet.mem_upTo.mpr ⟨score, waits.score, ?_⟩
    obtain ⟨_, _, fireAt⟩ :=
      fire_of_id readable.1 (hc.ownId rfl) record.spec.parsed.colonless (record.next t next).whole
    -- the score is the instant of the fire, or the time at which a claim of it was given up
    rcases readable.2 with own | given
    · exact own.trans (fireAt ▸ Instant.millis_mono (record.next t next).storable.ordinary past)
    · exact (Instant.millis_le_iff storable.ordinary).mpr given
  | claimed f a expiry =>
    rw [Cell.recovered, if_pos (free expiry hc.expiry)] at waits
    exact SortedSet.mem_upTo.mpr ⟨now.millis, waits.score, le_rfl⟩

/-- A claim that is late enough, and may take up all entries, takes up the fire that a record waits for. -/
theorem claimDue_fires (time : Timely rules now) (kept : Kept (Readable now) s) {limit : Nat}
    (enough : s.entries.size ≤ limit) (awaits : Awaits s key spec t) (due : t ≤ now)
    (stored : ((contents s).entry (instanceId key spec t)).isSome)
    (free : ∀ n, s.leases.get? (instanceId key spec t) = some n → n ≤ now.millis) :
    Does (claimDue rules now limit) s
      (fun out s' => Kept (Readable now) s' ∧ MovedOn now s' key spec ∧ Fired rules now key spec t out s')
      fun _ _ => False := by
  have kept₁ := kept.recovered time.storable
  have few : (dueIds now s).length ≤ (recovered now s).entries.size := kept₁.consistent.length_upTo_le now.millis
  rw [recovered, entries_foldl_giveUp] at few
  have awaits₁ : Awaits (recovered now s) key spec t := by
    obtain ⟨r, hr, own⟩ := awaits
    exact ⟨r, by rw [contents_congr (repeats_foldl_giveUp _ _ s), hr], own⟩
  refine (claimDue_does time kept limit).weaken fun out s' turns => ?_
  rw [List.take_of_length_le (few.trans enough)] at turns
  have passes : Passes rules now key spec t (dueIds now s) (recovered now s) s' out :=
    turns.passes kept₁ (nodup_dueIds now s) fun id mem => kept₁.consistent.due mem
  exact ⟨passes.kept, passes.fires (awaits.due time.storable kept due stored free) awaits₁⟩

end SharedQueue

end Timetable
