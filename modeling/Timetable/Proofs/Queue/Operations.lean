import Timetable.Proofs.Queue.Moves

/-!
# Operations of a shared queue that are cut short

Wherever an operation may be cut short, the keyspace is `Kept`: it is consistent, and it has whatever property the
moves of the request preserve. So is what the operation leaves when it comes to its end. An operation fails of itself
only if there is `Trouble`.
-/

namespace Timetable.SharedQueue

/-- No move of a request breaks a property of keyspaces, which tells something about the records that are read. -/
structure Preserved (rules : ClaimRules) (now : Instant) (request : QueueRequest)
    (G : RepeatRecord → Prop) (J : Keyspace → Prop) : Prop where
  move : ∀ {s s'}, Consistent s → J s → Move rules now request G s s' → J s'
  read : ∀ {s r}, J s → Stored s r → G r

structure Kept (J : Keyspace → Prop) (s : Keyspace) : Prop where
  consistent : Consistent s
  holds : J s

/-- Where a command is sent the keyspace is kept, and the command is none that drops an identifier without entry. -/
def Sends (J : Keyspace → Prop) (c : Command) (s : Keyspace) : Prop :=
  Kept J s ∧ ∀ z member, c ≠ .zrem z member

/-- Why an operation may fail of itself with some error: a text that cannot be read, or a time out of range. -/
inductive Trouble (rules : ClaimRules) (now : Instant) (s : Keyspace) (error : QueueError) : Prop
  | entry {id text : String} :
    s.entries.get? id = some text → decodeEntry text = .error error → Trouble rules now s error
  | record {field text : String} :
    s.repeats.get? field = some text → decodeRecord text = .error error → Trouble rules now s error
  | claim {id text : String} :
    s.active.get? id = some text → decodeClaim text = .error error → Trouble rules now s error
  | lease : leaseExpiry rules now = .error error → Trouble rules now s error
  | advance {r : RepeatRecord} :
    Stored s r → r.advance now = .error error → Trouble rules now s error

/-- An operation that fails of itself. -/
def Stuck (rules : ClaimRules) (now : Instant) (J : Keyspace → Prop) (error : QueueError) (s : Keyspace) :
    Prop :=
  Kept J s ∧ Trouble rules now s error

/-- Whatever is held under other identifiers than one stays as it is. -/
def GrowsBut (id : String) (s s' : Keyspace) : Prop :=
  ∀ k c, k ≠ id → c ≠ .absent → At s k c → At s' k c

/-- Whatever is held stays as it is. -/
def Grows (s s' : Keyspace) : Prop := ∀ k c, c ≠ .absent → At s k c → At s' k c

section

variable {id : String} {s s' s'' : Keyspace}

theorem Grows.refl (s : Keyspace) : Grows s s := fun _ _ _ h => h

theorem Grows.trans (h : Grows s s') (h' : Grows s' s'') : Grows s s'' :=
  fun k c held at_ => h' k c held (h k c held at_)

theorem Grows.but (h : Grows s s') (id : String) : GrowsBut id s s' :=
  fun k c _ held at_ => h k c held at_

theorem GrowsBut.trans (h : GrowsBut id s s') (h' : GrowsBut id s' s'') : GrowsBut id s s'' :=
  fun k c ne held at_ => h' k c ne held (h k c ne held at_)

theorem growsBut_of_same (same : ∀ {k}, id ≠ k → Same s s' k) : GrowsBut id s s' :=
  fun _ _ ne _ at_ => at_.same (same (Ne.symm ne))

theorem grows_of_records (entries : s'.entries = s.entries) (active : s'.active = s.active)
    (delayed : s'.delayed = s.delayed) (leases : s'.leases = s.leases) : Grows s s' :=
  fun _ _ _ at_ => at_.same ⟨by rw [entries], by rw [delayed], by rw [active], by rw [leases]⟩

theorem grows_of_addPending (free : At s id .absent) (text : String) (score : Int) :
    Grows s (s.addPending id text score) := by
  intro k c held at_
  refine at_.same (same_addPending ?_ text score)
  rintro rfl
  exact held (at_.absent_of_free (Table.contains_eq_false_iff.mpr free.entry))

end

variable {rules : ClaimRules} {now : Instant} {request : QueueRequest}
  {G : RepeatRecord → Prop} {J : Keyspace → Prop}
  {s s' : Keyspace} {id : String} {e stored : StoredEntry} {a : ActiveClaim} {r : RepeatRecord}
  {score expiry : Int} {E : QueueError → Keyspace → Prop}

theorem Kept.move (h : Kept J s) (preserved : Preserved rules now request G J)
    (m : Move rules now request G s s') : Kept J s' :=
  ⟨m.consistent h.consistent, preserved.move h.consistent h.holds m⟩

theorem Kept.sends (h : Kept J s) {c : Command} (hc : ∀ z member, c ≠ .zrem z member) : Sends J c s :=
  ⟨h, hc⟩

/-- What is held under an identifier waits, and its time has come. -/
def Due (now : Instant) (s : Keyspace) (id : String) : Prop :=
  ∃ e score, At s id (.waiting e score) ∧ score ≤ now.millis

theorem Due.grows {k : String} (due : Due now s k) (grows : GrowsBut id s s') (ne : k ≠ id) : Due now s' k :=
  let ⟨e, score, waits, past⟩ := due
  ⟨e, score, grows k _ ne (fun h => by cases h) waits, past⟩

/-- What is listed up to now is due. -/
theorem Consistent.due (h : Consistent s) (mem : id ∈ s.delayed.upTo now.millis) : Due now s id := by
  obtain ⟨score, hs, past⟩ := SortedSet.mem_upTo.mp mem
  obtain ⟨c, hc⟩ := h.cell id
  obtain ⟨e, score', rfl⟩ := hc.waiting_of_delayed (Table.contains_iff.mpr ⟨score, hs⟩)
  obtain rfl : score = score' := Option.some.inj (hs.symm.trans hc.score)
  exact ⟨e, score, hc, past⟩

/-- What waits under an identifier is handed out as claimed now, if it can be read and does not repeat. -/
def HandsOut (now : Instant) (s : Keyspace) (id : String) (out : List StoredEntry) : Prop :=
  ∀ e score stored, At s id (.waiting e score) → decodeEntry (entryText e) = .ok stored →
    stored.repeats = none → { stored with processedOn := some now } ∈ out

theorem HandsOut.before {k : String} {out : List StoredEntry} (h : HandsOut now s' k out)
    (grows : GrowsBut id s s') (ne : k ≠ id) : HandsOut now s k out :=
  fun e score stored waits => h e score stored (grows k _ ne (fun h => by cases h) waits)

theorem HandsOut.mono {out out' : List StoredEntry} (h : HandsOut now s id out)
    (sub : ∀ e ∈ out, e ∈ out') : HandsOut now s id out' :=
  fun e score stored waits read plain => sub _ (h e score stored waits read plain)

/-! ## Parts of operations -/

section

open Program

theorem safe_insertIfAbsent (preserved : Preserved rules now request G J) (kept : Kept J s)
    (add : At s e.id .absent →
      Move rules now request G s (s.addPending e.id (entryText e) e.fireAt.millis)) :
    (insertIfAbsent e).Safe (Sends J) (fun _ s' => Kept J s' ∧ Grows s s') E s := by
  unfold insertIfAbsent
  refine .send (kept.sends fun _ _ h => by cases h) (.done ?_)
  rw [Command.outcome]
  split
  · exact ⟨kept, Grows.refl s⟩
  · next free =>
    obtain ⟨c, hc⟩ := kept.consistent.cell e.id
    obtain rfl := hc.absent_of_free (Bool.not_eq_true _ ▸ free)
    exact ⟨kept.move preserved (add hc), grows_of_addPending hc _ _⟩

theorem safe_insertCurrent (preserved : Preserved rules now request G J) (kept : Kept J s)
    (made : Made now request G r) :
    (insertCurrent r).Safe (Sends J) (fun _ s' => Kept J s' ∧ Grows s s') E s := by
  unfold insertCurrent
  cases h : r.currentInstance with
  | some e => exact safe_insertIfAbsent preserved kept (.addInstance made h)
  | none => exact .done ⟨kept, Grows.refl s⟩

/-- A record that is loaded is stored, in the field it is loaded from. -/
theorem safe_loadRecord (kept : Kept J s) (field : String)
    (unread : ∀ text error, s.repeats.get? field = some text → decodeRecord text = .error error →
      E error s) :
    (loadRecord field).Safe (Sends J)
      (fun record s' => s' = s ∧ ∀ r, record = some r → Stored s r ∧ r.field = field) E s := by
  refine .askThen (kept.sends fun _ _ h => by cases h) ?_
  rw [Command.outcome, Keyspace.hash]
  cases h : s.repeats.get? field with
  | none => exact .done ⟨rfl, fun _ none => by cases none⟩
  | some text =>
    refine .ofExceptThen (unread text · h) fun r read => .done ⟨rfl, ?_⟩
    rintro _ ⟨⟩
    obtain ⟨r₀, rfl, rfl⟩ := kept.consistent.record h
    obtain ⟨key, spec⟩ := RepeatRecord.field_of_decode read
    have own : r.field = r₀.field := by rw [RepeatRecord.field, key, spec, RepeatRecord.field]
    exact ⟨⟨_, own ▸ h, read⟩, own⟩

theorem safe_saveRecord (preserved : Preserved rules now request G J) (kept : Kept J s)
    (made : Made now request G r) :
    (saveRecord r).Safe (Sends J) (fun _ s' => Kept J s' ∧ Grows s s') E s := by
  unfold saveRecord
  have kept' := kept.move preserved (.saveRecord made)
  exact .send (kept.sends fun _ _ h => by cases h)
    (.done ⟨kept', grows_of_records rfl rfl rfl rfl⟩)

/-! ## Claims -/

/-- Giving up a claim that is held removes its entry. -/
theorem safe_release (preserved : Preserved rules now request G J) (kept : Kept J s)
    (claimed : At s id (.claimed e a expiry)) (drop : Move rules now request G s (s.dropClaimed id)) :
    (release id a).Safe (Sends J) (fun _ s' => Kept J s' ∧ GrowsBut id s s') E s := by
  unfold release
  refine .send (kept.sends fun _ _ h => by cases h) (.done ?_)
  rw [Command.outcome, if_pos (show s.active.get? id = some a.text from claimed.claim)]
  exact ⟨kept.move preserved drop, growsBut_of_same same_dropClaimed⟩

theorem otherClaim_eq_error {claims : List (String × String)} {error : QueueError}
    (h : otherClaim e claims = .error error) :
    ∃ id text, (id, text) ∈ claims ∧ decodeClaim text = .error error := by
  induction claims with
  | nil => cases h
  | cons p rest ih =>
    obtain ⟨id, text⟩ := p
    have later (h : otherClaim e rest = .error error) :
        ∃ id' text', (id', text') ∈ (id, text) :: rest ∧ decodeClaim text' = .error error := by
      obtain ⟨id', text', mem, unread⟩ := ih h
      exact ⟨id', text', List.mem_cons_of_mem _ mem, unread⟩
    rw [otherClaim] at h
    split at h
    · exact later h
    · cases read : decodeClaim text with
      | error error' =>
        rw [read] at h
        cases h
        exact ⟨id, text, List.mem_cons_self, read⟩
      | ok claim =>
        rw [read] at h
        by_cases key : claim.key = e.key
        · simp [key, bind, Except.bind, pure, Except.pure] at h
        · simp only [bind, Except.bind, key, if_false] at h
          exact later h

/-- The search for another claim ends, if all claims can be read. -/
theorem otherClaim_of_read {claims : List (String × String)} (reads : ∀ p ∈ claims, ∃ a, decodeClaim p.2 = .ok a) :
    ∃ found, otherClaim e claims = .ok found ∧
      (found = true ↔ ∃ p ∈ claims, p.1 ≠ e.id ∧ ∃ a, decodeClaim p.2 = .ok a ∧ a.key = e.key) := by
  induction claims with
  | nil => exact ⟨false, rfl, by simp⟩
  | cons p rest ih =>
    obtain ⟨id, text⟩ := p
    obtain ⟨found, on, all⟩ := ih fun p mem => reads p (List.mem_cons_of_mem _ mem)
    obtain ⟨a, read⟩ := reads _ List.mem_cons_self
    rw [otherClaim]
    by_cases own : id = e.id
    · rw [if_pos own]
      exact ⟨found, on, by simp [all, own]⟩
    · rw [if_neg own]
      dsimp only at read
      by_cases key : a.key = e.key
      · exact ⟨true, by simp [read, key, bind, Except.bind, pure, Except.pure], by simp [own, read, key]⟩
      · exact ⟨found, by simp [read, key, bind, Except.bind, on], by simp [all, own, read, key]⟩

theorem safe_keyIsActive (kept : Kept J s) :
    (keyIsActive e).Safe (Sends J) (fun _ s' => s' = s) (Stuck rules now J) s := by
  refine .askThen (kept.sends fun _ _ h => by cases h) (.ofExcept (fun _ _ => rfl) ?_)
  intro error failed
  obtain ⟨id, text, mem, unread⟩ := otherClaim_eq_error failed
  exact ⟨kept, .claim (Table.mem_pairs_iff.mp mem) unread⟩

/-- A record moves on without a change of what is held. -/
theorem safe_advanceChain (preserved : Preserved rules now request G J) (kept : Kept J s)
    {record : Option RepeatRecord} (loaded : ∀ r, record = some r → Stored s r) :
    (advanceChain now record e).Safe (Sends J) (fun _ s' => Kept J s' ∧ Grows s s')
      (Stuck rules now J) s := by
  unfold advanceChain
  cases record with
  | none => exact .done ⟨kept, Grows.refl s⟩
  | some r =>
    have stored := loaded r rfl
    dsimp only
    split
    · refine .ofExceptThen (fun _ failed => ⟨kept, .advance stored failed⟩) fun next moved => ?_
      have made : Made now request G next := .advanced (preserved.read kept.holds stored) moved
      refine (safe_saveRecord preserved kept made).bind ?_
      rintro ⟨⟩ s₁ ⟨kept₁, grows₁⟩
      refine (safe_insertCurrent preserved kept₁ made).weaken ?_
      rintro ⟨⟩ s₂ ⟨kept₂, grows₂⟩
      exact ⟨kept₂, grows₁.trans grows₂⟩
    · exact .done ⟨kept, Grows.refl s⟩

/-- The time of a claim is stored with the entry. -/
theorem safe_saveEntry (preserved : Preserved rules now request G J) (kept : Kept J s)
    (claimed : At s id (.claimed e a expiry)) (read : decodeEntry (entryText e) = .ok stored) :
    (saveEntry id { stored with processedOn := some now }).Safe (Sends J)
      (fun _ s' => Kept J s' ∧ GrowsBut id s s' ∧ s'.repeats = s.repeats ∧
        At s' id (.claimed { stored with processedOn := some now } a expiry)) E s := by
  obtain ⟨own, key, _⟩ := StoredEntry.named_of_decode read
  have stamped : At _ id (.claimed { stored with processedOn := some now } a expiry) :=
    at_setEntry claimed (own.trans (claimed.ownId rfl)) (key.trans (claimed.ownKey rfl rfl))
  unfold saveEntry
  refine .send (kept.sends fun _ _ h => by cases h)
    (.done ⟨kept.move preserved (.stamp claimed read), ?_⟩)
  exact ⟨growsBut_of_same fun ne => same_setEntry ne _, rfl, stamped⟩

/-- What becomes of an entry whose claim is won: it is handed out as claimed now if it does not repeat. -/
theorem safe_handOut (preserved : Preserved rules now request G J) (kept : Kept J s)
    (claimed : At s id (.claimed e a expiry)) (read : decodeEntry (entryText e) = .ok stored) :
    (handOut rules now id stored a).Safe (Sends J)
      (fun out s' => Kept J s' ∧ GrowsBut id s s' ∧
        (stored.repeats = none → out = some { stored with processedOn := some now }))
      (Stuck rules now J) s := by
  have repeats := (StoredEntry.named_of_decode read).2.2
  unfold handOut
  dsimp only
  split
  · refine (safe_saveEntry preserved kept claimed read).bind ?_
    rintro ⟨⟩ s₁ ⟨kept₁, grows₁, _, _⟩
    exact .done ⟨kept₁, grows₁, fun _ => rfl⟩
  · next spec spec? =>
    refine (safe_loadRecord kept _ fun _ _ h unread => ⟨kept, .record h unread⟩).bind ?_
    rintro record s ⟨rfl, loaded⟩
    split
    · -- The fire came back, and its record has moved on.
      have drop : Move rules now request G s (s.dropClaimed id) :=
        .skip claimed (repeats.symm.trans spec?)
      refine (safe_release preserved kept claimed drop).discard.bind ?_
      rintro _ s' ⟨kept', grows⟩
      exact .done ⟨kept', grows, fun none => by cases none.symm.trans spec?⟩
    · refine (safe_saveEntry preserved kept claimed read).bind ?_
      rintro ⟨⟩ s₁ ⟨kept₁, grows₁, records, claimed₁⟩
      have loaded₁ (r : RepeatRecord) (h : record = some r) : Stored s₁ r := by
        rw [Stored, records]
        exact (loaded r h).1
      refine (safe_advanceChain preserved kept₁ loaded₁).bind ?_
      rintro ⟨⟩ s₂ ⟨kept₂, grows₂⟩
      have claimed₂ := grows₂ id _ (fun h => by cases h) claimed₁
      have grows := grows₁.trans (grows₂.but id)
      split
      · refine (safe_keyIsActive kept₂).bind ?_
        rintro blocked _ rfl
        split
        · -- Another fire of the key is at work.
          have drop : Move rules now request G _ (Keyspace.dropClaimed _ id) := .skip claimed₂ spec?
          refine (safe_release preserved kept₂ claimed₂ drop).discard.bind ?_
          rintro _ s' ⟨kept', grows'⟩
          exact .done ⟨kept', grows.trans grows', fun none => by cases none.symm.trans spec?⟩
        · exact .done ⟨kept₂, grows, fun _ => rfl⟩
      · exact .done ⟨kept₂, grows, fun _ => rfl⟩

/-- An entry that waits is claimed, and handed out if it does not repeat. -/
theorem safe_claimId (preserved : Preserved rules now request G J) (kept : Kept J s)
    (waits : At s id (.waiting e score)) (due : score ≤ now.millis) :
    (claimId rules now id).Safe (Sends J)
      (fun out s' => Kept J s' ∧ GrowsBut id s s' ∧ HandsOut now s id out.toList)
      (Stuck rules now J) s := by
  have entry : s.entries.get? id = some (entryText e) := waits.entry
  unfold claimId
  refine .askThen (kept.sends fun _ _ h => by cases h) ?_
  rw [Command.outcome, Keyspace.hash, entry]
  dsimp only
  refine .ofExceptThen (fun _ unread => ⟨kept, .entry entry unread⟩) fun stored read => ?_
  refine .ofExceptThen (fun _ late => ⟨kept, .lease late⟩) fun expiry inTime => ?_
  have key : e.key = stored.key := (StoredEntry.named_of_decode read).2.1.symm
  have claimed := at_addClaim (a := ⟨stored.key, now.millis⟩) waits key expiry
  have kept₁ := kept.move preserved (.claim waits due read inTime)
  have grows₁ : GrowsBut id s _ := growsBut_of_same fun ne =>
    same_addClaim ne (ActiveClaim.mk stored.key now.millis).text expiry
  refine .askThen (kept.sends fun _ _ h => by cases h) ?_
  rw [Command.outcome, if_pos (Table.contains_iff.mpr ⟨score, waits.score⟩)]
  dsimp only
  rw [if_pos rfl]
  refine (safe_handOut preserved kept₁ claimed read).weaken ?_
  rintro out s' ⟨kept', grows', single⟩
  refine ⟨kept', grows₁.trans grows', fun e' score' stored' waits' read' plain => ?_⟩
  have text : entryText e = entryText e' := Option.some.inj (entry.symm.trans waits'.entry)
  rw [← text, read] at read'
  obtain rfl := Except.ok.inj read'
  rw [single plain]
  exact List.mem_singleton_self _

/-- Every entry that is due is claimed, one after the other. -/
theorem safe_claimEach (preserved : Preserved rules now request G J) {ids : List String}
    (kept : Kept J s) (nodup : ids.Nodup) (due : ∀ id ∈ ids, Due now s id) :
    (claimEach rules now ids).Safe (Sends J)
      (fun out s' => Kept J s' ∧ ∀ id ∈ ids, HandsOut now s id out) (Stuck rules now J) s := by
  induction ids generalizing s with
  | nil => exact .done ⟨kept, fun _ mem => by cases mem⟩
  | cons id ids ih =>
    obtain ⟨absent, nodup⟩ := List.nodup_cons.mp nodup
    obtain ⟨e, score, first, past⟩ := due id List.mem_cons_self
    have other {k} (mem : k ∈ ids) : k ≠ id := fun h => absent (h ▸ mem)
    rw [claimEach]
    refine (safe_claimId preserved kept first past).bind ?_
    rintro one s₁ ⟨kept₁, grows, hands⟩
    have due₁ (k : String) (mem : k ∈ ids) : Due now s₁ k :=
      (due k (List.mem_cons_of_mem _ mem)).grows grows (other mem)
    have all {out : List StoredEntry} (rest : ∀ k ∈ ids, HandsOut now s₁ k out) :
        ∀ k ∈ id :: ids, HandsOut now s k (one.toList ++ out) := by
      intro k mem
      rcases List.mem_cons.mp mem with rfl | mem
      · exact hands.mono fun _ => List.mem_append_left _
      · exact ((rest k mem).before grows (other mem)).mono fun _ => List.mem_append_right _
    cases one with
    | none =>
      refine (ih kept₁ nodup due₁).weaken ?_
      rintro out s' ⟨kept', rest⟩
      exact ⟨kept', all rest⟩
    | some e =>
      refine (ih kept₁ nodup due₁).bind ?_
      rintro out s' ⟨kept', rest⟩
      exact .done ⟨kept', all rest⟩

/-- Everything that waits has an entry. -/
theorem Consistent.length_upTo_le (h : Consistent s) (now : Int) :
    (s.delayed.upTo now).length ≤ s.entries.size := by
  have sub : s.delayed.upTo now ⊆ s.entries.keys := by
    intro id mem
    obtain ⟨score, hs, _⟩ := SortedSet.mem_upTo.mp mem
    obtain ⟨c, hc⟩ := h.cell id
    obtain ⟨e, score, rfl⟩ := hc.waiting_of_delayed (Table.contains_iff.mpr ⟨score, hs⟩)
    exact Table.mem_keys_iff.mpr (Table.contains_iff.mpr ⟨_, hc.entry⟩)
  have := (SortedSet.nodup_upTo s.delayed now).length_le_of_subset sub
  rwa [Table.keys, List.length_map] at this

theorem entries_foldl_giveUp (ids : List String) (now : Int) (s : Keyspace) :
    (ids.foldl (·.giveUp now) s).entries = s.entries := by
  induction ids generalizing s with
  | nil => rfl
  | cons i ids ih => exact ih _

/-- What waits and is due is handed out, if the number of entries is within the limit. -/
theorem safe_claimWaiting (preserved : Preserved rules now request G J) (kept : Kept J s) (limit : Nat) :
    (ask (.upTo .delayed now.millis limit) >>= claimEach rules now).Safe (Sends J)
      (fun out s' => Kept J s' ∧ (s.entries.size ≤ limit → ∀ id e score, At s id (.waiting e score) →
        score ≤ now.millis → HandsOut now s id out))
      (Stuck rules now J) s := by
  have few := kept.consistent.length_upTo_le now.millis
  refine .askThen (kept.sends fun _ _ h => by cases h) ?_
  rw [Command.outcome, Keyspace.sortedSet]
  dsimp only
  refine (safe_claimEach preserved kept ?_ ?_).weaken ?_
  · exact (SortedSet.nodup_upTo _ _).sublist (List.take_sublist _ _)
  · exact fun id mem => kept.consistent.due (List.mem_of_mem_take mem)
  · rintro out s' ⟨kept', all⟩
    refine ⟨kept', fun enough id e score waits due => all id ?_⟩
    rw [List.take_of_length_le (Nat.le_trans few enough)]
    exact SortedSet.mem_upTo.mpr ⟨score, waits.score, due⟩

/-- What waits once late claims are given up is handed out, if the number of entries is within the limit. -/
theorem safe_claimDue (preserved : Preserved rules now request G J) (kept : Kept J s) (limit : Nat) :
    (claimDue rules now limit).Safe (Sends J)
      (fun out s' => Kept J s' ∧ (s.entries.size ≤ limit → ∀ id c e score, At s id c →
        c.recovered now.millis = .waiting e score → score ≤ now.millis → ∀ stored,
        decodeEntry (entryText e) = .ok stored → stored.repeats = none →
        { stored with processedOn := some now } ∈ out))
      (Stuck rules now J) s := by
  have kept₁ := kept.move preserved .recover
  unfold claimDue
  refine Safe.bind (Q := fun _ s' => s' = (s.leases.upTo now.millis).foldl (·.giveUp now.millis) s)
    (Safe.discard (.send (kept.sends fun _ _ h => by cases h) (.done rfl))) ?_
  rintro ⟨⟩ _ rfl
  refine (safe_claimWaiting preserved kept₁ limit).weaken ?_
  rintro out s' ⟨kept', all⟩
  refine ⟨kept', fun enough id c e score hc recovered due stored read plain => ?_⟩
  have waits := at_recover hc now.millis
  rw [recovered] at waits
  rw [entries_foldl_giveUp] at all
  exact all enough id e score waits due e score stored waits read plain

end

end Timetable.SharedQueue
