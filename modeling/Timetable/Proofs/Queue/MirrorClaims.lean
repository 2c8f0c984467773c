import Timetable.Proofs.Queue.MirrorRequests

/-!
# Claims from mirrored queues

A shared queue claims an identifier first and looks at the entry then. Each identifier has the same turn that its entry
has in memory (`SharedQueue.takes_claimId`), although the shared queue gives up again what it should not hand out. It goes
through what is due in an order of its own, since entries that came back wait under the time at which they did. For fires
that were never claimed, that is the order of the queue in memory (`SharedQueue.reorder_due`), and no other order matters.
-/

namespace Timetable.SharedQueue

open LocalQueue (Turn fate movedOn Claimable)

variable {rules : ClaimRules} {now expiry : Instant} {q : LocalQueue} {s : Keyspace} {single : String → Prop}
  {e : StoredEntry} {r : RepeatRecord} {score : Int} {E : QueueError → Keyspace → Prop}

/-! ## Other claims -/

/-- Whether another entry of a key is at work is the same in both. -/
theorem mirrored_keyIsActive (h : Mirrors now q s) : (keyIsActive e).Safe Anything
    (fun found s' => found = (q.eraseEntry e.id).keyIsActive e.key ∧ s' = s) E s := by
  have claim {id text : String} (mem : (id, text) ∈ s.active.pairs) : ∃ f a, q.active.contains id = true ∧
      q.entries.get? id = some f ∧ decodeClaim text = .ok a ∧ a.key = f.key := by
    have there := Table.mem_pairs_iff.mp mem
    have active : q.active.contains id = true := by
      rw [← h.contains_active]
      exact Table.contains_iff.mpr ⟨text, there⟩
    obtain ⟨end_, lease⟩ := Table.contains_iff.mp active
    obtain ⟨f, stored⟩ := h.stored lease
    obtain ⟨claimed, _, time, _, cell⟩ := h.claimed stored lease
    obtain rfl := Option.some.inj (there.symm.trans cell.claim)
    exact ⟨f, _, active, stored, ActiveClaim.decode time.fitsWord, rfl⟩
  have reads : ∀ p ∈ s.active.pairs, ∃ a, decodeClaim p.2 = .ok a := fun ⟨id, text⟩ mem => by
    obtain ⟨_, a, _, _, read, _⟩ := claim mem
    exact ⟨a, read⟩
  obtain ⟨found, on, same⟩ := otherClaim_of_read (e := e) reads
  refine .askThen trivial ?_
  rw [Command.outcome, Keyspace.hash]
  dsimp only
  rw [on]
  refine .done ⟨?_, rfl⟩
  rw [Bool.eq_iff_iff, same, LocalQueue.keyIsActive_iff]
  constructor
  · rintro ⟨⟨id, text⟩, mem, other, a, read, key⟩
    obtain ⟨f, a', active, stored, read', key'⟩ := claim mem
    cases read.symm.trans read'
    refine ⟨id, f, active, ?_, key'.symm.trans key⟩
    rw [LocalQueue.eraseEntry, Table.get?_erase, if_neg (Ne.symm other), stored]
  · rintro ⟨id, f, active, stored, key⟩
    simp only [LocalQueue.eraseEntry, Table.get?_erase, Option.ite_none_left_eq_some] at stored
    obtain ⟨other, stored⟩ := stored
    obtain ⟨end_, lease⟩ := Table.contains_iff.mp active
    obtain ⟨claimed, _, time, _, cell⟩ := h.claimed stored lease
    exact ⟨(id, _), Table.mem_pairs_iff.mpr cell.claim, Ne.symm other, _, ActiveClaim.decode time.fitsWord, key⟩

/-! ## One entry -/

/-- What a turn of an entry answers and leaves. -/
def Taken (rules : ClaimRules) (now expiry : Instant) (q : LocalQueue) (e : StoredEntry) (out : Option StoredEntry)
    (s' : Keyspace) : Prop :=
  out = fate rules now q e ∧ ∃ q', Turn rules now expiry q e q' ∧ Mirrors now q' s'

/-- The record of a claimed entry moves on. -/
theorem mirrored_advanceChain {next : RepeatRecord} (h : Mirrors now q s) (waits : r.isCurrent e = true)
    (advanced : r.advance now = .ok next) :
    (advanceChain now (some r) e).Safe Anything (fun _ s' => Mirrors now (q.putRecord next) s') E s := by
  unfold advanceChain
  dsimp only
  rw [if_pos waits, advanced]
  exact safe_put h next

/-- The claim of an entry that waited is given up, and the entry goes with it. -/
theorem mirrored_release {a : ActiveClaim} {id : String} {end_ : Int} (held : At s id (.claimed e a end_)) :
    (discard (release id a) : Program Unit).Safe Anything (fun _ s' => s' = s.dropClaimed id) E s := by
  refine .discard (.send trivial (.done ?_))
  rw [Command.outcome, if_pos (show s.active.get? id = some a.text from held.claim)]

/-- An entry that does not repeat is handed out. -/
theorem taken_single (h : Mirrors now q s) (time : now.Storable) (whole : expiry.Whole) (due : e.fireAt ≤ now)
    (waits : At s e.id (.waiting e score)) (plain : e.repeats = none) :
    Taken rules now expiry q e (some { e with processedOn := some now })
      { s.addClaim e.id (ActiveClaim.mk e.key now.millis).text expiry.millis with
        entries := s.entries.set e.id (entryText { e with processedOn := some now }) } := by
  have handed : fate rules now q e = some { e with processedOn := some now } := by simp [fate, plain]
  have still : movedOn now q e = none := by simp [movedOn, StoredEntry.isFresh, plain]
  refine ⟨handed.symm, _, ?_, h.hold rfl due time waits whole⟩
  refine .of_hold (p := q) handed (fun _ => ?_) rfl fun f => ?_
  · rw [still, Option.bind_none, Option.filter_none, Option.or_none]
  · rw [still, Option.filter_none, Option.none_or]

/-- A fire that was left behind is dropped. -/
theorem taken_left {spec : RepeatSpec} (h : Mirrors now q s) (free : q.active.contains e.id = false)
    (waits : At s e.id (.waiting e score)) (repeats : e.repeats = some spec) (claimed : e.processedOn.isSome) :
    Taken rules now expiry q e none
      ((s.addClaim e.id (ActiveClaim.mk e.key now.millis).text expiry.millis).dropClaimed e.id) := by
  have dropped : fate rules now q e = none := by simp [fate, repeats, claimed]
  have still : movedOn now q e = none := by
    obtain ⟨p, claimed⟩ := Option.isSome_iff_exists.mp claimed
    simp [movedOn, StoredEntry.isFresh, claimed]
  refine ⟨dropped.symm, q.eraseEntry e.id, ?_, h.dropWon free waits rfl _⟩
  refine .of_drop dropped free (by simp [LocalQueue.eraseEntry]) (fun ne => ?_) rfl fun f => ?_
  · simp [still, LocalQueue.eraseEntry, ne]
  · simp [still, LocalQueue.eraseEntry]

/-- The queue in memory, if the claim of an entry came before its record moves on. -/
def heldThenMoved (now expiry : Instant) (q : LocalQueue) (e : StoredEntry) (next : RepeatRecord) : LocalQueue :=
  (q.holdEntry { e with processedOn := some now } expiry).putRecord next

section

variable {next : RepeatRecord} {id : String}

theorem heldThenMoved_own (now expiry : Instant) (q : LocalQueue) (e : StoredEntry) (next : RepeatRecord) :
    (heldThenMoved now expiry q e next).entries.get? e.id = some { e with processedOn := some now } ∧
      (heldThenMoved now expiry q e next).active.get? e.id = some expiry := by
  rw [heldThenMoved, LocalQueue.putRecord_entries, LocalQueue.putRecord_active]
  simp [LocalQueue.holdEntry]

theorem heldThenMoved_entries (ne : e.id ≠ id) : (heldThenMoved now expiry q e next).entries.get? id =
    (q.entries.get? id).or (next.currentInstance.filter (·.id == id)) := by
  rw [heldThenMoved, LocalQueue.putRecord_entries]
  simp [LocalQueue.holdEntry, ne]

theorem heldThenMoved_active (ne : e.id ≠ id) :
    (heldThenMoved now expiry q e next).active.get? id = q.active.get? id := by
  rw [heldThenMoved, LocalQueue.putRecord_active]
  simp [LocalQueue.holdEntry, ne]

theorem heldThenMoved_repeats (f : String) : (heldThenMoved now expiry q e next).repeats.get? f =
    ((some next).filter (·.field == f)).or (q.repeats.get? f) := by
  rw [heldThenMoved, LocalQueue.putRecord_repeats]
  by_cases field : next.field = f <;> simp [field, LocalQueue.holdEntry, Option.filter_some]

/-- The other entries at work stay the same. -/
theorem heldThenMoved_keyIsActive (h : Mirrors now q s) (key : String) :
    ((heldThenMoved now expiry q e next).eraseEntry e.id).keyIsActive key = (q.eraseEntry e.id).keyIsActive key := by
  refine LocalQueue.keyIsActive_congr fun id f _ => ?_
  by_cases own : e.id = id
  · simp [LocalQueue.eraseEntry, own]
  have active : (heldThenMoved now expiry q e next).active.contains id = q.active.contains id := by
    rw [Table.contains, heldThenMoved_active own, Table.contains]
  simp only [LocalQueue.eraseEntry, Table.get?_erase, if_neg own, active]
  refine and_congr_right fun held => ?_
  obtain ⟨end_, lease⟩ := Table.contains_iff.mp held
  obtain ⟨f', stored⟩ := h.stored lease
  rw [heldThenMoved_entries own, stored, Option.some_or]

/-- A fire that its record waited for is handed out. -/
theorem taken_current (handed : fate rules now q e = some { e with processedOn := some now })
    (moved : movedOn now q e = some next) (h : Mirrors now (heldThenMoved now expiry q e next) s) :
    Taken rules now expiry q e (some { e with processedOn := some now }) s := by
  obtain ⟨entry, lease⟩ := heldThenMoved_own now expiry q e next
  refine ⟨handed.symm, _, ?_, h⟩
  refine ⟨?_, ?_, fun ne => ?_, heldThenMoved_active, fun f => ?_⟩
  · rw [entry, handed]
  · rw [lease, handed, Option.map_some]
  · rw [heldThenMoved_entries ne, moved, Option.bind_some]
  · rw [heldThenMoved_repeats, moved]

/-- The claim is still the one that was won. -/
theorem at_current (h : Mirrors now (heldThenMoved now expiry q e next) s) :
    At s e.id (.claimed { e with processedOn := some now } ⟨e.key, now.millis⟩ expiry.millis) := by
  obtain ⟨entry, lease⟩ := heldThenMoved_own now expiry q e next
  obtain ⟨_, ⟨⟩, _, _, held⟩ := h.claimed entry lease
  exact held

/-- A fire that its record waited for is dropped again if another entry of its key is at work. -/
theorem taken_blocked (dropped : fate rules now q e = none) (moved : movedOn now q e = some next)
    (h : Mirrors now (heldThenMoved now expiry q e next) s) :
    Taken rules now expiry q e none (s.dropClaimed e.id) := by
  refine ⟨dropped.symm, _, ?_, h.dropHeld (at_current h)⟩
  refine ⟨by simp [dropped], by simp [dropped], fun ne => ?_, fun ne => ?_, fun f => ?_⟩
  · rw [Table.get?_erase, if_neg ne, heldThenMoved_entries ne, moved, Option.bind_some]
  · rw [Table.get?_erase, if_neg ne, heldThenMoved_active ne]
  · rw [heldThenMoved_repeats, moved]

end

/-- What becomes of an entry whose claim is won. -/
theorem takes_handOut (h : Mirrors now q s) (sound : q.Sound now) (exactly : q.Exact single) (time : now.Storable)
    (inTime : rules.InTime now expiry) (whole : expiry.Whole) (stored : q.entries.get? e.id = some e)
    (free : q.active.contains e.id = false) (due : e.fireAt ≤ now) (waits : At s e.id (.waiting e score)) :
    (handOut rules now e.id e ⟨e.key, now.millis⟩).Safe Anything (Taken rules now expiry q e) E
      (s.addClaim e.id (ActiveClaim.mk e.key now.millis).text expiry.millis) := by
  have won := at_addClaim (a := ⟨e.key, now.millis⟩) waits rfl expiry.millis
  unfold handOut
  dsimp only
  split
  · next plain => exact .send trivial (.done (taken_single h time whole due waits plain))
  · next spec repeats =>
    refine (safe_load (s := s.addClaim _ _ _) h.record exactly (repeatField e.key spec)).bind ?_
    rintro record _ ⟨rfl, rfl⟩
    cases sound.standing stored with
    | single plain => cases plain.symm.trans repeats
    | @left spec' repeats' claimed left =>
      cases repeats.symm.trans repeats'
      -- the fire came back, and its record has moved on
      rw [if_pos left]
      refine (mirrored_release won).bind ?_
      rintro _ _ rfl
      exact .done (taken_left h free waits repeats claimed)
    | @current spec' r repeats' fresh hr next own =>
      cases repeats.symm.trans repeats'
      have current : r.isCurrent e = true := by simp [RepeatRecord.isCurrent, next]
      obtain ⟨next, advanced⟩ := inTime.advance (sound.usable hr)
      have moved : movedOn now q e = some next := by
        simp [movedOn, StoredEntry.isFresh, repeats, fresh, hr, advanced, Except.toOption]
      rw [hr, if_neg (by simp [isSuperseded, current])]
      -- the claim is stored before the record moves on
      refine .send trivial ?_
      refine (mirrored_advanceChain (h.hold rfl due time waits whole) current advanced).bind ?_
      rintro _ s₁ (h₁ : Mirrors now (heldThenMoved now expiry q e next) s₁)
      by_cases skip : rules.overlap = .skip
      · rw [if_pos skip]
        refine (mirrored_keyIsActive h₁).bind ?_
        rintro blocked _ ⟨found, rfl⟩
        rw [heldThenMoved_keyIsActive h] at found
        cases blocked with
        | true =>
          rw [if_pos rfl]
          refine (mirrored_release (at_current h₁)).bind ?_
          rintro _ _ rfl
          refine .done (taken_blocked ?_ moved h₁)
          simp [fate, repeats, skip, ← found]
        | false =>
          rw [if_neg Bool.false_ne_true]
          refine .done (taken_current ?_ moved h₁)
          simp [fate, fresh, ← found]
      · rw [if_neg skip]
        refine .done (taken_current ?_ moved h₁)
        simp [fate, fresh, skip]

/-- An identifier that is due has the turn of its entry. -/
theorem takes_claimId (h : Mirrors now q s) (sound : q.Sound now) (exactly : q.Exact single) (time : now.Storable)
    (inTime : rules.InTime now expiry) (whole : expiry.Whole) (stored : q.entries.get? e.id = some e)
    (free : q.active.contains e.id = false) (due : e.fireAt ≤ now) :
    (claimId rules now e.id).Safe Anything (Taken rules now expiry q e) E s := by
  obtain ⟨score, waits, _⟩ := h.waits stored free
  unfold claimId leaseExpiry
  refine .askThen trivial ?_
  rw [Command.outcome, Keyspace.hash, h.entry, stored]
  dsimp only [Option.map_some]
  rw [(exactly.entry stored).1.decode, inTime.lease]
  refine .send trivial ?_
  rw [Command.outcome, if_pos (Table.contains_iff.mpr ⟨score, waits.score⟩)]
  exact takes_handOut h sound exactly time inTime whole stored free due waits

/-! ## All entries that are due -/

/-- Identifiers under which something is stored are those of entries. -/
theorem entries_of_ids {ids : List String} (stored : ∀ id ∈ ids, ∃ e, q.entries.get? id = some e ∧ e.id = id) :
    ∃ es : List StoredEntry, es.map (·.id) = ids ∧ ∀ e ∈ es, q.entries.get? e.id = some e := by
  induction ids with
  | nil => exact ⟨[], rfl, nofun⟩
  | cons id ids ih =>
    obtain ⟨e, found, own⟩ := stored id List.mem_cons_self
    obtain ⟨es, named, all⟩ := ih fun id mem => stored id (List.mem_cons_of_mem _ mem)
    refine ⟨e :: es, by rw [List.map_cons, own, named], fun f mem => ?_⟩
    rcases List.mem_cons.mp mem with rfl | mem
    · rw [own, found]
    · exact all f mem

/-- What waits up to now is what is due. -/
theorem mem_upTo_iff (h : Mirrors now q s) (clock : now.Whole) (exactly : q.Exact single) {id : String} :
    id ∈ s.delayed.upTo now.millis ↔ ∃ e, q.entries.get? id = some e ∧ q.active.contains id = false ∧ e.fireAt ≤ now := by
  rw [SortedSet.mem_upTo]
  constructor
  · rintro ⟨score, listed, past⟩
    have there := h.contains_delayed id
    rw [Table.contains_iff.mpr ⟨score, listed⟩, eq_comm, Bool.and_eq_true, Bool.not_eq_true'] at there
    obtain ⟨e, stored⟩ := Table.contains_iff.mp there.1
    obtain ⟨score', waits, fresh | back⟩ := h.waits stored there.2
    · obtain rfl : score = score' := Option.some.inj (listed.symm.trans waits.score)
      rw [fresh.2] at past
      exact ⟨e, stored, there.2, ((exactly.entry stored).1.fires.millis_le_millis clock).mp past⟩
    · exact ⟨e, stored, there.2, back.2.1⟩
  · rintro ⟨e, stored, free, due⟩
    obtain ⟨score, waits, fresh | back⟩ := h.waits stored free
    · refine ⟨score, waits.score, ?_⟩
      rw [fresh.2]
      exact ((exactly.entry stored).1.fires.millis_le_millis clock).mpr due
    · refine ⟨score, waits.score, ?_⟩
      have since := ((Instant.whole_ofMillis score).millis_le_millis clock).mpr back.2.2
      rwa [Instant.millis_ofMillis] at since

/-- A fire that was never claimed waits under its time. -/
theorem score_of_fresh (h : Mirrors now q s) (stored : q.entries.get? e.id = some e)
    (free : q.active.contains e.id = false) (fresh : e.isFresh = true) : s.delayed.get? e.id = some e.fireAt.millis := by
  have never : e.processedOn = none := Option.isNone_iff_eq_none.mp (Bool.and_eq_true_iff.mp fresh).2
  obtain ⟨score, waits, since | since⟩ := h.waits stored free
  · rw [waits.score, since.2]
    rfl
  · rw [never] at since
    cases since.1

theorem firesBefore_of_listed {f : StoredEntry} (he : e.fireAt.Whole) (hf : f.fireAt.Whole)
    (listed : SortedSet.listedBefore (e.id, e.fireAt.millis) (f.id, f.fireAt.millis) = true) :
    LocalQueue.firesBefore e f = true := by
  rw [SortedSet.listedBefore_iff, Prod.Lex.toLex_le_toLex] at listed
  rw [LocalQueue.firesBefore_iff, Prod.Lex.toLex_le_toLex]
  rcases listed with earlier | ⟨same, before⟩
  · refine .inl (lt_of_not_ge fun later => ?_)
    exact absurd ((hf.millis_le_millis he).mpr later) (not_le.mpr earlier)
  · exact .inr ⟨Instant.eq_of_millis_eq he hf same, before⟩

/-- What waits is listed in the order in which it is due, apart from what was claimed before. -/
theorem reorder_due (h : Mirrors now q s) (clock : now.Whole) (sound : q.Sound now) (exactly : q.Exact single) :
    ∃ es : List StoredEntry, es.map (·.id) = s.delayed.upTo now.millis ∧ Reorder (q.due now) es := by
  have due {id : String} : id ∈ s.delayed.upTo now.millis ↔ _ := mem_upTo_iff h clock exactly
  obtain ⟨es, named, stored⟩ : ∃ es : List StoredEntry, es.map (·.id) = s.delayed.upTo now.millis ∧
      ∀ e ∈ es, q.entries.get? e.id = some e :=
    entries_of_ids fun id mem => by
      obtain ⟨e, stored, _⟩ := due.mp mem
      exact ⟨e, stored, sound.ownId stored⟩
  have nodup : es.Nodup := .of_map (·.id) (named ▸ s.delayed.nodup_upTo now.millis)
  have nodup' : (q.due now).Nodup := .of_map (·.id) sound.named.nodup_due
  -- what is due is what waits up to now, so both list the same entries
  have perm : (q.due now).Perm es := by
    refine (List.perm_ext_iff_of_nodup nodup' nodup).mpr fun e => ?_
    rw [sound.named.mem_due]
    constructor
    · rintro ⟨found, free, past⟩
      have mem : e.id ∈ es.map (·.id) := named ▸ due.mpr ⟨e, found, free, past⟩
      obtain ⟨f, mem, same⟩ := List.mem_map.mp mem
      have found' := stored f mem
      rw [same, found] at found'
      cases found'
      exact mem
    · intro mem
      have listed : e.id ∈ s.delayed.upTo now.millis := named ▸ List.mem_map.mpr ⟨e, mem, rfl⟩
      obtain ⟨f, found, free, past⟩ := due.mp listed
      cases (stored e mem).symm.trans found
      exact ⟨found, free, past⟩
  refine ⟨es, named, .of_perm perm ?_⟩
  -- both list what is fresh by fire time and identifier
  have sorted : (es.filter (·.isFresh)).Pairwise fun a b => LocalQueue.firesBefore a b = true := by
    have listed := s.delayed.pairwise_upTo now.millis
    rw [← named, List.pairwise_map] at listed
    refine (listed.filter _).imp_of_mem fun {a b} ha hb before => ?_
    have score {e : StoredEntry} (mem : e ∈ es.filter (·.isFresh)) :
        s.delayed.get? e.id = some e.fireAt.millis ∧ e.fireAt.Whole := by
      obtain ⟨mem, fresh⟩ := List.mem_filter.mp mem
      obtain ⟨found, free, _⟩ := sound.named.mem_due.mp (perm.mem_iff.mpr mem)
      exact ⟨score_of_fresh h found free fresh, (exactly.entry found).1.fires⟩
    exact firesBefore_of_listed (score ha).2 (score hb).2 (before _ _ (score ha).1 (score hb).1)
  refine (perm.filter _).eq_of_pairwise ?_ ((q.pairwise_due now).filter _) sorted
  intro a b ha hb before after
  rw [LocalQueue.firesBefore_iff] at before after
  obtain ⟨_, same⟩ := Prod.mk.inj (toLex.injective (le_antisymm before after))
  have found := stored a (perm.mem_iff.mp (List.mem_filter.mp ha).1)
  rw [same, stored b (List.mem_filter.mp hb).1] at found
  exact (Option.some.inj found).symm

/-- Identifiers that are claimed one after the other have the turns of their entries. -/
theorem mirrored_claimEach {es : List StoredEntry} (h : Mirrors now q s) (sound : q.Sound now) (exactly : q.Exact single)
    (time : now.Storable) (clock : now.Whole) (inTime : rules.InTime now expiry) (whole : expiry.Whole)
    (claimable : Claimable now q es) : (claimEach rules now (es.map (·.id))).Safe Anything
      (fun out s' => ∃ q', (LocalQueue.claimAll rules now es).on q = (.ok out, q') ∧ Mirrors now q' s') E s := by
  -- the first entry has its turn in both, which leaves the others due
  induction es generalizing q s with
  | nil => exact .done ⟨q, rfl, h⟩
  | cons e es ih =>
    obtain ⟨stored, free, due⟩ := claimable.due e List.mem_cons_self
    obtain ⟨q₁, first, turn, sound₁, claimable₁⟩ := claimable.head sound inTime
    have exactly₁ := exactly.turn stored time clock turn
    rw [List.map_cons, claimEach]
    refine (takes_claimId h sound exactly time inTime whole stored free due).bind ?_
    rintro one s₁ ⟨rfl, q₁', turn', h₁'⟩
    have h₁ : Mirrors now q₁ s₁ := h₁'.alike ((LocalQueue.Alike.refl q).turn turn' turn)
    have rest := ih h₁ sound₁ exactly₁ claimable₁
    cases handed : fate rules now q e with
    | none =>
      rw [handed] at first
      refine rest.weaken ?_
      rintro out s' ⟨q', on, h'⟩
      exact ⟨q', LocalQueue.claimAll_cons first on, h'⟩
    | some claimed =>
      rw [handed] at first
      refine rest.bind ?_
      rintro out s' ⟨q', on, h'⟩
      exact .done ⟨q', LocalQueue.claimAll_cons first on, h'⟩

theorem agree_claimDue {limit : Nat} (h : Mirrors now q s) (sound : q.Sound now) (exactly : q.Exact single)
    (time : now.Storable) (clock : now.Whole) (inTime : rules.InTime now expiry) (whole : expiry.Whole)
    (enough : q.entries.size ≤ limit) : Agree now List.Perm
      (LocalQueue.claimDue rules now limit) (claimDue rules now limit) q s := by
  have h₁ := h.recover clock
  have exactly₁ := exactly.recover now
  have claimable := exactly₁.claimable sound.recover
  obtain ⟨es, named, reorder⟩ := reorder_due h₁ clock sound.recover exactly₁
  obtain ⟨out, out', q₂, q₃, on, on', perm, alike⟩ := LocalQueue.claimAll_reorder inTime reorder sound.recover claimable
  have alone : (LocalQueue.claimDue rules now limit).on q = (.ok out, q₂) := (LocalQueue.claimDue_on_all enough).trans on
  have few : es.length ≤ limit := by
    rw [← reorder.perm.length_eq]
    exact (LocalQueue.length_due_le now (q.recover now)).trans enough
  unfold Agree claimDue
  refine .send trivial (.send trivial ?_)
  rw [Command.outcome, Keyspace.sortedSet]
  dsimp only
  rw [Command.outcome]
  dsimp only
  rw [← named, List.take_of_length_le ((List.length_map _).trans_le few)]
  refine (mirrored_claimEach h₁ sound.recover exactly₁ time clock inTime whole (claimable.perm reorder.perm)).weaken ?_
  rintro out'' s' ⟨q', on'', h'⟩
  cases on'.symm.trans on''
  exact ⟨out, q₂, alone, perm, h'.alike alike.symm⟩

end Timetable.SharedQueue
