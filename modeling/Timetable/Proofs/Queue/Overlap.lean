import Timetable.Proofs.Queue.Reorder
import Timetable.Proofs.Queue.Tidy

/-!
# Overlapping fires

A claim goes through what is due and takes up one entry after the other, until it has handed out enough
(`LocalQueue.TakesUp`). A fire that it takes up is dropped if its chain has left it behind or, under
`OverlapPolicy.skip`, if another entry of its key is claimed by then (`LocalQueue.Barred`); otherwise it is handed out.

* `LocalQueue.Taken`: what one turn does to a tidy queue;
* `LocalQueue.fires_of_run`: what becomes of every fire that a claim takes up in a state of a run, and that the fires
  at work have different keys under `OverlapPolicy.skip`;
* `LocalQueue.fires_break_off`: what the calendar's end and milliseconds beyond a signed word can lead to.
-/

namespace Timetable.LocalQueue

variable {rules : ClaimRules} {now : Instant} {q q' p : LocalQueue} {e : StoredEntry} {r : RepeatRecord}
  {id f key : String} {spec : RepeatSpec} {limit : Nat}

/-! ## What bars a fire -/

/-- The record of a fire's chain. -/
def recordOf (q : LocalQueue) (e : StoredEntry) : Option RepeatRecord :=
  e.repeats.bind fun spec => q.repeats.get? (repeatField e.key spec)

/-- Whether another entry of the key is claimed. -/
def Overlaps (q : LocalQueue) (e : StoredEntry) : Prop :=
  ∃ other, q.entries.get? other.id = some other ∧ q.active.contains other.id = true ∧ other.key = e.key ∧
    other.id ≠ e.id

/-- Whether a due fire is dropped. -/
def Barred (rules : ClaimRules) (q : LocalQueue) (e : StoredEntry) : Prop :=
  isSuperseded (q.recordOf e) e = true ∨ rules.overlap = .skip ∧ q.Overlaps e

/-- The fires that are claimed have different keys. -/
def OneFire (q : LocalQueue) : Prop :=
  ∀ a b, q.entries.get? a.id = some a → q.entries.get? b.id = some b → q.active.contains a.id = true →
    q.active.contains b.id = true → a.repeats.isSome → b.repeats.isSome → a.key = b.key → a = b

/-- Whether all milliseconds that are repeated fit a signed word. -/
def Countable (q : LocalQueue) : Prop := ∀ f r, q.repeats.get? f = some r → r.spec.Countable

theorem Countable.same (h : q.Countable) (same : q.SameChains q') : q'.Countable := fun f r' hr' => by
  have chain := same f
  rw [hr', Option.map_some, eq_comm, Option.map_eq_some_iff] at chain
  obtain ⟨r, hr, chain⟩ := chain
  rw [← (RepeatRecord.chain_eq_iff.mp chain).2.1]
  exact h f r hr

/-- A fire that a record waits for that has moved on at that time. -/
def Renewed (now : Instant) (q : LocalQueue) (e : StoredEntry) : Prop :=
  ∃ f r, q.repeats.get? f = some r ∧ r.advance now = .ok r ∧ r.currentInstance = some e

/-- Records are as they were, or have moved on at that time. -/
def MovesOn (now : Instant) (q q' : LocalQueue) : Prop :=
  ∀ f r, q.repeats.get? f = some r →
    q'.repeats.get? f = some r ∨ ∃ next, r.advance now = .ok next ∧ q'.repeats.get? f = some next

theorem MovesOn.refl (now : Instant) (q : LocalQueue) : MovesOn now q q := fun _ _ hr => .inl hr

/-- What has moved on stays where it is. -/
theorem MovesOn.settled (h : MovesOn now q q') (hr : q.repeats.get? f = some r) (settled : r.advance now = .ok r) :
    q'.repeats.get? f = some r := by
  rcases h f r hr with same | ⟨next, advanced, there⟩
  · exact same
  · obtain rfl : r = next := Except.ok.inj (settled.symm.trans advanced)
    exact there

theorem MovesOn.trans (h : MovesOn now q p) (h' : MovesOn now p q') : MovesOn now q q' := by
  intro f r hr
  rcases h f r hr with same | ⟨next, advanced, there⟩
  · exact h' f r same
  · exact .inr ⟨next, advanced, h'.settled there (RepeatRecord.advance_settles advanced)⟩

theorem Renewed.movesOn (h : q.Renewed now e) (moves : MovesOn now q q') : q'.Renewed now e := by
  obtain ⟨f, r, hr, settled, current⟩ := h
  exact ⟨f, r, moves.settled hr settled, settled, current⟩

theorem OneFire.quiet (h : q.OneFire) (quiet : Quiet q q') : q'.OneFire := by
  intro a b ha hb heldA heldB
  obtain ⟨heldA, sameA⟩ := quiet a.id heldA
  obtain ⟨heldB, sameB⟩ := quiet b.id heldB
  exact h a b (sameA ▸ ha) (sameB ▸ hb) heldA heldB

/-! ## One turn -/

/-- A due entry was taken out, and the record that waited for it has moved on. -/
structure TakenOut (now : Instant) (q : LocalQueue) (e : StoredEntry) (p : LocalQueue) : Prop where
  tidy : p.Tidy
  active : p.active = q.active
  entry : ∀ {id}, id ≠ e.id → q.entries.contains id = true → p.entries.get? id = q.entries.get? id
  moved : ∀ {r}, q.recordOf e = some r → r.isCurrent e = true →
    ∃ next, r.advance now = .ok next ∧ p.recordOf e = some next
  records : MovesOn now q p
  same : q.SameChains p
  /-- What is put in is what a record waits for that has moved on. -/
  renewed : ∀ {id e'}, p.entries.get? id = some e' → (q.eraseEntry e.id).entries.get? id = none → p.Renewed now e'

theorem TakenOut.still (h : q.Tidy) (free : q.active.contains e.id = false)
    (left : ∀ r, q.recordOf e = some r → r.isCurrent e = false) : TakenOut now q e (q.eraseEntry e.id) where
  tidy := h.eraseEntry free
  active := rfl
  entry ne _ := by simp [eraseEntry, ne.symm]
  moved hr current := by simp [left _ hr] at current
  records := .refl now q
  same := .refl q
  renewed there absent := by
    rw [absent] at there
    cases there

theorem TakenOut.advanced {next : RepeatRecord} (h : q.Tidy) (free : q.active.contains e.id = false)
    (hr : q.recordOf e = some r) (ha : r.advance now = .ok next) :
    TakenOut now q e ((q.eraseEntry e.id).putRecord next) := by
  obtain ⟨spec, repeats, hr'⟩ := Option.bind_eq_some_iff.mp hr
  obtain ⟨chain, fires⟩ := RepeatRecord.advance_eq_ok ha
  obtain ⟨hk, hs, _⟩ := RepeatRecord.chain_eq_iff.mp chain
  have found : next.spec.nextAfter now = .ok next.next := hs.symm ▸ fires
  have field : next.field = repeatField e.key spec := by
    rw [← h.ownField hr', RepeatRecord.field, hk, hs, RepeatRecord.field]
  have records (f : String) : ((q.eraseEntry e.id).putRecord next).repeats.get? f =
      if repeatField e.key spec = f then some next else q.repeats.get? f := by
    rw [putRecord_repeats, field]
    rfl
  refine {
    tidy := (h.eraseEntry free).putFound found
    active := putRecord_active _ next
    entry := fun {id} ne stored => ?entry
    moved := fun {r'} hr'' _ => ?moved
    records := fun f r' hr'' => ?records
    same := fun f => ?same
    renewed := fun {id e'} there absent => ?renewed }
  case entry =>
    obtain ⟨e', he⟩ := Table.contains_iff.mp stored
    rw [he]
    exact putRecord_entries_eq_some.mpr (.inl (by simp [eraseEntry, ne.symm, he]))
  case moved =>
    obtain rfl : r = r' := Option.some.inj (hr.symm.trans hr'')
    refine ⟨next, ha, ?_⟩
    rw [recordOf, repeats, Option.bind_some, records, if_pos rfl]
  case records =>
    by_cases own : repeatField e.key spec = f
    · subst own
      obtain rfl : r = r' := Option.some.inj (hr'.symm.trans hr'')
      exact .inr ⟨next, ha, by rw [records, if_pos rfl]⟩
    · exact .inl (by rw [records, if_neg own, hr''])
  case same =>
    rw [records]
    split
    · next own => rw [← own, hr', Option.map_some, Option.map_some, chain]
    · rfl
  case renewed =>
    rcases putRecord_entries_eq_some.mp there with before | ⟨_, t, waits, _, rfl⟩
    · rw [absent] at before
      cases before
    · refine ⟨repeatField e.key spec, next, by rw [records, if_pos rfl], RepeatRecord.advance_settles ha, ?_⟩
      rw [RepeatRecord.currentInstance, waits, Option.map_some]

namespace TakenOut

theorem settles (h : TakenOut now q e p) (tidy : q.Tidy) (free : q.active.contains e.id = false) : Settles q p := by
  refine ⟨h.tidy, fun id held => ?_⟩
  rw [h.active] at held
  exact ⟨held, h.entry (Table.ne_of_contains free held).symm (tidy.held held)⟩

/-- What was taken out no longer counts, and neither does what was put in. -/
theorem keyIsActive_iff_overlaps (h : TakenOut now q e p) (tidy : q.Tidy) (free : q.active.contains e.id = false) :
    p.keyIsActive e.key = true ↔ q.Overlaps e := by
  rw [keyIsActive_iff, h.active]
  constructor
  · rintro ⟨id, other, held, stored, key⟩
    have ne := (Table.ne_of_contains free held).symm
    rw [h.entry ne (tidy.held held)] at stored
    obtain rfl := tidy.ownId id other stored
    exact ⟨other, stored, held, key, ne⟩
  · rintro ⟨other, stored, held, key, ne⟩
    exact ⟨other.id, other, held, (h.entry ne (tidy.held held)).trans stored, key⟩

end TakenOut

theorem advanceChain_takesOut (h : q.Tidy) (free : q.active.contains e.id = false) :
    (advanceChain now (q.recordOf e) e).Ends (q.eraseEntry e.id) (fun _ p => TakenOut now q e p)
      fun _ p => Settles q p := by
  unfold advanceChain
  cases hr : q.recordOf e with
  | none => exact Act.ends_pure.mpr (.still h free fun r hr' => by rw [hr] at hr'; cases hr')
  | some r =>
    dsimp only
    split
    · next current =>
      cases ha : r.advance now with
      | ok next => exact Act.ends_modify.mpr (.advanced h free hr ha)
      | error error =>
        have erased := (h.eraseEntry free).eraseRecord r.field
        exact Act.ends_bind.mpr (Act.ends_modify.mpr (Act.ends_throw.mpr ⟨erased, Tidy.quiet_eraseEntry free⟩))
    · next other =>
      refine Act.ends_pure.mpr (.still h free fun r' hr' => ?_)
      obtain rfl : r = r' := Option.some.inj (hr.symm.trans hr')
      exact Bool.not_eq_true _ ▸ other

/-- What becomes of a due entry and its queue when a claim takes it up. -/
structure Taken (rules : ClaimRules) (now : Instant) (q : LocalQueue) (e : StoredEntry) (out : Option StoredEntry)
    (q' : LocalQueue) : Prop where
  tidy : q'.Tidy
  barred : e.repeats.isSome → (out = none ↔ Barred rules q e)
  handed : ∀ {c}, out = some c → c = { e with processedOn := some now } ∧ q'.entries.get? e.id = some c
  active : ∀ id, q'.active.contains id = true ↔ q.active.contains id = true ∨ out.isSome ∧ id = e.id
  entry : ∀ {id}, id ≠ e.id → q.entries.contains id = true → q'.entries.get? id = q.entries.get? id
  moved : ∀ {r}, q.recordOf e = some r → r.isCurrent e = true →
    ∃ next, r.advance now = .ok next ∧ q'.recordOf e = some next
  records : MovesOn now q q'
  same : q.SameChains q'
  renewed : ∀ {id e'}, q'.entries.get? id = some e' → (q.eraseEntry e.id).entries.get? id = none →
    (id = e.id → out = none) → q'.Renewed now e'

theorem TakenOut.dropped (h : TakenOut now q e p) (barred : e.repeats.isSome → Barred rules q e) :
    Taken rules now q e none p where
  tidy := h.tidy
  barred repeats := iff_of_true rfl (barred repeats)
  handed none := by cases none
  active id := by simp [h.active]
  entry := h.entry
  moved := h.moved
  records := h.records
  same := h.same
  renewed there absent _ := h.renewed there absent

theorem TakenOut.held (h : TakenOut now q e p) (tidy : q.Tidy) (stored : q.entries.get? e.id = some e)
    (free : e.repeats.isSome → ¬ Barred rules q e) (expiry : Instant) :
    Taken rules now q e (some { e with processedOn := some now })
      (p.holdEntry { e with processedOn := some now } expiry) where
  tidy := by
    have single := tidy.single stored
    have fire (spec : RepeatSpec) (repeats : e.repeats = some spec) := tidy.fire stored repeats
    exact h.tidy.holdEntry single fire
  barred repeats := iff_of_false (by simp) (free repeats)
  handed out := by
    cases out
    exact ⟨rfl, by simp [holdEntry]⟩
  active id := by
    simp only [holdEntry, Table.contains_set, h.active, Bool.or_eq_true, decide_eq_true_eq, Option.isSome_some, true_and]
    rw [or_comm, eq_comm (a := id)]
  entry ne stored := by simp [holdEntry, ne.symm, h.entry ne stored]
  moved := h.moved
  records := h.records
  same := h.same
  renewed {id e'} there absent other := by
    have ne : e.id ≠ id := fun own => by cases other own.symm
    simp only [holdEntry, Table.get?_set, if_neg ne] at there
    exact h.renewed there absent

theorem TakenOut.hold (h : TakenOut now q e p) (tidy : q.Tidy) (stored : q.entries.get? e.id = some e)
    (free : q.active.contains e.id = false) (open_ : e.repeats.isSome → ¬ Barred rules q e) :
    (do return some (← LocalQueue.hold rules now e)).Ends p (Taken rules now q e) fun _ q' => Settles q q' := by
  refine Act.ends_bind.mpr ?_
  unfold LocalQueue.hold
  cases now.add? rules.lease with
  | none => exact Act.ends_throw.mpr (h.settles tidy free)
  | some expiry =>
    exact Act.ends_bind.mpr (Act.ends_modify.mpr (Act.ends_pure.mpr (Act.ends_pure.mpr
      (h.held tidy stored open_ expiry))))

/-- A fire that is taken up is dropped if it is barred, and handed out otherwise. -/
theorem claimEntry_takes (h : q.Tidy) (stored : q.entries.get? e.id = some e)
    (free : q.active.contains e.id = false) :
    (claimEntry rules now e).Ends q (Taken rules now q e) fun _ q' => Settles q q' := by
  simp only [claimEntry, Act.ends_bind, Act.ends_modify]
  cases repeats : e.repeats with
  | none =>
    have still : TakenOut now q e (q.eraseEntry e.id) :=
      .still h free fun r hr => by simp [recordOf, repeats] at hr
    exact still.hold h stored free fun some => by simp [repeats] at some
  | some spec =>
    have record : (q.eraseEntry e.id).repeats.get? (repeatField e.key spec) = q.recordOf e := by
      rw [recordOf, repeats]
      rfl
    simp only [Act.ends_bind, Act.ends_get, record]
    split
    · next left =>
      have still : TakenOut now q e (q.eraseEntry e.id) := .still h free fun r hr => by
        simp only [isSuperseded, hr, Option.any_some, Bool.and_eq_true, Bool.not_eq_true'] at left
        exact left.2
      exact Act.ends_pure.mpr (still.dropped fun _ => .inl left)
    · next waited =>
      refine Act.ends_bind.mpr ((advanceChain_takesOut h free).mono (fun _ p out => ?_) fun _ _ settles => settles)
      have decided := out.keyIsActive_iff_overlaps h free
      simp only [Act.ends_bind, Act.ends_get]
      split
      · next overlaps => exact Act.ends_pure.mpr (out.dropped fun _ => .inr ⟨overlaps.1, decided.mp overlaps.2⟩)
      · next apart =>
        refine out.hold h stored free fun _ barred => barred.elim waited fun overlaps => ?_
        exact apart ⟨overlaps.1, decided.mpr overlaps.2⟩

theorem OneFire.taken {out : Option StoredEntry} (h : q.OneFire) (tidy : q.Tidy) (free : q.active.contains e.id = false)
    (skip : rules.overlap = .skip) (taken : Taken rules now q e out q') : q'.OneFire := by
  -- what was claimed before is stored as it was, and the entry is claimed only if its key was free
  have before {a : StoredEntry} (stored : q'.entries.get? a.id = some a) (held : q.active.contains a.id = true) :
      q.entries.get? a.id = some a :=
    (taken.entry (Table.ne_of_contains free held).symm (tidy.held held)).symm.trans stored
  have alone {a b : StoredEntry} (ha : q'.entries.get? a.id = some a) (hb : q'.entries.get? b.id = some b)
      (old : q.active.contains a.id = true) (new : out.isSome ∧ b.id = e.id) (fire : b.repeats.isSome)
      (keys : a.key = b.key) : False := by
    obtain ⟨⟨c, handed⟩, own⟩ := new.imp_left Option.isSome_iff_exists.mp
    obtain ⟨rfl, stored⟩ := taken.handed handed
    rw [own, stored, Option.some.injEq] at hb
    subst hb
    have barred : Barred rules q e :=
      .inr ⟨skip, a, before ha old, old, keys, (Table.ne_of_contains free old).symm⟩
    cases handed.symm.trans ((taken.barred fire).mpr barred)
  intro a b ha hb heldA heldB fireA fireB keys
  rcases (taken.active a.id).mp heldA with oldA | newA <;> rcases (taken.active b.id).mp heldB with oldB | newB
  · exact h a b (before ha oldA) (before hb oldB) oldA oldB fireA fireB keys
  · exact (alone ha hb oldA newB fireB keys).elim
  · exact (alone hb ha oldB newA fireA keys.symm).elim
  · rw [newA.2, ← newB.2, hb] at ha
    exact (Option.some.inj ha).symm

/-! ## A whole claim -/

/-- What going through some due entries does to a queue. -/
structure GoneThrough (now : Instant) (q : LocalQueue) (es : List StoredEntry) (out : List StoredEntry)
    (q' : LocalQueue) : Prop where
  tidy : q'.Tidy
  active : ∀ id, q'.active.contains id = true ↔ q.active.contains id = true ∨ id ∈ out.map (·.id)
  own : ∀ id ∈ out.map (·.id), id ∈ es.map (·.id)
  entry : ∀ {id}, id ∉ es.map (·.id) → q.entries.contains id = true → q'.entries.get? id = q.entries.get? id
  records : MovesOn now q q'
  same : q.SameChains q'
  renewed : ∀ {id e'}, q'.entries.get? id = some e' → q.entries.get? id = none → id ∉ es.map (·.id) → q'.Renewed now e'

theorem GoneThrough.refl (h : q.Tidy) (es : List StoredEntry) : GoneThrough now q es [] q where
  tidy := h
  active id := by simp
  own id mem := by simp at mem
  entry _ _ := rfl
  records := .refl now q
  same := .refl q
  renewed there absent _ := by
    rw [absent] at there
    cases there

theorem GoneThrough.cons {out : Option StoredEntry} {outs es : List StoredEntry} (first : Taken rules now q e out p)
    (rest : GoneThrough now p es outs q') : GoneThrough now q (e :: es) (out.toList ++ outs) q' where
  tidy := rest.tidy
  active id := by
    rw [rest.active, first.active, List.map_append, List.mem_append, or_assoc]
    cases out with
    | none => simp
    | some c => simp [(first.handed rfl).1]
  own id mem := by
    rw [List.map_append, List.mem_append] at mem
    rcases mem with mem | mem
    · cases out with
      | none => simp at mem
      | some c => simpa [(first.handed rfl).1] using .inl (by simpa [(first.handed rfl).1] using mem)
    · exact List.mem_cons_of_mem _ (rest.own id mem)
  entry other stored := by
    rw [List.map_cons, List.mem_cons, not_or] at other
    have kept := first.entry other.1 stored
    refine (rest.entry other.2 ?_).trans kept
    rwa [Table.contains, kept]
  records := first.records.trans rest.records
  same := first.same.trans rest.same
  renewed {id e'} there absent other := by
    rw [List.map_cons, List.mem_cons, not_or] at other
    cases between : p.entries.get? id with
    | none => exact rest.renewed there between other.2
    | some e'' =>
      have kept := rest.entry other.2 (Table.contains_iff.mpr ⟨e'', between⟩)
      obtain rfl : e' = e'' := Option.some.inj (there.symm.trans (kept.trans between))
      have unset : (q.eraseEntry e.id).entries.get? id = none := by simp [eraseEntry, absent]
      exact (first.renewed between unset fun own => absurd own other.1).movesOn rest.records

/-- What is stored and not claimed, each under its own identifier. -/
structure Takeable (q : LocalQueue) (es : List StoredEntry) : Prop where
  stored : ∀ e ∈ es, q.entries.get? e.id = some e ∧ q.active.contains e.id = false
  nodup : (es.map (·.id)).Nodup

theorem Takeable.rest {out : Option StoredEntry} {es : List StoredEntry} (h : q.Takeable (e :: es))
    (taken : Taken rules now q e out p) : p.Takeable es where
  stored e' mem := by
    obtain ⟨stored, free⟩ := h.stored e' (List.mem_cons_of_mem _ mem)
    have ne : e'.id ≠ e.id := fun same =>
      (List.nodup_cons.mp h.nodup).1 (List.mem_map.mpr ⟨e', mem, same⟩)
    refine ⟨(taken.entry ne (Table.contains_iff.mpr ⟨e', stored⟩)).trans stored, Bool.eq_false_iff.mpr fun held => ?_⟩
    rcases (taken.active e'.id).mp held with held | ⟨_, same⟩
    · exact Bool.false_ne_true (free.symm.trans held)
    · exact ne same
  nodup := (List.nodup_cons.mp h.nodup).2

theorem claimEach_goesThrough {es : List StoredEntry} (limit : Nat) (h : q.Tidy) (takeable : q.Takeable es) :
    (claimEach rules now es limit).Ends q
      (fun out q' => GoneThrough now q es out q' ∧ (rules.overlap = .skip → q.OneFire → q'.OneFire))
      fun _ q' => q'.Tidy ∧ (rules.overlap = .skip → q.OneFire → q'.OneFire) := by
  induction es generalizing q limit with
  | nil => exact Act.ends_pure.mpr ⟨.refl h [], fun _ one => one⟩
  | cons e es ih =>
    cases limit with
    | zero => exact Act.ends_pure.mpr ⟨.refl h _, fun _ one => one⟩
    | succ limit =>
      obtain ⟨stored, free⟩ := takeable.stored e List.mem_cons_self
      simp only [claimEach, Act.ends_bind]
      refine (claimEntry_takes h stored free).mono ?_ fun _ q' settles => ⟨settles.1, fun _ one => one.quiet settles.2⟩
      intro out p taken
      have one (skip : rules.overlap = .skip) (one : q.OneFire) : p.OneFire := one.taken h free skip taken
      cases out with
      | none =>
        refine (ih (limit + 1) taken.tidy (takeable.rest taken)).mono ?_ ?_
        · exact fun outs q' through => ⟨.cons taken through.1, fun skip => through.2 skip ∘ one skip⟩
        · exact fun _ q' failed => ⟨failed.1, fun skip => failed.2 skip ∘ one skip⟩
      | some c =>
        refine Act.ends_bind.mpr ((ih limit taken.tidy (takeable.rest taken)).mono ?_ ?_)
        · exact fun outs q' through =>
            Act.ends_pure.mpr ⟨.cons taken through.1, fun skip => through.2 skip ∘ one skip⟩
        · exact fun _ q' failed => ⟨failed.1, fun skip => failed.2 skip ∘ one skip⟩

theorem Tidy.takeable_due (h : q.Tidy) : q.Takeable (q.due now) where
  stored _ mem := have ⟨stored, free, _⟩ := h.ownId.mem_due.mp mem; ⟨stored, free⟩
  nodup := h.ownId.nodup_due

theorem Tidy.claimDue (h : q.Tidy) (limit : Nat) :
    ((claimDue rules now limit).on q).2.Tidy ∧
      (rules.overlap = .skip → q.OneFire → ((LocalQueue.claimDue rules now limit).on q).2.OneFire) := by
  obtain ⟨recovered, quiet⟩ : Settles q (q.recover now) := h.recover
  rw [claimDue_on]
  refine (Act.ends_iff_forall (P := fun q' : LocalQueue =>
    q'.Tidy ∧ (rules.overlap = .skip → q.OneFire → q'.OneFire))).mp ?_
  refine (claimEach_goesThrough limit recovered recovered.takeable_due).mono ?_ ?_
  · exact fun _ _ through => ⟨through.1.tidy, fun skip one => through.2 skip (one.quiet quiet)⟩
  · exact fun _ _ failed => ⟨failed.1, fun skip one => failed.2 skip (one.quiet quiet)⟩

/-- Whatever is asked of the queue leaves it tidy, and keeps fires with one key from being at work together. -/
theorem ask_tidy (h : q.Tidy) (request : QueueRequest) :
    (((workQueue rules).ask now request).on q).2.Tidy ∧ (rules.overlap = .skip → q.OneFire →
      (((workQueue rules).ask now request).on q).2.OneFire) := by
  have settled {q' : LocalQueue} (settles : Settles q q') :
      q'.Tidy ∧ (rules.overlap = .skip → q.OneFire → q'.OneFire) :=
    ⟨settles.1, fun _ one => one.quiet settles.2⟩
  cases request with
  | addRepeating key spec payload => exact settled (h.addRepeating payload)
  | addDelayed key delay payload => exact settled (h.addDelayed delay payload)
  | removeRepeating key spec => exact settled h.removeRepeating
  | removeDelayed key => exact settled h.removeDelayed
  | claimDue limit => exact h.claimDue limit
  | renewLease e => exact settled h.renewLease
  | recoverStalled => exact settled h.recover
  | finish e => exact settled h.finish
  | listRepeating => exact settled ⟨h, .refl q⟩
  | listEntries states => exact settled ⟨h, .refl q⟩
  | getEntry key => exact settled ⟨h, .refl q⟩
  | size => exact settled ⟨h, .refl q⟩

theorem tidy_of_run {may : WorkQueue.Rule LocalQueue} {t₀ t : Instant} (run : (workQueue rules).Run may t₀ {} t q) :
    q.Tidy ∧ (rules.overlap = .skip → q.OneFire) := by
  have start : ({} : LocalQueue).OneFire := by intro a b ha; simp at ha
  induction run with
  | start => exact ⟨.empty, fun _ => start⟩
  | step _ _ ih =>
    obtain ⟨tidy, one⟩ := ih
    exact ⟨(ask_tidy tidy _).1, fun skip => (ask_tidy tidy _).2 skip (one skip)⟩

/-! ## Every fire that is taken up -/

theorem claimEach_append_eq_ok {front back claimed : List StoredEntry} :
    (claimEach rules now (front ++ back) limit).on q = (.ok claimed, q') ↔ ∃ handed p later,
      (claimEach rules now front limit).on q = (.ok handed, p) ∧
      (claimEach rules now back (limit - handed.length)).on p = (.ok later, q') ∧ claimed = handed ++ later := by
  induction front generalizing q limit claimed with
  | nil => simp [claimEach]
  | cons e es ih =>
    cases limit with
    | zero => cases back <;> simp [claimEach, eq_comm, and_comm]
    | succ limit =>
      simp only [List.cons_append, claimEach, Act.on_bind_eq_ok]
      constructor
      · rintro ⟨out, q₁, one, rest⟩
        cases out with
        | none =>
          obtain ⟨handed, p, later, first, last, rfl⟩ := ih.mp rest
          exact ⟨handed, p, later, ⟨none, q₁, one, first⟩, last, rfl⟩
        | some c =>
          obtain ⟨outs, q₂, rest, done⟩ := Act.on_bind_eq_ok.mp rest
          cases done
          obtain ⟨handed, p, later, first, last, rfl⟩ := ih.mp rest
          refine ⟨c :: handed, p, later, ⟨some c, q₁, one, Act.on_bind_eq_ok.mpr ⟨handed, p, first, rfl⟩⟩, ?_, rfl⟩
          rwa [List.length_cons, Nat.add_sub_add_right]
      · rintro ⟨handed, p, later, ⟨out, q₁, one, first⟩, last, rfl⟩
        refine ⟨out, q₁, one, ?_⟩
        cases out with
        | none => exact ih.mpr ⟨handed, p, later, first, last, rfl⟩
        | some c =>
          obtain ⟨outs, q₂, first, done⟩ := Act.on_bind_eq_ok.mp first
          cases done
          rw [List.length_cons, Nat.add_sub_add_right] at last
          exact Act.on_bind_eq_ok.mpr ⟨outs ++ later, q', ih.mpr ⟨outs, p, later, first, last, rfl⟩, rfl⟩

/-- A claim takes up an entry in some state: it went through what is due before, and has handed out less than it may. -/
def TakesUp (rules : ClaimRules) (now : Instant) (limit : Nat) (q : LocalQueue) (handed : List StoredEntry)
    (e : StoredEntry) (p : LocalQueue) : Prop :=
  ∃ front back, (q.recover now).due now = front ++ e :: back ∧
    (claimEach rules now front limit).on (q.recover now) = (.ok handed, p) ∧ handed.length < limit

/-- What a claim that took up a fire in a state `p` makes of it. -/
structure Outcome (rules : ClaimRules) (now : Instant) (p : LocalQueue) (e : StoredEntry)
    (claimed : List StoredEntry) (q' : LocalQueue) : Prop where
  dropped : Barred rules p e ↔ ∀ c ∈ claimed, c.id ≠ e.id
  handed : ¬ Barred rules p e → { e with processedOn := some now } ∈ claimed ∧ q'.active.contains e.id = true
  /-- Milliseconds beyond a signed word can make a record wait for the same fire again. -/
  gone : Barred rules p e → q'.active.contains e.id = false ∧ ∀ e', q'.entries.get? e.id = some e' →
    ∃ r, q'.recordOf e = some r ∧ r.currentInstance = some e' ∧ ¬ r.spec.Countable
  /-- Dropped or not, it is past for the record that waited for it. -/
  moved : ∀ r, p.recordOf e = some r → r.isCurrent e = true →
    ∃ next, r.advance now = .ok next ∧ q'.recordOf e = some next ∧
      (r.spec.Countable → ∀ t, next.next = some t → now < t)

/-- What is put in under the identifier of a fire that is due repeats milliseconds beyond a signed word. -/
theorem Renewed.beyond_word {e' : StoredEntry} (h : q.Renewed now e') (tidy : q.Tidy)
    (stored : q.entries.get? e.id = some e')
    (fire : ∀ {spec}, e.repeats = some spec → spec.Colonless ∧ e.id = instanceId e.key spec e.fireAt ∧ e.fireAt.Whole)
    (repeats : e.repeats.isSome) (due : e.fireAt ≤ now) :
    ∃ r, q.recordOf e = some r ∧ r.currentInstance = some e' ∧ ¬ r.spec.Countable := by
  obtain ⟨f, r, hr, settled, current⟩ := h
  obtain ⟨spec, repeats⟩ := Option.isSome_iff_exists.mp repeats
  obtain ⟨colonless, own, whole⟩ := fire repeats
  obtain ⟨t, waits, made⟩ := Option.map_eq_some_iff.mp current
  have ids : instanceId e.key spec e.fireAt = instanceId r.key r.spec t := by
    rw [← own, ← tidy.ownId e.id e' stored, ← made]
    rfl
  obtain ⟨keys, specs, millis⟩ := instanceId_inj colonless (tidy.parsed hr).colonless ids
  have same : e.fireAt = t := Instant.eq_of_millis_eq whole (tidy.whole hr waits) millis
  have field : repeatField e.key spec = f := by rw [keys, specs, ← tidy.ownField hr, RepeatRecord.field]
  refine ⟨r, by rw [recordOf, repeats, Option.bind_some, field, hr], current, fun countable => ?_⟩
  have usable : r.spec.Usable := (tidy.parsed hr).usable countable
  have fires : r.spec.nextAfter now = .ok (some t) := waits ▸ (RepeatRecord.advance_eq_ok settled).2
  exact absurd due (not_le.mpr (same ▸ (RepeatSpec.nextAfter_spec usable fires).1))

section

variable {handed claimed : List StoredEntry}

theorem GoneThrough.takeable {front back : List StoredEntry} (through : GoneThrough now q front handed p)
    (all : q.Takeable (front ++ back)) : p.Takeable back where
  stored e mem := by
    have nodup := List.map_append ▸ all.nodup
    have other : e.id ∉ front.map (·.id) := fun front =>
      (List.nodup_append.mp nodup).2.2 _ front _ (List.mem_map_of_mem mem) rfl
    obtain ⟨stored, free⟩ := all.stored e (List.mem_append_right _ mem)
    refine ⟨(through.entry other (Table.contains_iff.mpr ⟨e, stored⟩)).trans stored, Bool.eq_false_iff.mpr fun held => ?_⟩
    rcases (through.active e.id).mp held with held | mine
    · exact Bool.false_ne_true (free.symm.trans held)
    · exact other (through.own _ mine)
  nodup := (List.nodup_append.mp (List.map_append ▸ all.nodup)).2.1

/-- Where a claim takes up an entry, all that is due before was gone through, and the rest is still there. -/
theorem TakesUp.through (takes : TakesUp rules now limit q handed e p) (h : q.Tidy) :
    ∃ front back, (q.recover now).due now = front ++ e :: back ∧
      (claimEach rules now front limit).on (q.recover now) = (.ok handed, p) ∧ handed.length < limit ∧
      GoneThrough now (q.recover now) front handed p ∧ p.Takeable (e :: back) := by
  obtain ⟨front, back, due, first, more⟩ := takes
  have recovered : (q.recover now).Tidy := h.recover.1
  have all : (q.recover now).Takeable (front ++ e :: back) := due ▸ recovered.takeable_due
  have takeable : (q.recover now).Takeable front :=
    ⟨fun e' mem => all.stored e' (List.mem_append_left _ mem), (List.nodup_append.mp (List.map_append ▸ all.nodup)).1⟩
  have through : (claimEach rules now front limit).Ends (q.recover now) _ _ :=
    claimEach_goesThrough limit recovered takeable
  rw [Act.ends_of_on_ok first] at through
  exact ⟨front, back, due, first, more, through.1, through.1.takeable all⟩

/-- What is claimed when an entry is taken up was handed out before by the same call, or had a lease that still runs. -/
theorem TakesUp.active_iff (takes : TakesUp rules now limit q handed e p) (h : q.Tidy) :
    p.active.contains id = true ↔
      id ∈ handed.map (·.id) ∨ ∃ expiry, q.active.get? id = some expiry ∧ now < expiry := by
  obtain ⟨front, back, _, _, _, through, _⟩ := takes.through h
  rw [through.active, or_comm]
  simp only [recover, Table.contains_iff, Table.get?_filter, Option.filter_eq_some_iff, Bool.not_eq_true',
    decide_eq_false_iff_not, not_le]

/-- The turn of an entry within a claim, and what comes after it. -/
structure Turned (rules : ClaimRules) (now : Instant) (p : LocalQueue) (e : StoredEntry) (claimed : List StoredEntry)
    (q' : LocalQueue) (handed back : List StoredEntry) (out : Option StoredEntry) (outs : List StoredEntry)
    (q₁ : LocalQueue) : Prop where
  all : claimed = handed ++ (out.toList ++ outs)
  taken : Taken rules now p e out q₁
  behind : GoneThrough now q₁ back outs q'
  tidy : p.Tidy
  takeable : p.Takeable (e :: back)
  due : ∀ e' ∈ e :: back, e'.fireAt ≤ now
  before : e.id ∉ handed.map (·.id)

theorem TakesUp.turned (takes : TakesUp rules now limit q handed e p) (h : q.Tidy)
    (on : (claimDue rules now limit).on q = (.ok claimed, q')) :
    ∃ back out outs q₁, Turned rules now p e claimed q' handed back out outs q₁ := by
  obtain ⟨front, back, due, first, more, through, takeable⟩ := takes.through h
  obtain ⟨stored, free⟩ := takeable.stored e List.mem_cons_self
  have recovered : (q.recover now).Tidy := h.recover.1
  have past (e' : StoredEntry) (mem : e' ∈ e :: back) : e'.fireAt ≤ now := by
    have mem : e' ∈ (q.recover now).due now := due ▸ List.mem_append_right front mem
    exact (recovered.ownId.mem_due.mp mem).2.2
  have before : e.id ∉ handed.map (·.id) := fun mem => by
    rw [(through.active e.id).mpr (.inr mem)] at free
    cases free
  rw [claimDue_on, due, claimEach_append_eq_ok] at on
  obtain ⟨_, _, later, first', rest, rfl⟩ := on
  cases first.symm.trans first'
  obtain ⟨n, room⟩ : ∃ n, limit - handed.length = n + 1 := ⟨limit - handed.length - 1, by omega⟩
  rw [room, claimEach, Act.on_bind_eq_ok] at rest
  obtain ⟨out, q₁, one, rest⟩ := rest
  have taken : (claimEntry rules now e).Ends p (Taken rules now p e) _ := claimEntry_takes through.tidy stored free
  rw [Act.ends_of_on_ok one] at taken
  have after (limit : Nat) : (claimEach rules now back limit).Ends q₁ _ _ :=
    claimEach_goesThrough limit taken.tidy (takeable.rest taken)
  cases out with
  | none =>
    have behind := after (n + 1)
    rw [Act.ends_of_on_ok rest] at behind
    exact ⟨back, none, later, q₁, rfl, taken, behind.1, through.tidy, takeable, past, before⟩
  | some c =>
    obtain ⟨outs, q₂, rest, done⟩ := Act.on_bind_eq_ok.mp rest
    cases done
    have behind := after n
    rw [Act.ends_of_on_ok rest] at behind
    exact ⟨back, some c, outs, q₁, rfl, taken, behind.1, through.tidy, takeable, past, before⟩

/-- A fire that is taken up is dropped or handed out, and its record moves on. -/
theorem TakesUp.outcome (takes : TakesUp rules now limit q handed e p) (h : q.Tidy) (fire : e.repeats.isSome)
    (on : (claimDue rules now limit).on q = (.ok claimed, q')) : Outcome rules now p e claimed q' := by
  obtain ⟨back, out, outs, q₁, turned⟩ := takes.turned h on
  obtain ⟨rfl, taken, behind, tidy, takeable, due, before⟩ := turned
  obtain ⟨stored, free⟩ := takeable.stored e List.mem_cons_self
  have absent : e.id ∉ back.map (·.id) := (List.nodup_cons.mp takeable.nodup).1
  have after : e.id ∉ outs.map (·.id) := fun mem => absent (behind.own e.id mem)
  have others : ∀ c ∈ handed ++ outs, c.id ≠ e.id := fun c mem same => by
    have mem : e.id ∈ (handed ++ outs).map (·.id) := List.mem_map.mpr ⟨c, mem, same⟩
    rw [List.map_append, List.mem_append] at mem
    exact mem.elim before after
  have verdict := taken.barred fire
  have claimed : q'.active.contains e.id = true ↔ out.isSome := by
    rw [behind.active, taken.active]
    simp [free, after]
  constructor
  case dropped =>
    rw [← verdict]
    constructor
    · rintro rfl
      exact others
    · intro missing
      cases out with
      | none => rfl
      | some c =>
        obtain ⟨rfl, _⟩ := taken.handed rfl
        exact absurd rfl (missing { e with processedOn := some now } (by simp))
  case handed =>
    intro open_
    cases out with
    | none => exact absurd (verdict.mp rfl) open_
    | some c =>
      obtain ⟨rfl, _⟩ := taken.handed rfl
      exact ⟨by simp, claimed.mpr rfl⟩
  case gone =>
    intro barred
    obtain rfl := verdict.mpr barred
    refine ⟨Bool.eq_false_iff.mpr fun held => by simpa using claimed.mp held, fun e' there => ?_⟩
    have erased : (p.eraseEntry e.id).entries.get? e.id = none := by simp [eraseEntry]
    have renewed : q'.Renewed now e' := by
      cases between : q₁.entries.get? e.id with
      | none => exact behind.renewed there between absent
      | some e'' =>
        have kept := behind.entry absent (Table.contains_iff.mpr ⟨e'', between⟩)
        obtain rfl : e' = e'' := Option.some.inj (there.symm.trans (kept.trans between))
        exact (taken.renewed between erased fun _ => rfl).movesOn behind.records
    exact renewed.beyond_word behind.tidy there (tidy.fire stored) fire (due e List.mem_cons_self)
  case moved =>
    intro r record current
    obtain ⟨next, advanced, record'⟩ := taken.moved record current
    obtain ⟨spec, repeats, hr⟩ := Option.bind_eq_some_iff.mp record
    have settled := RepeatRecord.advance_settles advanced
    refine ⟨next, advanced, ?_, fun countable t waits => ?_⟩
    · rw [recordOf, repeats, Option.bind_some] at record' ⊢
      exact behind.records.settled record' settled
    · have usable : r.spec.Usable := (tidy.parsed hr).usable countable
      exact (RepeatSpec.nextAfter_spec usable (waits ▸ (RepeatRecord.advance_eq_ok advanced).2)).1

/-- What is due is taken up, unless the limit is reached before. -/
theorem takesUp_of_due (on : (claimDue rules now limit).on q = (.ok claimed, q')) (due : e ∈ (q.recover now).due now) :
    (∃ handed p, TakesUp rules now limit q handed e p) ∨ limit ≤ claimed.length := by
  obtain ⟨front, back, split⟩ := List.append_of_mem due
  rw [claimDue_on, split, claimEach_append_eq_ok] at on
  obtain ⟨handed, p, later, first, _, rfl⟩ := on
  rcases Nat.lt_or_ge handed.length limit with more | full
  · exact .inl ⟨handed, p, front, back, split, first, more⟩
  · exact .inr (by rw [List.length_append]; omega)

/-! ## Coming to the end -/

theorem claimEntry_succeeds (h : q.Tidy) (due : e.fireAt ≤ now) (reach : rules.Reach now) :
    (claimEntry rules now e).Ends q (fun _ _ => True) fun _ _ => False := by
  obtain ⟨expiry, lease⟩ := Option.isSome_iff_exists.mp reach.1
  have held (p : LocalQueue) : (do return some (← hold rules now e)).Ends p (fun _ _ => True) fun _ _ => False := by
    refine Act.ends_bind.mpr ?_
    rw [hold, lease]
    exact Act.ends_bind.mpr (Act.ends_modify.mpr (Act.ends_pure.mpr (Act.ends_pure.mpr trivial)))
  have advanced (record : Option RepeatRecord) (stored : ∀ r, record = some r → ∃ f, q.repeats.get? f = some r) :
      (advanceChain now record e).Ends (q.eraseEntry e.id) (fun _ _ => True) fun _ _ => False := by
    unfold advanceChain
    cases record with
    | none => exact Act.ends_pure.mpr trivial
    | some r =>
      dsimp only
      split
      · next current =>
        obtain ⟨f, hr⟩ := stored r rfl
        have waits : r.next = some e.fireAt := by simpa [RepeatRecord.isCurrent] using current
        obtain ⟨next, fires⟩ := h.continues hr waits now due reach.2
        have moves : r.advance now = .ok { r with next } := by rw [RepeatRecord.advance, fires]
        rw [moves]
        exact Act.ends_modify.mpr trivial
      · exact Act.ends_pure.mpr trivial
  simp only [claimEntry, Act.ends_bind, Act.ends_modify]
  cases e.repeats with
  | none => exact held _
  | some spec =>
    simp only [Act.ends_bind, Act.ends_get]
    split
    · exact Act.ends_pure.mpr trivial
    · refine Act.ends_bind.mpr ((advanced _ fun r hr => ⟨_, hr⟩).mono (fun _ p _ => ?_) fun _ _ h => h)
      simp only [Act.ends_bind, Act.ends_get]
      split
      · exact Act.ends_pure.mpr trivial
      · exact held p

theorem claimEach_succeeds {es : List StoredEntry} (limit : Nat) (h : q.Tidy) (takeable : q.Takeable es)
    (due : ∀ e ∈ es, e.fireAt ≤ now) (reach : rules.Reach now) :
    (claimEach rules now es limit).Ends q (fun _ _ => True) fun _ _ => False := by
  induction es generalizing q limit with
  | nil => exact Act.ends_pure.mpr trivial
  | cons e es ih =>
    cases limit with
    | zero => exact Act.ends_pure.mpr trivial
    | succ limit =>
      obtain ⟨stored, free⟩ := takeable.stored e List.mem_cons_self
      have takes : (claimEntry rules now e).Ends q (Taken rules now q e) _ := claimEntry_takes h stored free
      have succeeds := claimEntry_succeeds h (due e List.mem_cons_self) reach
      refine Act.ends_bind.mpr ((takes.and succeeds).mono ?_ fun _ _ failed => failed.2)
      rintro out p ⟨taken, _⟩
      have rest (limit : Nat) :=
        ih limit taken.tidy (takeable.rest taken) fun e' mem => due e' (List.mem_cons_of_mem e mem)
      cases out with
      | none => exact rest (limit + 1)
      | some c => exact Act.ends_bind.mpr ((rest limit).mono (fun _ _ _ => Act.ends_pure.mpr trivial) fun _ _ h => h)

/-- A claim comes to its end as long as the calendar reaches the end of its lease and the next second. -/
theorem claimDue_succeeds (h : q.Tidy) (reach : rules.Reach now) (limit : Nat) :
    ∃ claimed q', (claimDue rules now limit).on q = (.ok claimed, q') := by
  have recovered : (q.recover now).Tidy := h.recover.1
  have takeable : (q.recover now).Takeable ((q.recover now).due now) := recovered.takeable_due
  have due (e : StoredEntry) (mem : e ∈ (q.recover now).due now) : e.fireAt ≤ now :=
    (recovered.ownId.mem_due.mp mem).2.2
  have ends := claimEach_succeeds limit recovered takeable due reach
  rw [claimDue_on]
  cases result : (claimEach rules now ((q.recover now).due now) limit).on (q.recover now) with
  | mk outcome q' =>
    cases outcome with
    | ok claimed => exact ⟨claimed, q', rfl⟩
    | error failure => exact (ends.2 failure (by rw [result])).elim

/-- In every state of a run the fires at work have different keys under `OverlapPolicy.skip`. A claim there comes to its
end if the calendar reaches the end of its lease and the next second, and takes up whatever is due until its limit is
reached. Of the fires that it takes up, the barred ones are dropped and the others handed out, and the records that waited
for them move on. -/
theorem fires_of_run {may : WorkQueue.Rule LocalQueue} {t₀ t : Instant} (run : (workQueue rules).Run may t₀ {} t q) :
    (rules.overlap = .skip → q.OneFire) ∧ ∀ now limit,
      (rules.Reach now → ∃ claimed q', (claimDue rules now limit).on q = (.ok claimed, q')) ∧
      ∀ claimed q', (claimDue rules now limit).on q = (.ok claimed, q') →
        (∀ e ∈ (q.recover now).due now,
          (∃ handed p, TakesUp rules now limit q handed e p) ∨ limit ≤ claimed.length) ∧
        ∀ handed e p, TakesUp rules now limit q handed e p → e.repeats.isSome →
          Outcome rules now p e claimed q' ∧ ∀ id, p.active.contains id = true ↔
            id ∈ handed.map (·.id) ∨ ∃ expiry, q.active.get? id = some expiry ∧ now < expiry := by
  obtain ⟨tidy, one⟩ := tidy_of_run run
  refine ⟨one, fun now limit => ⟨fun reach => claimDue_succeeds tidy reach limit, ?_⟩⟩
  intro claimed q' on
  refine ⟨fun e due => takesUp_of_due on due, fun handed e p takes fire => ⟨takes.outcome tidy fire on, fun id => ?_⟩⟩
  exact takes.active_iff tidy

end

/-! ## Two chains of one key -/

/-- What is claimed of two chains of one key that are both due: the fire of the other one is dropped, and both records
move on. -/
theorem second_fire_is_dropped :
    ∃ q claimed q' handed e p, (workQueue {}).Run (fun t _ now _ => t ≤ now) (Instant.ofMillis 0) {} (Instant.ofMillis 0) q ∧
      q.OneFire ∧ (claimDue {} (Instant.ofMillis 2000) 5).on q = (.ok claimed, q') ∧ claimed.length = 1 ∧
      TakesUp {} (Instant.ofMillis 2000) 5 q handed e p ∧ e.repeats = some (.every 2000) ∧
      (∀ c ∈ claimed, c.id ≠ e.id) ∧ Outcome {} (Instant.ofMillis 2000) p e claimed q' := by
  let first : QueueRequest := .addRepeating "a" (.every 1000) .null
  let second : QueueRequest := .addRepeating "a" (.every 2000) .null
  let q := (((workQueue {}).ask (Instant.ofMillis 0) second).on
    (((workQueue {}).ask (Instant.ofMillis 0) first).on {}).2).2
  have run : (workQueue {}).Run (fun t _ now _ => t ≤ now) (Instant.ofMillis 0) {} (Instant.ofMillis 0) q :=
    .step (.step .start (by decide)) (by decide)
  let fast : StoredEntry := .ofFire "a" (.every 1000) (Instant.ofMillis 1000) .null
  let slow : StoredEntry := .ofFire "a" (.every 2000) (Instant.ofMillis 2000) .null
  let handed : List StoredEntry := [{ fast with processedOn := some (Instant.ofMillis 2000) }]
  let p := ((claimEach {} (Instant.ofMillis 2000) [fast] 5).on (q.recover (Instant.ofMillis 2000))).2
  have due : (q.recover (Instant.ofMillis 2000)).due (Instant.ofMillis 2000) = [fast, slow] := by
    have all : (q.recover (Instant.ofMillis 2000)).entries.values.filter (fun e =>
      !(q.recover (Instant.ofMillis 2000)).active.contains e.id && decide (e.fireAt ≤ Instant.ofMillis 2000)) =
        [fast, slow] := by decide +kernel
    rw [LocalQueue.due, all]
    exact List.mergeSort_of_pairwise (by decide)
  have takes : TakesUp {} (Instant.ofMillis 2000) 5 q handed slow p := ⟨[fast], [], due, by decide +kernel, by decide⟩
  have on : (claimDue {} (Instant.ofMillis 2000) 5).on q = (.ok handed,
      ((claimEach {} (Instant.ofMillis 2000) [fast, slow] 5).on (q.recover (Instant.ofMillis 2000))).2) := by
    rw [claimDue_on, due]
    decide +kernel
  obtain ⟨one, claims⟩ := fires_of_run run
  obtain ⟨_, fates⟩ := (claims (Instant.ofMillis 2000) 5).2 _ _ on
  obtain ⟨outcome, _⟩ := fates handed slow p takes rfl
  refine ⟨q, handed, _, handed, slow, p, run, one rfl, on, rfl, takes, rfl, ?_, outcome⟩
  decide +kernel

/-- Neither can be left out: near the end of the calendar a claim breaks off instead of handing out a fire that nothing
bars, and a record that repeats milliseconds beyond a signed word waits for a fire that is past, which can be one that was
just dropped. -/
theorem fires_break_off :
    (∃ q handed e p, (workQueue {}).Run (fun t _ now _ => t ≤ now) ⟨8210266876680, 0⟩ {} ⟨8210266876680, 0⟩ q ∧
      TakesUp {} ⟨8210266876740, 0⟩ 5 q handed e p ∧ e.repeats.isSome ∧ ¬ Barred {} p e ∧
      ((claimDue {} ⟨8210266876740, 0⟩ 5).on q).1 = .error .outOfRange) ∧
    (∃ q claimed q' handed e p r next, (workQueue {}).Run (fun t _ now _ => t ≤ now) (Instant.ofMillis 1000) {}
        (Instant.ofMillis 1000) q ∧
      (claimDue {} (Instant.ofMillis 1000) 5).on q = (.ok claimed, q') ∧
      TakesUp {} (Instant.ofMillis 1000) 5 q handed e p ∧ p.recordOf e = some r ∧ r.isCurrent e = true ∧
      q'.recordOf e = some next ∧ next.next = some (Instant.ofMillis 999)) ∧
    ∃ q claimed q' handed e p, (workQueue {}).Run (fun t _ now _ => t ≤ now) (Instant.ofMillis 998) {}
        (Instant.ofMillis 1000) q ∧
      (claimDue {} (Instant.ofMillis 1000) 5).on q = (.ok claimed, q') ∧
      TakesUp {} (Instant.ofMillis 1000) 5 q handed e p ∧ e.repeats.isSome ∧ Barred {} p e ∧
      q'.entries.get? e.id = some e := by
  refine ⟨?_, ?_, ?_⟩
  · let request : QueueRequest := .addRepeating "a" (.every 1000) .null
    let q := (((workQueue {}).ask ⟨8210266876680, 0⟩ request).on {}).2
    let e : StoredEntry := .ofFire "a" (.every 1000) ⟨8210266876681, 0⟩ .null
    have idle : (q.recover ⟨8210266876740, 0⟩).active = .empty := by decide +kernel
    refine ⟨q, [], e, q.recover ⟨8210266876740, 0⟩, .step .start (le_refl _),
      ⟨[], [], by decide +kernel, rfl, by decide⟩, rfl, ?_, by decide +kernel⟩
    rintro (left | ⟨_, other, _, held, _⟩)
    · revert left
      decide +kernel
    · rw [idle] at held
      cases held
  · let request : QueueRequest := .addRepeating "a" (.every 18446744073709551615) .null
    let q := (((workQueue {}).ask (Instant.ofMillis 1000) request).on {}).2
    let spec : RepeatSpec := .every 18446744073709551615
    let e : StoredEntry := .ofFire "a" spec (Instant.ofMillis 999) .null
    let r : RepeatRecord := ⟨"a", spec, .null, some (Instant.ofMillis 999)⟩
    exact ⟨q, [{ e with processedOn := some (Instant.ofMillis 1000) }],
      ((claimDue {} (Instant.ofMillis 1000) 5).on q).2, [], e, q.recover (Instant.ofMillis 1000), r, r,
      .step .start (le_refl _), by decide +kernel, ⟨[], [], by decide +kernel, rfl, by decide⟩, by decide +kernel,
      by decide +kernel, by decide +kernel, rfl⟩
  · let once : QueueRequest := .addDelayed "a" 0 .null
    let spec : RepeatSpec := .every 18446744073709551615
    let again : QueueRequest := .addRepeating "a" spec .null
    let q := (((workQueue {}).ask (Instant.ofMillis 1000) again).on
      (((workQueue {}).ask (Instant.ofMillis 998) once).on {}).2).2
    have run : (workQueue {}).Run (fun t _ now _ => t ≤ now) (Instant.ofMillis 998) {} (Instant.ofMillis 1000) q :=
      .step (.step .start (le_refl _)) (by decide)
    let single : StoredEntry := .single "a" (Instant.ofMillis 998) .null
    let e : StoredEntry := .ofFire "a" spec (Instant.ofMillis 999) .null
    let held : StoredEntry := { single with processedOn := some (Instant.ofMillis 1000) }
    let p := ((claimEach {} (Instant.ofMillis 1000) [single] 5).on (q.recover (Instant.ofMillis 1000))).2
    have due : (q.recover (Instant.ofMillis 1000)).due (Instant.ofMillis 1000) = [single, e] := by
      have all : (q.recover (Instant.ofMillis 1000)).entries.values.filter (fun e =>
        !(q.recover (Instant.ofMillis 1000)).active.contains e.id && decide (e.fireAt ≤ Instant.ofMillis 1000)) =
          [single, e] := by decide +kernel
      rw [LocalQueue.due, all]
      exact List.mergeSort_of_pairwise (by decide)
    have on : (claimDue {} (Instant.ofMillis 1000) 5).on q = (.ok [held],
        ((claimEach {} (Instant.ofMillis 1000) [single, e] 5).on (q.recover (Instant.ofMillis 1000))).2) := by
      rw [claimDue_on, due]
      decide +kernel
    have takes : TakesUp {} (Instant.ofMillis 1000) 5 q [held] e p := ⟨[single], [], due, by decide +kernel, by decide⟩
    have overlaps : p.Overlaps e :=
      ⟨held, by decide +kernel, by decide +kernel, rfl, by decide +kernel⟩
    exact ⟨q, [held], _, [held], e, p, run, on, takes, rfl, .inr ⟨rfl, overlaps⟩, by decide +kernel⟩

end Timetable.LocalQueue
