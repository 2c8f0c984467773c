import Mathlib.Data.Prod.Lex
import Mathlib.Data.String.Basic
import Timetable.Proofs.Queue.Claims
import Timetable.Proofs.Table

/-!
# The order in which entries are claimed

What becomes of a due entry depends on little (`LocalQueue.fate`): an entry that does not repeat is handed out, a fire
that was left behind is dropped, and any other fire may be dropped while another entry of its key is at work. Only for
the latter, the *fresh* ones, does it matter which comes first. A queue whose claims go through what is due in an order
of its own hands out the same entries, as long as it takes fresh ones in the order of the queue in memory
(`LocalQueue.claimAll_reorder`).
-/

namespace Timetable

/-- A fire that was never claimed. -/
def StoredEntry.isFresh (e : StoredEntry) : Bool := e.repeats.isSome && e.processedOn.isNone

/-- Lists that differ in the order of their elements, but not of those that are fresh. -/
inductive Reorder : List StoredEntry → List StoredEntry → Prop
  | nil : Reorder [] []
  | cons (e : StoredEntry) {es es' : List StoredEntry} : Reorder es es' → Reorder (e :: es) (e :: es')
  | swap {a b : StoredEntry} (es : List StoredEntry) : a.isFresh = false ∨ b.isFresh = false →
    Reorder (a :: b :: es) (b :: a :: es)
  | trans {es es' es'' : List StoredEntry} : Reorder es es' → Reorder es' es'' → Reorder es es''

namespace Reorder

variable {e : StoredEntry} {es es' : List StoredEntry}

theorem perm (h : Reorder es es') : es.Perm es' := by
  induction h with
  | nil => exact .nil
  | cons e _ ih => exact ih.cons e
  | swap es _ => exact .swap _ _ es
  | trans _ _ ih ih' => exact ih.trans ih'

theorem refl (es : List StoredEntry) : Reorder es es := by
  induction es with
  | nil => exact .nil
  | cons e es ih => exact ih.cons e

/-- An element moves to the front, if it passes no fresh ones or is not fresh itself. -/
theorem to_front (front back : List StoredEntry) (h : e.isFresh = false ∨ front.filter (·.isFresh) = []) :
    Reorder (e :: (front ++ back)) (front ++ e :: back) := by
  induction front with
  | nil => exact refl _
  | cons a front ih =>
    have passes : (e.isFresh = false ∨ a.isFresh = false) ∧ (e.isFresh = false ∨ front.filter (·.isFresh) = []) := by
      rcases h with quiet | none
      · exact ⟨.inl quiet, .inl quiet⟩
      · rw [List.filter_eq_nil_iff] at none
        refine ⟨.inr (Bool.not_eq_true _ ▸ none a List.mem_cons_self), .inr ?_⟩
        exact List.filter_eq_nil_iff.mpr fun x mem => none x (List.mem_cons_of_mem _ mem)
    exact (swap _ passes.1).trans ((ih passes.2).cons a)

/-- The order of the fresh elements is all that matters. -/
theorem of_perm (h : es.Perm es') (fresh : es.filter (·.isFresh) = es'.filter (·.isFresh)) : Reorder es es' := by
  induction es generalizing es' with
  | nil =>
    obtain rfl := h.nil_eq
    exact .nil
  | cons e es ih =>
    obtain ⟨front, back, rfl, absent⟩ := List.eq_append_cons_of_mem (h.subset List.mem_cons_self)
    have rest : es.Perm (front ++ back) := (List.perm_cons e).mp (h.trans List.perm_middle)
    rw [List.filter_append] at fresh
    cases loud : e.isFresh with
    | false =>
      rw [List.filter_cons_of_neg (by simp [loud]), List.filter_cons_of_neg (by simp [loud]), ← List.filter_append] at fresh
      exact ((ih rest fresh).cons e).trans (to_front front back (.inl loud))
    | true =>
      rw [List.filter_cons_of_pos loud, List.filter_cons_of_pos loud] at fresh
      have none : front.filter (·.isFresh) = [] := by
        cases first : front.filter (·.isFresh) with
        | nil => rfl
        | cons a others =>
          rw [first, List.cons_append, List.cons.injEq] at fresh
          have mem : a ∈ front.filter (·.isFresh) := first ▸ List.mem_cons_self
          exact absurd (fresh.1 ▸ (List.mem_filter.mp mem).1) absent
      rw [none, List.nil_append, List.cons.injEq] at fresh
      have fresh' : es.filter (·.isFresh) = (front ++ back).filter (·.isFresh) := by
        rw [List.filter_append, none, List.nil_append]
        exact fresh.2
      exact ((ih rest fresh').cons e).trans (to_front front back (.inr none))

end Reorder

namespace ClaimRules

/-- The calendar reaches the end of a lease that starts now, and the next second. -/
structure InTime (rules : ClaimRules) (now expiry : Instant) : Prop where
  lease : now.add? rules.lease = some expiry
  second : (now.add? Instant.nanosPerSecond).isSome

theorem Reach.inTime {rules : ClaimRules} {now : Instant} (reach : rules.Reach now) : ∃ expiry, rules.InTime now expiry := by
  obtain ⟨expiry, lease⟩ := Option.isSome_iff_exists.mp reach.1
  exact ⟨expiry, lease, reach.2⟩

/-- Every record can move on. -/
theorem InTime.advance {rules : ClaimRules} {now expiry : Instant} (inTime : rules.InTime now expiry) {r : RepeatRecord}
    (usable : r.spec.Usable) : ∃ next, r.advance now = .ok next := by
  cases result : r.advance now with
  | ok next => exact ⟨next, rfl⟩
  | error failure => exact absurd inTime.second (RepeatRecord.advance_eq_error usable result).2

end ClaimRules

namespace LocalQueue

variable {rules : ClaimRules} {now expiry : Instant} {q q' q₁ q₂ : LocalQueue} {a b e : StoredEntry} {r : RepeatRecord}
  {id key : String}

/-- What is found in two queues is the same. -/
structure Alike (q q' : LocalQueue) : Prop where
  entry : ∀ id, q'.entries.get? id = q.entries.get? id
  lease : ∀ id, q'.active.get? id = q.active.get? id
  record : ∀ f, q'.repeats.get? f = q.repeats.get? f

theorem Alike.refl (q : LocalQueue) : Alike q q := ⟨fun _ => rfl, fun _ => rfl, fun _ => rfl⟩

theorem Alike.symm (h : Alike q q') : Alike q' q :=
  ⟨fun id => (h.entry id).symm, fun id => (h.lease id).symm, fun f => (h.record f).symm⟩

theorem Alike.trans (h : Alike q q') (h' : Alike q' q₁) : Alike q q₁ :=
  ⟨fun id => (h'.entry id).trans (h.entry id), fun id => (h'.lease id).trans (h.lease id),
    fun f => (h'.record f).trans (h.record f)⟩

/-! ## What becomes of an entry -/

/-- An entry as it is handed out, unless it is dropped. -/
def fate (rules : ClaimRules) (now : Instant) (q : LocalQueue) (e : StoredEntry) : Option StoredEntry :=
  if e.repeats.isSome ∧ (e.processedOn.isSome ∨ rules.overlap = .skip ∧ (q.eraseEntry e.id).keyIsActive e.key) then none
  else some { e with processedOn := some now }

/-- The record of a fresh entry, moved on. -/
def movedOn (now : Instant) (q : LocalQueue) (e : StoredEntry) : Option RepeatRecord :=
  if e.isFresh then do
    let spec ← e.repeats
    let r ← q.repeats.get? (repeatField e.key spec)
    (r.advance now).toOption
  else none

/-- What is found in a queue after an entry was claimed or dropped. -/
structure Turn (rules : ClaimRules) (now expiry : Instant) (q : LocalQueue) (e : StoredEntry) (q' : LocalQueue) : Prop where
  own : q'.entries.get? e.id = fate rules now q e
  lease : q'.active.get? e.id = (fate rules now q e).map fun _ => expiry
  /-- The next fire is put in. -/
  entry : ∀ {id}, e.id ≠ id → q'.entries.get? id =
    (q.entries.get? id).or (((movedOn now q e).bind (·.currentInstance)).filter (·.id == id))
  other : ∀ {id}, e.id ≠ id → q'.active.get? id = q.active.get? id
  record : ∀ f, q'.repeats.get? f = ((movedOn now q e).filter (·.field == f)).or (q.repeats.get? f)

theorem insertIfAbsent_entries (q : LocalQueue) (e : StoredEntry) (id : String) :
    (q.insertIfAbsent e).entries.get? id = (q.entries.get? id).or ((some e).filter (·.id == id)) := by
  ext f
  rw [insertIfAbsent_entries_eq_some, Option.or_eq_some_iff, Option.filter_eq_some_iff]
  simp only [Option.some.injEq, beq_iff_eq]
  refine or_congr_right (and_congr_right fun _ => ?_)
  constructor
  · rintro ⟨rfl, rfl⟩
    exact ⟨rfl, rfl⟩
  · rintro ⟨rfl, rfl⟩
    exact ⟨rfl, rfl⟩

theorem putRecord_entries (q : LocalQueue) (r : RepeatRecord) (id : String) :
    (q.putRecord r).entries.get? id = (q.entries.get? id).or (r.currentInstance.filter (·.id == id)) := by
  unfold putRecord insertCurrent
  cases r.currentInstance with
  | none => simp [setRecord]
  | some e => exact insertIfAbsent_entries q e id

theorem keyIsActive_iff : q.keyIsActive key = true ↔
    ∃ id f, q.active.contains id = true ∧ q.entries.get? id = some f ∧ f.key = key := by
  simp only [keyIsActive, List.any_eq_true, Option.any_eq_true, Table.mem_keys_iff, beq_iff_eq]
  exact exists_congr fun id => exists_and_left.symm

theorem Turn.of_hold {p : LocalQueue} (hf : fate rules now q e = some { e with processedOn := some now })
    (entry : ∀ {id}, e.id ≠ id → p.entries.get? id =
      (q.entries.get? id).or (((movedOn now q e).bind (·.currentInstance)).filter (·.id == id)))
    (active : p.active = q.active)
    (record : ∀ f, p.repeats.get? f = ((movedOn now q e).filter (·.field == f)).or (q.repeats.get? f)) :
    Turn rules now expiry q e (p.holdEntry { e with processedOn := some now } expiry) where
  own := by simp [holdEntry, hf]
  lease := by simp [holdEntry, hf]
  entry ne := by simp [holdEntry, ne, entry ne]
  other ne := by simp [holdEntry, ne, active]
  record f := record f

theorem Turn.of_drop {p : LocalQueue} (hf : fate rules now q e = none) (free : q.active.contains e.id = false)
    (own : p.entries.get? e.id = none)
    (entry : ∀ {id}, e.id ≠ id → p.entries.get? id =
      (q.entries.get? id).or (((movedOn now q e).bind (·.currentInstance)).filter (·.id == id)))
    (active : p.active = q.active)
    (record : ∀ f, p.repeats.get? f = ((movedOn now q e).filter (·.field == f)).or (q.repeats.get? f)) :
    Turn rules now expiry q e p where
  own := own.trans hf.symm
  lease := by rw [hf, active, Table.contains_eq_false_iff.mp free, Option.map_none]
  entry := entry
  other _ := by rw [active]
  record := record

/-- Only the keys of what is claimed matter. -/
theorem keyIsActive_congr (h : ∀ id f, f.key = key → (q'.active.contains id = true ∧ q'.entries.get? id = some f ↔
    q.active.contains id = true ∧ q.entries.get? id = some f)) : q'.keyIsActive key = q.keyIsActive key := by
  rw [Bool.eq_iff_iff, keyIsActive_iff, keyIsActive_iff]
  refine exists_congr fun id => exists_congr fun f => ?_
  rw [← and_assoc, ← and_assoc]
  exact and_congr_left (h id f)

theorem movedOn_eq_some {next : RepeatRecord} (h : movedOn now q e = some next) :
    ∃ f r, q.repeats.get? f = some r ∧ r.advance now = .ok next := by
  simp only [movedOn, Option.ite_none_right_eq_some, Option.bind_eq_bind, Option.bind_eq_some_iff] at h
  obtain ⟨_, spec, _, r, hr, advanced⟩ := h
  refine ⟨_, r, hr, ?_⟩
  cases result : r.advance now with
  | error failure => simp [result, Except.toOption] at advanced
  | ok next' => simpa [result, Except.toOption] using advanced

/-- The next fire of a chain is none of those that are due. -/
theorem Sound.newcomer_ne (sound : Sound now q) (made : a.WellMade) (due : a.fireAt ≤ now) {f : StoredEntry}
    (new : (movedOn now q e).bind (·.currentInstance) = some f) : f.id ≠ a.id := by
  obtain ⟨next, moved, fire⟩ := Option.bind_eq_some_iff.mp new
  obtain ⟨f, r, hr, advanced⟩ := movedOn_eq_some moved
  obtain ⟨t, ht, rfl⟩ := Option.map_eq_some_iff.mp fire
  obtain ⟨same, fires⟩ := RepeatRecord.advance_eq_ok advanced
  obtain ⟨_, spec, _⟩ := RepeatRecord.chain_eq_iff.mp same
  obtain ⟨later, firable⟩ := RepeatSpec.nextAfter_spec (sound.usable hr) (ht ▸ fires)
  intro ids
  obtain ⟨_, _, rfl⟩ := made.eq_of_instanceId (spec ▸ sound.usable hr) firable.whole ids.symm
  exact absurd due (not_le.mpr later)

theorem claimEntry_turn (sound : Sound now q) (stored : q.entries.get? e.id = some e)
    (free : q.active.contains e.id = false) (due : e.fireAt ≤ now) (inTime : rules.InTime now expiry) :
    ∃ q', (claimEntry rules now e).on q = (.ok (fate rules now q e), q') ∧ Turn rules now expiry q e q' := by
  cases sound.standing stored with
  | single repeats =>
    have handed : fate rules now q e = some { e with processedOn := some now } := by simp [fate, repeats]
    have still : movedOn now q e = none := by simp [movedOn, StoredEntry.isFresh, repeats]
    refine ⟨_, ?_, .of_hold (p := q.eraseEntry e.id) handed (fun ne => ?_) rfl fun f => ?_⟩
    · rw [claimEntry_single repeats, Act.on_map, hold_on, inTime.lease, handed]
      rfl
    · simp [still, eraseEntry, ne]
    · simp [still, eraseEntry]
  | left repeats claimed left =>
    have dropped : fate rules now q e = none := by simp [fate, repeats, claimed]
    have still : movedOn now q e = none := by
      obtain ⟨p, claimed⟩ := Option.isSome_iff_exists.mp claimed
      simp [movedOn, StoredEntry.isFresh, claimed]
    refine ⟨q.eraseEntry e.id, ?_, .of_drop dropped free (by simp [eraseEntry]) (fun ne => ?_) rfl fun f => ?_⟩
    · rw [claimEntry_superseded repeats left, dropped]
    · simp [still, eraseEntry, ne]
    · simp [still, eraseEntry]
  | @current spec r repeats fresh hr waits own =>
    obtain ⟨next, advanced⟩ := inTime.advance (sound.usable hr)
    have moved : movedOn now q e = some next := by
      simp [movedOn, StoredEntry.isFresh, repeats, fresh, hr, advanced, Except.toOption]
    let p := (q.eraseEntry e.id).putRecord next
    have active : p.active = q.active := putRecord_active _ next
    have entry {id : String} : p.entries.get? id =
        (if e.id = id then none else q.entries.get? id).or (next.currentInstance.filter (·.id == id)) := by
      rw [putRecord_entries, eraseEntry, Table.get?_erase]
    have other {id : String} (ne : e.id ≠ id) : p.entries.get? id =
        (q.entries.get? id).or (((movedOn now q e).bind (·.currentInstance)).filter (·.id == id)) := by
      rw [entry, if_neg ne, moved, Option.bind_some]
    have gone : p.entries.get? e.id = none := by
      rw [entry, if_pos rfl, Option.none_or, Option.filter_eq_none_iff]
      intro f fire
      have new : (movedOn now q e).bind (·.currentInstance) = some f := by rw [moved, Option.bind_some, fire]
      simp [sound.newcomer_ne (sound.made stored) due new]
    have record (f : String) : p.repeats.get? f = ((movedOn now q e).filter (·.field == f)).or (q.repeats.get? f) := by
      rw [putRecord_repeats, moved]
      by_cases field : next.field = f <;> simp [field, eraseEntry, Option.filter_some]
    have same : p.keyIsActive e.key = (q.eraseEntry e.id).keyIsActive e.key := by
      refine keyIsActive_congr fun id f _ => ?_
      rw [active]
      refine and_congr_right fun held => ?_
      obtain ⟨f', stored', _⟩ := sound.held held
      have ne : e.id ≠ id := Table.ne_of_contains free held
      rw [entry, if_neg ne, eraseEntry, Table.get?_erase, if_neg ne, stored', Option.some_or]
    rw [claimEntry_current repeats hr waits, advanced]
    by_cases blocked : rules.overlap = .skip ∧ p.keyIsActive e.key = true
    · have dropped : fate rules now q e = none := by
        rw [fate, if_pos]
        exact ⟨by simp [repeats], .inr (same ▸ blocked)⟩
      refine ⟨p, ?_, .of_drop dropped free gone other active record⟩
      exact (if_pos blocked).trans (by rw [dropped])
    · have handed : fate rules now q e = some { e with processedOn := some now } := by
        rw [fate, if_neg]
        rintro ⟨_, claimed | blocked'⟩
        · simp [fresh] at claimed
        · exact blocked (same ▸ blocked')
      refine ⟨_, ?_, .of_hold handed other active record⟩
      refine (if_neg blocked).trans ?_
      rw [Act.on_map, hold_on, inTime.lease, handed]
      rfl

/-! ## Queues that are alike -/

namespace Alike

theorem contains (h : Alike q q') (id : String) : q'.active.contains id = q.active.contains id := by
  rw [Table.contains, Table.contains, h.lease]

theorem eraseEntry (h : Alike q q') (id : String) : Alike (q.eraseEntry id) (q'.eraseEntry id) where
  entry k := by simp [LocalQueue.eraseEntry, h.entry]
  lease := h.lease
  record := h.record

theorem keyIsActive (h : Alike q q') (key : String) : q'.keyIsActive key = q.keyIsActive key :=
  keyIsActive_congr fun id f _ => by rw [h.contains, h.entry]

theorem fate (h : Alike q q') (e : StoredEntry) : LocalQueue.fate rules now q' e = LocalQueue.fate rules now q e := by
  rw [LocalQueue.fate, LocalQueue.fate, (h.eraseEntry e.id).keyIsActive]

theorem movedOn (h : Alike q q') (e : StoredEntry) : LocalQueue.movedOn now q' e = LocalQueue.movedOn now q e := by
  simp only [LocalQueue.movedOn, h.record]

/-- Alike queues are alike after a turn. -/
theorem turn (h : Alike q q') (t : Turn rules now expiry q e q₁) (t' : Turn rules now expiry q' e q₂) : Alike q₁ q₂ where
  entry id := by
    by_cases own : e.id = id
    · subst own
      rw [t.own, t'.own, h.fate]
    · rw [t.entry own, t'.entry own, h.movedOn, h.entry]
  lease id := by
    by_cases own : e.id = id
    · subst own
      rw [t.lease, t'.lease, h.fate]
    · rw [t.other own, t'.other own, h.lease]
  record f := by rw [t.record, t'.record, h.movedOn, h.record]

end Alike

/-! ## Turns that may be swapped -/

theorem fate_of_not_fresh (h : a.isFresh = false) : fate rules now q a =
    if a.repeats.isSome then none else some { a with processedOn := some now } := by
  unfold fate
  cases repeats : a.repeats with
  | none => simp
  | some spec =>
    cases claimed : a.processedOn with
    | none => simp [StoredEntry.isFresh, repeats, claimed] at h
    | some p => simp

/-- What is not fresh does not keep a fire from being handed out, unless it is claimed under the same key. -/
theorem Turn.fate_eq (t : Turn rules now expiry q a q₁) (quiet : a.isFresh = false) (free : q.active.contains a.id = false)
    (apart : a.repeats = none → b.repeats.isSome → a.key ≠ b.key) : fate rules now q₁ b = fate rules now q b := by
  have still : movedOn now q a = none := by simp [movedOn, quiet]
  have same (repeats : b.repeats.isSome) :
      (q₁.eraseEntry b.id).keyIsActive b.key = (q.eraseEntry b.id).keyIsActive b.key := by
    refine keyIsActive_congr fun id f key => ?_
    simp only [eraseEntry, Table.get?_erase]
    by_cases own : a.id = id
    · -- the entry itself was not claimed before, and is claimed now under another key at most
      subst own
      refine iff_of_false (fun found => ?_) fun held => Bool.false_ne_true (free.symm.trans held.1)
      obtain ⟨_, stored⟩ := Option.ite_none_left_eq_some.mp found.2
      rw [t.own, fate_of_not_fresh quiet, Option.ite_none_left_eq_some] at stored
      obtain ⟨single, handed⟩ := stored
      cases handed
      exact apart (Option.not_isSome_iff_eq_none.mp single) repeats key
    · rw [Table.contains, t.other own, t.entry own, still, Option.bind_none, Option.filter_none, Option.or_none]
      rfl
  unfold fate
  refine if_congr (and_congr_right fun repeats => ?_) rfl rfl
  rw [same repeats]

/-- What is found after two turns does not tell which came first, if one of the entries is not fresh. -/
theorem Turn.swap {q₁₂ q₂₁ : LocalQueue} (ta : Turn rules now expiry q a q₁) (sound : Sound now q) (made : a.WellMade)
    (due : a.fireAt ≤ now) (free : q.active.contains a.id = false) (quiet : a.isFresh = false) (ne : a.id ≠ b.id)
    (apart : a.repeats = none → b.repeats.isSome → a.key ≠ b.key) (tab : Turn rules now expiry q₁ b q₁₂)
    (tb : Turn rules now expiry q b q₂) (tba : Turn rules now expiry q₂ a q₂₁) : Alike q₁₂ q₂₁ := by
  have still (q : LocalQueue) : movedOn now q a = none := by simp [movedOn, quiet]
  have records (f : String) : q₁.repeats.get? f = q.repeats.get? f := by
    rw [ta.record, still, Option.filter_none, Option.none_or]
  have moved : movedOn now q₁ b = movedOn now q b := by simp only [movedOn, records]
  have fates : fate rules now q₁ b = fate rules now q b := ta.fate_eq quiet free apart
  have same : fate rules now q₂ a = fate rules now q a := by rw [fate_of_not_fresh quiet, fate_of_not_fresh quiet]
  have new (id : String) : a.id = id →
      ((movedOn now q b).bind (·.currentInstance)).filter (·.id == id) = none := by
    rintro rfl
    rw [Option.filter_eq_none_iff]
    intro f fire
    simp [sound.newcomer_ne made due fire]
  refine ⟨fun id => ?_, fun id => ?_, fun f => ?_⟩
  · by_cases first : a.id = id
    · have other : b.id ≠ id := fun second => ne (first.trans second.symm)
      rw [tab.entry other, moved, new id first, Option.or_none]
      subst first
      rw [tba.own, ta.own, same]
    · by_cases second : b.id = id
      · rw [tba.entry first, still, Option.bind_none, Option.filter_none, Option.or_none]
        subst second
        rw [tb.own, tab.own, fates]
      · rw [tba.entry first, tb.entry second, tab.entry second, ta.entry first, still, still, moved]
        simp only [Option.bind_none, Option.filter_none, Option.or_none]
  · by_cases first : a.id = id
    · have other : b.id ≠ id := fun second => ne (first.trans second.symm)
      rw [tab.other other]
      subst first
      rw [tba.lease, ta.lease, same]
    · rw [tba.other first]
      by_cases second : b.id = id
      · subst second
        rw [tb.lease, tab.lease, fates]
      · rw [tb.other second, tab.other second, ta.other first]
  · rw [tba.record, tb.record, tab.record, records, still, moved, Option.filter_none, Option.none_or]

/-! ## Claims in any order -/

theorem firesBefore_iff : firesBefore a b = true ↔ toLex (a.fireAt, a.id) ≤ toLex (b.fireAt, b.id) := by
  simp [firesBefore, Prod.Lex.toLex_le_toLex]

theorem pairwise_due (now : Instant) (q : LocalQueue) : (q.due now).Pairwise fun a b => firesBefore a b = true := by
  refine List.pairwise_mergeSort (fun a b c => ?_) (fun a b => ?_) _
  · simp only [firesBefore_iff]
    exact le_trans
  · rw [Bool.or_eq_true, firesBefore_iff, firesBefore_iff]
    exact le_total _ _

/-- Claims or drops all of some entries. -/
def claimAll (rules : ClaimRules) (now : Instant) : List StoredEntry → Act QueueError LocalQueue (List StoredEntry)
  | [] => return []
  | e :: es => do
    let one ← claimEntry rules now e
    return one.toList ++ (← claimAll rules now es)

/-- Entries that are due, none of which does not repeat and has the key of one that does. -/
structure Claimable (now : Instant) (q : LocalQueue) (es : List StoredEntry) : Prop where
  due : ∀ e ∈ es, q.entries.get? e.id = some e ∧ q.active.contains e.id = false ∧ e.fireAt ≤ now
  nodup : (es.map (·.id)).Nodup
  apart : ∀ a ∈ es, ∀ b ∈ es, a.repeats = none → b.repeats.isSome → a.key ≠ b.key

namespace Claimable

variable {es es' : List StoredEntry}

theorem alike (h : Claimable now q es) (same : Alike q q') : Claimable now q' es where
  due e mem := by
    rw [same.entry, same.contains]
    exact h.due e mem
  nodup := h.nodup
  apart := h.apart

theorem perm (h : Claimable now q es) (same : es.Perm es') : Claimable now q es' where
  due e mem := h.due e (same.mem_iff.mpr mem)
  nodup := ((same.map _).nodup_iff).mp h.nodup
  apart a ha b hb := h.apart a (same.mem_iff.mpr ha) b (same.mem_iff.mpr hb)

/-- A turn of one entry leaves the others due. -/
theorem turn (h : Claimable now q (e :: es)) (t : Turn rules now expiry q e q') : Claimable now q' es where
  due f mem := by
    obtain ⟨stored, free, due⟩ := h.due f (List.mem_cons_of_mem _ mem)
    have ne : e.id ≠ f.id := fun same => (List.nodup_cons.mp h.nodup).1 (List.mem_map.mpr ⟨f, mem, same.symm⟩)
    refine ⟨by rw [t.entry ne, stored, Option.some_or], ?_, due⟩
    rwa [Table.contains, t.other ne]
  nodup := (List.nodup_cons.mp h.nodup).2
  apart a ha b hb := h.apart a (List.mem_cons_of_mem _ ha) b (List.mem_cons_of_mem _ hb)

/-- An entry that is not fresh may be claimed before or after another one. -/
theorem swap {p₁ p₂ p₁₂ p₂₁ : LocalQueue} (h : Claimable now q (a :: b :: es)) (sound : Sound now q)
    (quiet : a.isFresh = false) (ta : Turn rules now expiry q a p₁) (tab : Turn rules now expiry p₁ b p₁₂)
    (tb : Turn rules now expiry q b p₂) (tba : Turn rules now expiry p₂ a p₂₁) :
    Alike p₁₂ p₂₁ ∧ fate rules now p₁ b = fate rules now q b ∧ fate rules now p₂ a = fate rules now q a := by
  have second : b ∈ a :: b :: es := List.mem_cons_of_mem _ List.mem_cons_self
  obtain ⟨stored, free, due⟩ := h.due a List.mem_cons_self
  have ne : a.id ≠ b.id := fun same =>
    (List.nodup_cons.mp h.nodup).1 (List.mem_map.mpr ⟨b, List.mem_cons_self, same.symm⟩)
  have apart := h.apart a List.mem_cons_self b second
  refine ⟨ta.swap sound (sound.made stored) due free quiet ne apart tab tb tba, ta.fate_eq quiet free apart, ?_⟩
  rw [fate_of_not_fresh quiet, fate_of_not_fresh quiet]

end Claimable

section

variable {es es' : List StoredEntry}

theorem Claimable.head (h : Claimable now q (e :: es)) (sound : Sound now q) (inTime : rules.InTime now expiry) :
    ∃ q', (claimEntry rules now e).on q = (.ok (fate rules now q e), q') ∧ Turn rules now expiry q e q' ∧
      Sound now q' ∧ Claimable now q' es := by
  obtain ⟨stored, free, due⟩ := h.due e List.mem_cons_self
  obtain ⟨q', on, turn⟩ := claimEntry_turn sound stored free due inTime
  have claims : Claims rules now e.id q _ := claimEntry_claims sound stored free due
  rw [on] at claims
  exact ⟨q', on, turn, claims.sound, h.turn turn⟩

theorem claimAll_cons {out : List StoredEntry} {one : Option StoredEntry}
    (first : (claimEntry rules now e).on q = (.ok one, q')) (rest : (claimAll rules now es).on q' = (.ok out, q₁)) :
    (claimAll rules now (e :: es)).on q = (.ok (one.toList ++ out), q₁) := by
  simp only [claimAll, Act.on_bind, first, rest, Act.on_pure]

theorem claimEach_on {limit : Nat} (few : es.length ≤ limit) :
    (claimEach rules now es limit).on q = (claimAll rules now es).on q := by
  induction es generalizing q limit with
  | nil => rfl
  | cons e es ih =>
    cases limit with
    | zero => cases few
    | succ limit =>
      simp only [claimEach, claimAll, Act.on_bind]
      obtain ⟨result, q₁⟩ := (claimEntry rules now e).on q
      cases result with
      | error failure => rfl
      | ok one =>
        cases one with
        | none =>
          dsimp only
          rw [ih (Nat.le_of_succ_le few)]
          obtain ⟨result, q₂⟩ := (claimAll rules now es).on q₁
          cases result <;> rfl
        | some claimed =>
          simp only [Act.on_bind]
          rw [ih (Nat.le_of_succ_le_succ few)]
          obtain ⟨result, q₂⟩ := (claimAll rules now es).on q₁
          cases result <;> rfl

/-- A claim that may be as large as the queue goes through all that is due. -/
theorem claimDue_on_all {limit : Nat} (enough : q.entries.size ≤ limit) : (claimDue rules now limit).on q =
    (claimAll rules now ((q.recover now).due now)).on (q.recover now) := by
  rw [claimDue_on]
  exact claimEach_on (Nat.le_trans (length_due_le now (q.recover now)) enough)

theorem claimAll_alike (inTime : rules.InTime now expiry) (sound : Sound now q) (sound' : Sound now q')
    (same : Alike q q') (h : Claimable now q es) : ∃ out q₁ q₂, (claimAll rules now es).on q = (.ok out, q₁) ∧
      (claimAll rules now es).on q' = (.ok out, q₂) ∧ Alike q₁ q₂ := by
  induction es generalizing q q' with
  | nil => exact ⟨[], q, q', rfl, rfl, same⟩
  | cons e es ih =>
    obtain ⟨p, first, turn, sound₁, h₁⟩ := h.head sound inTime
    obtain ⟨p', first', turn', sound₁', _⟩ := (h.alike same).head sound' inTime
    obtain ⟨out, q₁, q₂, rest, rest', alike⟩ := ih sound₁ sound₁' (same.turn turn turn') h₁
    refine ⟨_, q₁, q₂, claimAll_cons first rest, ?_, alike⟩
    rw [← same.fate]
    exact claimAll_cons first' rest'

/-- The order does not matter, but for what is fresh. -/
theorem claimAll_reorder (inTime : rules.InTime now expiry) (reorder : Reorder es es') (sound : Sound now q)
    (h : Claimable now q es) : ∃ out out' q₁ q₂, (claimAll rules now es).on q = (.ok out, q₁) ∧
      (claimAll rules now es').on q = (.ok out', q₂) ∧ out.Perm out' ∧ Alike q₁ q₂ := by
  induction reorder generalizing q with
  | nil => exact ⟨[], [], q, q, rfl, rfl, .nil, .refl q⟩
  | cons e _ ih =>
    obtain ⟨p, first, _, sound₁, h₁⟩ := h.head sound inTime
    obtain ⟨out, out', q₁, q₂, rest, rest', perm, alike⟩ := ih sound₁ h₁
    exact ⟨_, _, q₁, q₂, claimAll_cons first rest, claimAll_cons first rest', perm.append_left _, alike⟩
  | @swap a b es quiet =>
    obtain ⟨p₁, on₁, turn₁, sound₁, h₁⟩ := h.head sound inTime
    obtain ⟨p₁₂, on₁₂, turn₁₂, sound₁₂, h₁₂⟩ := h₁.head sound₁ inTime
    have h' : Claimable now q (b :: a :: es) := h.perm (.swap ..)
    obtain ⟨p₂, on₂, turn₂, sound₂, h₂⟩ := h'.head sound inTime
    obtain ⟨p₂₁, on₂₁, turn₂₁, sound₂₁, _⟩ := h₂.head sound₂ inTime
    have swapped : Alike p₁₂ p₂₁ ∧ fate rules now p₁ b = fate rules now q b ∧ fate rules now p₂ a = fate rules now q a := by
      rcases quiet with quiet | quiet
      · exact h.swap sound quiet turn₁ turn₁₂ turn₂ turn₂₁
      · obtain ⟨alike, fates, fates'⟩ := h'.swap sound quiet turn₂ turn₂₁ turn₁ turn₁₂
        exact ⟨alike.symm, fates', fates⟩
    obtain ⟨alike, fates, fates'⟩ := swapped
    obtain ⟨out, q₁, q₂, rest, rest', alike⟩ := claimAll_alike inTime sound₁₂ sound₂₁ alike h₁₂
    refine ⟨_, _, q₁, q₂, claimAll_cons on₁ (claimAll_cons on₁₂ rest), claimAll_cons on₂ (claimAll_cons on₂₁ rest'),
      ?_, alike⟩
    rw [fates, fates']
    exact List.perm_append_comm_assoc _ _ _
  | trans first _ ih ih' =>
    obtain ⟨out, out', q₁, q₂, on₁, on₂, perm, alike⟩ := ih sound h
    obtain ⟨_, last, _, q₃, on₂', on₃, perm', alike'⟩ := ih' sound (h.perm first.perm)
    cases on₂.symm.trans on₂'
    exact ⟨out, last, q₁, q₃, on₁, on₃, perm.trans perm', alike.trans alike'⟩

end

end LocalQueue

end Timetable
