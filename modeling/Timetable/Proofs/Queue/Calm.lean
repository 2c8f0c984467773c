import Timetable.Proofs.Queue.LocalFaulty
import Timetable.Proofs.Queue.Overlap
import Timetable.Proofs.Queue.Writable

/-!
# Queues in which nothing fails

What a pass of reconciliation relies on. A `CalmQueue` shows what is kept in it as `QueueContents`. It is `Lawful` if
giving up late claims changes nothing else and is done once and for all, if whatever is listed is what there is, and if
whatever is added leaves what was there (`QueueContents.Grows`). A record that is added, or was there already, has its
entry afterwards (`QueueContents.Chained`).
-/

namespace Timetable

namespace QueueContents

variable {c c₁ c₂ : QueueContents} {now : Instant} {key : String} {spec : RepeatSpec} {r : RepeatRecord}
  {e : StoredEntry}

/-- Entries and records lie where their parts say. -/
structure Tidy (c : QueueContents) : Prop where
  ownId : ∀ {id e}, c.entry id = some e → e.id = id
  named : ∀ {id e}, c.entry id = some e → e.repeats = none ∧ e.id = singleId e.key ∨
    ∃ spec, e.repeats = some spec ∧ e.id = instanceId e.key spec e.fireAt
  ownField : ∀ {f r}, c.record f = some r → r.field = f
  colonless : ∀ {f r}, c.record f = some r → r.spec.Colonless

/-- The entry under the identifier of a single entry has its key. -/
theorem Tidy.key_of_singleId (h : c.Tidy) (he : c.entry (singleId key) = some e) : e.key = key := by
  have own := h.ownId he
  rcases h.named he with ⟨_, id⟩ | ⟨spec, _, id⟩
  · exact singleId_inj (id.symm.trans own)
  · exact absurd (own.symm.trans id) singleId_ne_instanceId

/-- Whatever there was is still there, but for the payloads of records. -/
structure Grows (c c' : QueueContents) : Prop where
  record : ∀ {f r}, c.record f = some r → ∃ r', c'.record f = some r' ∧ r'.key = r.key ∧ r'.spec = r.spec ∧
    r'.next = r.next
  entry : ∀ {id e}, c.entry id = some e → c'.entry id = some e
  claimed : c'.claimed = c.claimed

theorem Grows.refl (c : QueueContents) : Grows c c := ⟨fun h => ⟨_, h, rfl, rfl, rfl⟩, fun h => h, rfl⟩

theorem Grows.trans (h : Grows c c₁) (h' : Grows c₁ c₂) : Grows c c₂ where
  record hr := by
    obtain ⟨r₁, hr₁, key, spec, next⟩ := h.record hr
    obtain ⟨r₂, hr₂, key', spec', next'⟩ := h'.record hr₁
    exact ⟨r₂, hr₂, key'.trans key, spec'.trans spec, next'.trans next⟩
  entry he := h'.entry (h.entry he)
  claimed := h'.claimed.trans h.claimed

theorem grows_of_inserted (h : Placement.Inserted e c c₁) : Grows c c₁ :=
  ⟨fun hr => ⟨_, h.record ▸ hr, rfl, rfl, rfl⟩, fun he => h.kept _ _ he, h.claimed⟩

/-- The record of a field is there with the entry for its next fire. -/
structure Chained (now : Instant) (key : String) (spec : RepeatSpec) (c c' : QueueContents) : Prop where
  grows : Grows c c'
  others : ∀ {f}, repeatField key spec ≠ f → c'.record f = c.record f
  /-- A record that is new repeats what it was made for, from now on. -/
  made : c.record (repeatField key spec) = none →
    ∃ r, c'.record (repeatField key spec) = some r ∧ r.key = key ∧ r.spec = spec ∧ spec.nextAfter now = .ok r.next
  current : ∀ {r t}, c'.record (repeatField key spec) = some r → r.next = some t →
    (c'.entry (instanceId r.key r.spec t)).isSome

/-- The record is stored, then the entry for its next fire. -/
theorem chained_of_inserted (others : ∀ f, c₁.record f = if repeatField key spec = f then some r else c.record f)
    (entry : c₁.entry = c.entry) (claimed : c₁.claimed = c.claimed)
    (old : ∀ r', c.record (repeatField key spec) = some r' → r.key = r'.key ∧ r.spec = r'.spec ∧ r.next = r'.next)
    (anew : c.record (repeatField key spec) = none → r.key = key ∧ r.spec = spec ∧ spec.nextAfter now = .ok r.next)
    (insert : ∀ t, r.next = some t → ∃ payload, Placement.Inserted (.ofFire r.key r.spec t payload) c₁ c₂)
    (no_insert : r.next = none → c₂ = c₁) : Chained now key spec c c₂ := by
  have own : c₁.record (repeatField key spec) = some r := (others _).trans (if_pos rfl)
  -- the entry is only added, whether or not it was there, so the records are those that were stored
  obtain ⟨records, stays, claims⟩ : c₂.record = c₁.record ∧ (∀ {id e}, c₁.entry id = some e → c₂.entry id = some e) ∧
      c₂.claimed = c₁.claimed := by
    cases fire : r.next with
    | none => exact no_insert fire ▸ ⟨rfl, fun h => h, rfl⟩
    | some t =>
      obtain ⟨_, inserted⟩ := insert t fire
      exact ⟨inserted.record, inserted.kept _ _, inserted.claimed⟩
  refine ⟨⟨fun {f r'} hr => ?_, fun he => stays (entry ▸ he), claims.trans claimed⟩, fun {f} ne => ?_, fun absent => ?_,
    fun {r' t} hr fire => ?_⟩
  · by_cases same : repeatField key spec = f
    · obtain ⟨hk, hs, hn⟩ := old r' (same ▸ hr)
      exact ⟨r, by rw [records, ← same, own], hk, hs, hn⟩
    · exact ⟨r', by rw [records, others, if_neg same, hr], rfl, rfl, rfl⟩
  · rw [records, others, if_neg ne]
  · exact ⟨r, by rw [records, own], anew absent⟩
  · rw [records, own] at hr
    obtain rfl := Option.some.inj hr
    obtain ⟨_, inserted⟩ := insert t fire
    exact inserted.stored

/-- Claims that are late were given up. -/
structure Recovered (late : String → Prop) (c c' : QueueContents) : Prop where
  record : c'.record = c.record
  entry : c'.entry = c.entry
  claimed : ∀ id, c'.claimed id = true ↔ c.claimed id = true ∧ ¬ late id

/-- The entries in a list are those that are stored, and the active ones those that are claimed. -/
structure Shows (es : List QueueEntry) (c : QueueContents) : Prop where
  stored : ∀ e ∈ es, c.entry e.entry.id = some e.entry ∧ (e.state = .active ↔ c.claimed e.entry.id = true)
  all : ∀ {id e}, c.entry id = some e → ∃ shown ∈ es, shown.entry = e

end QueueContents

/-! ## Queues -/

/-- A queue in which nothing fails. -/
structure CalmQueue (σ ω : Type) where
  queue : WorkQueue σ
  /-- What is kept in the queue. -/
  held : σ → ω
  contents : ω → QueueContents
  /-- What was reached by a time from an empty queue. -/
  Reached : Instant → ω → Prop
  /-- The lease of the claim under an identifier ran out by some time. -/
  Late : ω → Instant → String → Prop
  /-- The payloads that can be read again. -/
  Keeps : Json → Prop

namespace CalmQueue

variable {σ ω : Type}

/-- What can be seen of the state of a queue. -/
abbrev seen (Q : CalmQueue σ ω) (s : σ) : QueueContents := Q.contents (Q.held s)

/-- What the operations do at some time to a queue in which no claim is late by then. -/
structure Lawful (Q : CalmQueue σ ω) (now : Instant) (Settled : ω → Prop) : Prop where
  tidy : ∀ {x}, Settled x → (Q.contents x).Tidy
  recovers : ∀ {s}, Q.Reached now (Q.held s) → (Q.queue.recoverStalled now).Ends s
    (fun _ s' => Settled (Q.held s') ∧ (Q.seen s).Recovered (Q.Late (Q.held s) now) (Q.seen s')) fun _ _ => False
  recoverStalled : ∀ {s}, Settled (Q.held s) → (Q.queue.recoverStalled now).Ends s
    (fun n s' => n = 0 ∧ Q.held s' = Q.held s) fun _ _ => False
  listEntries : ∀ {s}, Settled (Q.held s) → (Q.queue.listEntries now EntryState.all).Ends s
    (fun es s' => Q.held s' = Q.held s ∧ (Q.seen s).Shows es) fun _ _ => False
  listRepeating : ∀ {s}, Settled (Q.held s) → Q.queue.listRepeating.Ends s
    (fun rs s' => Q.held s' = Q.held s ∧ ∀ r, r ∈ rs ↔ ∃ f, (Q.seen s).record f = some r) fun _ _ => False
  getEntry : ∀ {s} key, Settled (Q.held s) → (Q.queue.getEntry now key).Ends s
    (fun e s' => Q.held s' = Q.held s ∧ e.isSome = ((Q.seen s).entry (singleId key)).isSome) fun _ _ => False
  addRepeating : ∀ {s} key spec payload, Settled (Q.held s) → RepeatSpec.Word spec → Q.Keeps payload →
    (Q.queue.addRepeating now key spec payload).Ends s
      (fun _ s' => Settled (Q.held s') ∧ (Q.seen s).Chained now key spec (Q.seen s'))
      fun e s' => Q.held s' = Q.held s ∧ (Q.seen s).record (repeatField key spec) = none ∧
        RepeatRecord.create key spec payload now = .error e
  addDelayed : ∀ {s} key millis payload, Settled (Q.held s) → Q.Keeps payload →
    (Q.queue.addDelayed now key millis payload).Ends s
      (fun _ s' => Settled (Q.held s') ∧
        ∃ fireAt, Placement.Inserted (.single key fireAt payload) (Q.seen s) (Q.seen s'))
      fun e s' => Q.held s' = Q.held s ∧ e = .outOfRange ∧ now.addMillis? (signedWord millis) = none

end CalmQueue

/-! ## In memory -/

namespace LocalQueue

open Placement QueueContents

variable {rules : ClaimRules} {now : Instant} {q : LocalQueue} {key : String} {spec : RepeatSpec} {r : RepeatRecord}

/-- No claim is late. -/
structure Settled (now : Instant) (q : LocalQueue) : Prop where
  tidy : q.Tidy
  inTime : ∀ {id expiry}, q.active.get? id = some expiry → now < expiry

theorem Tidy.contents (h : q.Tidy) : q.contents.Tidy :=
  ⟨fun he => h.ownId _ _ he, fun {id e} he => by
    cases repeats : e.repeats with
    | none => exact .inl ⟨rfl, h.single he repeats⟩
    | some spec => exact .inr ⟨spec, rfl, (h.fire he repeats).2.1⟩,
  h.ownField, fun hr => (h.parsed hr).colonless⟩

theorem Tidy.settled_recover (h : q.Tidy) : Settled now (q.recover now) := by
  refine ⟨h.recover.1, fun {id expiry} held => ?_⟩
  rw [LocalQueue.recover, Table.get?_filter, Option.filter_eq_some_iff, Bool.not_eq_true', decide_eq_false_iff_not]
    at held
  exact not_le.mp held.2

/-- The lease of a claim is over. -/
def Late (q : LocalQueue) (now : Instant) (id : String) : Prop :=
  ∃ expiry, q.active.get? id = some expiry ∧ expiry ≤ now

theorem recovered_recover : q.contents.Recovered (q.Late now) (q.recover now).contents := by
  refine ⟨rfl, rfl, fun id => ?_⟩
  show (q.recover now).active.contains id = true ↔ q.active.contains id = true ∧ ¬ q.Late now id
  simp only [Table.contains_iff, LocalQueue.recover, Table.get?_filter, Option.filter_eq_some_iff, Late]
  cases q.active.get? id <;> simp

theorem Settled.recover_eq (h : Settled now q) : q.recover now = q := by
  have all : q.active.filter (fun _ expiry => !decide (expiry ≤ now)) = q.active := by
    obtain ⟨_, inTime⟩ := h
    obtain ⟨_, _, pairs, nodup⟩ := q
    simp only [Table.filter, Table.mk.injEq, List.filter_eq_self]
    rintro ⟨id, expiry⟩ mem
    have := not_le.mpr (inTime (Table.mem_pairs_iff.mp mem))
    simpa using this
  rw [LocalQueue.recover, all]

/-- A record is stored with the entry for its next fire. -/
theorem chained_putRecord (field : r.field = repeatField key spec)
    (old : ∀ r', q.repeats.get? (repeatField key spec) = some r' → r.key = r'.key ∧ r.spec = r'.spec ∧ r.next = r'.next)
    (anew : q.repeats.get? (repeatField key spec) = none →
      r.key = key ∧ r.spec = spec ∧ spec.nextAfter now = .ok r.next) :
    q.contents.Chained now key spec (q.putRecord r).contents := by
  have record (f : String) : (q.setRecord r).contents.record f =
      if repeatField key spec = f then some r else q.contents.record f := field ▸ Table.get?_set ..
  refine chained_of_inserted record rfl rfl old anew (fun t fire => ?_) fun no_fire => ?_
  · have put : q.putRecord r = (q.setRecord r).insertIfAbsent (.ofFire r.key r.spec t r.payload) := by
      simp only [putRecord, insertCurrent, RepeatRecord.currentInstance, fire, Option.map_some]
      rfl
    exact ⟨r.payload, put ▸ inserted_insertIfAbsent _ _⟩
  · simp only [putRecord, insertCurrent, RepeatRecord.currentInstance, no_fire, Option.map_none]

theorem addRepeating_chains (h : Settled now q) (payload : Json) : (addRepeating now key spec payload).Ends q
    (fun _ q' => Settled now q' ∧ q.contents.Chained now key spec q'.contents)
    fun e q' => q' = q ∧ q.contents.record (repeatField key spec) = none ∧
      RepeatRecord.create key spec payload now = .error e := by
  have tidy : ((addRepeating now key spec payload).on q).2.Tidy := (h.tidy.addRepeating payload).1
  -- a record that is there keeps its fire, and only a new one is given the next fire from now
  have put {r : RepeatRecord} (tidy : (q.putRecord r).Tidy) : Settled now (q.putRecord r) :=
    ⟨tidy, fun held => h.inTime (putRecord_active q r ▸ held)⟩
  have on := addRepeating_on now key spec payload q
  cases hr : q.repeats.get? (repeatField key spec) with
  | some old =>
    rw [hr] at on
    rw [on] at tidy
    have field : old.field = repeatField key spec := h.tidy.ownField hr
    refine (Act.ends_of_on_ok on).mpr ⟨put tidy, chained_putRecord field (fun r' hr' => ?_) fun absent => ?_⟩
    · obtain rfl := Option.some.inj (hr.symm.trans hr')
      exact ⟨rfl, rfl, rfl⟩
    · rw [hr] at absent
      cases absent
  | none =>
    rw [hr] at on
    cases hc : RepeatRecord.create key spec payload now with
    | error e =>
      rw [hc] at on
      exact (Act.ends_of_on_error on).mpr ⟨rfl, hr, rfl⟩
    | ok r =>
      rw [hc] at on
      rw [on] at tidy
      obtain ⟨same, fires⟩ := RepeatRecord.advance_eq_ok hc
      obtain ⟨hk, hs, _⟩ := RepeatRecord.chain_eq_iff.mp same
      have field : r.field = repeatField key spec := by rw [RepeatRecord.field, hk, hs]
      refine (Act.ends_of_on_ok on).mpr ⟨put tidy, chained_putRecord field (fun r' hr' => ?_) fun _ => ⟨hk, hs, fires⟩⟩
      rw [hr] at hr'
      cases hr'

theorem addDelayed_inserts (h : Settled now q) (millis : Nat) (payload : Json) :
    (addDelayed now key millis payload).Ends q
    (fun _ q' => Settled now q' ∧ ∃ fireAt, Inserted (.single key fireAt payload) q.contents q'.contents)
    fun e q' => q' = q ∧ e = .outOfRange ∧ now.addMillis? (signedWord millis) = none := by
  unfold addDelayed
  cases now.addMillis? (signedWord millis) with
  | none => exact Act.ends_throw.mpr ⟨rfl, rfl, rfl⟩
  | some fireAt =>
    exact Act.ends_modify.mpr ⟨⟨h.tidy.insertSingle key fireAt payload, h.inTime⟩, fireAt, inserted_insertIfAbsent _ _⟩

theorem shows_listEntries (h : q.Tidy) (now : Instant) : q.contents.Shows
    ((q.entries.values.map (q.withState now)).filter fun e => EntryState.all.contains e.state) := by
  have all (e : QueueEntry) : EntryState.all.contains e.state = true := by cases e.state <;> rfl
  constructor
  · intro shown mem
    obtain ⟨e, value, rfl⟩ := List.mem_map.mp (List.mem_filter.mp mem).1
    obtain ⟨id, stored⟩ := Table.mem_values_iff.mp value
    obtain rfl := h.ownId id e stored
    refine ⟨stored, ?_⟩
    show q.stateOf now e = .active ↔ q.active.contains e.id = true
    unfold stateOf pendingState
    cases q.active.contains e.id with
    | true => simp
    | false =>
      rw [if_neg Bool.false_ne_true]
      split <;> simp
  · intro id e stored
    have mem := List.mem_map_of_mem (f := q.withState now) (Table.mem_values_iff.mpr ⟨id, stored⟩)
    exact ⟨q.withState now e, List.mem_filter.mpr ⟨mem, all _⟩, rfl⟩

end LocalQueue

namespace CalmQueue

open LocalQueue

/-- The queue in memory. -/
def memory (rules : ClaimRules) : CalmQueue LocalQueue LocalQueue where
  queue := LocalQueue.workQueue rules
  held q := q
  contents := LocalQueue.contents
  Reached _ q := ∃ may t₀ t, (LocalQueue.workQueue rules).Run may t₀ {} t q
  Late := LocalQueue.Late
  Keeps _ := True

theorem lawful_memory (rules : ClaimRules) (now : Instant) : (memory rules).Lawful now (Settled now) where
  tidy h := h.tidy.contents
  recovers := by
    rintro q ⟨may, t₀, t, run⟩
    exact (Act.ends_of_on_ok (recoverStalled_on now q)).mpr ⟨(tidy_of_run run).1.settled_recover, recovered_recover⟩
  recoverStalled {q} h := by
    have same : q.recover now = q := Settled.recover_eq h
    refine (Act.ends_of_on_ok (recoverStalled_on now q)).mpr ⟨?_, same⟩
    rw [same, Nat.sub_self]
  listEntries {q} h := (Act.ends_of_on_ok (listEntries_on now EntryState.all q)).mpr ⟨rfl, shows_listEntries h.tidy now⟩
  listRepeating {q} _ := (Act.ends_of_on_ok (listRepeating_on q)).mpr ⟨rfl, fun _ => Table.mem_values_iff⟩
  getEntry _ _ := Act.ends_bind.mpr (Act.ends_get.mpr (Act.ends_pure.mpr ⟨rfl, Option.isSome_map ..⟩))
  addRepeating _ _ payload h _ _ := addRepeating_chains h payload
  addDelayed _ millis payload h _ := addDelayed_inserts h millis payload

end CalmQueue

end Timetable
