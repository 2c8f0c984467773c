import Timetable.Proofs.Queue.Calm
import Timetable.Proofs.Queue.Represented
import Timetable.Proofs.Queue.SharedFaulty

/-!
# The queue in a shared keyspace, no command of which fails

Whatever failed before, all that is kept in a readable keyspace can be read. So without faults each operation has its
whole effect, and the queue in a shared keyspace is `CalmQueue.Lawful` like the one in memory.
-/

namespace Timetable

namespace SharedQueue

open Placement Program QueueContents

variable {rules : ClaimRules} {clock now : Instant} {s : Keyspace} {key id f : String} {spec : RepeatSpec}
  {r : RepeatRecord} {e : StoredEntry} {payload : Json} {faults : CommandFaults}

/-- No claim is late. -/
structure Settled (now : Instant) (s : Keyspace) : Prop where
  kept : Kept (Readable now) s
  inTime : ∀ {id n}, s.leases.get? id = some n → now.millis < n

theorem CommandFaults.whole_none : CommandFaults.none.Whole := fun _ => .inl fun _ => rfl

/-! ## What is read -/

theorem entry_eq_some (h : Kept (Readable now) s) (stored : (contents s).entry id = some e) :
    (∃ text, s.entries.get? id = some text ∧ decodeEntry text = .ok e) ∧ e.id = id ∧ e.Writable := by
  obtain ⟨text, at_, read⟩ := Option.bind_eq_some_iff.mp stored
  obtain ⟨e', read', own, writable⟩ := h.holds.read_entry at_
  rw [read'] at read
  cases read
  exact ⟨⟨text, at_, read'⟩, own, writable⟩

theorem record_eq_some (h : Kept (Readable now) s) (stored : (contents s).record f = some r) :
    (∃ text, s.repeats.get? f = some text ∧ decodeRecord text = .ok r) ∧ r.field = f ∧ r.Writable now := by
  obtain ⟨text, at_, read⟩ := Option.bind_eq_some_iff.mp stored
  obtain ⟨r', read', own, writable⟩ := h.holds.read_record h.consistent at_
  rw [read'] at read
  cases read
  exact ⟨⟨text, at_, read'⟩, own, writable⟩

theorem tidy_contents (h : Kept (Readable now) s) : (contents s).Tidy where
  ownId he := (entry_eq_some h he).2.1
  named {id e} he := by
    obtain ⟨_, _, writable⟩ := entry_eq_some h he
    cases repeats : e.repeats with
    | none => exact .inl ⟨rfl, writable.single repeats⟩
    | some spec => exact .inr ⟨spec, rfl, (writable.fire spec repeats).2.1⟩
  ownField hr := (record_eq_some h hr).2.1
  colonless hr := (record_eq_some h hr).2.2.spec.parsed.colonless

theorem Readable.isSome_entry (h : Readable now s) (id : String) :
    ((contents s).entry id).isSome = s.entries.contains id :=
  SharedQueue.isSome_entry fun stored =>
    let ⟨e, read, _⟩ := h.read_entry stored
    ⟨e, read⟩

/-! ## Programs that come to their end -/

/-- What a program does that nothing cuts short. -/
abbrev Does {α : Type} (p : Program α) (s : Keyspace) (Q : α → Keyspace → Prop) (E : QueueError → Keyspace → Prop) :
    Prop :=
  p.Safe (fun _ _ => True) Q E s

theorem does_of_safe {α : Type} {p : Program α} {sends : Command → Keyspace → Prop} {Q : α → Keyspace → Prop}
    {E : QueueError → Keyspace → Prop} (h : p.Safe sends Q E s) : Does p s Q E :=
  h.mono (fun _ _ _ => trivial) (fun _ _ h => h) fun _ _ h => h

/-- Without faults a request does what its program does, and leaves a readable keyspace. -/
theorem ask_ends {link : Link} (request : QueueRequest) {Q : request.Answer → Keyspace → Prop}
    {E : QueueError → Keyspace → Prop} (time : now.Storable) (asked : request.Writable)
    (kept : Kept (Readable now) link.keys) (does : Does (program rules now request) link.keys Q E) :
    ((workQueue rules .none).ask now request).Ends link
      (fun a link' => Kept (Readable now) link'.keys ∧ Q a link'.keys) fun e link' => E e link'.keys := by
  have after := Act.ends_iff_forall (P := fun link : Link => Kept (Readable now) link.keys).mpr
    (Kept.ask kept (preserved_readable rules time asked) CommandFaults.whole_none)
  rw [ask_eq_run] at after ⊢
  exact (after.and (does.ends_calm rfl)).mono (fun _ _ h => h) fun _ _ h => h.2

/-! ## Claims that are late -/

theorem recovered_recover (h : Consistent s) (now : Instant) :
    (contents s).Recovered (Late now s) (contents ((s.leases.upTo now.millis).foldl (·.giveUp now.millis) s)) where
  record := by
    funext f
    simp only [contents, repeats_foldl_giveUp]
  entry := by
    funext id
    simp only [contents, entries_foldl_giveUp]
  claimed id := by
    obtain ⟨c, hc⟩ := h.cell id
    show Table.contains _ id = true ↔ s.active.contains id = true ∧ _
    rw [(at_recover hc now.millis).contains.2.2.1, hc.contains.2.2.1, Late, hc.expiry]
    cases c with
    | claimed e a expiry =>
      rw [Cell.recovered]
      split <;> simp_all [Cell.claim?, Cell.expiry?]
    | _ => simp [Cell.recovered, Cell.claim?]

/-- What is left of the claims is not late. -/
theorem settled_recover (kept : Kept (Readable now) ((s.leases.upTo now.millis).foldl (·.giveUp now.millis) s))
    (consistent : Consistent s) : Settled now ((s.leases.upTo now.millis).foldl (·.giveUp now.millis) s) := by
  refine ⟨kept, fun {id n} held => ?_⟩
  obtain ⟨c, hc⟩ := consistent.cell id
  rw [(at_recover hc now.millis).expiry] at held
  cases c with
  | claimed e a expiry =>
    rw [Cell.recovered] at held
    split at held
    · cases held
    · next later =>
      cases held
      exact not_le.mp later
  | _ => cases held

theorem Settled.upTo_eq (h : Settled now s) : s.leases.upTo now.millis = [] := by
  refine List.eq_nil_iff_forall_not_mem.mpr fun id mem => ?_
  obtain ⟨n, held, late⟩ := SortedSet.mem_upTo.mp mem
  exact absurd late (not_le.mpr (h.inTime held))

/-! ## Lists -/

theorem listEntries_does (h : Kept (Readable now) s) : Does (listEntries now EntryState.all) s
    (fun es s' => s' = s ∧ (contents s).Shows es) fun _ _ => False := by
  have all (e : QueueEntry) : EntryState.all.contains e.state = true := by cases e.state <;> rfl
  have state (b : Bool) (e : StoredEntry) : stateOf b now e = .active ↔ b = true := by
    unfold stateOf pendingState
    cases b with
    | true => simp
    | false =>
      rw [if_neg Bool.false_ne_true]
      split <;> simp
  -- every text is read, so the list leaves no entry out
  obtain ⟨es, on, mem⟩ : ∃ es, s.entries.pairs.mapM (fun p => decodeEntry p.2) = .ok es ∧
      ∀ e, e ∈ es ↔ ∃ p ∈ s.entries.pairs, decodeEntry p.2 = .ok e := by
    refine mem_of_mapM fun p stored => ?_
    obtain ⟨e, read, _⟩ := h.holds.read_entry (Table.mem_pairs_iff.mp stored)
    exact ⟨e, read⟩
  refine .askThen trivial (.askThen trivial (.ofExceptThen (fun error failed => ?_) fun es' ok => .done ⟨rfl, ?_⟩))
  · cases on.symm.trans failed
  obtain rfl : es = es' := Except.ok.inj (on.symm.trans ok)
  constructor
  · intro shown listed
    obtain ⟨e, read, rfl⟩ := List.mem_map.mp (List.mem_filter.mp listed).1
    obtain ⟨⟨id, text⟩, stored, read⟩ := (mem e).mp read
    have stored : (contents s).entry id = some e := contents_entry (Table.mem_pairs_iff.mp stored) read
    obtain rfl := (entry_eq_some h stored).2.1
    refine ⟨stored, (state _ e).trans ?_⟩
    rw [List.contains_iff_mem]
    exact Table.mem_keys_iff
  · intro id e stored
    obtain ⟨⟨text, at_, read⟩, _⟩ := entry_eq_some h stored
    have listed : e ∈ es := (mem e).mpr ⟨(id, text), Table.mem_pairs_iff.mpr at_, read⟩
    exact ⟨_, List.mem_filter.mpr ⟨List.mem_map_of_mem listed, all _⟩, rfl⟩

theorem listRepeating_does (h : Kept (Readable now) s) : Does listRepeating s
    (fun rs s' => s' = s ∧ ∀ r, r ∈ rs ↔ ∃ f, (contents s).record f = some r) fun _ _ => False := by
  obtain ⟨rs, on, mem⟩ : ∃ rs, s.repeats.values.mapM decodeRecord = .ok rs ∧
      ∀ r, r ∈ rs ↔ ∃ text ∈ s.repeats.values, decodeRecord text = .ok r := by
    refine mem_of_mapM fun text stored => ?_
    obtain ⟨f, stored⟩ := Table.mem_values_iff.mp stored
    obtain ⟨r, read, _⟩ := h.holds.read_record h.consistent stored
    exact ⟨r, read⟩
  refine .askThen trivial (.ofExcept (fun rs' ok => ⟨rfl, fun r => ?_⟩) fun error failed => ?_)
  · obtain rfl : rs = rs' := Except.ok.inj (on.symm.trans ok)
    rw [mem]
    constructor
    · rintro ⟨text, stored, read⟩
      obtain ⟨f, stored⟩ := Table.mem_values_iff.mp stored
      exact ⟨f, contents_record stored read⟩
    · rintro ⟨f, stored⟩
      obtain ⟨⟨text, at_, read⟩, _⟩ := record_eq_some h stored
      exact ⟨text, Table.mem_values_iff.mpr ⟨f, at_⟩, read⟩
  · cases on.symm.trans failed

theorem getEntry_does (h : Kept (Readable now) s) (key : String) : Does (getEntry now key) s
    (fun e s' => s' = s ∧ e.isSome = ((contents s).entry (singleId key)).isSome) fun _ _ => False := by
  unfold getEntry
  refine .askThen trivial ?_
  dsimp only [Command.outcome, Keyspace.hash]
  cases stored : s.entries.get? (singleId key) with
  | none => exact .done ⟨rfl, by rw [contents_entry_none stored]; rfl⟩
  | some text =>
    obtain ⟨e, read, _⟩ := h.holds.read_entry stored
    refine .ofExceptThen (fun _ failed => ?_) fun _ _ => .askThen trivial (.done ⟨rfl, ?_⟩)
    · cases read.symm.trans failed
    · rw [contents_entry stored read]
      rfl

/-! ## Adding -/

theorem insertIfAbsent_does (h : Readable now s) (writable : e.Writable) {E : QueueError → Keyspace → Prop} :
    Does (insertIfAbsent e) s (fun _ s' => s'.leases = s.leases ∧ Inserted e (contents s) (contents s')) E := by
  obtain ⟨_, _, _, read⟩ := writable.decode
  refine .send trivial (.done ⟨?_, inserted_of_read (h.isSome_entry e.id) read⟩)
  rw [Command.outcome]
  split <;> rfl

theorem loadRecord_does (h : Kept (Readable now) s) (field : String) {E : QueueError → Keyspace → Prop} :
    Does (loadRecord field) s (fun record s' => s' = s ∧ record = (contents s).record field) E := by
  refine .askThen trivial ?_
  dsimp only [Command.outcome, Keyspace.hash]
  cases stored : s.repeats.get? field with
  | none => exact .done ⟨rfl, (contents_record_none stored).symm⟩
  | some text =>
    obtain ⟨r, read, _⟩ := h.holds.read_record h.consistent stored
    refine .ofExceptThen (fun _ failed => ?_) fun r' ok => .done ⟨rfl, ?_⟩
    · cases read.symm.trans failed
    · rw [contents_record stored ok]

/-- A record is stored, then the entry for its next fire. -/
theorem saveChain_does (h : Readable now s) (writable : r.Writable now) (field : r.field = repeatField key spec)
    (old : ∀ r', (contents s).record (repeatField key spec) = some r' →
      r.key = r'.key ∧ r.spec = r'.spec ∧ r.next = r'.next)
    (anew : (contents s).record (repeatField key spec) = none →
      r.key = key ∧ r.spec = spec ∧ spec.nextAfter now = .ok r.next)
    {E : QueueError → Keyspace → Prop} : Does (saveRecord r >>= fun _ => insertCurrent r) s
      (fun _ s' => s'.leases = s.leases ∧ (contents s).Chained now key spec (contents s')) E := by
  obtain ⟨payload, _, _, read⟩ := writable.decode
  let saved : Keyspace := { s with repeats := s.repeats.set r.field (recordText r) }
  have record (f : String) : (contents saved).record f =
      if repeatField key spec = f then some { r with payload } else (contents s).record f := by
    rw [← field]
    exact record_set_of_read s read f
  refine .askThen trivial ?_
  show Does (insertCurrent r) saved _ _
  unfold insertCurrent
  cases fire : r.next with
  | none =>
    simp only [RepeatRecord.currentInstance, fire, Option.map_none]
    refine .done ⟨rfl, chained_of_inserted (r := { r with payload }) record rfl rfl old anew (fun t next => ?_)
      fun _ => rfl⟩
    cases fire.symm.trans next
  | some t =>
    have current : r.currentInstance = some (.ofFire r.key r.spec t r.payload) :=
      Option.map_eq_some_iff.mpr ⟨t, fire, rfl⟩
    simp only [current]
    refine (insertIfAbsent_does (h.setRecord writable) (writable.currentInstance current)).weaken ?_
    rintro ⟨⟩ s' ⟨leases, inserted⟩
    refine ⟨leases, chained_of_inserted (r := { r with payload }) record rfl rfl old anew (fun u next => ?_)
      fun none => ?_⟩
    · obtain rfl : t = u := Option.some.inj (fire.symm.trans next)
      exact ⟨r.payload, inserted⟩
    · cases fire.symm.trans none

theorem addRepeating_does (h : Kept (Readable now) s) (time : now.Storable) (word : spec.Word)
    (keepable : payload.Keepable) :
    Does (addRepeating now key spec payload) s
      (fun _ s' => s'.leases = s.leases ∧ (contents s).Chained now key spec (contents s'))
      fun e s' => s' = s ∧ (contents s).record (repeatField key spec) = none ∧
        RepeatRecord.create key spec payload now = .error e := by
  unfold addRepeating
  refine (loadRecord_does h _).bind ?_
  rintro record s ⟨rfl, loaded⟩
  cases record with
  | some old =>
    obtain ⟨_, own, writable⟩ := record_eq_some h loaded.symm
    refine saveChain_does h.holds (r := { old with payload }) (writable.with_payload keepable) own (fun r' hr' => ?_)
      fun absent => ?_
    · obtain rfl := Option.some.inj (loaded.trans hr')
      exact ⟨rfl, rfl, rfl⟩
    · cases loaded.trans absent
  | none =>
    refine .ofExceptThen (fun e failed => ⟨rfl, loaded.symm, failed⟩) fun r created => ?_
    obtain ⟨same, fires⟩ := RepeatRecord.advance_eq_ok created
    obtain ⟨hk, hs, _⟩ := RepeatRecord.chain_eq_iff.mp same
    have field : r.field = repeatField key spec := by rw [RepeatRecord.field, hk, hs]
    have writable : r.Writable now := RepeatRecord.writable_create word keepable time created
    refine saveChain_does h.holds writable field (fun r' hr' => ?_) fun _ => ⟨hk, hs, fires⟩
    cases loaded.trans hr'

theorem addDelayed_does (h : Readable now s) (time : now.Storable) (millis : Nat) (keepable : payload.Keepable) :
    Does (addDelayed now key millis payload) s
      (fun _ s' => s'.leases = s.leases ∧ ∃ fireAt, Inserted (.single key fireAt payload) (contents s) (contents s'))
      fun e s' => s' = s ∧ e = .outOfRange ∧ now.addMillis? (signedWord millis) = none := by
  unfold addDelayed
  cases reached : now.addMillis? (signedWord millis) with
  | none => exact .fail ⟨rfl, rfl, rfl⟩
  | some fireAt =>
    have writable : (StoredEntry.single key fireAt payload).Writable :=
      StoredEntry.writable_single (time.addMillis? reached) keepable
    exact (insertIfAbsent_does h writable).weaken fun _ _ ⟨leases, inserted⟩ => ⟨leases, fireAt, inserted⟩

end SharedQueue

namespace CalmQueue

open SharedQueue

/-- The queue in a shared keyspace. -/
def shared (rules : ClaimRules) : CalmQueue Link Keyspace where
  queue := SharedQueue.workQueue rules .none
  held := Link.keys
  contents := SharedQueue.contents
  Reached now s := now.Storable ∧ ∃ faults t₀ t link, CommandFaults.Whole faults ∧ t ≤ now ∧
    (SharedQueue.workQueue rules faults).Run WorkQueue.writable t₀ {} t link ∧ link.keys = s
  Late s now := SharedQueue.Late now s
  Keeps := Json.Keepable

variable {rules : ClaimRules} {now : Instant} {s : Keyspace}

theorem kept_of_reached (h : (shared rules).Reached now s) : Kept (Readable now) s := by
  obtain ⟨_, faults, t₀, t, link, whole, le, run, rfl⟩ := h
  have kept := readable_of_run whole run
  exact ⟨kept.consistent, kept.holds.mono le⟩

theorem lawful_shared (rules : ClaimRules) (time : now.Storable) : (shared rules).Lawful now (Settled now) where
  tidy h := tidy_contents h.kept
  recovers {link} reached := by
    have kept := kept_of_reached reached
    refine (ask_ends .recoverStalled time trivial kept (Q := fun _ s' =>
      s' = (link.keys.leases.upTo now.millis).foldl (·.giveUp now.millis) link.keys) (E := fun _ _ => False)
      (.send trivial (.done rfl))).mono ?_ fun _ _ h => h
    rintro n link' ⟨kept', after⟩
    show Settled now link'.keys ∧
      (SharedQueue.contents link.keys).Recovered (SharedQueue.Late now link.keys) (SharedQueue.contents link'.keys)
    rw [after] at kept' ⊢
    exact ⟨settled_recover kept' kept.consistent, recovered_recover kept.consistent now⟩
  recoverStalled {link} settled := by
    refine (ask_ends .recoverStalled time trivial settled.kept (Q := fun n s' => n = 0 ∧ s' = link.keys)
      (E := fun _ _ => False)
      (.send trivial (.done ?_))).mono (fun _ _ h => h.2) fun _ _ h => h
    have none : link.keys.leases.upTo now.millis = [] := Settled.upTo_eq settled
    rw [Command.outcome, none]
    exact ⟨rfl, rfl⟩
  listEntries settled :=
    (ask_ends (.listEntries EntryState.all) time trivial settled.kept (listEntries_does settled.kept)).mono
      (fun _ _ h => h.2) fun _ _ h => h
  listRepeating settled :=
    (ask_ends .listRepeating time trivial settled.kept (listRepeating_does settled.kept)).mono (fun _ _ h => h.2)
      fun _ _ h => h
  getEntry key settled :=
    (ask_ends (.getEntry key) time trivial settled.kept (getEntry_does settled.kept key)).mono (fun _ _ h => h.2)
      fun _ _ h => h
  addRepeating key spec payload settled word keepable :=
    (ask_ends (.addRepeating key spec payload) time ⟨word, keepable⟩ settled.kept
      (addRepeating_does settled.kept time word keepable)).mono
      (fun _ _ ⟨kept, leases, chained⟩ => ⟨⟨kept, fun held => settled.inTime (leases ▸ held)⟩, chained⟩) fun _ _ h => h
  addDelayed key millis payload settled keepable :=
    (ask_ends (.addDelayed key millis payload) time keepable settled.kept
      (addDelayed_does settled.kept.holds time millis keepable)).mono
      (fun _ _ ⟨kept, leases, inserted⟩ => ⟨⟨kept, fun held => settled.inTime (leases ▸ held)⟩, inserted⟩)
      fun _ _ h => h

/-- One of the two queues. -/
inductive Implemented : {σ ω : Type} → CalmQueue σ ω → Prop
  | memory (rules : ClaimRules) : Implemented (memory rules)
  | shared (rules : ClaimRules) : Implemented (shared rules)

theorem Implemented.lawful {σ ω : Type} {Q : CalmQueue σ ω} {x : ω} (h : Q.Implemented) (reached : Q.Reached now x) :
    ∃ Settled, Q.Lawful now Settled := by
  cases h with
  | memory rules => exact ⟨_, lawful_memory rules now⟩
  | shared rules => exact ⟨_, lawful_shared rules reached.1⟩

end CalmQueue

end Timetable
