import Timetable.Proofs.Keyspace.Program
import Timetable.Proofs.Queue.Claims
import Timetable.Proofs.Queue.Represented

/-!
# Removing a record while another client claims

A claim of due entries reads the record of a fire, then stores the record moved on, then adds its next fire, with
separate commands. The program `Unaware` of a field has read no record there that it may still store. If a removal
deletes the record while the claim of the other client is unaware of it, it wins (`removal_wins`): no record is left,
and no fire but those that had been claimed before. `unaware_claimDue` and `unaware_claimEach` say that a claim is
unaware of all fields before it starts and between two entries.

A claim that has read the record undoes the removal (`claim_undoes_removal`).
-/

namespace Timetable

theorem RepeatSpec.colonless_of_nextAfter {spec : RepeatSpec} {t : Instant} {next : Option Instant}
    (h : spec.nextAfter t = .ok next) : spec.Colonless := by
  cases spec with
  | every millis => trivial
  | cron expression => exact (usable_of_nextAfter h).colonless

namespace SharedQueue

open Program

/-! ## Programs that are unaware of a record -/

/-- A text that may be stored as the record of a field. -/
def Recorded (field text : String) : Prop :=
  ∃ r, text = recordText r ∧ r.field = field ∧ r.spec.Colonless

/-- Every record is kept in its own field. -/
def Filed (s : Keyspace) : Prop := ∀ field text, s.repeats.get? field = some text → Recorded field text

/-- Answers that a keyspace gives in which every record is kept in its own field. -/
def Plausible : (c : Command) → c.Answer → Prop
  | .hget .repeats field, answer => ∀ text, answer = some text → Recorded field text
  | _, _ => True

/-- A command of a claim that neither stores a record in a field nor adds one of some entries. -/
def Harmless (rules : ClaimRules) (now : Instant) (field : String) (fire : String → Prop) : Command → Prop
  | .hget .. | .hgetall _ | .upTo .. | .zrem .. | .release .. => True
  | .hset .repeats other text => other ≠ field ∧ Recorded other text
  | .hset .entries .. => True
  | .insertIfAbsent id .. => ¬ fire id
  | .claim _ _ expiry => leaseExpiry rules now = .ok expiry
  | .recover n => n = now.millis
  | _ => False

/-- A program that stores a record in a field, or adds one of some entries, only once it has read a record there. -/
inductive Unaware {α : Type} (rules : ClaimRules) (now : Instant) (field : String) (fire : String → Prop) :
    Program α → Prop
  | done {a} : Unaware rules now field fire (.done a)
  | fail {e} : Unaware rules now field fire (.fail e)
  | load {next} : Unaware rules now field fire (next none) →
    Unaware rules now field fire (.send (.hget .repeats field) next)
  | send {c next} : Harmless rules now field fire c →
    (∀ answer, Plausible c answer → Unaware rules now field fire (next answer)) →
    Unaware rules now field fire (.send c next)

section

variable {α β : Type} {field : String} {fire : String → Prop} {rules : ClaimRules} {now : Instant}
  {s : Keyspace} {r : RepeatRecord} {e : StoredEntry}

theorem Unaware.bind {p : Program α} {f : α → Program β} (h : Unaware rules now field fire p)
    (next : ∀ a, Unaware rules now field fire (f a)) : Unaware rules now field fire (p >>= f) := by
  induction h with
  | done => exact next _
  | fail => exact .fail
  | load _ ih => exact .load ih
  | send harmless _ ih => exact .send harmless ih

theorem Unaware.ask {c : Command} (h : Harmless rules now field fire c) : Unaware rules now field fire (ask c) :=
  .send h fun _ _ => .done

theorem Unaware.ofExcept {x : Except QueueError α} : Unaware rules now field fire (.ofExcept x) := by
  cases x with
  | ok a => exact .done
  | error e => exact .fail

theorem Unaware.discard {p : Program α} (h : Unaware rules now field fire p) :
    Unaware rules now field fire (discard p : Program Unit) := by
  show Unaware rules now field fire (p >>= fun _ => .done ())
  exact h.bind fun _ => .done

theorem plausible_outcome (filed : Filed s) (c : Command) : Plausible c (c.outcome s).1 := by
  cases c with
  | hget h field =>
    cases h with
    | repeats => exact filed field
    | _ => trivial
  | _ => trivial

/-! ### Claims -/

/-- Of what is loaded a program only has to know that it comes from another field. -/
theorem unaware_loadRecord {path : String} {f : Option RepeatRecord → Program α}
    (rest : ∀ record, (∀ r, record = some r → r.field ≠ field) → Unaware rules now field fire (f record)) :
    Unaware rules now field fire (loadRecord path >>= f) := by
  have none : Unaware rules now field fire (f none) := rest none fun _ h => by cases h
  by_cases hp : path = field
  · subst hp
    exact .load none
  · refine .send trivial fun answer stored => ?_
    cases answer with
    | none => exact none
    | some text =>
      obtain ⟨r, rfl, own, _⟩ := stored text rfl
      show Unaware rules now field fire (Program.ofExcept (decodeRecord (recordText r)) >>= (fun r => .done (some r)) >>= f)
      cases read : decodeRecord (recordText r) with
      | error error => exact .fail
      | ok r' =>
        refine rest (some r') fun _ h => ?_
        cases h
        obtain ⟨sameKey, sameSpec⟩ := RepeatRecord.field_of_decode read
        rw [RepeatRecord.field, sameKey, sameSpec]
        exact fun h => hp (own.symm.trans h)

variable {key : String} {spec : RepeatSpec}

/-- The identifiers of the fires of a key and a specification. -/
def FireOf (key : String) (spec : RepeatSpec) (id : String) : Prop := ∃ t, id = instanceId key spec t

/-- A record of another field is moved on. -/
theorem unaware_advanceChain (hs : spec.Colonless) {record : Option RepeatRecord}
    (other : ∀ r, record = some r → r.field ≠ repeatField key spec) :
    Unaware rules now (repeatField key spec) (FireOf key spec) (advanceChain now record e) := by
  unfold advanceChain
  cases record with
  | none => exact .done
  | some r =>
    dsimp only
    split
    · cases moved : r.advance now with
      | error error => exact .fail
      | ok next =>
        obtain ⟨chain, fires⟩ := RepeatRecord.advance_eq_ok moved
        obtain ⟨sameKey, sameSpec, _⟩ := RepeatRecord.chain_eq_iff.mp chain
        have ne : next.field ≠ repeatField key spec := by
          rw [RepeatRecord.field, sameKey, sameSpec]
          exact other r rfl
        have colonless := sameSpec ▸ RepeatSpec.colonless_of_nextAfter fires
        unfold saveRecord insertCurrent
        refine .send ⟨ne, next, rfl, rfl, colonless⟩ fun _ _ => ?_
        cases fire : next.currentInstance with
        | none => exact .done
        | some e' =>
          obtain ⟨t', _, rfl⟩ := Option.map_eq_some_iff.mp fire
          refine .ask ?_
          rintro ⟨t, hid⟩
          obtain ⟨hk, hspec, _⟩ := instanceId_inj colonless hs hid
          exact ne (by rw [RepeatRecord.field, hk, hspec])
    · exact .done

theorem unaware_handOut (hs : spec.Colonless) (id : String) (stored : StoredEntry) (claim : ActiveClaim) :
    Unaware rules now (repeatField key spec) (FireOf key spec) (handOut rules now id stored claim) := by
  have stamp (e : StoredEntry) : Unaware rules now (repeatField key spec) (FireOf key spec) (saveEntry id e) :=
    .ask (by trivial)
  have drop : Unaware rules now (repeatField key spec) (FireOf key spec)
      (do discard (release id claim); return (none : Option StoredEntry)) :=
    (Unaware.discard (.ask (by trivial))).bind fun _ => .done
  unfold handOut
  dsimp only
  split
  · exact (stamp _).bind fun _ => .done
  · refine unaware_loadRecord fun record other => ?_
    split
    · exact drop
    · refine (stamp _).bind fun _ => (unaware_advanceChain hs other).bind fun _ => ?_
      split
      · refine Unaware.bind ((Unaware.ask (by trivial)).bind fun _ => .ofExcept) fun blocked => ?_
        split
        · exact drop
        · exact .done
      · exact .done

theorem unaware_claimId (hs : spec.Colonless) (id : String) :
    Unaware rules now (repeatField key spec) (FireOf key spec) (claimId rules now id) := by
  refine (Unaware.ask (by trivial)).bind fun text => ?_
  cases text with
  | none => exact (Unaware.ask (by trivial)).bind fun _ => .done
  | some text =>
    refine Unaware.ofExcept.bind fun stored => ?_
    cases inTime : leaseExpiry rules now with
    | error error => exact .fail
    | ok expiry =>
      refine .send inTime fun won _ => ?_
      show Unaware _ _ _ _ (if won = true then _ else _)
      split
      · exact unaware_handOut hs _ _ _
      · exact .done

/-- Between two entries a claim is unaware of all records. -/
theorem unaware_claimEach (hs : spec.Colonless) (ids : List String) :
    Unaware rules now (repeatField key spec) (FireOf key spec) (claimEach rules now ids) := by
  induction ids with
  | nil => exact .done
  | cons id ids ih =>
    refine (unaware_claimId hs id).bind fun one => ?_
    cases one with
    | none => exact ih
    | some e => exact ih.bind fun _ => .done

theorem unaware_claimDue (hs : spec.Colonless) (limit : Nat) :
    Unaware rules now (repeatField key spec) (FireOf key spec) (claimDue rules now limit) :=
  (Unaware.discard (.ask (by exact rfl))).bind fun _ =>
    (Unaware.ask (by trivial)).bind fun _ => unaware_claimEach hs _

/-! ## What fades -/

/-- Whether an entry waits, or does once late claims are given up. -/
def Queued (now : Instant) (s : Keyspace) (id : String) : Prop := s.delayed.contains id = true ∨ Late now s id

/-- Of some entries no other ones are queued, or held by late claims, than before. -/
def Fades (now : Instant) (fire : String → Prop) (s s' : Keyspace) : Prop :=
  ∀ id, fire id → (Late now s' id → Late now s id) ∧ (Queued now s' id → Queued now s id)

variable {s' s'' : Keyspace}

theorem Fades.refl (now : Instant) (fire : String → Prop) (s : Keyspace) : Fades now fire s s :=
  fun _ _ => ⟨id, id⟩

theorem Fades.trans (h : Fades now fire s s') (h' : Fades now fire s' s'') : Fades now fire s s'' :=
  fun id hid => ⟨fun late => (h id hid).1 ((h' id hid).1 late), fun queued => (h id hid).2 ((h' id hid).2 queued)⟩

theorem fades_of_sets (delayed : ∀ id, fire id → s'.delayed.contains id = true → Queued now s id)
    (leases : ∀ id, fire id → Late now s' id → Late now s id) : Fades now fire s s' :=
  fun id hid => ⟨leases id hid, fun queued => queued.elim (delayed id hid) fun late => .inr (leases id hid late)⟩

theorem fades_dropPending (id : String) : Fades now fire s (s.dropPending id) := by
  refine fades_of_sets (fun k _ h => .inl ?_) fun _ _ h => h
  simp only [Keyspace.dropPending, Table.contains_erase, Bool.and_eq_true] at h
  exact h.2

theorem fades_addClaim {expiry : Int} (later : now.millis < expiry) (id claim : String) :
    Fades now fire s (s.addClaim id claim expiry) := by
  refine fades_of_sets (fun k _ h => .inl ?_) fun k _ h => ?_
  · simp only [Keyspace.addClaim, Table.contains_erase, Bool.and_eq_true] at h
    exact h.2
  · obtain ⟨n, hn, late⟩ := h
    rw [Keyspace.addClaim, Table.get?_set] at hn
    split at hn
    · cases hn
      omega
    · exact ⟨n, hn, late⟩

theorem fades_dropClaimed (id : String) : Fades now fire s (s.dropClaimed id) := by
  refine fades_of_sets (fun k _ h => .inl h) fun k _ h => ?_
  obtain ⟨n, hn, late⟩ := h
  rw [Keyspace.dropClaimed, Table.get?_erase] at hn
  split at hn
  · cases hn
  · exact ⟨n, hn, late⟩

theorem fades_giveUp {id : String} (late : Late now s id) : Fades now fire s (s.giveUp now.millis id) := by
  refine fades_of_sets (fun k _ h => ?_) fun k _ h => ?_
  · simp only [Keyspace.giveUp] at h
    split at h
    · rw [Table.contains_set, Bool.or_eq_true, decide_eq_true_eq] at h
      rcases h with rfl | h
      · exact .inr late
      · exact .inl h
    · exact .inl h
  · obtain ⟨n, hn, late⟩ := h
    rw [Keyspace.giveUp, Table.get?_erase] at hn
    split at hn
    · cases hn
    · exact ⟨n, hn, late⟩

/-- Late claims that are given up had entries that count as queued. -/
theorem fades_foldl_giveUp {ids : List String} (nodup : ids.Nodup) (late : ∀ id ∈ ids, Late now s id) :
    Fades now fire s (ids.foldl (·.giveUp now.millis) s) := by
  induction ids generalizing s with
  | nil => exact .refl now fire s
  | cons id ids ih =>
    obtain ⟨absent, nodup⟩ := List.nodup_cons.mp nodup
    refine (fades_giveUp (late id List.mem_cons_self)).trans (ih nodup fun k mem => ?_)
    obtain ⟨n, hn, le⟩ := late k (List.mem_cons_of_mem _ mem)
    have ne : id ≠ k := by
      rintro rfl
      exact absent mem
    exact ⟨n, (same_giveUp ne now.millis).expiry.trans hn, le⟩

theorem fades_outcome {c : Command} (harmless : Harmless rules now field fire c)
    (later : ∀ expiry, leaseExpiry rules now = .ok expiry → now.millis < expiry) :
    Fades now fire s (c.outcome s).2 := by
  cases c with
  | hset h f text =>
    cases h with
    | active => exact harmless.elim
    | _ => exact .refl now fire s
  | zrem z member =>
    cases z with
    | delayed =>
      refine fades_of_sets (fun k _ h => .inl ?_) fun _ _ h => h
      simp only [Command.outcome, Keyspace.withSet, Keyspace.sortedSet, Table.contains_erase,
        Bool.and_eq_true] at h
      exact h.2
    | leases =>
      refine fades_of_sets (fun _ _ h => .inl h) fun k _ h => ?_
      obtain ⟨n, hn, late⟩ := h
      simp only [Command.outcome, Keyspace.withSet, Keyspace.sortedSet, Table.get?_erase] at hn
      split at hn
      · cases hn
      · exact ⟨n, hn, late⟩
  | insertIfAbsent id entry score =>
    rw [Command.outcome]
    split
    · exact .refl now fire s
    · refine fades_of_sets (fun k hk h => .inl ?_) fun _ _ h => h
      simp only [Keyspace.addPending, Table.contains_set, Bool.or_eq_true, decide_eq_true_eq] at h
      refine h.resolve_left ?_
      rintro rfl
      exact harmless hk
  | claim id claim expiry =>
    rw [Command.outcome]
    split
    · exact fades_addClaim (later expiry harmless) id claim
    · exact .refl now fire s
  | release id claim =>
    rw [Command.outcome]
    split
    · exact fades_dropClaimed id
    · exact .refl now fire s
  | recover n =>
    obtain rfl := harmless
    refine fades_foldl_giveUp (SortedSet.nodup_upTo _ _) fun id mem => ?_
    exact SortedSet.mem_upTo.mp mem
  | hget | hgetall | upTo => exact .refl now fire s
  | hdel | hexists | hkeys | hvals | hlen | removePending | renew => exact harmless.elim

/-- The records of other fields may change. -/
theorem repeats_outcome {c : Command} (harmless : Harmless rules now field fire c) (filed : Filed s) :
    (c.outcome s).2.repeats.get? field = s.repeats.get? field ∧ Filed (c.outcome s).2 := by
  have same {s' : Keyspace} (h : s'.repeats = s.repeats) :
      s'.repeats.get? field = s.repeats.get? field ∧ Filed s' := by
    rw [Filed, h]
    exact ⟨rfl, filed⟩
  cases c with
  | hset h f text =>
    cases h with
    | repeats =>
      obtain ⟨ne, recorded⟩ := harmless
      refine ⟨by simp [Command.outcome, Keyspace.withHash, Keyspace.hash, ne], fun f' text' stored => ?_⟩
      simp only [Command.outcome, Keyspace.withHash, Keyspace.hash, Table.get?_set] at stored
      split at stored
      · next h =>
        cases stored
        exact h ▸ recorded
      · exact filed _ _ stored
    | entries => exact same rfl
    | active => exact harmless.elim
  | zrem z member => cases z <;> exact same rfl
  | recover n => exact same (repeats_foldl_giveUp _ _ _)
  | insertIfAbsent | claim | release =>
    rw [Command.outcome]
    split <;> exact same rfl
  | hget | hgetall | upTo => exact same rfl
  | hdel | hexists | hkeys | hvals | hlen | removePending | renew => exact harmless.elim

/-- While there is no record a program stays unaware of it, and stores none. -/
theorem Unaware.step {p : Program α} (h : Unaware rules now field fire p) (filed : Filed s)
    (gone : s.repeats.get? field = none)
    (later : ∀ expiry, leaseExpiry rules now = .ok expiry → now.millis < expiry) :
    Unaware rules now field fire (p.step s).1 ∧ Filed (p.step s).2 ∧
      (p.step s).2.repeats.get? field = none ∧ Fades now fire s (p.step s).2 := by
  cases h with
  | done => exact ⟨.done, filed, gone, .refl now fire s⟩
  | fail => exact ⟨.fail, filed, gone, .refl now fire s⟩
  | load absent =>
    rw [step_send]
    refine ⟨?_, filed, gone, .refl now fire s⟩
    rw [Command.outcome, Keyspace.hash, gone]
    exact absent
  | @send c next harmless rest =>
    obtain ⟨same, filed'⟩ := repeats_outcome harmless filed
    rw [step_send]
    exact ⟨rest _ (plausible_outcome filed c), filed', same.trans gone, fades_outcome harmless later⟩

end

/-! ## Removals -/

/-- What is left of a removal that has read the record of a field: it deletes that, and takes out its fire. -/
def removeLoaded (field : String) (r : RepeatRecord) : Program Bool := do
  ask (.hdel .repeats field)
  match r.currentInstance with
  | some e => discard (ask (.removePending e.id))
  | none => pure ()
  return true

theorem removeRepeating_eq (key : String) (spec : RepeatSpec) : removeRepeating key spec = (do
    match ← loadRecord (repeatField key spec) with
    | none => return false
    | some r => removeLoaded (repeatField key spec) r) := rfl

/-- An entry that was claimed before. -/
def WasClaimed (s : Keyspace) (id : String) : Prop :=
  s.leases.contains id = true ∨
    ∃ text e, s.entries.get? id = some text ∧ decodeEntry text = .ok e ∧ e.processedOn.isSome

section

variable {α : Type} {rules : ClaimRules} {now : Instant} {key : String} {spec : RepeatSpec} {r : RepeatRecord}
  {s : Keyspace} {x y : Clients α Bool}

/-- What holds from the deletion of a record on. The removal still takes out the fire of the record, or has done so;
then that is queued only if a late claim held it. -/
structure Deleted (rules : ClaimRules) (now : Instant) (key : String) (spec : RepeatSpec) (r : RepeatRecord)
    (s : Keyspace) (y : Clients α Bool) : Prop where
  filed : Filed y.keys
  unaware : Unaware rules now (repeatField key spec) (FireOf key spec) y.left
  gone : y.keys.repeats.get? (repeatField key spec) = none
  fades : Fades now (FireOf key spec) s y.keys
  rest : (∃ e, r.currentInstance = some e ∧ y.right = .send (.removePending e.id) fun _ => .done true) ∨
    y.right = .done true ∧ ∀ e, r.currentInstance = some e → FireOf key spec e.id → Queued now y.keys e.id →
      Late now s e.id

theorem Deleted.stepLeft (h : Deleted rules now key spec r s y)
    (later : ∀ expiry, leaseExpiry rules now = .ok expiry → now.millis < expiry) :
    Deleted rules now key spec r s y.stepLeft := by
  obtain ⟨unaware, filed, gone, fades⟩ := h.unaware.step h.filed h.gone later
  refine ⟨filed, unaware, gone, h.fades.trans fades, h.rest.imp_right ?_⟩
  rintro ⟨done, out⟩
  exact ⟨done, fun e he own queued => out e he own ((fades e.id own).2 queued)⟩

theorem Deleted.stepRight (h : Deleted rules now key spec r s y) :
    Deleted rules now key spec r s y.stepRight := by
  obtain ⟨left, right, keys⟩ := y
  rcases h.rest with ⟨e, he, hr⟩ | ⟨done, _⟩
  · obtain rfl : right = _ := hr
    have step := step_send (.removePending e.id) (fun _ => Program.done true) keys
    have dropped (keys' : Keyspace) (same : keys'.repeats = keys.repeats)
        (fades : Fades now (FireOf key spec) keys keys') (out : keys'.delayed.contains e.id = false) :
        Deleted rules now key spec r s ⟨left, .done true, keys'⟩ := by
      refine ⟨?_, h.unaware, ?_, h.fades.trans fades, .inr ⟨rfl, ?_⟩⟩
      · rw [Filed, same]
        exact h.filed
      · rw [same]
        exact h.gone
      · intro e' he' own queued
        obtain rfl := Option.some.inj (he.symm.trans he')
        rcases queued with waits | late
        · exact absurd waits (Bool.eq_false_iff.mp out)
        · exact ((h.fades.trans fades) _ own).1 late
    rw [Clients.stepRight, step, Command.outcome]
    dsimp only
    split
    · exact dropped _ rfl (fades_dropPending e.id) (by simp [Keyspace.dropPending])
    · next absent => exact dropped _ rfl (.refl now _ keys) (Bool.eq_false_iff.mpr absent)
  · obtain rfl : right = _ := done
    exact h

/-- A removal deletes the record. -/
theorem deleted_of_removeLoaded (filed : Filed x.keys)
    (unaware : Unaware rules now (repeatField key spec) (FireOf key spec) x.left)
    (right : x.right = removeLoaded (repeatField key spec) r) :
    Deleted rules now key spec r x.keys x.stepRight := by
  obtain ⟨left, right, keys⟩ := x
  subst right
  have step : (removeLoaded (repeatField key spec) r).step keys =
      (match r.currentInstance with
        | some e => .send (.removePending e.id) fun _ => .done true
        | none => .done true,
      { keys with repeats := keys.repeats.erase (repeatField key spec) }) := by
    refine (step_send _ _ _).trans ?_
    cases r.currentInstance <;> rfl
  rw [Clients.stepRight, step]
  refine ⟨fun f text stored => ?_, unaware, ?_, ?_, ?_⟩
  · rw [Table.get?_erase] at stored
    split at stored
    · cases stored
    · exact filed f text stored
  · rw [Table.get?_erase, if_pos rfl]
  · exact fades_of_sets (fun _ _ h => .inl h) fun _ _ h => h
  · cases fire : r.currentInstance with
    | some e => exact .inl ⟨e, rfl, rfl⟩
    | none => exact .inr ⟨rfl, fun _ h => by cases h⟩

/-- A removal wins if the other client is unaware of the record when it is deleted: no record is left in the end, and no
fire but those that had been claimed before. -/
theorem removal_wins (later : ∀ expiry, leaseExpiry rules now = .ok expiry → now.millis < expiry)
    (filed : Filed x.keys) (unaware : Unaware rules now (repeatField key spec) (FireOf key spec) x.left)
    (right : x.right = removeLoaded (repeatField key spec) r)
    (current : ∀ t, Queued now x.keys (instanceId key spec t) → r.currentInstance.map (·.id) = some (instanceId key spec t) ∨
      WasClaimed x.keys (instanceId key spec t))
    (run : Clients.Reach x.stepRight y) (ended : y.right.result? = some (.ok true)) :
    y.keys.repeats.get? (repeatField key spec) = none ∧
      ∀ t, y.keys.delayed.contains (instanceId key spec t) = true → WasClaimed x.keys (instanceId key spec t) := by
  have deleted : Deleted rules now key spec r x.keys y :=
    run.invariant (deleted_of_removeLoaded filed unaware right) (fun _ h => h.stepLeft later) fun _ h => h.stepRight
  refine ⟨deleted.gone, fun t waits => ?_⟩
  have own : FireOf key spec (instanceId key spec t) := ⟨t, rfl⟩
  rcases current t ((deleted.fades _ own).2 (.inl waits)) with fire | claimed
  · obtain ⟨e, he, hid⟩ := Option.map_eq_some_iff.mp fire
    rcases deleted.rest with ⟨_, _, hr⟩ | ⟨_, out⟩
    · simp [hr, result?] at ended
    · obtain ⟨expiry, late, _⟩ := out e he (hid ▸ own) (.inl (hid ▸ waits))
      exact .inl (hid ▸ Table.contains_iff.mpr ⟨expiry, late⟩)
  · exact claimed

end

/-- A keyspace with one record and an entry that waits. -/
def oneChain (r : RepeatRecord) (fire : StoredEntry) : Keyspace :=
  { ({} : Keyspace).addPending fire.id (entryText fire) fire.fireAt.millis with
    repeats := Table.empty.set r.field (recordText r) }

section

variable {r : RepeatRecord} {fire : StoredEntry} {now : Instant} {id : String}

theorem consistent_oneChain (r : RepeatRecord) (fire : StoredEntry) : Consistent (oneChain r fire) := by
  have free : At {} fire.id .absent := ⟨rfl, rfl, rfl, rfl, fun h => (by cases h), fun h => (by cases h)⟩
  exact (Consistent.empty.update (at_addPending free fire.fireAt.millis) rfl
    fun ne => same_addPending ne _ _).setRecord r

theorem filed_oneChain (hs : r.spec.Colonless) : Filed (oneChain r fire) := by
  intro f text stored
  simp only [oneChain, Table.get?_set, Table.get?_empty, Option.ite_none_right_eq_some] at stored
  obtain ⟨rfl, h⟩ := stored
  exact ⟨r, (Option.some.inj h).symm, rfl, hs⟩

theorem queued_oneChain (h : Queued now (oneChain r fire) id) : fire.id = id := by
  rcases h with waits | ⟨_, late, _⟩
  · simpa [oneChain, Keyspace.addPending] using waits
  · cases late

end

/-- A chain of seconds that waits for its first fire. -/
def chainOfSeconds : RepeatRecord := ⟨"a", .every 1000, .null, some (.ofMillis 1000)⟩

def firstSecond : StoredEntry := .ofFire "a" (.every 1000) (.ofMillis 1000) .null

/-- A claim that has not started when the record is deleted finds nothing of it. -/
theorem removal_wins_before_claim :
    let x : Clients _ Bool := ⟨claimDue {} (.ofMillis 2000) 5,
      removeLoaded (repeatField "a" (.every 1000)) chainOfSeconds, oneChain chainOfSeconds firstSecond⟩
    let y := x.stepRight.follow [false, true, true]
    y.keys.repeats.get? (repeatField "a" (.every 1000)) = none ∧
      ∀ t, y.keys.delayed.contains (instanceId "a" (.every 1000) t) = true →
        WasClaimed x.keys (instanceId "a" (.every 1000) t) := by
  have later (expiry : Int) (inTime : leaseExpiry {} (.ofMillis 2000) = .ok expiry) :
      (Instant.ofMillis 2000).millis < expiry := by
    have lease : leaseExpiry {} (.ofMillis 2000) = .ok 302000 := by decide
    rw [lease] at inTime
    cases inTime
    decide
  have unaware : Unaware {} (.ofMillis 2000) (repeatField "a" (.every 1000)) (FireOf "a" (.every 1000))
      (claimDue {} (.ofMillis 2000) 5) := unaware_claimDue (by trivial) 5
  refine removal_wins (r := chainOfSeconds) later ?_ unaware rfl ?_ (Clients.reach_follow _ _) (by decide +kernel)
  · exact filed_oneChain (r := chainOfSeconds) trivial
  · exact fun t queued => .inl (congrArg some (queued_oneChain queued))

/-- A claim that has read the record stores it moved on, with its next fire, after the removal has ended. -/
theorem claim_undoes_removal :
    ∃ (s : Keyspace) (order : List Bool),
      let x : Clients (List StoredEntry) Bool :=
        ⟨claimDue {} (.ofMillis 2000) 5, removeRepeating "a" (.every 1000), s⟩
      let y := x.follow order
      Represented s ∧ Clients.Reach x y ∧ y.left.result?.isSome ∧ y.right.result? = some (.ok true) ∧
        y.keys.repeats.contains (repeatField "a" (.every 1000)) = true ∧
        y.keys.delayed.contains (instanceId "a" (.every 1000) (.ofMillis 3000)) = true ∧
        (y.keys.entries.get? (instanceId "a" (.every 1000) (.ofMillis 3000))).map
          (fun text => (decodeEntry text).toOption.map (·.processedOn)) = some (some none) := by
  refine ⟨oneChain chainOfSeconds firstSecond,
    List.replicate 5 true ++ List.replicate 3 false ++ List.replicate 4 true,
    (consistent_oneChain _ _).represented, Clients.reach_follow _ _, ?_⟩
  decide +kernel

end SharedQueue

end Timetable
