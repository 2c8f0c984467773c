import Timetable.Proofs.Keyspace.Program
import Timetable.Proofs.Queue.Cells
import Timetable.Proofs.Queue.Run

/-!
# What a shared queue may do to its keyspace

Every command that a request sends is a `Move` of the keyspace: one cell or one record changes in one of a few ways, or
claims are given up. Moves keep a keyspace consistent. A property of keyspaces that all moves of a request preserve
holds wherever that request may be cut short (`keeps_program`).
-/

namespace Timetable.SharedQueue

/-- A record that is read from its field. -/
def Stored (s : Keyspace) (r : RepeatRecord) : Prop :=
  ∃ text, s.repeats.get? r.field = some text ∧ decodeRecord text = .ok r

/-- Where a record comes from that a request saves, if what is read has some property. -/
inductive Made (now : Instant) (request : QueueRequest) (G : RepeatRecord → Prop) : RepeatRecord → Prop
  | created {key : String} {spec : RepeatSpec} {payload : Json} {r : RepeatRecord} :
    request = .addRepeating key spec payload → RepeatRecord.create key spec payload now = .ok r →
    Made now request G r
  | changed {key : String} {spec : RepeatSpec} {payload : Json} {old : RepeatRecord} :
    request = .addRepeating key spec payload → G old → Made now request G { old with payload }
  | advanced {r next : RepeatRecord} : G r → r.advance now = .ok next → Made now request G next

/-- What a request may do to a keyspace, if the records that it reads have some property. -/
inductive Move (rules : ClaimRules) (now : Instant) (request : QueueRequest) (G : RepeatRecord → Prop) :
    Keyspace → Keyspace → Prop
  | addSingle {s : Keyspace} {key : String} {delay : Nat} {payload : Json} {fireAt : Instant} :
    request = .addDelayed key delay payload → now.addMillis? (signedWord delay) = some fireAt →
    At s (singleId key) .absent →
    Move rules now request G s
      (s.addPending (singleId key) (entryText (.single key fireAt payload)) fireAt.millis)
  | addInstance {s : Keyspace} {r : RepeatRecord} {e : StoredEntry} :
    Made now request G r → r.currentInstance = some e → At s e.id .absent →
    Move rules now request G s (s.addPending e.id (entryText e) e.fireAt.millis)
  | dropSingle {s : Keyspace} {key : String} {e : StoredEntry} {score : Int} :
    request = .removeDelayed key → At s (singleId key) (.waiting e score) →
    Move rules now request G s (s.dropPending (singleId key))
  | dropInstance {s : Keyspace} {r : RepeatRecord} {fire e : StoredEntry} {score : Int} :
    r.currentInstance = some fire → At s fire.id (.waiting e score) →
    Move rules now request G s (s.dropPending fire.id)
  /-- What is due is claimed. -/
  | claim {s : Keyspace} {id : String} {e stored : StoredEntry} {score expiry : Int} :
    At s id (.waiting e score) → score ≤ now.millis → decodeEntry (entryText e) = .ok stored →
    leaseExpiry rules now = .ok expiry →
    Move rules now request G s (s.addClaim id (ActiveClaim.mk stored.key now.millis).text expiry)
  /-- The time of a claim is stored. -/
  | stamp {s : Keyspace} {id : String} {e stored : StoredEntry} {a : ActiveClaim} {expiry : Int} :
    At s id (.claimed e a expiry) → decodeEntry (entryText e) = .ok stored →
    Move rules now request G s
      { s with entries := s.entries.set id (entryText { stored with processedOn := some now }) }
  | renew {s : Keyspace} {id : String} {e : StoredEntry} {a : ActiveClaim} {expiry expiry' : Int} :
    At s id (.claimed e a expiry) → leaseExpiry rules now = .ok expiry' →
    Move rules now request G s (s.extendLease id expiry')
  | finish {s : Keyspace} {id : String} {e held : StoredEntry} {a claim : ActiveClaim} {expiry : Int} :
    request = .finish held → held.id = id → ActiveClaim.ofEntry? held = some claim →
    claim.text = a.text → At s id (.claimed e a expiry) →
    Move rules now request G s (s.dropClaimed id)
  /-- A fire is dropped. -/
  | skip {s : Keyspace} {id : String} {e : StoredEntry} {a : ActiveClaim} {spec : RepeatSpec}
      {expiry : Int} :
    At s id (.claimed e a expiry) → e.repeats = some spec →
    Move rules now request G s (s.dropClaimed id)
  | recover {s : Keyspace} :
    Move rules now request G s ((s.leases.upTo now.millis).foldl (·.giveUp now.millis) s)
  | saveRecord {s : Keyspace} {r : RepeatRecord} : Made now request G r →
    Move rules now request G s { s with repeats := s.repeats.set r.field (recordText r) }
  | eraseRecord {s : Keyspace} (field : String) :
    Move rules now request G s { s with repeats := s.repeats.erase field }

variable {rules : ClaimRules} {now : Instant} {request : QueueRequest}
  {G : RepeatRecord → Prop} {s s' : Keyspace}

theorem Move.consistent (h : Consistent s) (m : Move rules now request G s s') : Consistent s' := by
  cases m with
  | @addSingle key _ payload fireAt _ _ free =>
    have stored := at_addPending (e := .single key fireAt payload) free fireAt.millis
    exact h.update stored rfl fun ne => same_addPending ne _ _
  | addInstance _ _ free =>
    exact h.update (at_addPending free _) rfl fun ne => same_addPending ne _ _
  | dropSingle _ held => exact h.update (at_dropPending held) rfl same_dropPending
  | dropInstance _ held => exact h.update (at_dropPending held) rfl same_dropPending
  | claim held _ read _ =>
    refine h.update (at_addClaim held ?_ _) rfl fun ne => same_addClaim ne _ _
    exact (StoredEntry.named_of_decode read).2.1.symm
  | stamp held read =>
    obtain ⟨own, key, _⟩ := StoredEntry.named_of_decode read
    refine h.update (at_setEntry held ?_ ?_) rfl fun ne => same_setEntry ne _
    · exact own.trans (held.ownId rfl)
    · exact key.trans (held.ownKey rfl rfl)
  | renew held _ => exact h.update (at_extendLease held _) rfl fun ne => same_extendLease ne _
  | finish _ _ _ _ held => exact h.update (at_dropClaimed held) rfl same_dropClaimed
  | skip held _ => exact h.update (at_dropClaimed held) rfl same_dropClaimed
  | recover => exact h.recover now.millis
  | saveRecord _ => exact h.setRecord _
  | eraseRecord field => exact h.eraseRecord field

end Timetable.SharedQueue
