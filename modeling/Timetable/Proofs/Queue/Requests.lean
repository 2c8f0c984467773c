import Timetable.Proofs.Queue.Operations

/-!
# Requests to a shared queue

Every request is the run of a program (`ask_eq_run`), and every program keeps what the moves of its request preserve
(`keeps_program`). So a consistent keyspace stays consistent wherever faults strike (`Kept.ask`).
-/

namespace Timetable.SharedQueue

open Program

/-- The program of a request. -/
def program (rules : ClaimRules) (now : Instant) : (r : QueueRequest) → Program r.Answer
  | .addRepeating key spec payload => addRepeating now key spec payload
  | .addDelayed key delay payload => addDelayed now key delay payload
  | .removeRepeating key spec => removeRepeating key spec
  | .removeDelayed key => removeDelayed key
  | .listRepeating => listRepeating
  | .listEntries states => listEntries now states
  | .getEntry key => getEntry now key
  | .claimDue limit => claimDue rules now limit
  | .renewLease entry => renewLease rules entry now
  | .recoverStalled => recoverStalled now
  | .finish entry => finish entry
  | .size => size

theorem ask_eq_run (rules : ClaimRules) (faults : CommandFaults) (now : Instant) (r : QueueRequest) :
    (workQueue rules faults).ask now r = (program rules now r).run faults := by
  cases r <;> rfl

variable {rules : ClaimRules} {now : Instant} {G : RepeatRecord → Prop} {J : Keyspace → Prop} {s : Keyspace}

/-- A program that keeps the keyspace wherever it ends, and wherever it is cut short. -/
abbrev Keeps {α : Type} (J : Keyspace → Prop) (p : Program α) (s : Keyspace) : Prop :=
  p.Safe (Sends J) (fun _ => Kept J) (fun _ => Kept J) s

theorem keeps_ofExcept {α : Type} (kept : Kept J s) (r : Except QueueError α) :
    Keeps J (.ofExcept r) s :=
  .ofExcept (fun _ _ => kept) fun _ _ => kept

/-! ## Adding and removing -/

theorem keeps_addRepeating {key : String} {spec : RepeatSpec} {payload : Json}
    (preserved : Preserved rules now (.addRepeating key spec payload) G J) (kept : Kept J s) :
    Keeps J (addRepeating now key spec payload) s := by
  have save {r : RepeatRecord} (made : Made now (.addRepeating key spec payload) G r) :
      Keeps J (do saveRecord r; insertCurrent r) s := by
    refine (safe_saveRecord preserved kept made).bind ?_
    rintro ⟨⟩ s₁ ⟨kept₁, _⟩
    exact (safe_insertCurrent preserved kept₁ made).weaken fun _ _ h => h.1
  unfold addRepeating
  refine (safe_loadRecord kept _ fun _ _ _ _ => kept).bind ?_
  rintro record s ⟨rfl, loaded⟩
  cases record with
  | none =>
    refine .ofExceptThen (fun _ _ => kept) fun r created => ?_
    exact save (.created rfl created)
  | some old => exact save (.changed rfl (preserved.read kept.holds (loaded old rfl).1))

theorem keeps_addDelayed {key : String} {delay : Nat} {payload : Json}
    (preserved : Preserved rules now (.addDelayed key delay payload) G J) (kept : Kept J s) :
    Keeps J (addDelayed now key delay payload) s := by
  unfold addDelayed
  cases inRange : now.addMillis? (signedWord delay) with
  | none => exact .fail kept
  | some fireAt =>
    refine (safe_insertIfAbsent preserved kept fun free => ?_).weaken fun _ _ h => h.1
    exact .addSingle rfl inRange free

theorem keeps_removePending {request : QueueRequest} {id : String}
    (preserved : Preserved rules now request G J) (kept : Kept J s)
    (drop : ∀ {e score}, At s id (.waiting e score) → Move rules now request G s (s.dropPending id)) :
    Keeps J (ask (.removePending id)) s := by
  refine .send (kept.sends fun _ _ h => by cases h) (.done ?_)
  rw [Command.outcome]
  split
  · next delayed =>
    obtain ⟨c, hc⟩ := kept.consistent.cell id
    obtain ⟨e, score, rfl⟩ := hc.waiting_of_delayed delayed
    exact kept.move preserved (drop hc)
  · exact kept

theorem keeps_removeRepeating {key : String} {spec : RepeatSpec}
    (preserved : Preserved rules now (.removeRepeating key spec) G J) (kept : Kept J s) :
    Keeps J (removeRepeating key spec) s := by
  unfold removeRepeating
  refine (safe_loadRecord kept _ fun _ _ _ _ => kept).bind ?_
  rintro record s ⟨rfl, -⟩
  cases record with
  | none => exact .done kept
  | some r =>
    have kept₁ := kept.move preserved (.eraseRecord (repeatField key spec))
    refine .askThen (kept.sends fun _ _ h => by cases h) ?_
    cases fire : r.currentInstance with
    | none => exact .done kept₁
    | some e =>
      have drop : Keeps J (ask (.removePending e.id)) _ :=
        keeps_removePending preserved kept₁ fun held => .dropInstance fire held
      exact drop.discard.bind fun _ _ kept' => .done kept'

/-! ## Claims -/

theorem keeps_renewLease {e : StoredEntry} (preserved : Preserved rules now (.renewLease e) G J)
    (kept : Kept J s) : Keeps J (renewLease rules e now) s := by
  unfold renewLease
  cases ActiveClaim.ofEntry? e with
  | none => exact .done kept
  | some claim =>
    refine .ofExceptThen (fun _ _ => kept) fun expiry inTime => ?_
    refine .send (kept.sends fun _ _ h => by cases h) (.done ?_)
    rw [Command.outcome]
    split
    · next held =>
      obtain ⟨c, hc⟩ := kept.consistent.cell e.id
      obtain ⟨_, _, _, rfl, _⟩ := hc.claimed_of_active held
      exact kept.move preserved (.renew hc inTime)
    · exact kept

theorem keeps_finish {e : StoredEntry} (preserved : Preserved rules now (.finish e) G J)
    (kept : Kept J s) : Keeps J (finish e) s := by
  unfold finish
  cases holder : ActiveClaim.ofEntry? e with
  | none => exact .done kept
  | some claim =>
    refine Safe.discard (.send (kept.sends fun _ _ h => by cases h) (.done ?_))
    rw [Command.outcome]
    split
    · next held =>
      obtain ⟨c, hc⟩ := kept.consistent.cell e.id
      obtain ⟨_, _, _, rfl, text⟩ := hc.claimed_of_active held
      exact kept.move preserved (.finish rfl rfl holder text hc)
    · exact kept

/-! ## Reading -/

theorem keeps_listEntries (kept : Kept J s) (states : List EntryState) :
    Keeps J (listEntries now states) s := by
  refine .askThen (kept.sends fun _ _ h => by cases h) ?_
  refine .askThen (kept.sends fun _ _ h => by cases h) ?_
  exact .ofExceptThen (fun _ _ => kept) fun _ _ => .done kept

theorem keeps_getEntry (kept : Kept J s) (key : String) : Keeps J (getEntry now key) s := by
  unfold getEntry
  refine .askThen (kept.sends fun _ _ h => by cases h) ?_
  rw [Command.outcome]
  cases (s.hash .entries).get? (singleId key) with
  | none => exact .done kept
  | some text =>
    refine .ofExceptThen (fun _ _ => kept) fun _ _ => ?_
    exact .askThen (kept.sends fun _ _ h => by cases h) (.done kept)

/-! ## All requests -/

theorem keeps_program {request : QueueRequest} (preserved : Preserved rules now request G J)
    (kept : Kept J s) : Keeps J (program rules now request) s := by
  cases request with
  | addRepeating => exact keeps_addRepeating preserved kept
  | addDelayed => exact keeps_addDelayed preserved kept
  | removeRepeating => exact keeps_removeRepeating preserved kept
  | removeDelayed => exact keeps_removePending preserved kept fun held => .dropSingle rfl held
  | listRepeating =>
    exact .askThen (kept.sends fun _ _ h => by cases h) (keeps_ofExcept kept _)
  | listEntries states => exact keeps_listEntries kept states
  | getEntry key => exact keeps_getEntry kept key
  | claimDue limit =>
    exact (safe_claimDue preserved kept limit).mono (fun _ _ h => h) (fun _ _ h => h.1)
      fun _ _ h => h.1
  | renewLease => exact keeps_renewLease preserved kept
  | recoverStalled =>
    exact .send (kept.sends fun _ _ h => by cases h) (.done (kept.move preserved .recover))
  | finish => exact keeps_finish preserved kept
  | size => exact .send (kept.sends fun _ _ h => by cases h) (.done kept)

/-- Whatever the moves of a request preserve holds after it, whether or not it was cut short. -/
theorem Kept.ask {request : QueueRequest} {faults : CommandFaults} {link : Link}
    (kept : Kept J link.keys) (preserved : Preserved rules now request G J) (whole : faults.Whole) :
    Kept J (((workQueue rules faults).ask now request).on link).2.keys := by
  rw [ask_eq_run]
  have ends := (keeps_program preserved kept).ends whole rfl
  refine Act.ends_iff_forall (P := fun link => Kept J link.keys).mp (ends.mono (fun _ _ h => h) ?_)
  rintro _ _ (h | ⟨_, h, _⟩) <;> exact h

end Timetable.SharedQueue
