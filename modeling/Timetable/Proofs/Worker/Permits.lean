import Timetable.Proofs.Keyspace.Faults
import Timetable.Proofs.Queue.Exclusion
import Timetable.Proofs.Worker.Discipline

/-!
# Workers at both queues

Neither queue hands out more than it is asked for, so a worker at either keeps to its permits, dispatches every entry
that it claims once, and returns when all of them are over (`workers_are_disciplined`).

Not every dispatch finishes, and not every worker waits for its dispatches (`dispatches_without_finish`). One that
should renew its claim without a pause is lost before it processes anything, one is lost where the calendar does not
reach the lease that it renews, and a worker with `2 ^ 32` permits drains none of them.
-/

namespace Timetable

namespace LocalQueue

variable {rules : ClaimRules} {e : StoredEntry} {now : Instant} {q q' : LocalQueue} {out : List StoredEntry}
  {limit : Nat}

theorem length_claimEach_le {es : List StoredEntry} (claim : (claimEach rules now es limit).on q = (.ok out, q')) :
    out.length ≤ limit := by
  induction es generalizing q limit out with
  | nil =>
    cases claim
    exact Nat.zero_le _
  | cons e es ih =>
    cases limit with
    | zero =>
      cases claim
      exact Nat.le_refl _
    | succ limit =>
      obtain ⟨first, _, _, rest⟩ := Act.on_bind_eq_ok.mp claim
      cases first with
      | none => exact ih rest
      | some claimed =>
        obtain ⟨more, _, later, done⟩ := Act.on_bind_eq_ok.mp rest
        cases done
        exact Nat.succ_le_succ (ih later)

theorem limited (rules : ClaimRules) : (workQueue rules).Limited := by
  intro now limit s out s' claim
  obtain ⟨_, _, _, claim⟩ := Act.on_bind_eq_ok.mp claim
  obtain ⟨_, _, _, claim⟩ := Act.on_bind_eq_ok.mp claim
  exact length_claimEach_le claim

theorem renewLease_outOfRange (failed : ((renewLease rules e now).on q).1 = .error .outOfRange) :
    now.add? rules.lease = none := by
  rw [renewLease_on] at failed
  split at failed
  · split at failed
    · assumption
    · cases failed
  · cases failed

end LocalQueue

namespace SharedQueue

variable {rules : ClaimRules} {e : StoredEntry} {now : Instant} {s : Keyspace} {link : Link} {faults : CommandFaults}

open Program

theorem length_claimEach_le (rules : ClaimRules) (now : Instant) (ids : List String) (s : Keyspace) :
    (claimEach rules now ids).Weathers (fun out _ => out.length ≤ ids.length) (fun _ => True) s := by
  induction ids generalizing s with
  | nil => exact .done (Nat.le_refl _)
  | cons id ids ih =>
    refine (Weathers.any (claimId rules now id) s).bind fun first s _ => ?_
    cases first with
    | none => exact (ih s).mono (fun _ _ le => Nat.le_succ_of_le le) fun _ h => h
    | some claimed => exact (ih s).bind fun more _ le => .done (Nat.succ_le_succ le)

theorem limited (rules : ClaimRules) (faults : CommandFaults) : (workQueue rules faults).Limited := by
  intro now limit link out link' claim
  have few : (claimDue rules now limit).Weathers (fun out _ => out.length ≤ limit) (fun _ => True) link.keys := by
    refine (Weathers.any _ _).bind fun _ s _ => .askThen fun _ => Act.ends_bind.mpr ?_
    refine Command.upToStep_ends trivial (Act.ends_pure.mpr ?_)
    refine (length_claimEach_le rules now _ s).mono (fun out _ le => ?_) fun _ h => h
    exact Nat.le_trans le (List.length_take_le ..)
  exact (Act.ends_of_on_ok claim).mp (few.ends faults rfl)

theorem renewLease_outOfRange (failed : (((renewLease rules e now).run faults).on link).1 = .error .outOfRange) :
    now.add? rules.lease = none := by
  unfold renewLease at failed
  split at failed
  · cases failed
  · next claim _ =>
    cases later : now.add? rules.lease with
    | none => rfl
    | some expiry =>
      have inTime : leaseExpiry rules now = .ok expiry.millis := by rw [leaseExpiry, later]
      rw [inTime] at failed
      change ((run faults (send (.renew e.id claim.text expiry.millis) .done)).on link).1 = _ at failed
      rw [run_send] at failed
      -- what the server says when a command fails is another error
      split at failed <;> cases failed

end SharedQueue

variable {σ ρ ε α : Type}

/-- A worker at either queue that pauses between renewals keeps to its permits, dispatches every entry that it claims
once, and waits for all of it. What it loses it loses where the calendar does not reach a lease that it renews. -/
theorem workers_are_disciplined (rules : ClaimRules) :
    (∀ w : Worker LocalQueue ρ ε α, w.queue = LocalQueue.workQueue rules → 0 < w.renewEvery →
      w.Disciplined ∧ ∀ e now, w.Beyond e now → now.add? rules.lease = none) ∧
    (∀ faults, ∀ w : Worker Link ρ ε α, w.queue = SharedQueue.workQueue rules faults → 0 < w.renewEvery →
      w.Disciplined ∧ ∀ e now, w.Beyond e now → now.add? rules.lease = none) := by
  constructor
  · rintro ⟨_, handler, concurrency, renewEvery⟩ rfl positive
    refine ⟨.of_limited positive (LocalQueue.limited rules), ?_⟩
    rintro e now ⟨queue, late⟩
    exact LocalQueue.renewLease_outOfRange late
  · rintro faults ⟨_, handler, concurrency, renewEvery⟩ rfl positive
    refine ⟨.of_limited positive (SharedQueue.limited rules faults), ?_⟩
    rintro e now ⟨link, late⟩
    exact SharedQueue.renewLease_outOfRange late

/-! ## A worker that notes its callbacks -/

/-- A worker of entries that take a second and a half each, which notes its callbacks in the store. -/
def notingWorker (queue : WorkQueue σ) (permits pause : Nat) : Worker σ (List String) Empty Unit where
  queue
  handler :=
    { start := fun _ world => ({ takes := 1500, outcome := .ok () }, { world with store := world.store ++ ["process"] })
      completed := fun _ _ _ => modify fun world => { world with store := world.store ++ ["completed"] }
      failed := fun _ error _ => nomatch error }
  concurrency := permits
  renewEvery := pause

/-- An airspace of such a worker before it does anything. -/
def unnoted (now : Instant) (queue : σ) : Airspace σ (List String) Empty Unit := { world := ⟨now, queue, [], {}⟩ }

theorem notingWorker_finishes {q : WorkQueue σ} {s : σ} {entries : List StoredEntry}
    (disciplined : (notingWorker q 4 1000).Disciplined)
    (due : (notingWorker q 4 1000).taken (unnoted (.ofMillis 0) s) = entries) :
    ∃ p, (notingWorker q 4 1000).Reached p ∧
      p.Shows ((notingWorker q 4 1000).drain ((notingWorker q 4 1000).poll (unnoted (.ofMillis 0) s)).2) ∧
      p.claimed = entries ∧ p.AllOver (notingWorker q 4 1000) := by
  let before : Pool σ (List String) Empty Unit := { unnoted (.ofMillis 0) s with }
  have start : (notingWorker q 4 1000).Reached before := ⟨_, .refl⟩
  obtain ⟨p₁, turns, shows, claimed⟩ := disciplined.turns start ⟨rfl, rfl, rfl⟩ .poll
  have polled := start.turns turns
  have counted : 4 < 4294967296 := by decide
  obtain ⟨p₂, turns, shows, same, ended⟩ := disciplined.drained counted polled shows
  exact ⟨p₂, polled.turns turns, shows, by rw [same, claimed, due]; rfl, ended⟩

/-- An entry is due. A worker at either queue polls and drains, and its dispatch is over. -/
theorem noting_workers_finish :
    (let w := notingWorker (LocalQueue.workQueue {}) 4 1000
      ∃ p, w.Reached p ∧ p.Shows (w.drain (w.poll (unnoted (.ofMillis 0) oneDue)).2) ∧
        p.claimed = [handedOut (.ofMillis 0)] ∧ p.AllOver w) ∧
    (let q := SharedQueue.workQueue {} .none
      let w := notingWorker q 4 1000
      let added := ((q.addDelayed (.ofMillis 0) "a" 0 .null).on {}).2
      ∃ p, w.Reached p ∧ p.Shows (w.drain (w.poll (unnoted (.ofMillis 0) added)).2) ∧
        p.claimed = [handedOut (.ofMillis 0)] ∧ p.AllOver w) := by
  have disciplined := @workers_are_disciplined (List String) Empty Unit {}
  constructor
  · exact notingWorker_finishes (disciplined.1 _ rfl (by decide)).1 (by decide +kernel)
  · exact notingWorker_finishes (disciplined.2 .none _ rfl (by decide)).1 (by decide +kernel)

/-- What follows when such a worker starts an entry and renews its claim every second. -/
def notingSteps (start : Instant) : List (Instant × FlightStep (World σ (List String)) Empty Unit) :=
  [(start.plusMillis 1000, .renew), (start.plusMillis 1500, .settle (.ok ())), (start.plusMillis 1500, .finish)]

theorem stepsOf_notingWorker (q : WorkQueue σ) (permits : Nat) (start : Instant) :
    (notingWorker q permits 1000).stepsOf start { takes := 1500, outcome := .ok () } = notingSteps start := by
  rw [Worker.stepsOf_eq, Worker.plan, List.mergeSort_of_pairwise]
  · simp [Worker.onTheWay, Worker.renewals, notingWorker, notingSteps, Course.lasts, Worker.lastSteps]
  · simp [Worker.onTheWay, Worker.renewals, notingWorker, Course.lasts, Worker.lastSteps]

theorem launch_notingWorker {q : WorkQueue σ} {permits : Nat} {world : World σ (List String)}
    (later : ¬ world.now.plusMillis 1000 ≤ world.now) (e : StoredEntry) :
    (notingWorker q permits 1000).launch { world } e =
      ⟨{ world with store := world.store ++ ["process"] }, [⟨e, notingSteps world.now⟩]⟩ := by
  have steps := stepsOf_notingWorker q permits world.now
  unfold notingWorker at steps
  simp [Worker.launch, notingWorker, steps, notingSteps, Worker.advanceWhile, Worker.dueSteps, Worker.performEach,
    Worker.leftOver, later]

theorem poll_notingWorker {permits : Nat} {now : Instant} {e : StoredEntry} {s s' : LocalQueue} (free : 0 < permits)
    (later : ¬ now.plusMillis 1000 ≤ now) (claim : (LocalQueue.claimDue {} now permits).on s = (.ok [e], s')) :
    ∃ journal, ((notingWorker (LocalQueue.workQueue {}) permits 1000).poll (unnoted now s)).2 =
      ⟨⟨now, s', ["process"], journal⟩, [⟨e, notingSteps now⟩]⟩ := by
  let w := notingWorker (LocalQueue.workQueue {}) permits 1000
  have polled := (w.poll_of_claim (a := unnoted now s) free claim).1
  refine ⟨(w.gauge ⟨now, s', [], {}⟩).journal, ?_⟩
  rw [polled]
  exact launch_notingWorker later e

/-- The calendar does not reach the first lease that is renewed. -/
theorem advance_notingWorker {q : WorkQueue σ} {permits : Nat} {world : World σ (List String)} {start until_ : Instant}
    {e : StoredEntry} (first : start.plusMillis 1000 < until_) (only : ¬ start.plusMillis 1500 < until_)
    (late : ((q.renewLease e (start.plusMillis 1000)).on world.queue).1 = .error .outOfRange) :
    let after := (notingWorker q permits 1000).advance until_ ⟨world, [⟨e, notingSteps start⟩]⟩
    after.flights = [] ∧ after.world.store = world.store := by
  simp [Worker.advance, Worker.advanceWhile, Worker.dueSteps, notingSteps, Worker.performEach, Worker.perform,
    Worker.leftOver, first, only, notingWorker, World.onQueue, World.putQueue, late]

/-- An entry is due. A worker that renews its claims without a pause claims it and does nothing about it. One for which
the calendar ends loses it when its lease is renewed. One with as many permits as there are numbers of 32 bits does not
wait for it. -/
theorem dispatches_without_finish :
    (let w := notingWorker (LocalQueue.workQueue {}) 4 0
      let a := unnoted (.ofMillis 0) oneDue
      w.taken a = [handedOut (.ofMillis 0)] ∧ (w.poll a).2.flights = [] ∧ (w.poll a).2.world.store = []) ∧
    (let start : Instant := ⟨8210266876499, 0⟩
      let w := notingWorker (LocalQueue.workQueue {}) 4 1000
      let a := unnoted start oneDue
      let after := w.advance (start.plusMillis 1001) (w.poll a).2
      w.taken a = [handedOut start] ∧ after.flights = [] ∧ after.world.store = ["process"]) ∧
    (let w := notingWorker (LocalQueue.workQueue {}) 4294967296 1000
      let a := unnoted (.ofMillis 0) oneDue
      w.taken a = [handedOut (.ofMillis 0)] ∧ (w.drain (w.poll a).2).flights.length = 1) := by
  refine ⟨⟨?_, ?_, ?_⟩, ⟨?_, ?_⟩, ?_, ?_⟩
  · decide +kernel
  · exact List.eq_nil_of_length_eq_zero (by decide +kernel)
  · decide +kernel
  · decide +kernel
  · let start : Instant := ⟨8210266876499, 0⟩
    have claim : (LocalQueue.claimDue {} start 4).on oneDue =
        (.ok [handedOut start], ((LocalQueue.claimDue {} start 4).on oneDue).2) := by decide +kernel
    have late : ((LocalQueue.renewLease {} (handedOut start) (start.plusMillis 1000)).on
        ((LocalQueue.claimDue {} start 4).on oneDue).2).1 = .error .outOfRange := by decide +kernel
    obtain ⟨journal, polled⟩ := poll_notingWorker (by decide) (by decide) claim
    have first : start.plusMillis 1000 < start.plusMillis 1001 := by decide
    have only : ¬ start.plusMillis 1500 < start.plusMillis 1001 := by decide
    rw [polled]
    exact advance_notingWorker first only late
  · decide +kernel
  · have claim : (LocalQueue.claimDue {} (.ofMillis 0) 4294967296).on oneDue =
        (.ok [handedOut (.ofMillis 0)], ((LocalQueue.claimDue {} (.ofMillis 0) 4294967296).on oneDue).2) := by
      decide +kernel
    obtain ⟨journal, polled⟩ := poll_notingWorker (by decide) (by decide) claim
    let w := notingWorker (LocalQueue.workQueue {}) 4294967296 1000
    have alone : (w.poll (unnoted (.ofMillis 0) oneDue)).2.flights.length = 1 := by rw [polled, List.length_singleton]
    have few : (w.poll (unnoted (.ofMillis 0) oneDue)).2.flights.length ≤ w.unawaited := by
      rw [alone]
      decide
    rw [Worker.drain_of_few few, alone]

end Timetable
