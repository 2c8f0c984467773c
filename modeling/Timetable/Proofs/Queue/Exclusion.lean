import Timetable.Proofs.Queue.Leases
import Timetable.Proofs.Queue.SharedLeases

/-!
# Both queues exclude claims

A claim of due entries hands out no identifier twice, nor again while a claim of it is unfinished and its lease runs
(`claims_exclude`). In memory a claim is known by identifier and time, in a shared keyspace by identifier, key and
millisecond, and there leases end at whole milliseconds.

A claim has no other name. Whoever claimed an entry that was then finished, added and claimed again within the same
instant finishes that later claim too (`finish_ends_later_claim`).
-/

namespace Timetable

theorem claims_exclude (rules : ClaimRules) (faults : CommandFaults) :
    (LocalQueue.workQueue rules).Excludes (¬ ·.InLeapSecond) {} LocalQueue.SameClaim (LocalQueue.LeaseOver rules) ∧
      (SharedQueue.workQueue rules faults).Excludes (¬ ·.InLeapSecond) {} SharedQueue.SameClaim
        (SharedQueue.LeaseOver rules) :=
  ⟨LocalQueue.excludes rules _, SharedQueue.excludes rules faults⟩

section

open LocalQueue

/-- A queue with an entry that is due. -/
def oneDue : LocalQueue := ((addDelayed (.ofMillis 0) "a" 0 .null).on {}).2

/-- The entry as it is handed out at some time. -/
def handedOut (now : Instant) : StoredEntry :=
  { StoredEntry.single "a" (.ofMillis 0) .null with processedOn := some now }

/-- A claim that was renewed after one second is handed out again at the end of that lease, and no sooner. -/
theorem claims_exclude_until_renewed_lease_ends :
    let claimed := ((claimDue {} (.ofMillis 0) 1).on oneDue).2
    let renewed := ((renewLease {} (handedOut (.ofMillis 0)) (.ofMillis 1000)).on claimed).2
    ((claimDue {} (.ofMillis 301000) 1).on renewed).1 = .ok [handedOut (.ofMillis 301000)] ∧
      LeaseOver {} (.ofMillis 1000) (.ofMillis 301000) := by
  intro claimed renewed
  have added : (workQueue {}).Run (WorkQueue.forward (¬ ·.InLeapSecond)) (.ofMillis 0) {} (.ofMillis 0) oneDue :=
    .step (r := .addDelayed "a" 0 .null) .start ⟨by decide, by decide⟩
  have out : (claimDue {} (.ofMillis 0) 1).on oneDue = (.ok [handedOut (.ofMillis 0)], claimed) := by decide +kernel
  have extended : (((workQueue {}).ask (.ofMillis 1000) (.renewLease (handedOut (.ofMillis 0)))).on claimed).1 =
      .ok true := by decide +kernel
  have unfinished : (workQueue {}).Unfinished (¬ ·.InLeapSecond) (SameClaim (handedOut (.ofMillis 0))) (.ofMillis 0)
      claimed (.ofMillis 1000) (.ofMillis 1000) renewed :=
    .renewed .claimed (by decide) (by decide) ⟨rfl, rfl⟩ extended
  have again : (claimDue {} (.ofMillis 301000) 1).on renewed =
      (.ok [handedOut (.ofMillis 301000)], ((claimDue {} (.ofMillis 301000) 1).on renewed).2) := by decide +kernel
  refine ⟨congrArg Prod.fst again, ?_⟩
  exact (claims_exclude {} .none).1.again added (by decide) (by decide) out (List.mem_singleton_self _) unfinished
    (by decide) (by decide) again (List.mem_singleton_self _) rfl

/-- Within one instant an entry is claimed, finished, added and claimed again, and the holder of the first claim
finishes once more. Then the entry of the second claim is gone, and when it is added it is handed out a third time.
Also, in a shared keyspace a lease of one and a half milliseconds ends after one. -/
theorem finish_ends_later_claim :
    (let claim (q : LocalQueue) := (claimDue {} (.ofMillis 0) 1).on q
      let readd (q : LocalQueue) :=
        ((addDelayed (.ofMillis 0) "a" 0 .null).on ((finish (handedOut (.ofMillis 0))).on q).2).2
      let first := claim oneDue
      let second := claim (readd first.2)
      let third := claim (readd second.2)
      first.1 = .ok [handedOut (.ofMillis 0)] ∧ second.1 = .ok [handedOut (.ofMillis 0)] ∧
        third.1 = .ok [handedOut (.ofMillis 0)] ∧ (Instant.ofMillis 0).add? 300000000000 = some (.ofMillis 300000)) ∧
    (let queue := SharedQueue.workQueue { lease := 1500000 } .none
      let added := (queue.addDelayed (.ofMillis 0) "a" 0 .null).on {}
      let first := (queue.claimDue (.ofMillis 0) 1).on added.2
      let second := (queue.claimDue (.ofMillis 1) 1).on first.2
      first.1 = .ok [handedOut (.ofMillis 0)] ∧ second.1 = .ok [handedOut (.ofMillis 1)] ∧
        ¬ (Instant.ofMillis 0).plus 1500000 ≤ .ofMillis 1) := by
  constructor
  · decide +kernel
  · decide +kernel

end

end Timetable
