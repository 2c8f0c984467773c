import Timetable.Proofs.Queue.LocalDelivery
import Timetable.Proofs.Queue.Represented
import Timetable.Proofs.Queue.SharedDelivery

/-!
# Entries that do not repeat are handed out at least once

Both queues deliver what is added once (`singles_delivered`), the queue in a shared keyspace whatever fails in
between. The queue in memory does so only where the calendar reaches the end of the lease: past it a claim breaks off
with the entry already taken out. And the holder of a claim is whoever shows its entry
(`singles_lost_at_end_of_calendar_and_to_earlier_holder`).
-/

namespace Timetable

open SharedQueue (unstamped)

theorem singles_delivered (rules : ClaimRules) (faults : CommandFaults) (whole : faults.Whole) :
    (LocalQueue.workQueue rules).Delivers (LocalQueue.workQueue rules) rules (LocalQueue.timely rules) {}
        LocalQueue.view ∧
      (SharedQueue.workQueue rules faults).Delivers (SharedQueue.workQueue rules .none) rules WorkQueue.timely {}
        SharedQueue.view :=
  ⟨LocalQueue.delivers rules, SharedQueue.delivers rules whole⟩

/-- What was claimed, but whose claim could not be written down, is handed out once the lease is over. -/
theorem singles_delivered_after_failed_stamp :
    (CommandFaults.single 5 "").Whole ∧
      ∃ e out link, SharedQueue.view.stored unstamped "a:once" e ∧
        ((SharedQueue.workQueue {} .none).claimDue (.ofMillis 300000) 1).on unstamped = (.ok out, link) ∧
        { e with processedOn := some (.ofMillis 300000) } ∈ out := by
  have whole := CommandFaults.whole_single 5 ""
  have delivers := (singles_delivered {} (.single 5 "") whole).2
  have start : (Instant.ofMillis 0).Storable := by decide
  have payload : (Json.obj []).Storable := ⟨trivial, by decide⟩
  have added : SharedQueue.failing.Run WorkQueue.timely (.ofMillis 0) {} (.ofMillis 0) _ :=
    .step (r := .addDelayed "a" 0 (.obj [])) .start ⟨le_rfl, start, payload⟩
  have run : SharedQueue.failing.Run WorkQueue.timely (.ofMillis 0) {} (.ofMillis 0) unstamped :=
    .step (r := .claimDue 1) added ⟨le_rfl, start, trivial⟩
  let e := StoredEntry.single "a" (.ofMillis 0) (.obj [])
  have left : unstamped.keys.entries.get? (singleId "a") = some (SharedQueue.entryText e) ∧
      unstamped.keys.leases.get? (singleId "a") = some 300000 ∧ unstamped.keys.entries.size ≤ 1 := by decide +kernel
  have stored : SharedQueue.view.stored unstamped (singleId "a") e := ⟨_, left.1, by decide +kernel⟩
  have free : SharedQueue.view.free unstamped (singleId "a") (.ofMillis 300000) := by
    intro expiry held
    cases left.2.1.symm.trans held
    decide
  have later : (Instant.ofMillis 0) ≤ .ofMillis 300000 := by decide
  obtain ⟨out, link, handed⟩ := delivers.hands run stored later (by decide) (by decide) later free left.2.2
  exact ⟨whole, e, out, link, stored, handed⟩

/-- In the last minutes of the calendar the lease ends past it. And who claimed, finished, added and claimed an entry
within one instant loses it when the first claim is finished once more. -/
theorem singles_lost_at_end_of_calendar_and_to_earlier_holder :
    (let now : Instant := ⟨8210266876740, 0⟩
      let added := ((LocalQueue.addDelayed now "a" 0 (.obj [])).on {}).2
      let claimed := (LocalQueue.claimDue {} now 5).on added
      now.Storable ∧ added.entries.contains "a:once" = true ∧ claimed.1 = .error .outOfRange ∧
        claimed.2.entries.contains "a:once" = false) ∧
    (let now : Instant := .ofMillis 0
      let e : StoredEntry := { StoredEntry.single "a" now (.obj []) with processedOn := some now }
      let add (q : LocalQueue) := ((LocalQueue.addDelayed now "a" 0 (.obj [])).on q).2
      let claim (q : LocalQueue) := (LocalQueue.claimDue {} now 5).on q
      let finish (q : LocalQueue) := ((LocalQueue.finish e).on q).2
      let first := claim (add {})
      let second := claim (add (finish first.2))
      first.1 = .ok [e] ∧ second.1 = .ok [e] ∧ second.2.entries.contains "a:once" = true ∧
        (finish second.2).entries.contains "a:once" = false) := by
  constructor
  · decide +kernel
  · decide +kernel

end Timetable
