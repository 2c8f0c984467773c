import Timetable.Proofs.Queue.Exclusion
import Timetable.Proofs.Queue.LocalFences
import Timetable.Proofs.Queue.SharedFences

/-!
# Both queues fence earlier holders off

Once a claim was given up, its holder neither renews the lease of the next one nor takes its entry out
(`stale_holders_fenced_off`). For that a lease must last a millisecond, which is all that a claim in a shared keyspace
shows of its time.

Whoever holds a claim is heard, unless the calendar does not reach the end of the next lease: then the call breaks off,
in a shared keyspace also for whoever does not hold it any more (`renewals_break_off_at_end_of_calendar`).
-/

namespace Timetable

theorem stale_holders_fenced_off {rules : ClaimRules} {faults : CommandFaults}
    (lease : Instant.nanosPerMilli ≤ rules.lease) (whole : faults.Whole) :
    (LocalQueue.workQueue rules).Fences (fun _ => True) {} LocalQueue.signs (LocalQueue.Heard rules)
        (LocalQueue.Ignored rules) ∧
      (SharedQueue.workQueue rules faults).Fences (¬ ·.InLeapSecond) {} SharedQueue.signs (SharedQueue.Heard rules)
        (SharedQueue.Ignored rules) :=
  ⟨LocalQueue.fences (lt_of_lt_of_le (by decide) lease) _, SharedQueue.fences lease whole⟩

section

open LocalQueue

/-- An entry was claimed, given up when its lease was over, and claimed again by another worker: the first one is
ignored, the second one heard. In the shared keyspace a first attempt to give the claim up failed. -/
theorem fenced_off_after_second_claim :
    (let first := ((claimDue {} (.ofMillis 0) 1).on oneDue).2
      let second := (claimDue {} (.ofMillis 300000) 1).on first
      second.1 = .ok [handedOut (.ofMillis 300000)] ∧ Ignored {} (handedOut (.ofMillis 0)) second.2 ∧
        Heard {} (handedOut (.ofMillis 300000)) second.2) ∧
    (let queue := SharedQueue.workQueue {} (.single 6 "")
      let added := ((queue.addDelayed (.ofMillis 0) "a" 0 .null).on {}).2
      let first := ((queue.claimDue (.ofMillis 0) 1).on added).2
      let failed := (queue.recoverStalled (.ofMillis 300000)).on first
      let second := (queue.claimDue (.ofMillis 300000) 1).on failed.2
      failed.1.toOption = none ∧ second.1 = .ok [handedOut (.ofMillis 300000)] ∧
        SharedQueue.Ignored {} (handedOut (.ofMillis 0)) second.2) := by
  have whole := CommandFaults.whole_single 6 ""
  have lease : Instant.nanosPerMilli ≤ ({} : ClaimRules).lease := by decide
  constructor
  · intro first second
    have fences := (stale_holders_fenced_off lease whole).1
    have run : (workQueue {}).Run (WorkQueue.forward fun _ => True) (.ofMillis 0) {} (.ofMillis 0) oneDue :=
      .step (r := .addDelayed "a" 0 .null) .start ⟨by decide, trivial⟩
    have on : (claimDue {} (.ofMillis 0) 1).on oneDue = (.ok [handedOut (.ofMillis 0)], first) := by decide +kernel
    have on' : (claimDue {} (.ofMillis 300000) 1).on first = (.ok [handedOut (.ofMillis 300000)], second.2) := by
      decide +kernel
    have out : (workQueue {}).HandsOut (fun _ => True) {} (handedOut (.ofMillis 0)) (.ofMillis 0) first :=
      .claimed run (by decide) trivial on (List.mem_singleton_self _)
    have run' : (workQueue {}).Run (WorkQueue.forward fun _ => True) (.ofMillis 0) {} (.ofMillis 0) first :=
      .step (r := .claimDue 1) run ⟨by decide, trivial⟩
    have out' : (workQueue {}).HandsOut (fun _ => True) {} (handedOut (.ofMillis 300000)) (.ofMillis 300000) second.2 :=
      .claimed run' (by decide) trivial on' (List.mem_singleton_self _)
    have given : QueueRequest.GivesUp (.claimDue 1) := trivial
    have gone : ¬ second.2.Held (handedOut (.ofMillis 0)) := fun held => absurd (holdsClaim_iff.mpr held) (by decide +kernel)
    refine ⟨congrArg Prod.fst on', ?_, fences.hears out' .start (fences.current out' .start)⟩
    exact fences.stale out .start (by decide) trivial given (fences.current out .start) gone .start
  · intro queue added first failed second
    have fences := (stale_holders_fenced_off lease whole).2
    have run : queue.Run (WorkQueue.forward (¬ ·.InLeapSecond)) (.ofMillis 0) {} (.ofMillis 0) added :=
      .step (r := .addDelayed "a" 0 .null) .start ⟨by decide, by decide⟩
    have on : (queue.claimDue (.ofMillis 0) 1).on added = (.ok [handedOut (.ofMillis 0)], first) := by decide +kernel
    have out : queue.HandsOut (¬ ·.InLeapSecond) {} (handedOut (.ofMillis 0)) (.ofMillis 0) first :=
      .claimed run (by decide) (by decide) on (List.mem_singleton_self _)
    have failing : queue.Run (WorkQueue.forward (¬ ·.InLeapSecond)) (.ofMillis 0) first (.ofMillis 300000) failed.2 :=
      .step (r := .recoverStalled) .start ⟨by decide, by decide⟩
    have given : QueueRequest.GivesUp (.claimDue 1) := trivial
    -- the claim of the first worker before and after the second claim
    have facts : failed.1.toOption = none ∧ second.1 = .ok [handedOut (.ofMillis 300000)] ∧
        failed.2.keys.active.get? "a:once" = some (ActiveClaim.text ⟨"a", 0⟩) ∧
        second.2.keys.active.get? "a:once" ≠ some (ActiveClaim.text ⟨"a", 0⟩) := by decide +kernel
    obtain ⟨cut, claimed, before, after⟩ := facts
    have held : SharedQueue.Claims (handedOut (.ofMillis 0)) failed.2.keys := ⟨⟨"a", 0⟩, rfl, before⟩
    have gone : ¬ SharedQueue.Claims (handedOut (.ofMillis 0)) second.2.keys := by
      rintro ⟨claim, shown, text⟩
      obtain rfl : ⟨"a", 0⟩ = claim := Option.some.inj shown
      exact after text
    refine ⟨cut, claimed, ?_⟩
    exact fences.stale out failing (by decide) (by decide) given held gone .start

/-- Near the end of the calendar a holder cannot renew its lease, and in a shared keyspace neither can a stale holder
learn that it is one. -/
theorem renewals_break_off_at_end_of_calendar :
    (let start : Instant := ⟨8210266876320, 0⟩
      let added := ((addDelayed start "a" 0 .null).on {}).2
      let first := (claimDue {} start 1).on added
      let e : StoredEntry := { StoredEntry.single "a" start .null with processedOn := some start }
      first.1 = .ok [e] ∧ first.2.Held e ∧ ((renewLease {} e ⟨8210266876560, 0⟩).on first.2).1 = .error .outOfRange) ∧
    (let start : Instant := ⟨8210266876320, 0⟩
      let queue := SharedQueue.workQueue {} .none
      let added := ((queue.addDelayed start "a" 0 .null).on {}).2
      let first := (queue.claimDue start 1).on added
      let recovered := (queue.recoverStalled ⟨8210266876620, 0⟩).on first.2
      let e : StoredEntry := { StoredEntry.single "a" start .null with processedOn := some start }
      first.1 = .ok [e] ∧ recovered.1 = .ok 1 ∧
        ((queue.renewLease e ⟨8210266876620, 0⟩).on recovered.2).1 = .error .outOfRange) := by
  constructor
  · intro start added first e
    have held : first.2.holdsClaim e = true := by decide +kernel
    exact ⟨by decide +kernel, holdsClaim_iff.mp held, by decide +kernel⟩
  · decide +kernel

end

end Timetable
