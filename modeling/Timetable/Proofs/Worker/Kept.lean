import Timetable.Proofs.Queue.Exclusion
import Timetable.Proofs.Worker.Renewal

/-!
# Both queues let a dispatch keep its claim

A dispatch that renews its claim more often than a lease lasts, in whole milliseconds, keeps it until it finishes
(`running_dispatch_keeps_claim`). In memory the lease ends after the next step, in a shared keyspace at a later
millisecond. That is why a lease has to be longer by a whole millisecond there: a score drops what is finer.
-/

namespace Timetable

/-- A lease outlives an interval by a millisecond at least. -/
def ClaimRules.Outlive (rules : ClaimRules) (every : Nat) : Prop :=
  ((every : Int) + 1) * Instant.nanosPerMilli ≤ rules.lease

namespace LocalQueue

variable {rules : ClaimRules} {every : Nat} {e : StoredEntry} {start now : Instant} {q : LocalQueue}

/-- The claim of an entry is held, and its lease runs at some time. -/
def Leased (e : StoredEntry) (now : Instant) (q : LocalQueue) : Prop :=
  q.Held e ∧ ∃ expiry, q.active.get? e.id = some expiry ∧ now < expiry

/-- Nothing is stored under the identifier of an entry, and nothing claimed. -/
def Gone (e : StoredEntry) (q : LocalQueue) : Prop := q.entries.get? e.id = none ∧ q.active.get? e.id = none

theorem running_of_outlive (outlive : rules.Outlive every) (ordinary : ¬ start.InLeapSecond)
    (shown : ¬ now.InLeapSecond) (soon : now ≤ start.plusMillis every) : ¬ LeaseOver rules start now := by
  rintro ⟨expiry, inTime, late⟩
  obtain ⟨rfl, _⟩ := Instant.add?_eq_some_iff.mp inTime
  have passed := Instant.nanos_mono (Instant.not_inLeapSecond_plus ordinary _) late
  have early := Instant.nanos_mono shown soon
  rw [Instant.nanos_plus ordinary] at passed
  rw [Instant.plusMillis, Instant.nanos_plus ordinary] at early
  simp only [ClaimRules.Outlive, Instant.nanosPerMilli] at outlive early
  omega

theorem renewLease_of_locked (locked : Locked rules e start q) {renewed : Bool}
    (answer : ((renewLease rules e now).on q).1 = .ok renewed) : renewed = true := by
  have held : q.holdsClaim e = true := holdsClaim_iff.mpr ⟨locked.held, locked.entry⟩
  rw [renewLease_on, if_pos held] at answer
  cases inTime : now.add? rules.lease with
  | none =>
    rw [inTime] at answer
    cases answer
  | some expiry =>
    rw [inTime] at answer
    exact (Except.ok.inj answer).symm

theorem finish_of_locked (locked : Locked rules e start q) : Gone e ((finish e).on q).2 := by
  have held : q.holdsClaim e = true := holdsClaim_iff.mpr ⟨locked.held, locked.entry⟩
  rw [finish_on, if_pos held]
  constructor <;> simp

theorem keeper (outlive : rules.Outlive every) :
    WorkQueue.Keeper (workQueue rules) Named SameClaim (LeaseOver rules) (Locked rules) every Leased Gone where
  toLock := lock rules _
  lasts := running_of_outlive outlive
  shows {e r now q} locked running := by
    obtain ⟨expiry, inTime, lease⟩ := locked.lease
    refine ⟨⟨locked.held, locked.entry⟩, expiry, lease, ?_⟩
    exact lt_of_not_ge fun late => running ⟨expiry, inTime, late⟩
  own _ := ⟨rfl, rfl⟩
  renews _ locked answer := renewLease_of_locked locked answer
  releases _ locked _ := finish_of_locked locked

end LocalQueue

namespace SharedQueue

open Program Command

variable {rules : ClaimRules} {faults : CommandFaults} {every : Nat} {e : StoredEntry} {start now : Instant}
  {s : Keyspace} {link : Link}

/-- The claim of an entry is held, and its lease runs at some time. -/
def Leased (e : StoredEntry) (now : Instant) (link : Link) : Prop :=
  ∃ claim expiry, ActiveClaim.ofEntry? e = some claim ∧ Held link.keys e.id claim.text expiry ∧ now.millis < expiry

/-- Nothing is left of an entry, wherever it could be. -/
structure Cleared (e : StoredEntry) (s : Keyspace) : Prop where
  entry : s.entries.get? e.id = none
  claim : s.active.get? e.id = none
  lease : s.leases.get? e.id = none
  waiting : s.delayed.get? e.id = none

/-- Nothing is stored under the identifier of an entry, and nothing claimed. -/
def Gone (e : StoredEntry) (link : Link) : Prop := Cleared e link.keys

theorem running_of_outlive (outlive : rules.Outlive every) (ordinary : ¬ start.InLeapSecond)
    (shown : ¬ now.InLeapSecond) (soon : now ≤ start.plusMillis every) : ¬ LeaseOver rules start now := by
  rintro ⟨expiry, inTime, late⟩
  obtain ⟨rfl, _⟩ := Instant.add?_eq_some_iff.mp inTime
  have early := Instant.nanos_mono shown soon
  rw [Instant.millis, Instant.nanos_plus ordinary, Instant.millis] at late
  rw [Instant.plusMillis, Instant.nanos_plus ordinary] at early
  simp only [ClaimRules.Outlive, Instant.nanosPerMilli] at outlive early late
  omega

/-- A renewal that is carried out finds the claim that it names. -/
theorem renewLease_finds {claim : ActiveClaim} (named : ActiveClaim.ofEntry? e = some claim)
    (held : s.active.get? e.id = some claim.text) :
    (renewLease rules e now).Weathers (fun renewed _ => renewed = true) (fun _ => True) s := by
  unfold renewLease
  rw [named]
  refine .ofExceptThen trivial fun expiry _ => .send fun _ => ?_
  refine Act.ends_bind.mpr (guard_ends trivial (Act.ends_bind.mpr (hgetStep_ends trivial ?_)))
  simp only [Keyspace.hash, held, if_true, Act.ends_bind]
  exact zaddStep_ends trivial (Act.ends_pure.mpr (.done rfl))

/-- Finishing takes out what is claimed, unless it is cut short. -/
theorem finish_clears {claim : ActiveClaim} (orderly : Orderly s) (named : ActiveClaim.ofEntry? e = some claim)
    (held : s.active.get? e.id = some claim.text) :
    (finish e).Weathers (fun _ => Cleared e) (fun _ => True) s := by
  have parked := (orderly.claimed (Table.contains_iff.mpr ⟨_, held⟩)).2
  unfold finish
  rw [named]
  refine Weathers.discard (.send fun _ => ?_)
  refine Act.ends_bind.mpr (guard_ends trivial (Act.ends_bind.mpr (hgetStep_ends trivial ?_)))
  simp only [Keyspace.hash, held, if_true, Act.ends_bind, Act.ends_discard]
  refine hdelStep_ends trivial (zremStep_ends trivial (hdelStep_ends trivial (Act.ends_pure.mpr (.done ?_))))
  exact
    { entry := by simp [Keyspace.hash, Keyspace.withHash]
      claim := by simp [Keyspace.hash, Keyspace.withHash, Keyspace.withSet]
      lease := by simp [Keyspace.hash, Keyspace.withHash, Keyspace.withSet, Keyspace.sortedSet]
      waiting := Table.contains_eq_false_iff.mp parked }

theorem keeper (outlive : rules.Outlive every) (faults : CommandFaults) :
    WorkQueue.Keeper (workQueue rules faults) (Orderly ·.keys) SameClaim (LeaseOver rules)
      (fun e start link => Locked rules e start link.keys) every Leased Gone where
  toLock := lock rules faults
  lasts := running_of_outlive outlive
  shows {e r now link} locked running := by
    obtain ⟨claim, expiry, named, inTime, held⟩ := locked
    obtain ⟨t, reached, rfl⟩ := leaseExpiry_eq_ok.mp inTime
    exact ⟨claim, _, named, held, lt_of_not_ge fun late => running ⟨t, reached, late⟩⟩
  own _ := ⟨rfl, rfl⟩
  renews {e r now link renewed} _ locked answer := by
    obtain ⟨claim, _, named, _, held⟩ := locked
    exact ((renewLease_finds named held.claim).ends faults rfl).1 renewed answer
  releases {e r link} orderly locked answer := by
    obtain ⟨claim, _, named, _, held⟩ := locked
    exact ((finish_clears orderly named held.claim).ends faults rfl).1 () answer

end SharedQueue

variable {ρ ε α : Type}

theorem ClaimRules.outlive_of_lt {rules : ClaimRules} {every lease : Nat}
    (millis : rules.lease = lease * Instant.nanosPerMilli) (shorter : every < lease) : rules.Outlive every := by
  simp only [Outlive, millis, Instant.nanosPerMilli]
  omega

/-- A dispatch that starts when its entry is claimed, and renews its claim at an interval that is shorter than the
lease, keeps it. -/
theorem running_dispatch_keeps_claim {rules : ClaimRules} {lease : Nat}
    (millis : rules.lease = lease * Instant.nanosPerMilli) :
    (∀ w : Worker LocalQueue ρ ε α, w.queue = LocalQueue.workQueue rules → 0 < w.renewEvery → w.renewEvery < lease →
      ∀ e start c, w.Discreet LocalQueue.SameClaim e c →
        w.KeepsClaim {} LocalQueue.SameClaim LocalQueue.Leased LocalQueue.Gone e start c) ∧
    (∀ faults, ∀ w : Worker Link ρ ε α, w.queue = SharedQueue.workQueue rules faults → 0 < w.renewEvery →
      w.renewEvery < lease → ∀ e start c, w.Discreet SharedQueue.SameClaim e c →
        w.KeepsClaim {} SharedQueue.SameClaim SharedQueue.Leased SharedQueue.Gone e start c) := by
  constructor
  · intro w own positive shorter e start c discreet
    have keeper := LocalQueue.keeper (ClaimRules.outlive_of_lt millis shorter)
    rw [← own] at keeper
    exact .of_keeper keeper positive (fun _ _ h => by cases h) discreet
  · intro faults w own positive shorter e start c discreet
    have keeper := SharedQueue.keeper (ClaimRules.outlive_of_lt millis shorter) faults
    rw [← own] at keeper
    exact .of_keeper keeper positive .empty discreet

/-! ## A long dispatch -/

section

open WorkQueue

/-- A worker of entries that take 400 milliseconds each, and renews their claims every 50. -/
def steadyWorker {σ : Type} (queue : WorkQueue σ) : Worker σ Unit Empty Unit where
  queue
  handler :=
    { start := fun _ world => ({ takes := 400, outcome := .ok () }, world)
      completed := fun _ _ _ => pure ()
      failed := fun _ error _ => nomatch error }
  renewEvery := 50

/-- What follows when such a worker starts an entry. -/
def steadyCourse {ω : Type} : Course ω Empty Unit := { takes := 400, outcome := .ok () }

/-- Leases of 150 milliseconds. -/
def shortLease : ClaimRules := { lease := (150 : Nat) * Instant.nanosPerMilli }

theorem stepsOf_steadyCourse {σ : Type} (queue : WorkQueue σ) :
    (steadyWorker queue).stepsOf (.ofMillis 0) steadyCourse =
      [(.ofMillis 50, .renew), (.ofMillis 100, .renew), (.ofMillis 150, .renew), (.ofMillis 200, .renew),
        (.ofMillis 250, .renew), (.ofMillis 300, .renew), (.ofMillis 350, .renew),
        (.ofMillis 400, .settle (.ok ())), (.ofMillis 400, .finish)] := by
  rw [Worker.stepsOf_eq, Worker.plan, List.mergeSort_of_pairwise]
  · simp [Worker.onTheWay, Worker.renewals, steadyWorker, steadyCourse, Course.lasts, Worker.lastSteps,
      List.range, List.range.loop, Instant.plusMillis_ofMillis]
  · simp [Worker.onTheWay, Worker.renewals, steadyWorker, steadyCourse, Course.lasts, Worker.lastSteps,
      List.range, List.range.loop]

section

variable {σ : Type} {q : WorkQueue σ} {e : StoredEntry} {s₀ s s' : σ}

theorem discreet_steadyWorker (q : WorkQueue σ) (holds : StoredEntry → StoredEntry → Prop) (e : StoredEntry) :
    (steadyWorker q).Discreet holds e steadyCourse where
  marks _ mem := by cases mem
  completed _ _ _ := ⟨rfl, .refl⟩
  failed error := nomatch error

/-- After three renewals others recover stalled claims and poll. -/
theorem steadyWorker_dispatch {s₁ s₂ s₃ : σ} (holds : StoredEntry → StoredEntry → Prop)
    (run : q.Run (forward (¬ ·.InLeapSecond)) (.ofMillis 0) s₀ (.ofMillis 0) s)
    (claim : (q.claimDue (.ofMillis 0) 1).on s = (.ok [e], s'))
    (first : (q.renewLease e (.ofMillis 50)).on s' = (.ok true, s₁))
    (second : (q.renewLease e (.ofMillis 100)).on s₁ = (.ok true, s₂))
    (third : (q.renewLease e (.ofMillis 150)).on s₂ = (.ok true, s₃)) :
    ∃ done left world, (steadyWorker q).Dispatch s₀ holds e (.ofMillis 0) steadyCourse done
      ((.ofMillis 200, .renew) :: left) world ∧ world.now = .ofMillis 160 ∧ world.queue =
        ((q.claimDue (.ofMillis 160) 1).on ((q.recoverStalled (.ofMillis 160)).on s₃).2).2 := by
  have renewed {done left t s s' rest} {world : World σ Unit} (h : (steadyWorker q).Dispatch s₀ holds e (.ofMillis 0)
      steadyCourse done ((t, .renew) :: left) world) (at_ : world.queue = s)
      (answer : (q.renewLease e t).on s = (.ok true, s')) (more : left = rest) :
      ∃ done world', (steadyWorker q).Dispatch s₀ holds e (.ofMillis 0) steadyCourse done rest world' ∧
        world'.now = t ∧ world'.queue = s' := by
    subst at_ more
    exact ⟨_, _, .step h nofun fun _ => ⟨true, congrArg Prod.fst answer⟩, rfl, congrArg Prod.snd answer⟩
  have start : (steadyWorker q).Dispatch s₀ holds e (.ofMillis 0) steadyCourse [] _ ⟨.ofMillis 0, s', (), {}⟩ :=
    .claimed run (le_refl _) (by decide) claim (List.mem_singleton_self e) rfl
  rw [stepsOf_steadyCourse] at start
  obtain ⟨_, _, h, _, at_⟩ := renewed start rfl first rfl
  obtain ⟨_, _, h, _, at_⟩ := renewed h at_ second rfl
  obtain ⟨_, world, h, now, at_⟩ := renewed h at_ third rfl
  have earlier : world.now ≤ .ofMillis 160 := by
    rw [now]
    decide
  have before : Instant.ofMillis 160 ≤ .ofMillis 200 := by decide
  have shown : ¬ (Instant.ofMillis 160).InLeapSecond := by decide
  refine ⟨_, _, { world with now := .ofMillis 160, queue := _ }, .others h earlier before shown ?_, rfl, rfl⟩
  rw [at_]
  exact .tail (.single ⟨.recoverStalled, nofun, rfl⟩) ⟨.claimDue 1, nofun, rfl⟩

end

/-- Late in a dispatch of 400 milliseconds the first lease of 150 milliseconds is over, and others look for stalled
claims and for due entries. The claim runs on. -/
theorem long_dispatch_keeps_claim :
    (∃ done left world, (steadyWorker (LocalQueue.workQueue shortLease)).Dispatch {} LocalQueue.SameClaim
      (handedOut (.ofMillis 0)) (.ofMillis 0) steadyCourse done ((.ofMillis 200, .renew) :: left) world ∧
      world.now = .ofMillis 160 ∧ LocalQueue.Leased (handedOut (.ofMillis 0)) (.ofMillis 200) world.queue) ∧
    (∃ done left world, (steadyWorker (SharedQueue.workQueue shortLease .none)).Dispatch {} SharedQueue.SameClaim
      (handedOut (.ofMillis 0)) (.ofMillis 0) steadyCourse done ((.ofMillis 200, .renew) :: left) world ∧
      world.now = .ofMillis 160 ∧ SharedQueue.Leased (handedOut (.ofMillis 0)) (.ofMillis 200) world.queue) := by
  have keeps := @running_dispatch_keeps_claim Unit Empty Unit shortLease 150 rfl
  constructor
  · let q := LocalQueue.workQueue shortLease
    let added := ((q.addDelayed (.ofMillis 0) "a" 0 .null).on {}).2
    let claimed := ((q.claimDue (.ofMillis 0) 1).on added).2
    let first := ((q.renewLease (handedOut (.ofMillis 0)) (.ofMillis 50)).on claimed).2
    let second := ((q.renewLease (handedOut (.ofMillis 0)) (.ofMillis 100)).on first).2
    let third := ((q.renewLease (handedOut (.ofMillis 0)) (.ofMillis 150)).on second).2
    have run : q.Run (forward (¬ ·.InLeapSecond)) (.ofMillis 0) {} (.ofMillis 0) added :=
      .step (r := .addDelayed "a" 0 .null) .start ⟨by decide, by decide⟩
    obtain ⟨done, left, world, dispatch, now, _⟩ := steadyWorker_dispatch LocalQueue.SameClaim run
      (by decide +kernel : (q.claimDue (.ofMillis 0) 1).on added = (.ok [handedOut (.ofMillis 0)], claimed))
      (by decide +kernel : _ = (_, first)) (by decide +kernel : _ = (_, second)) (by decide +kernel : _ = (_, third))
    have kept := keeps.1 (steadyWorker q) rfl (by decide) (by decide) (handedOut (.ofMillis 0)) (.ofMillis 0)
      steadyCourse (discreet_steadyWorker q _ _)
    exact ⟨done, left, world, dispatch, now, kept.leased dispatch⟩
  · let q := SharedQueue.workQueue shortLease .none
    let added := ((q.addDelayed (.ofMillis 0) "a" 0 .null).on {}).2
    let claimed := ((q.claimDue (.ofMillis 0) 1).on added).2
    let first := ((q.renewLease (handedOut (.ofMillis 0)) (.ofMillis 50)).on claimed).2
    let second := ((q.renewLease (handedOut (.ofMillis 0)) (.ofMillis 100)).on first).2
    let third := ((q.renewLease (handedOut (.ofMillis 0)) (.ofMillis 150)).on second).2
    have run : q.Run (forward (¬ ·.InLeapSecond)) (.ofMillis 0) {} (.ofMillis 0) added :=
      .step (r := .addDelayed "a" 0 .null) .start ⟨by decide, by decide⟩
    obtain ⟨done, left, world, dispatch, now, _⟩ := steadyWorker_dispatch SharedQueue.SameClaim run
      (by decide +kernel : (q.claimDue (.ofMillis 0) 1).on added = (.ok [handedOut (.ofMillis 0)], claimed))
      (by decide +kernel : _ = (_, first)) (by decide +kernel : _ = (_, second)) (by decide +kernel : _ = (_, third))
    have kept := keeps.2 .none (steadyWorker q) rfl (by decide) (by decide) (handedOut (.ofMillis 0)) (.ofMillis 0)
      steadyCourse (discreet_steadyWorker q _ _)
    exact ⟨done, left, world, dispatch, now, kept.leased dispatch⟩

end

end Timetable
