import Timetable.Proofs.Queue.Claims
import Timetable.Proofs.Queue.Run

/-!
# Repeat chains are never lost

Whatever is asked of the queue in memory, under a clock that never goes back, leaves it `Chained`: every record
that waits for a fire has that one fire stored, never claimed, and no other. A claim then comes to its end and
keeps all chains (`LocalQueue.chained_of_run`), as long as the calendar reaches the end of the lease and the
next second; `LocalQueue.claim_breaks_off_in_last_second` shows the need for the latter.
-/

namespace Timetable

/-- What is to be repeated can be repeated. -/
def QueueRequest.Usable : QueueRequest → Prop
  | addRepeating _ spec _ => spec.Usable
  | _ => True

/-- What is to be repeated is an expression, or some milliseconds that can be counted. -/
def QueueRequest.Countable : QueueRequest → Prop
  | addRepeating _ spec _ => spec.Countable
  | _ => True

theorem QueueRequest.Usable.countable {r : QueueRequest} (h : r.Usable) : r.Countable := by
  cases r with
  | addRepeating key spec payload => exact RepeatSpec.Usable.countable h
  | _ => trivial

namespace LocalQueue

variable {rules : ClaimRules} {clock now : Instant} {q : LocalQueue} {key : String}
  {spec : RepeatSpec} {e : StoredEntry} {r : RepeatRecord}

/-! ## Operations -/

theorem Sound.create (h : Sound now q) (hr : q.repeats.get? (repeatField key spec) = none)
    (hs : spec.Countable) {payload : Json} (hc : RepeatRecord.create key spec payload now = .ok r) :
    Sound now (q.putRecord r) := by
  obtain ⟨same, hn⟩ := RepeatRecord.advance_eq_ok hc
  have hu : spec.Usable := hs.usable hn
  obtain ⟨rfl, rfl, _⟩ := RepeatRecord.chain_eq_iff.mp same
  exact h.addChain hr hu fun t ht => RepeatSpec.nextAfter_spec hu (ht ▸ hn)

theorem addRepeating_on (now : Instant) (key : String) (spec : RepeatSpec) (payload : Json) (q : LocalQueue) :
    (addRepeating now key spec payload).on q = match q.repeats.get? (repeatField key spec) with
      | some old => (.ok (), q.putRecord { old with payload })
      | none => match RepeatRecord.create key spec payload now with
        | .ok r => (.ok (), q.putRecord r)
        | .error error => (.error error, q) := by
  simp only [addRepeating, Act.on_bind, Act.on_get]
  cases q.repeats.get? (repeatField key spec) with
  | some old => rfl
  | none =>
    simp only [Act.on_bind, Act.on_ofExcept]
    cases RepeatRecord.create key spec payload now <;> rfl

theorem addRepeating_sound (h : Sound now q) (hs : spec.Countable) (payload : Json) :
    Sound now ((addRepeating now key spec payload).on q).2 := by
  rw [addRepeating_on]
  cases hr : q.repeats.get? (repeatField key spec) with
  | some old => exact h.setPayload hr payload
  | none =>
    cases hc : RepeatRecord.create key spec payload now with
    | error error => exact h
    | ok r => exact h.create hr hs hc

theorem addDelayed_sound (h : Sound clock q) (delay : Nat) (payload : Json) :
    Sound clock ((addDelayed now key delay payload).on q).2 := by
  unfold addDelayed
  cases now.addMillis? (signedWord delay) with
  | none => exact h
  | some fireAt => exact h.addSingle key fireAt payload

theorem removeRepeating_on (h : Sound clock q)
    (hr : q.repeats.get? (repeatField key spec) = some r) :
    (removeRepeating key spec).on q = (.ok true, q.eraseChain r) := by
  simp only [removeRepeating, Act.on_bind, Act.on_get, hr]
  cases hn : r.next with
  | none =>
    simp only [RepeatRecord.currentInstance, hn, Option.map_none, eraseChain_of_no_next hn,
      h.ownField hr]
    rfl
  | some t =>
    obtain ⟨e, he, _, _, _, hp⟩ := h.current hr hn
    have free : q.active.contains (StoredEntry.ofFire r.key r.spec t r.payload).id = false :=
      h.not_held he hp
    simp only [RepeatRecord.currentInstance, hn, Option.map_some, eraseRecord, free,
      eraseChain_of_next hn, h.ownField hr]
    rfl

theorem removeRepeating_sound (h : Sound clock q) :
    Sound clock ((removeRepeating key spec).on q).2 := by
  cases hr : q.repeats.get? (repeatField key spec) with
  | none =>
    simp only [removeRepeating, Act.on_bind, Act.on_get, hr]
    exact h
  | some r =>
    rw [removeRepeating_on h hr]
    exact h.dropChain hr

theorem removeDelayed_sound (h : Sound clock q) : Sound clock ((removeDelayed key).on q).2 := by
  simp only [removeDelayed, Act.on_bind, Act.on_get]
  split
  · exact h
  · next hc =>
    simp only [Bool.or_eq_true, not_or, Bool.not_eq_true] at hc
    refine h.dropEntry hc.1 fun {e} he => .inl ?_
    cases hs : e.repeats with
    | none => rfl
    | some spec =>
      have hid := ((h.made he).fire spec hs).2.1
      exact absurd ((h.ownId he).symm.trans hid) singleId_ne_instanceId

theorem renewLease_sound (h : Sound clock q) :
    Sound clock ((renewLease rules e now).on q).2 := by
  simp only [renewLease, Act.on_bind, Act.on_get]
  split
  · exact h
  · next hc =>
    have held : q.active.contains e.id = true := by
      simp only [Bool.not_eq_true', Bool.not_eq_false, holdsClaim, Bool.and_eq_true] at hc
      exact hc.1
    cases now.add? rules.lease with
    | none => exact h
    | some expiry =>
      refine h.withActive fun id hid => ?_
      simp only [Table.contains_set, Bool.or_eq_true, decide_eq_true_eq] at hid
      rcases hid with rfl | hid
      · exact held
      · exact hid

theorem finish_sound (h : Sound clock q) : Sound clock ((finish e).on q).2 := by
  simp only [finish, Act.on_bind, Act.on_get]
  split
  · next hc =>
    simp only [holdsClaim, Bool.and_eq_true] at hc
    have released : Sound clock { q with active := q.active.erase e.id } :=
      h.withActive fun id hid => by simp_all
    refine released.dropEntry (by simp) fun {e'} he => .inr ?_
    obtain ⟨e'', he'', hp⟩ := h.held hc.1
    obtain rfl : e' = e'' := Option.some.inj (he.symm.trans he'')
    exact hp
  · exact h

/-! ## Runs -/

/-- The clock never goes back, and what is to be repeated can be. -/
def ordered : WorkQueue.Rule LocalQueue := fun t _ now r => t ≤ now ∧ r.Usable

theorem ask_sound (h : Sound clock q) {request : QueueRequest} (hle : clock ≤ now)
    (hc : request.Countable) : Sound now (((workQueue rules).ask now request).on q).2 := by
  have h := h.mono hle
  cases request with
  | addRepeating key spec payload => exact addRepeating_sound h hc payload
  | addDelayed key delay payload => exact addDelayed_sound h delay payload
  | removeRepeating key spec => exact removeRepeating_sound h
  | removeDelayed key => exact removeDelayed_sound h
  | claimDue limit => exact (claimDue_keeps h limit).sound
  | renewLease e => exact renewLease_sound h
  | recoverStalled => exact h.recover
  | finish e => exact finish_sound h
  | listRepeating => exact h
  | listEntries states => exact h
  | getEntry key => exact h
  | size => exact h

theorem sound_of_run {t₀ t : Instant} (run : (workQueue rules).Run ordered t₀ {} t q) :
    Sound t q :=
  run.invariant (Sound.empty t₀) fun h allowed => ask_sound h allowed.1 allowed.2.countable

/-! ## Chains -/

/-- What holds of the chains, entries and claims of a queue. -/
structure Chained (q : LocalQueue) : Prop where
  /-- Every entry is stored under its own identifier. -/
  ownId : ∀ id e, q.entries.get? id = some e → e.id = id
  /-- Whatever is claimed is stored. -/
  activeStored : ∀ id, q.active.contains id = true → q.entries.contains id = true
  /-- Every record is stored under its own field. -/
  ownField : ∀ f r, q.repeats.get? f = some r → f = repeatField r.key r.spec
  /-- The instance that a record waits for is stored, and nobody claims or ever claimed it. -/
  current : ∀ f r t, q.repeats.get? f = some r → r.next = some t →
    ∃ e, q.entries.get? (instanceId r.key r.spec t) = some e ∧
      e.id = instanceId r.key r.spec t ∧ e.key = r.key ∧ e.repeats = some r.spec ∧ e.fireAt = t ∧
      q.active.contains e.id = false ∧ e.processedOn = none
  /-- No other instance of its chain was never claimed. -/
  only : ∀ f r t id e, q.repeats.get? f = some r → r.next = some t → q.entries.get? id = some e →
    e.key = r.key → e.repeats = some r.spec → e.processedOn = none → id = instanceId r.key r.spec t

theorem Sound.chained (h : Sound clock q) : q.Chained where
  ownId _ _ he := h.ownId he
  activeStored id ha := by
    obtain ⟨e, he, _⟩ := h.held ha
    exact Table.contains_iff.mpr ⟨e, he⟩
  ownField _ _ hr := (h.ownField hr).symm
  current f r t hr hn := by
    obtain ⟨e, he, hk, hs, ht, hp⟩ := h.current hr hn
    exact ⟨e, he, h.ownId he, hk, hs, ht, h.ownId he ▸ h.not_held he hp, hp⟩
  only f r t id e hr hn he hk hs hp := by
    obtain ⟨r', hr', ht⟩ := (StoredEntry.follows_of_none hp).mp (h.follows he hs)
    have field : repeatField e.key r.spec = f := by rw [hk]; exact h.ownField hr
    obtain rfl : r = r' := Option.some.inj (hr.symm.trans (field ▸ hr'))
    obtain rfl : t = e.fireAt := Option.some.inj (hn.symm.trans ht)
    rw [← h.ownId he, ((h.made he).fire _ hs).2.1, hk]

/-- Every run leaves a chained queue. There a claim comes to its end and keeps all chains, as long as the calendar
reaches the end of its lease and the next second. -/
theorem chained_of_run {t₀ t : Instant} (run : (workQueue rules).Run ordered t₀ {} t q) :
    q.Chained ∧ ∀ now limit, t ≤ now → rules.Reach now →
      ∃ claimed q', (claimDue rules now limit).on q = (.ok claimed, q') ∧ q.SameChains q' := by
  have sound := sound_of_run run
  refine ⟨sound.chained, fun now limit hle reach => ?_⟩
  have keeps : Keeps rules now q ((claimDue rules now limit).on q) :=
    claimDue_keeps (sound.mono hle) limit
  cases hout : ((claimDue rules now limit).on q).1 with
  | error e => exact absurd reach (keeps.error e hout).2
  | ok claimed => exact ⟨claimed, _, Prod.ext hout rfl, keeps.same claimed hout⟩

/-- A chain of seconds, added at the start of 1970, is claimed two seconds later. -/
theorem chained_two_seconds_later :
    ∃ q claimed q', (workQueue {}).Run ordered (Instant.ofMillis 0) {} (Instant.ofMillis 0) q ∧
      q.repeats.size = 1 ∧ q.Chained ∧
      (claimDue {} (Instant.ofMillis 2000) 1).on q = (.ok claimed, q') ∧ q.SameChains q' := by
  have run : (workQueue {}).Run ordered (Instant.ofMillis 0) {} (Instant.ofMillis 0)
      (((workQueue {}).ask (Instant.ofMillis 0) (.addRepeating "a" (.every 1000) .null)).on {}).2 :=
    .step .start ⟨le_refl _, by decide, by decide⟩
  obtain ⟨chained, claims⟩ := chained_of_run run
  obtain ⟨claimed, q', h, same⟩ := claims (Instant.ofMillis 2000) 1 (by decide) (by decide)
  exact ⟨_, claimed, q', run, by decide +kernel, chained, h, same⟩

/-- The next second matters: an expression is searched from there on. A claim in the last second of the calendar is
broken off and loses the chain, although the calendar reaches the end of its lease. -/
theorem claim_breaks_off_in_last_second :
    ∃ q, (workQueue { lease := 0 }).Run
        (fun t _ now r => t ≤ now ∧ r.Usable ∧ (now.add? 0).isSome)
        (Instant.ofMillis 0) {} (Instant.ofMillis 0) q ∧
      Instant.ofMillis 0 ≤ ⟨8210266876799, 0⟩ ∧ ((⟨8210266876799, 0⟩ : Instant).add? 0).isSome ∧
      ((claimDue { lease := 0 } ⟨8210266876799, 0⟩ 5).on q).1 = .error .outOfRange ∧
      q.repeats.size = 1 ∧
      ((claimDue { lease := 0 } ⟨8210266876799, 0⟩ 5).on q).2.repeats.size = 0 := by
  have usable : (RepeatSpec.cron "0 0 * * * *").Usable := by
    have accepted : (parseExpression "0 0 * * * *").isOk = true := by decide +kernel
    cases h : parseExpression "0 0 * * * *" with
    | ok p => exact ⟨p, h⟩
    | error e => simp [h, Except.isOk, Except.toBool] at accepted
  refine ⟨(((workQueue { lease := 0 }).ask (Instant.ofMillis 0)
      (.addRepeating "a" (.cron "0 0 * * * *") .null)).on {}).2,
    .step .start ⟨le_refl _, usable, by decide⟩, by decide, by decide, ?_, ?_, ?_⟩
  · decide +kernel
  · decide +kernel
  · decide +kernel

end LocalQueue

end Timetable
