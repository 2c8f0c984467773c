import Timetable.Proofs.Queue.MirrorClaims

/-!
# The queues in memory and in a keyspace agree

Both queues are asked the same, one request after the other (`SideBySide`). As long as no command fails and the clock
shows whole milliseconds, they give the same results (`queues_agree`), since the keyspace mirrors the queue in memory
after every request (`SideBySide.paired`). Fractions in payloads have to be read as they were written: others show a
difference (`fraction_shifts_in_keyspace`).
-/

namespace Timetable

open SharedQueue (Mirrors program)

namespace QueueRequest

/-- The same answer, or the same error. -/
def SameResult (r : QueueRequest) : Except QueueError r.Answer → Except QueueError r.Answer → Prop
  | .ok a, .ok b => r.SameAnswer a b
  | .error e, .error f => e = f
  | _, _ => False

theorem SameResult.ok {r : QueueRequest} {a : r.Answer} {result : Except QueueError r.Answer}
    (h : r.SameResult (.ok a) result) : ∃ b, result = .ok b ∧ r.SameAnswer a b := by
  cases result with
  | ok b => exact ⟨b, rfl, h⟩
  | error failure => exact h.elim

/-- The entries that are handed out. -/
def handsOut : (r : QueueRequest) → Except QueueError r.Answer → List StoredEntry
  | .claimDue _, .ok es => es
  | _, _ => []

/-- What may be asked of two queues that were asked the same before. A key is for an entry that does not repeat
(`single`) or for those that do, entries are shown that were handed out, a claim takes all that is due, and the calendar
reaches the end of leases. -/
def Fits (rules : ClaimRules) (single : String → Prop) (handed : List StoredEntry) (q : LocalQueue) (now : Instant) :
    QueueRequest → Prop
  | addRepeating key spec payload => spec.Countable ∧ payload.Exact ∧ ¬ single key
  | addDelayed key _ payload => payload.Exact ∧ single key
  | claimDue limit => q.entries.size ≤ limit ∧ rules.Reach now
  | renewLease e => e ∈ handed ∧ (now.add? rules.lease).isSome
  | finish e => e ∈ handed
  | _ => True

end QueueRequest

/-- A request that fits, at a whole millisecond that is not before the last one. -/
structure Fair (rules : ClaimRules) (single : String → Prop) (clock : Instant) (handed : List StoredEntry) (q : LocalQueue)
    (now : Instant) (r : QueueRequest) : Prop where
  onward : clock ≤ now
  time : now.Representable
  whole : now.Whole
  fits : r.Fits rules single handed q now

/-- Two queues that were asked the same since they were empty: the time of the last request, the entries that claims
have handed out, and what is left of both. -/
inductive SideBySide (rules : ClaimRules) (single : String → Prop) (t₀ : Instant) :
    Instant → List StoredEntry → LocalQueue → Link → Prop
  | start : SideBySide rules single t₀ t₀ [] {} {}
  | step {t now : Instant} {handed : List StoredEntry} {q : LocalQueue} {link : Link} {r : QueueRequest} :
    SideBySide rules single t₀ t handed q link → Fair rules single t handed q now r →
    SideBySide rules single t₀ now (handed ++ r.handsOut (((LocalQueue.workQueue rules).ask now r).on q).1)
      (((LocalQueue.workQueue rules).ask now r).on q).2 (((SharedQueue.workQueue rules .none).ask now r).on link).2

/-- What holds of two queues that were asked the same. -/
structure Paired (single : String → Prop) (clock : Instant) (handed : List StoredEntry) (q : LocalQueue) (s : Keyspace) :
    Prop where
  mirrors : Mirrors clock q s
  sound : q.Sound clock
  exactly : q.Exact single
  shown : ∀ e ∈ handed, e.Exact ∧ e.processedOn.isSome

variable {rules : ClaimRules} {single : String → Prop} {t₀ t clock now : Instant} {handed : List StoredEntry}
  {q : LocalQueue} {s : Keyspace} {link : Link} {r : QueueRequest}

theorem Fair.storable (fair : Fair rules single clock handed q now r) : now.Storable :=
  ⟨fair.time, fair.whole.ordinary⟩

theorem Fair.countable (fair : Fair rules single clock handed q now r) : r.Countable := by
  have fits := fair.fits
  cases r with
  | addRepeating key spec payload => exact fits.1
  | _ => trivial

namespace Paired

theorem empty (single : String → Prop) (clock : Instant) : Paired single clock [] {} {} :=
  ⟨.empty clock, .empty clock, .empty single, nofun⟩

theorem mono (h : Paired single clock handed q s) (le : clock ≤ now) : Paired single now handed q s :=
  ⟨h.mirrors.mono le, h.sound.mono le, h.exactly, h.shown⟩

/-- Every request has the same answer. -/
theorem agree (h : Paired single now handed q s) (fair : Fair rules single clock handed q now r)
    (lease : Instant.nanosPerMilli ∣ rules.lease) :
    SharedQueue.Agree now r.SameAnswer ((LocalQueue.workQueue rules).ask now r) (program rules now r) q s := by
  obtain ⟨mirrors, sound, exactly, shown⟩ := h
  have fits := fair.fits
  cases r with
  | addRepeating key spec payload => exact SharedQueue.agree_addRepeating mirrors exactly
  | addDelayed key delay payload => exact SharedQueue.agree_addDelayed mirrors
  | removeRepeating key spec => exact SharedQueue.agree_removeRepeating mirrors exactly
  | removeDelayed key => exact SharedQueue.agree_removeDelayed mirrors
  | listRepeating => exact SharedQueue.agree_listRepeating mirrors exactly
  | listEntries states => exact SharedQueue.agree_listEntries mirrors exactly
  | getEntry key => exact SharedQueue.agree_getEntry mirrors exactly sound
  | claimDue limit =>
    obtain ⟨enough, reach⟩ := fits
    obtain ⟨expiry, inTime⟩ := reach.inTime
    have whole := fair.whole.add? lease inTime.lease
    exact SharedQueue.agree_claimDue mirrors sound exactly fair.storable fair.whole inTime whole enough
  | renewLease e =>
    obtain ⟨mem, reach⟩ := fits
    obtain ⟨expiry, inTime⟩ := Option.isSome_iff_exists.mp reach
    obtain ⟨e_exact, claimed⟩ := shown e mem
    exact SharedQueue.agree_renewLease mirrors sound exactly e_exact claimed inTime (fair.whole.add? lease inTime)
  | recoverStalled => exact SharedQueue.agree_recoverStalled mirrors fair.whole
  | finish e =>
    obtain ⟨e_exact, claimed⟩ := shown e fits
    exact SharedQueue.agree_finish mirrors sound exactly e_exact claimed
  | size => exact SharedQueue.agree_size mirrors

/-- What the queue in memory holds stays exact, and so is what it hands out. -/
theorem exact_ask (h : Paired single now handed q s) (fair : Fair rules single clock handed q now r) :
    LocalQueue.Exact single (((LocalQueue.workQueue rules).ask now r).on q).2 ∧
      ∀ e ∈ r.handsOut (((LocalQueue.workQueue rules).ask now r).on q).1, e.Exact ∧ e.processedOn.isSome := by
  obtain ⟨_, sound, exactly, _⟩ := h
  have fits := fair.fits
  cases r with
  | addRepeating key spec payload => exact ⟨exactly.addRepeating fits.1 fits.2.1 fits.2.2, nofun⟩
  | addDelayed key delay payload => exact ⟨exactly.addDelayed fair.storable fair.whole fits.1 fits.2 delay, nofun⟩
  | removeRepeating key spec => exact ⟨exactly.removeRepeating sound key spec, nofun⟩
  | removeDelayed key => exact ⟨exactly.removeDelayed key, nofun⟩
  | claimDue limit =>
    obtain ⟨enough, reach⟩ := fits
    obtain ⟨expiry, inTime⟩ := reach.inTime
    obtain ⟨out, q', on, exactly', shown⟩ := exactly.claimDue sound fair.storable fair.whole inTime enough
    have asked : ((LocalQueue.workQueue rules).ask now (.claimDue limit)).on q = (.ok out, q') := on
    rw [asked]
    exact ⟨exactly', shown⟩
  | renewLease e => exact ⟨exactly.renewLease e, nofun⟩
  | recoverStalled => exact ⟨exactly.recover now, nofun⟩
  | finish e => exact ⟨exactly.finish e, nofun⟩
  | listRepeating => exact ⟨exactly, nofun⟩
  | listEntries states => exact ⟨exactly, nofun⟩
  | getEntry key => exact ⟨exactly, nofun⟩
  | size => exact ⟨exactly, nofun⟩

/-- A request has the same result, and leaves the queues paired. -/
theorem ask (h : Paired single clock handed q link.keys) (fair : Fair rules single clock handed q now r)
    (lease : Instant.nanosPerMilli ∣ rules.lease) :
    r.SameResult (((LocalQueue.workQueue rules).ask now r).on q).1
        (((SharedQueue.workQueue rules .none).ask now r).on link).1 ∧
      Paired single now (handed ++ r.handsOut (((LocalQueue.workQueue rules).ask now r).on q).1)
        (((LocalQueue.workQueue rules).ask now r).on q).2
        (((SharedQueue.workQueue rules .none).ask now r).on link).2.keys := by
  have h := h.mono fair.onward
  obtain ⟨exactly, shown⟩ := h.exact_ask fair
  have sound : LocalQueue.Sound now (((LocalQueue.workQueue rules).ask now r).on q).2 :=
    LocalQueue.ask_sound h.sound le_rfl fair.countable
  have shown' : ∀ e ∈ handed ++ r.handsOut _, e.Exact ∧ e.processedOn.isSome := fun e mem =>
    (List.mem_append.mp mem).elim (h.shown e) (shown e)
  -- the program ends as the queue in memory does, in a state that mirrors the one that is known to be sound and exact
  have ends : ((program rules now r).run .none).Ends link _ _ := (h.agree fair lease).ends_calm rfl
  rw [← SharedQueue.ask_eq_run] at ends
  cases on : ((SharedQueue.workQueue rules .none).ask now r).on link with
  | mk result link' =>
    cases result with
    | ok b =>
      obtain ⟨a, q', alone, same, mirrors⟩ := (Act.ends_of_on_ok on).mp ends
      rw [alone] at exactly sound shown' ⊢
      exact ⟨same, mirrors, sound, exactly, shown'⟩
    | error e =>
      obtain ⟨q', alone, mirrors⟩ := (Act.ends_of_on_error on).mp ends
      rw [alone] at exactly sound shown' ⊢
      exact ⟨rfl, mirrors, sound, exactly, shown'⟩

end Paired

theorem SideBySide.paired (h : SideBySide rules single t₀ t handed q link)
    (lease : Instant.nanosPerMilli ∣ rules.lease) : Paired single t handed q link.keys := by
  induction h with
  | start => exact .empty single t₀
  | step _ fair ih => exact (ih.ask fair lease).2

/-- Whatever fits has the same result in both queues. -/
theorem queues_agree (lease : Instant.nanosPerMilli ∣ rules.lease) (h : SideBySide rules single t₀ t handed q link)
    (fair : Fair rules single t handed q now r) :
    r.SameResult (((LocalQueue.workQueue rules).ask now r).on q).1
      (((SharedQueue.workQueue rules .none).ask now r).on link).1 :=
  ((h.paired lease).ask fair lease).1

/-- A payload with a number, one half. -/
def halfPayload : Json := .obj [("x", .real (.ofBinary false ⟨4503599627370496, -53⟩))]

theorem halfPayload_exact : halfPayload.Exact where
  representable := ⟨⟨false, _, ⟨by decide, by decide, by decide⟩, rfl⟩, trivial⟩
  shallow := by decide +kernel
  normal := ⟨List.pairwise_singleton _ _, trivial, trivial⟩
  fractions := by
    have kept : (Json.ofDecimal (.ofBinary false ⟨4503599627370496, -53⟩)).reread =
        .real (.ofBinary false ⟨4503599627370496, -53⟩) := by decide +kernel
    exact ⟨kept, trivial⟩

/-- A fire is claimed. Both queues then list it, the next fire of its chain and an entry that does not repeat. -/
theorem queues_agree_after_claim : ∃ handed q link es es',
    SideBySide {} (· = "a") (.ofMillis 0) (.ofMillis 2000) handed q link ∧ handed.length = 1 ∧
      (((LocalQueue.workQueue {}).ask (.ofMillis 2500) (.listEntries EntryState.all)).on q).1 = .ok es ∧
      (((SharedQueue.workQueue {} .none).ask (.ofMillis 2500) (.listEntries EntryState.all)).on link).1 = .ok es' ∧
      es.length = 3 ∧ es.Perm es' := by
  have fair (clock ms : Int) {handed : List StoredEntry} {q : LocalQueue} {r : QueueRequest}
      (onward : Instant.ofMillis clock ≤ .ofMillis ms) (time : (Instant.ofMillis ms).Representable)
      (fits : r.Fits {} (· = "a") handed q (.ofMillis ms)) :
      Fair {} (· = "a") (.ofMillis clock) handed q (.ofMillis ms) r :=
    ⟨onward, time, Instant.whole_ofMillis ms, fits⟩
  have countable : (RepeatSpec.every 1000).Countable := ⟨by decide, by decide⟩
  have empty : SideBySide {} (· = "a") (.ofMillis 0) (.ofMillis 0) [] {} {} := .start
  have single := empty.step (r := .addDelayed "a" 5000 halfPayload)
    (fair 0 0 (by decide) (by decide) ⟨halfPayload_exact, rfl⟩)
  have chain := single.step (r := .addRepeating "b" (.every 1000) halfPayload)
    (fair 0 0 (by decide) (by decide) ⟨countable, halfPayload_exact, by decide⟩)
  have claimed := chain.step (r := .claimDue 2)
    (fair 0 2000 (by decide) (by decide) ⟨by decide +kernel, by decide⟩)
  have same := queues_agree (by decide) claimed (r := .listEntries EntryState.all)
    (fair 2000 2500 (by decide) (by decide) trivial)
  obtain ⟨es', shared, perm⟩ := same.ok
  exact ⟨_, _, _, _, es', claimed, by decide +kernel, rfl, shared, by decide +kernel, perm⟩

/-- A fraction that is not read as it was written, 9.970685969649456e-10. -/
def shiftingPayload : Json := .obj [("x", .real (.ofBinary false ⟨4821527883191421, -82⟩))]

/-- Fractions have to be kept: an entry is added to both queues, and they show different payloads of it. -/
theorem fraction_shifts_in_keyspace :
    let added : QueueRequest := .addDelayed "a" 0 shiftingPayload
    let q := (((LocalQueue.workQueue {}).ask (.ofMillis 0) added).on {}).2
    let link := (((SharedQueue.workQueue {} .none).ask (.ofMillis 0) added).on {}).2
    shiftingPayload.Storable ∧ shiftingPayload.Normal ∧
      ¬ (QueueRequest.getEntry "a").SameResult
        (((LocalQueue.workQueue {}).ask (.ofMillis 0) (.getEntry "a")).on q).1
        (((SharedQueue.workQueue {} .none).ask (.ofMillis 0) (.getEntry "a")).on link).1 := by
  intro added q link
  let e : StoredEntry := .single "a" (.ofMillis 0) shiftingPayload
  have alone : (((LocalQueue.workQueue {}).ask (.ofMillis 0) (.getEntry "a")).on q).1 = .ok (some ⟨e, .waiting⟩) := rfl
  let shown := (((SharedQueue.workQueue {} .none).ask (.ofMillis 0) (.getEntry "a")).on link).1
  have shifts : (shown.toOption.bind id).all (fun e => decide (e.entry.payload ≠ shiftingPayload)) = true := by
    decide +kernel
  refine ⟨?_, ⟨List.pairwise_singleton _ _, trivial, trivial⟩, fun same => ?_⟩
  · exact ⟨⟨⟨false, _, ⟨by decide, by decide, by decide⟩, rfl⟩, trivial⟩, by decide +kernel⟩
  · rw [alone] at same
    obtain ⟨_, result, rfl⟩ := same.ok
    have result : shown = .ok (some ⟨e, .waiting⟩) := result
    rw [result] at shifts
    have differs : decide (shiftingPayload ≠ shiftingPayload) = true := shifts
    exact of_decide_eq_true differs rfl

end Timetable
