import Mathlib.Logic.Relation
import Timetable.Proofs.Queue.Delivery
import Timetable.Proofs.Queue.Legible

/-!
# Delivery in the queue in a shared keyspace

Whatever fails, no move of a request takes out an entry that does not repeat (`Move.tracked`), unless it removes or
finishes it. The texts of a legible keyspace can all be read, so a claim without faults comes to its end and hands out
all such entries that were due (`SharedQueue.delivers`). The payload of an entry is written and read again with every
claim, so it may change as often (`Rewritten`).
-/

namespace Timetable.SharedQueue

open Json Program

/-- A payload that was written and read some times. -/
def Rewritten : Json → Json → Prop := Relation.ReflTransGen fun j j' => payload? (j.reread 126) = some j'

/-- Reading is a function, so what is read of a rewritten payload is what is read at first, rewritten. -/
theorem Rewritten.read {j j' k k' : Json} (h : Rewritten j k) (first : payload? (j.reread 126) = some j')
    (last : payload? (k.reread 126) = some k') : Rewritten j' k' := by
  obtain rfl | ⟨i, step, rest⟩ := h.cases_head
  · obtain rfl := Option.some.inj (first.symm.trans last)
    exact .refl
  · obtain rfl := Option.some.inj (first.symm.trans step)
    exact rest.tail last

variable {rules : ClaimRules} {now : Instant} {request : QueueRequest} {G : RepeatRecord → Prop}
  {s s' : Keyspace} {id key : String} {e e₀ stored : StoredEntry} {faults : CommandFaults} {link : Link}

/-- What is held under the identifier of an entry is that entry, claimed and rewritten some times. -/
def Tracked (e₀ : StoredEntry) (s : Keyspace) : Prop :=
  ∃ c e, At s e₀.id c ∧ c.entry? = some e ∧ e.Storable ∧ e₀.SameWork Rewritten e

/-- A request that takes out what it finds under an identifier. -/
def Takes (x : String) : QueueRequest → Prop
  | .removeDelayed key => singleId key = x
  | .finish f => f.id = x
  | _ => False

namespace Tracked

theorem same (h : Tracked e₀ s) (same : Same s s' e₀.id) : Tracked e₀ s' := by
  obtain ⟨c, e, hc, held⟩ := h
  exact ⟨c, e, hc.same same, held⟩

/-- What is held elsewhere may change. -/
theorem elsewhere (h : Tracked e₀ s) (ne : id ≠ e₀.id) (same : ∀ {k}, id ≠ k → Same s s' k) : Tracked e₀ s' :=
  h.same (same ne)

/-- Nothing is added where an entry is held. -/
theorem ne_of_absent (h : Tracked e₀ s) (absent : At s id .absent) : id ≠ e₀.id := by
  rintro rfl
  obtain ⟨c, e, hc, held, _⟩ := h
  have entries := absent.entry.symm.trans hc.entry
  rw [held] at entries
  cases entries

end Tracked

theorem Move.tracked (h : Tracked e₀ s) (single : e₀.repeats = none) (own : e₀.id = singleId e₀.key)
    (time : now.Storable) (stays : ¬ Takes e₀.id request) (m : Move rules now request G s s') : Tracked e₀ s' := by
  cases m with
  | addSingle _ _ free => exact h.elsewhere (h.ne_of_absent free) fun ne => same_addPending ne _ _
  | addInstance _ _ free => exact h.elsewhere (h.ne_of_absent free) fun ne => same_addPending ne _ _
  | dropSingle same _ =>
    subst same
    exact h.elsewhere stays same_dropPending
  | dropInstance fire _ =>
    refine h.elsewhere (fun same => ?_) same_dropPending
    rw [RepeatRecord.currentInstance, Option.map_eq_some_iff] at fire
    obtain ⟨t, _, rfl⟩ := fire
    exact singleId_ne_instanceId (own.symm.trans same.symm)
  | @claim id e stored score expiry held _ read _ =>
    by_cases same : id = e₀.id
    · subst same
      obtain ⟨c, f, hc, held', storable, work⟩ := h
      obtain ⟨f', rfl, text⟩ := held.waiting_unique hc
      cases held'
      rw [text] at read
      have key : f.key = stored.key := (StoredEntry.named_of_decode read).2.1.symm
      exact ⟨_, f, at_addClaim (a := ⟨stored.key, now.millis⟩) hc key expiry, rfl, storable, work⟩
    · exact h.elsewhere same fun ne => same_addClaim ne _ _
  | @stamp id e stored a expiry held read =>
    by_cases same : id = e₀.id
    · subst same
      obtain ⟨c, f, hc, held', storable, work⟩ := h
      obtain ⟨f', rfl, text⟩ := held.claimed_unique hc
      cases held'
      obtain ⟨payload, step, fits, read'⟩ := storable.decode
      rw [text, read'] at read
      obtain rfl := Except.ok.inj read
      have ownId : f.id = e₀.id := hc.ownId rfl
      have ownKey : f.key = a.key := hc.ownKey rfl rfl
      refine ⟨_, _, at_setEntry hc ownId ownKey, rfl, ?_, ?_⟩
      · exact (storable.with_payload fits).with_processedOn time
      · exact ⟨work.id, work.key, work.repeats, work.fireAt, work.payload.tail step⟩
    · exact h.elsewhere same fun ne => same_setEntry ne _
  | @renew id e a expiry expiry' held _ =>
    by_cases same : id = e₀.id
    · subst same
      obtain ⟨c, f, hc, held', rest⟩ := h
      obtain ⟨f', rfl, _⟩ := held.claimed_unique hc
      exact ⟨_, f, at_extendLease hc expiry', held', rest⟩
    · exact h.elsewhere same fun ne => same_extendLease ne _
  | finish asked named _ _ _ =>
    subst asked
    exact h.elsewhere (fun same => stays (named.trans same)) same_dropClaimed
  | @skip id e a spec expiry held repeats =>
    refine h.elsewhere (fun same => ?_) same_dropClaimed
    subst same
    obtain ⟨c, f, hc, held', storable, work⟩ := h
    obtain ⟨f', rfl, text⟩ := held.claimed_unique hc
    cases held'
    obtain ⟨payload, _, _, read⟩ := storable.decode
    rw [← text] at read
    have same : f.repeats = e.repeats := (StoredEntry.named_of_decode read).2.2
    cases (repeats.symm.trans same.symm).trans (work.repeats.trans single)
  | recover =>
    obtain ⟨c, f, hc, held, rest⟩ := h
    refine ⟨_, f, at_recover hc now.millis, ?_, rest⟩
    cases c with
    | claimed e a expiry =>
      rw [Cell.recovered]
      split <;> exact held
    | _ => exact held
  | saveRecord _ => exact h.same ⟨rfl, rfl, rfl, rfl⟩
  | eraseRecord _ => exact h.same ⟨rfl, rfl, rfl, rfl⟩

/-! ## Requests that may take out an entry -/

/-- A removal that does not say that it succeeded has changed nothing. -/
theorem removeDelayed_refused (whole : faults.Whole)
    (refused : (((removeDelayed key).run faults).on link).1 ≠ .ok true) :
    (((removeDelayed key).run faults).on link).2.keys = link.keys := by
  have safe : (removeDelayed key).Safe (fun _ s => s = link.keys) (fun removed s => removed = true ∨ s = link.keys)
      (fun _ _ => False) link.keys := by
    refine .send rfl (.done ?_)
    rw [Command.outcome]
    split
    · exact .inl rfl
    · exact .inr rfl
  obtain ⟨ok, error⟩ := safe.ends whole rfl
  cases result : (((removeDelayed key).run faults).on link).1 with
  | ok removed => exact (ok removed result).resolve_left fun yes => refused (yes ▸ result)
  | error failure =>
    obtain stuck | ⟨_, kept⟩ := error failure result
    · exact stuck.elim
    · exact kept

/-- Whoever shows an entry holds the claim under its identifier. -/
def Holds (s : Keyspace) (f : StoredEntry) : Prop :=
  ∃ claim, ActiveClaim.ofEntry? f = some claim ∧ s.active.get? f.id = some claim.text

/-- Who holds no claim finishes nothing. -/
theorem finish_unheld (whole : faults.Whole) (unheld : ¬ Holds link.keys e) :
    (((finish e).run faults).on link).2.keys = link.keys := by
  have safe : (finish e).Safe (fun _ s => s = link.keys) (fun _ s => s = link.keys) (fun _ _ => False) link.keys := by
    unfold finish
    cases named : ActiveClaim.ofEntry? e with
    | none => exact .done rfl
    | some claim =>
      refine Safe.discard (.send rfl (.done ?_))
      rw [Command.outcome, if_neg fun held => unheld ⟨claim, named, held⟩]
  refine Act.ends_iff_forall (P := fun link' => link'.keys = link.keys).mp ((safe.ends whole rfl).mono (fun _ _ h => h) ?_)
  rintro _ _ (stuck | ⟨_, kept⟩)
  · exact stuck.elim
  · exact kept

/-- Only a removal or whoever holds its claim takes out an entry that does not repeat. -/
theorem ask_tracked (whole : faults.Whole) (kept : Kept (Legible now) link.keys) (tracked : Tracked e₀ link.keys)
    (single : e₀.repeats = none) (own : e₀.id = singleId e₀.key) (time : now.Storable) (asked : request.Keepable)
    (refused : request = .removeDelayed e₀.key →
      (((workQueue rules faults).ask now (.removeDelayed e₀.key)).on link).1 ≠ .ok true)
    (unfinished : ∀ f, request = .finish f → f.id = e₀.id → ¬ Holds link.keys f) :
    Tracked e₀ (((workQueue rules faults).ask now request).on link).2.keys := by
  by_cases takes : Takes e₀.id request
  · cases request with
    | removeDelayed key =>
      obtain rfl : key = e₀.key := singleId_inj (takes.trans own)
      exact (removeDelayed_refused whole (refused rfl)).symm ▸ tracked
    | finish f => exact (finish_unheld whole (unfinished f rfl takes)).symm ▸ tracked
    | _ => exact takes.elim
  · have legible := preserved_legible rules time asked
    have preserved : Preserved rules now request RepeatRecord.Storable fun s => Legible now s ∧ Tracked e₀ s :=
      ⟨fun consistent h m => ⟨legible.move consistent h.1 m, m.tracked h.2 single own time takes⟩,
        fun h stored => legible.read h.1 stored⟩
    exact (Kept.ask ⟨kept.consistent, kept.holds, tracked⟩ preserved whole).holds.2

/-! ## Delivery -/

/-- What can be seen of the queue in a shared keyspace. -/
def view : WorkQueue.View Link where
  stored link id e := ∃ text, link.keys.entries.get? id = some text ∧ decodeEntry text = .ok e
  count link := link.keys.entries.size
  held link f := Holds link.keys f
  free link id now := ∀ expiry, link.keys.leases.get? id = some expiry → expiry ≤ now.millis
  keeps := Rewritten

/-- What is read under an identifier is held there, as it was written. -/
theorem Legible.held {clock : Instant} {text : String} (h : Legible clock s) (at_ : s.entries.get? id = some text)
    (read : decodeEntry text = .ok e) : ∃ c f payload, At s id c ∧ c.Legible clock ∧ c.entry? = some f ∧ f.Storable ∧
      text = entryText f ∧ payload? (f.payload.reread 126) = some payload ∧ e = { f with payload } := by
  obtain ⟨c, hc, legible⟩ := h.cell id
  rw [hc.entry, Option.map_eq_some_iff] at at_
  obtain ⟨f, held, rfl⟩ := at_
  have storable : f.Storable := by
    cases c <;> cases held <;> exact legible.1
  obtain ⟨payload, step, _, read'⟩ := storable.decode
  exact ⟨c, f, payload, hc, legible, held, storable, rfl, step, (Except.ok.inj (read'.symm.trans read)).symm⟩

/-- An entry whose identifier is that of a key does not repeat. -/
theorem single_of_id (storable : e.Storable) (own : e.id = singleId key) : e.repeats = none ∧ e.key = key := by
  cases repeats : e.repeats with
  | none => exact ⟨rfl, singleId_inj ((storable.made.single repeats).symm.trans own)⟩
  | some spec => exact absurd (own.symm.trans (storable.made.fire spec repeats).2.1) singleId_ne_instanceId

theorem addDelayed_stores {delay : Nat} {payload : Json} {link' : Link} (whole : faults.Whole)
    (on : ((addDelayed now key delay payload).run faults).on link = (.ok (), link')) :
    ∃ fireAt, now.addMillis? (signedWord delay) = some fireAt ∧ link'.keys =
      if link.keys.entries.contains (singleId key) then link.keys
      else link.keys.addPending (singleId key) (entryText (.single key fireAt payload)) fireAt.millis := by
  unfold addDelayed at on
  cases reached : now.addMillis? (signedWord delay) with
  | none =>
    rw [reached] at on
    cases congrArg Prod.fst on
  | some fireAt =>
    rw [reached] at on
    have safe : (insertIfAbsent (.single key fireAt payload)).Safe (fun _ _ => True)
        (fun _ s' => s' = if link.keys.entries.contains (singleId key) then link.keys
          else link.keys.addPending (singleId key) (entryText (.single key fireAt payload)) fireAt.millis)
        (fun _ _ => False) link.keys := .send trivial (.done rfl)
    exact ⟨fireAt, rfl, (Act.ends_of_on_ok on).mp (safe.ends whole rfl)⟩

/-- Whatever waits for a time that has come, or is claimed and late, is handed out. -/
theorem claimDue_hands {limit : Nat} (kept : Kept (Legible now) link.keys) (reach : rules.Reach now)
    (time : now.Storable) (read : view.stored link (singleId key) e) (due : e.fireAt ≤ now)
    (free : view.free link (singleId key) now) (enough : view.count link ≤ limit) :
    ∃ out link', ((workQueue rules .none).claimDue now limit).on link = (.ok out, link') ∧
      { e with processedOn := some now } ∈ out := by
  have preserved : Preserved rules now (.claimDue limit) _ _ := preserved_legible rules time trivial
  have safe := safe_claimDue preserved kept limit
  obtain ⟨ok, error⟩ := safe.ends_calm rfl
  cases result : (((claimDue rules now limit).run .none).on link).1 with
  | error failure => exact absurd (error failure result).2 ((error failure result).1.holds.no_trouble reach)
  | ok out =>
    refine ⟨out, _, Prod.ext result rfl, ?_⟩
    obtain ⟨text, at_, read⟩ := read
    obtain ⟨c, f, payload, hc, legible, held, storable, rfl, _, rfl⟩ := kept.holds.held at_ read
    have single := (single_of_id storable (hc.ownId held)).1
    have hands := (ok out result).2 enough (singleId key) c f
    cases c with
    | absent => cases held
    | waiting _ score =>
      cases held
      refine hands score hc rfl ?_ _ read single
      rcases legible.2 with own | past
      · exact own.trans (Instant.millis_mono storable.fireAt.ordinary due)
      · exact (Instant.millis_le_iff time.ordinary).mpr past
    | claimed _ a expiry =>
      cases held
      exact hands now.millis hc (if_pos (free expiry hc.expiry)) le_rfl _ read single

theorem delivers (rules : ClaimRules) (whole : faults.Whole) :
    WorkQueue.Delivers (workQueue rules faults) (workQueue rules .none) rules WorkQueue.timely {} view where
  stores {t₀ t now s key delay payload s'} run allowed on := by
    have legible := (legible_of_run whole WorkQueue.readable_of_timely run).holds
    obtain ⟨fireAt, reached, keys⟩ := addDelayed_stores whole on
    cases before : s.keys.entries.get? (singleId key) with
    | some text =>
      have there : s.keys.entries.contains (singleId key) = true := Table.contains_iff.mpr ⟨text, before⟩
      rw [if_pos there] at keys
      obtain ⟨c, hc, cell⟩ := legible.cell (singleId key)
      rw [hc.entry, Option.map_eq_some_iff] at before
      obtain ⟨f, held, rfl⟩ := before
      have storable : f.Storable := by
        cases c <;> cases held <;> exact cell.1
      obtain ⟨payload, _, _, read⟩ := storable.decode
      have before : s.keys.entries.get? (singleId key) = some (entryText f) := by
        rw [hc.entry, held]
        rfl
      have after : s'.keys.entries.get? (singleId key) = some (entryText f) := by rw [keys, before]
      exact ⟨_, ⟨_, after, read⟩, .inl ⟨_, before, read⟩⟩
    | none =>
      have absent : s.keys.entries.contains (singleId key) = false := Table.contains_eq_false_iff.mpr before
      rw [if_neg (by rw [absent]; exact Bool.false_ne_true)] at keys
      have storable : (StoredEntry.single key fireAt payload).Storable :=
        StoredEntry.storable_single (allowed.2.1.addMillis? reached) (Json.Storable.keepable allowed.2.2)
      obtain ⟨payload', step, _, read⟩ := storable.decode
      refine ⟨{ StoredEntry.single key fireAt payload with payload := payload' }, ⟨_, ?_, read⟩, .inr ⟨?_, rfl, ?_⟩⟩
      · rw [keys]
        simp [Keyspace.addPending]
      · rintro e' ⟨text, at_, _⟩
        cases before.symm.trans at_
      · exact ⟨fireAt, reached, rfl, rfl, rfl, rfl, .single step⟩
  keeps {t₀ t s key e t' s'} run stored waits := by
    have kept := legible_of_run whole WorkQueue.readable_of_timely run
    obtain ⟨text, at_, read⟩ := stored
    obtain ⟨c, f, payload, hc, _, held, storable, rfl, step, rfl⟩ := kept.holds.held at_ read
    have own : f.id = singleId key := hc.ownId held
    obtain ⟨single, rfl⟩ := single_of_id storable own
    have start : Tracked f s.keys := ⟨c, f, own ▸ hc, held, storable, rfl, rfl, rfl, rfl, .refl⟩
    have tracked : Kept (Legible t') s'.keys ∧ Tracked f s'.keys := by
      induction waits with
      | start => exact ⟨kept, start⟩
      | @step t now link r _ allowed refused unfinished ih =>
        obtain ⟨⟨kept, tracked⟩, le, time, asked⟩ := And.intro ih allowed
        have kept' : Kept (Legible now) link.keys := ⟨kept.consistent, kept.holds.mono le⟩
        refine ⟨Kept.ask kept' (preserved_legible rules time asked.keepable) whole, ?_⟩
        exact ask_tracked whole kept' tracked single own time asked.keepable refused fun f' same id =>
          unfinished f' same (id.trans own)
    obtain ⟨c', f', hc', held', storable', work⟩ := tracked.2
    obtain ⟨payload', step', _, read'⟩ := storable'.decode
    refine ⟨{ f' with payload := payload' }, ⟨_, ?_, read'⟩, work.id, work.key, work.repeats, work.fireAt, ?_⟩
    · rw [← own, hc'.entry, held']
      rfl
    · exact work.payload.read step step'
  hands run stored le time reach due free enough := by
    have kept := legible_of_run whole WorkQueue.readable_of_timely run
    exact claimDue_hands ⟨kept.consistent, kept.holds.mono le⟩ reach time stored due free enough

end Timetable.SharedQueue
