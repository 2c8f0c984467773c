import Timetable.Proofs.Queue.Delivery
import Timetable.Proofs.Queue.Leases
import Timetable.Proofs.Queue.Records

/-!
# Delivery in the queue in memory

In a sound queue no request touches an entry that does not repeat, other than by claiming it
(`LocalQueue.Carries`), unless it removes or finishes it. A claim that comes to its end has handed out all such entries
that were due, as long as its limit allows (`claimDue_delivers`). So the queue in memory delivers them
(`LocalQueue.delivers`), if no claim breaks off at the end of the calendar.
-/

namespace Timetable.LocalQueue

variable {rules : ClaimRules} {clock now : Instant} {q q' q'' : LocalQueue} {key x : String} {e : StoredEntry}
  {request : QueueRequest}

/-- An entry under an identifier that does not repeat stays stored, but for the time when it was claimed. -/
def Carries (x : String) (q q' : LocalQueue) : Prop :=
  ∀ e, q.entries.get? x = some e → e.repeats = none → ∃ p, q'.entries.get? x = some { e with processedOn := p }

namespace Carries

theorem of_stored (h : ∀ e, q.entries.get? x = some e → q'.entries.get? x = some e) : Carries x q q' :=
  fun e stored _ => ⟨e.processedOn, h e stored⟩

theorem refl (x : String) (q : LocalQueue) : Carries x q q := .of_stored fun _ h => h

theorem trans (h : Carries x q q') (h' : Carries x q' q'') : Carries x q q'' := by
  intro e stored single
  obtain ⟨p, stored'⟩ := h e stored single
  exact h' { e with processedOn := p } stored' single

end Carries

/-! ## Claims -/

/-- A due entry that does not repeat is handed out. -/
theorem claimEntry_delivers (sound : Sound now q) (he : q.entries.get? e.id = some e)
    (free : q.active.contains e.id = false) (due : e.fireAt ≤ now) (reach : rules.Reach now) :
    (claimEntry rules now e).Ends q
      (fun out q' => Sound now q' ∧ Frame e.id q q' ∧ (∀ x, Carries x q q') ∧
        (e.repeats = none → out = some { e with processedOn := some now }))
      fun _ _ => False := by
  have claims : Claims rules now e.id q _ := claimEntry_claims sound he free due
  refine ⟨fun out ok => ⟨claims.sound, claims.frame, fun x => ?_, fun single => ?_⟩, fun error failed => ?_⟩
  · by_cases same : e.id = x
    · subst same
      intro f stored single
      obtain rfl : e = f := Option.some.inj (he.symm.trans stored)
      obtain ⟨expiry, inTime⟩ := Option.isSome_iff_exists.mp reach.1
      rw [claimEntry_single single, Act.on_map, hold_on, inTime]
      exact ⟨some now, by simp [holdEntry]⟩
    · exact .of_stored fun f stored => claims.frame.stored same stored
  · obtain ⟨expiry, inTime⟩ := Option.isSome_iff_exists.mp reach.1
    rw [claimEntry_single single, Act.on_map, hold_on, inTime] at ok
    exact (Except.ok.inj ok).symm
  · exact (claims.error error failed).2 reach

theorem claimEach_delivers (reach : rules.Reach now) {es : List StoredEntry} (limit : Nat) (sound : Sound now q)
    (stored : ∀ e ∈ es, q.entries.get? e.id = some e ∧ q.active.contains e.id = false ∧ e.fireAt ≤ now)
    (nodup : (es.map (·.id)).Nodup) :
    (claimEach rules now es limit).Ends q
      (fun out q' => (∀ x, Carries x q q') ∧ (es.length ≤ limit → ∀ e ∈ es, e.repeats = none →
        { e with processedOn := some now } ∈ out))
      fun _ _ => False := by
  induction es generalizing q limit with
  | nil => exact Act.ends_pure.mpr ⟨fun x => .refl x q, fun _ _ mem => by cases mem⟩
  | cons e es ih =>
    cases limit with
    | zero => exact Act.ends_pure.mpr ⟨fun x => .refl x q, fun few => by cases few⟩
    | succ limit =>
      obtain ⟨he, free, due⟩ := stored e List.mem_cons_self
      obtain ⟨absent, nodup⟩ := List.nodup_cons.mp nodup
      refine Act.ends_bind.mpr ((claimEntry_delivers sound he free due reach).mono ?_ fun _ _ h => h)
      rintro one q₁ ⟨sound₁, frame, carries, first⟩
      have stored₁ : ∀ f ∈ es, q₁.entries.get? f.id = some f ∧ q₁.active.contains f.id = false ∧ f.fireAt ≤ now := by
        intro f mem
        obtain ⟨hf, free, due⟩ := stored f (List.mem_cons_of_mem _ mem)
        have ne : e.id ≠ f.id := fun same => absent (List.mem_map.mpr ⟨f, mem, same.symm⟩)
        exact ⟨frame.stored ne hf, (frame.held ne).trans free, due⟩
      cases one with
      | none =>
        refine (ih (limit + 1) sound₁ stored₁ nodup).mono ?_ fun _ _ h => h
        rintro out q' ⟨carries', rest⟩
        refine ⟨fun x => (carries x).trans (carries' x), fun few f mem single => ?_⟩
        rcases List.mem_cons.mp mem with rfl | mem
        · cases first single
        · exact rest (Nat.le_of_succ_le few) f mem single
      | some c =>
        refine Act.ends_bind.mpr ((ih limit sound₁ stored₁ nodup).mono ?_ fun _ _ h => h)
        rintro out q' ⟨carries', rest⟩
        refine Act.ends_pure.mpr ⟨fun x => (carries x).trans (carries' x), fun few f mem single => ?_⟩
        rcases List.mem_cons.mp mem with rfl | mem
        · exact List.mem_cons.mpr (.inl (Option.some.inj (first single)).symm)
        · exact List.mem_cons_of_mem _ (rest (Nat.le_of_succ_le_succ few) f mem single)

/-- Whatever is due and not claimed once late claims are given up is handed out. -/
theorem claimDue_delivers (reach : rules.Reach now) (sound : Sound now q) (limit : Nat) :
    (claimDue rules now limit).Ends q
      (fun out q' => (∀ x, Carries x q q') ∧ (q.entries.size ≤ limit → ∀ e, q.entries.get? e.id = some e →
        (∀ expiry, q.active.get? e.id = some expiry → expiry ≤ now) → e.fireAt ≤ now → e.repeats = none →
        { e with processedOn := some now } ∈ out))
      fun _ _ => False := by
  have recovered := sound.recover
  simp only [claimDue, Act.ends_bind, Act.ends_modify, Act.ends_get]
  refine (claimEach_delivers reach limit recovered (fun e mem => recovered.named.mem_due.mp mem)
    recovered.named.nodup_due).mono ?_ fun _ _ h => h
  rintro out q' ⟨carries, all⟩
  refine ⟨carries, fun enough e stored ended due single => ?_⟩
  refine all ((length_due_le now (q.recover now)).trans enough) e (recovered.named.mem_due.mpr ⟨stored, ?_, due⟩) single
  rw [Table.contains_eq_false_iff, recover, Table.get?_filter, Option.filter_eq_none_iff]
  intro expiry held
  simp [ended expiry held]

/-! ## Requests -/

theorem addRepeating_carries {spec : RepeatSpec} {payload : Json} :
    Carries x q ((addRepeating now key spec payload).on q).2 := by
  have put (r : RepeatRecord) : Carries x q (q.putRecord r) :=
    .of_stored fun _ stored => putRecord_entries_eq_some.mpr (.inl stored)
  refine (Act.ends_iff_forall (P := Carries x q)).mp ?_
  simp only [addRepeating, Act.ends_bind, Act.ends_get]
  cases q.repeats.get? (repeatField key spec) with
  | some old => exact Act.ends_set.mpr (put _)
  | none =>
    refine Act.ends_bind.mpr (Act.ends_ofExcept.mpr ⟨fun r _ => ?_, fun _ _ => .refl x q⟩)
    exact Act.ends_set.mpr (put r)

theorem addDelayed_carries {delay : Nat} {payload : Json} :
    Carries x q ((addDelayed now key delay payload).on q).2 := by
  unfold addDelayed
  cases now.addMillis? (signedWord delay) with
  | none => exact .refl x q
  | some fireAt => exact .of_stored fun _ stored => insertIfAbsent_entries_eq_some.mpr (.inl stored)

theorem removeRepeating_carries {spec : RepeatSpec} (sound : Sound clock q) :
    Carries (singleId x) q ((removeRepeating key spec).on q).2 := by
  cases hr : q.repeats.get? (repeatField key spec) with
  | none =>
    simp only [removeRepeating, Act.on_bind, Act.on_get, hr]
    exact .refl _ q
  | some r =>
    rw [removeRepeating_on sound hr]
    exact .of_stored fun _ stored =>
      eraseChain_entries_eq_some.mpr ⟨stored, fun _ _ same => singleId_ne_instanceId same.symm⟩

theorem removeDelayed_carries {other : String}
    (kept : other = key → ((removeDelayed key).on q).1 ≠ .ok true) :
    Carries (singleId key) q ((removeDelayed other).on q).2 := by
  rw [removeDelayed_on] at kept ⊢
  split
  · exact .refl _ q
  · next there =>
    have ne : singleId other ≠ singleId key := by
      intro same
      obtain rfl := singleId_inj same
      exact kept rfl (by simp [there])
    exact .of_stored fun _ stored => by simpa [eraseEntry, ne] using stored

theorem finish_carries (unfinished : e.id = x → ¬ q.Held e) : Carries x q ((finish e).on q).2 := by
  rw [finish_on]
  split
  · next held =>
    have ne : e.id ≠ x := fun same => unfinished same (holdsClaim_iff.mp held)
    exact .of_stored fun _ stored => by simpa [ne] using stored
  · exact .refl x q

/-- Only a removal or whoever holds its claim takes out an entry that does not repeat. -/
theorem ask_carries (sound : Sound now q) (reach : ∀ limit, request = .claimDue limit → rules.Reach now)
    (kept : request = .removeDelayed key → (((workQueue rules).ask now (.removeDelayed key)).on q).1 ≠ .ok true)
    (unfinished : ∀ f, request = .finish f → f.id = singleId key → ¬ q.Held f) :
    Carries (singleId key) q (((workQueue rules).ask now request).on q).2 := by
  cases request with
  | addRepeating => exact addRepeating_carries
  | addDelayed => exact addDelayed_carries
  | removeRepeating => exact removeRepeating_carries sound
  | removeDelayed other => exact removeDelayed_carries fun same => kept (congrArg _ same)
  | claimDue limit =>
    have ends := claimDue_delivers (reach limit rfl) sound limit
    refine (Act.ends_iff_forall (P := Carries (singleId key) q)).mp ?_
    exact ends.mono (fun _ _ h => h.1 _) fun _ _ h => h.elim
  | renewLease f =>
    show Carries _ q ((renewLease rules f now).on q).2
    rw [renewLease_on]
    split
    · cases now.add? rules.lease <;> exact .of_stored fun _ stored => stored
    · exact .refl _ q
  | finish f => exact finish_carries (unfinished f rfl)
  | _ => exact .of_stored fun _ stored => stored

/-! ## Delivery -/

/-- As `WorkQueue.timely`, and claims are made only where the calendar reaches the end of the lease and the next second. -/
def timely (rules : ClaimRules) : WorkQueue.Rule LocalQueue := fun t q now r =>
  WorkQueue.timely t q now r ∧ ∀ limit, r = .claimDue limit → rules.Reach now

/-- What can be seen of the queue in memory. -/
def view : WorkQueue.View LocalQueue where
  stored q id e := q.entries.get? id = some e
  count q := q.entries.size
  held := Held
  free q id now := ∀ expiry, q.active.get? id = some expiry → expiry ≤ now
  keeps := Eq

theorem sound_of_timely_run {t₀ t : Instant} (run : (workQueue rules).Run (timely rules) t₀ {} t q) : Sound t q :=
  run.invariant (Sound.empty t₀) fun h allowed => ask_sound h allowed.1.1 allowed.1.2.2.countable

/-- What is stored for a key that does not repeat is an entry that does not repeat. -/
theorem Sound.single (sound : Sound clock q) (stored : q.entries.get? (singleId key) = some e) : e.repeats = none := by
  cases spec : e.repeats with
  | none => rfl
  | some spec' =>
    have own := ((sound.made stored).fire spec' spec).2.1
    exact absurd ((sound.ownId stored).symm.trans own) singleId_ne_instanceId

theorem delivers (rules : ClaimRules) :
    WorkQueue.Delivers (workQueue rules) (workQueue rules) rules (timely rules) {} view where
  stores {t₀ t now s key delay payload s'} run allowed on := by
    have on : (addDelayed now key delay payload).on s = _ := on
    unfold addDelayed at on
    cases reached : now.addMillis? (signedWord delay) with
    | none => simp [reached] at on
    | some fireAt =>
      rw [reached] at on
      simp only [Act.on_modify, Prod.mk.injEq, true_and] at on
      subst on
      cases before : s.entries.get? (singleId key) with
      | some e => exact ⟨e, insertIfAbsent_entries_eq_some.mpr (.inl before), .inl before⟩
      | none =>
        refine ⟨_, insertIfAbsent_entries_eq_some.mpr (.inr ⟨before, rfl, rfl⟩), .inr ⟨fun e' stored => ?_, rfl, ?_⟩⟩
        · cases before.symm.trans stored
        · exact ⟨fireAt, rfl, rfl, rfl, rfl, rfl, rfl⟩
  keeps {t₀ t s key e t' s'} run stored waits := by
    have sound := sound_of_timely_run run
    have single := sound.single stored
    have carried : Sound t' s' ∧ Carries (singleId key) s s' := by
      induction waits with
      | start => exact ⟨sound, .refl _ s⟩
      | step _ allowed kept unfinished ih =>
        obtain ⟨sound, carries⟩ := ih
        refine ⟨ask_sound sound allowed.1.1 allowed.1.2.2.countable, carries.trans ?_⟩
        exact ask_carries (sound.mono allowed.1.1) allowed.2 kept unfinished
    obtain ⟨p, stored'⟩ := carried.2 e stored single
    exact ⟨_, stored', rfl, rfl, rfl, rfl, rfl⟩
  hands {t₀ t now s key e limit} run stored le time reach due free enough := by
    have sound := (sound_of_timely_run run).mono le
    have own := sound.ownId stored
    obtain ⟨ok, error⟩ := claimDue_delivers reach sound limit
    cases result : ((claimDue rules now limit).on s).1 with
    | error failure => exact (error failure result).elim
    | ok out =>
      refine ⟨out, _, Prod.ext result rfl, ?_⟩
      exact (ok out result).2 enough e (own ▸ stored) (own ▸ free) due (sound.single stored)

end Timetable.LocalQueue
