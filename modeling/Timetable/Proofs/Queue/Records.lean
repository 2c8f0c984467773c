import Timetable.Proofs.Act
import Timetable.Proofs.Queue.Chain

/-!
# The records of a sound queue

Which keys and specifications have a repeat record, and how each operation of the queue in memory changes that:
adding puts one in, removing takes one out, and nothing else does either. Only the end of the calendar makes an
operation fail.
-/

namespace Timetable.LocalQueue

/-- There is a repeat record of a key and a specification. -/
def Has (q : LocalQueue) (key : String) (spec : RepeatSpec) : Prop :=
  ∃ f r, q.repeats.get? f = some r ∧ r.key = key ∧ r.spec = spec

variable {rules : ClaimRules} {clock now : Instant} {q q' : LocalQueue} {key key' : String}
  {spec spec' : RepeatSpec} {r : RepeatRecord}

theorem Sound.has_iff (h : Sound clock q) : q.Has key spec ↔
    ∃ r, q.repeats.get? (repeatField key spec) = some r ∧ r.key = key ∧ r.spec = spec := by
  constructor
  · rintro ⟨f, r, hr, rfl, rfl⟩
    obtain rfl := h.ownField hr
    exact ⟨r, hr, rfl, rfl⟩
  · rintro ⟨r, hr, hk, hs⟩
    exact ⟨_, r, hr, hk, hs⟩

theorem Sound.has_of_colonless (h : Sound clock q) (hs : spec.Colonless) :
    q.Has key spec ↔ (q.repeats.get? (repeatField key spec)).isSome := by
  rw [h.has_iff, Option.isSome_iff_exists]
  refine exists_congr fun r => ⟨And.left, fun hr => ⟨hr, h.record_of_field hs hr⟩⟩

theorem has_of_repeats_eq (h : q'.repeats = q.repeats) : q'.Has key spec ↔ q.Has key spec := by
  simp only [Has, h]

theorem SameChains.has_iff (h : q.SameChains q') : q'.Has key spec ↔ q.Has key spec := by
  have one {q q' : LocalQueue} (h : q.SameChains q') (hq : q.Has key spec) : q'.Has key spec := by
    obtain ⟨f, r, hr, rfl, rfl⟩ := hq
    have same := h f
    rw [hr, Option.map_some, Option.map_eq_some_iff] at same
    obtain ⟨r', hr', hc⟩ := same
    obtain ⟨hk, hs, _⟩ := RepeatRecord.chain_eq_iff.mp hc
    exact ⟨f, r', hr', hk, hs⟩
  exact ⟨one fun f => (h f).symm, one h⟩

theorem Sound.has_putRecord (h : Sound clock q) (hu : r.spec.Usable) :
    (q.putRecord r).Has key spec ↔ (r.key = key ∧ r.spec = spec) ∨ q.Has key spec := by
  constructor
  · rintro ⟨f, r', hr', rfl, rfl⟩
    rw [putRecord_repeats] at hr'
    split at hr'
    · cases hr'
      exact .inl ⟨rfl, rfl⟩
    · exact .inr ⟨f, r', hr', rfl, rfl⟩
  · rintro (⟨rfl, rfl⟩ | ⟨f, r', hr', rfl, rfl⟩)
    · exact ⟨r.field, r, by rw [putRecord_repeats, if_pos rfl], rfl, rfl⟩
    · by_cases hf : r.field = f
      · obtain ⟨hk, hs⟩ := repeatField_inj hu.colonless (h.usable hr').colonless
          (hf.trans (h.ownField hr').symm)
        exact ⟨f, r, by rw [putRecord_repeats, if_pos hf], hk, hs⟩
      · exact ⟨f, r', by rw [putRecord_repeats, if_neg hf]; exact hr', rfl, rfl⟩

theorem Sound.has_eraseChain (h : Sound clock q) (hu : r.spec.Usable) :
    (q.eraseChain r).Has key spec ↔ q.Has key spec ∧ ¬ (r.key = key ∧ r.spec = spec) := by
  constructor
  · rintro ⟨f, r', hr', rfl, rfl⟩
    rw [eraseChain_repeats] at hr'
    split at hr'
    · cases hr'
    · next hf =>
      refine ⟨⟨f, r', hr', rfl, rfl⟩, ?_⟩
      rintro ⟨hk, hs⟩
      exact hf (by rw [← h.ownField hr', RepeatRecord.field, RepeatRecord.field, hk, hs])
  · rintro ⟨⟨f, r', hr', rfl, rfl⟩, hne⟩
    refine ⟨f, r', ?_, rfl, rfl⟩
    rw [eraseChain_repeats, if_neg]
    · exact hr'
    · exact fun hf => hne (repeatField_inj hu.colonless (h.usable hr').colonless
        (hf.trans (h.ownField hr').symm))

/-! ## Operations -/

theorem addRepeating_ends (h : Sound now q) (hu : spec.Usable) (payload : Json) :
    (addRepeating now key spec payload).Ends q
      (fun _ q' => Sound now q' ∧
        ∀ key' spec', q'.Has key' spec' ↔ (key = key' ∧ spec = spec') ∨ q.Has key' spec')
      fun e _ => e = .outOfRange := by
  simp only [addRepeating, Act.ends_bind, Act.ends_get]
  cases hr : q.repeats.get? (repeatField key spec) with
  | some old =>
    obtain ⟨rfl, rfl⟩ := h.record_of_field hu.colonless hr
    rw [Act.ends_set]
    exact ⟨h.setPayload hr payload, fun key' spec' => h.has_putRecord hu⟩
  | none =>
    simp only [Act.ends_bind, Act.ends_ofExcept, Act.ends_set]
    refine ⟨fun r hc => ⟨h.create hr hu.countable hc, fun key' spec' => ?_⟩, fun e he => ?_⟩
    · obtain ⟨hk, hs, _⟩ := RepeatRecord.chain_eq_iff.mp (RepeatRecord.advance_eq_ok hc).1
      rw [h.has_putRecord (by rw [hs]; exact hu), hk, hs]
    · exact (RepeatRecord.advance_eq_error (r := ⟨key, spec, payload, none⟩) hu he).1

theorem addDelayed_ends (h : Sound clock q) (delay : Nat) (payload : Json) :
    (addDelayed now key delay payload).Ends q
      (fun _ q' => Sound clock q' ∧ q'.repeats = q.repeats) fun e _ => e = .outOfRange := by
  unfold addDelayed
  cases now.addMillis? (signedWord delay) with
  | none => exact Act.ends_throw.mpr rfl
  | some fireAt => exact Act.ends_modify.mpr ⟨h.addSingle key fireAt payload, rfl⟩

theorem removeRepeating_absent (h : q.repeats.get? (repeatField key spec) = none) :
    (removeRepeating key spec).on q = (.ok false, q) := by
  simp only [removeRepeating, Act.on_bind, Act.on_get, h, Act.on_pure]

theorem removeRepeating_ends (h : Sound clock q) (hs : spec.Colonless) :
    (removeRepeating key spec).Ends q
      (fun _ q' => Sound clock q' ∧
        ∀ key' spec', q'.Has key' spec' ↔ q.Has key' spec' ∧ ¬ (key = key' ∧ spec = spec'))
      fun _ _ => False := by
  cases hr : q.repeats.get? (repeatField key spec) with
  | none =>
    rw [Act.ends_of_on_ok (removeRepeating_absent hr)]
    refine ⟨h, fun key' spec' => (and_iff_left_of_imp ?_).symm⟩
    rintro hq ⟨rfl, rfl⟩
    rw [h.has_of_colonless hs, hr] at hq
    simp at hq
  | some r =>
    obtain ⟨rfl, rfl⟩ := h.record_of_field hs hr
    rw [Act.ends_of_on_ok (removeRepeating_on h hr)]
    exact ⟨h.dropChain hr, fun key' spec' => h.has_eraseChain (h.usable hr)⟩

theorem removeDelayed_on (key : String) (q : LocalQueue) : (removeDelayed key).on q =
    if q.active.contains (singleId key) || !q.entries.contains (singleId key) then (.ok false, q)
    else (.ok true, q.eraseEntry (singleId key)) := by
  simp only [removeDelayed, Act.on_bind, Act.on_get]
  split <;> rfl

theorem removeDelayed_ends (h : Sound clock q) :
    (removeDelayed key).Ends q (fun _ q' => Sound clock q' ∧ q'.repeats = q.repeats)
      fun _ _ => False := by
  have sound : Sound clock ((removeDelayed key).on q).2 := removeDelayed_sound h
  have on := removeDelayed_on key q
  split at on
  · exact (Act.ends_of_on_ok on).mpr ⟨h, rfl⟩
  · rw [on] at sound
    exact (Act.ends_of_on_ok on).mpr ⟨sound, rfl⟩

theorem recoverStalled_on (now : Instant) (q : LocalQueue) : (recoverStalled now).on q =
    (.ok (q.active.size - (q.recover now).active.size), q.recover now) := rfl

theorem listRepeating_on (q : LocalQueue) : listRepeating.on q = (.ok q.repeats.values, q) := rfl

theorem listEntries_on (now : Instant) (states : List EntryState) (q : LocalQueue) :
    (listEntries now states).on q =
      (.ok ((q.entries.values.map (q.withState now)).filter fun e => states.contains e.state), q) :=
  rfl

theorem claimDue_ends (h : Sound now q) (limit : Nat) :
    (claimDue rules now limit).Ends q
      (fun _ q' => Sound now q' ∧ ∀ key spec, q'.Has key spec ↔ q.Has key spec)
      fun e _ => e = .outOfRange := by
  have keeps : Keeps rules now q ((claimDue rules now limit).on q) := claimDue_keeps h limit
  refine ⟨fun a ha => ⟨keeps.sound, fun key spec => (keeps.same a ha).has_iff⟩, fun e he => ?_⟩
  exact (keeps.error e he).1

theorem renewLease_ends (h : Sound clock q) (e : StoredEntry) :
    (renewLease rules e now).Ends q (fun _ q' => Sound clock q' ∧ q'.repeats = q.repeats)
      fun e _ => e = .outOfRange := by
  have rest : (renewLease rules e now).Ends q (fun _ q' => q'.repeats = q.repeats)
      fun e _ => e = .outOfRange := by
    simp only [renewLease, Act.ends_bind, Act.ends_get]
    split
    · exact Act.ends_pure.mpr rfl
    · cases now.add? rules.lease with
      | none => exact Act.ends_throw.mpr rfl
      | some expiry => exact Act.ends_bind.mpr (Act.ends_set.mpr (Act.ends_pure.mpr rfl))
  exact ⟨fun a ha => ⟨renewLease_sound h, rest.1 a ha⟩, rest.2⟩

theorem finish_ends (h : Sound clock q) (e : StoredEntry) :
    (finish e).Ends q (fun _ q' => Sound clock q' ∧ q'.repeats = q.repeats) fun _ _ => False := by
  have rest : (finish e).Ends q (fun _ q' => q'.repeats = q.repeats) fun _ _ => False := by
    simp only [finish, Act.ends_bind, Act.ends_get]
    split
    · exact Act.ends_set.mpr rfl
    · exact Act.ends_pure.mpr rfl
  exact ⟨fun a ha => ⟨finish_sound h, rest.1 a ha⟩, rest.2⟩

end Timetable.LocalQueue
