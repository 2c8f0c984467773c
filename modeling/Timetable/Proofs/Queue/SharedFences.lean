import Timetable.Proofs.Queue.Fences
import Timetable.Proofs.Queue.Represented
import Timetable.Proofs.Queue.SharedLeases

/-!
# The fence of the queue in a shared keyspace

In a shared keyspace a claim shows its key and its millisecond, and its lease ends a millisecond later at least. A move
leaves a claim and its lease as they are, takes the claim out, or starts a lease, and only for a claim that was held
already or shows the millisecond of the move (`SharedQueue.Awards`). So the queue fences off whoever shows an earlier
millisecond, whichever commands fail as a whole (`SharedQueue.fence`).
-/

namespace Timetable

/-- Outside leap seconds a millisecond is passed when one has gone by. -/
theorem Instant.millis_lt_plus {t : Instant} {span : Int} (ordinary : ¬ t.InLeapSecond) (h : nanosPerMilli ≤ span) :
    t.millis < (t.plus span).millis := by
  rw [plus_of_not_inLeapSecond ordinary]
  simp only [millis, nanos_ofNanos, nanosPerMilli] at *
  omega

namespace SharedQueue

open Program

variable {rules : ClaimRules} {faults : CommandFaults} {now t : Instant} {s s' s'' : Keyspace} {e : StoredEntry}
  {c : Cell} {id : String} {request : QueueRequest} {G : RepeatRecord → Prop}

/-- The claim that an entry shows is the one under its identifier. -/
def Claims (e : StoredEntry) (s : Keyspace) : Prop :=
  ∃ claim, ActiveClaim.ofEntry? e = some claim ∧ s.active.get? e.id = some claim.text

/-- Claims show identifier, key and millisecond. -/
def signs : ClaimSigns Link where
  same := SameClaim
  held e link := Claims e link.keys
  late e now link := Late now link.keys e.id

/-- How a claim comes to be held after a step: it was, with the same lease, or its lease starts now. -/
def Awards (rules : ClaimRules) (now : Instant) (e : StoredEntry) (s s' : Keyspace) : Prop :=
  Claims e s' → Claims e s ∧ s'.leases.get? e.id = s.leases.get? e.id ∨
    (Claims e s ∨ ∃ key, ActiveClaim.ofEntry? e = some ⟨key, now.millis⟩) ∧
      ∃ expiry, leaseExpiry rules now = .ok expiry ∧ s'.leases.get? e.id = some expiry

namespace Awards

theorem refl (s : Keyspace) : Awards rules now e s s := fun held => .inl ⟨held, rfl⟩

theorem trans (h : Awards rules now e s s') (h' : Awards rules now e s' s'') : Awards rules now e s s'' := by
  intro held
  rcases h' held with ⟨before, same⟩ | ⟨before | now_, lease⟩
  · rw [same]
    exact h before
  · exact .inr ⟨(h before).elim (fun was => .inl was.1) fun won => won.1, lease⟩
  · exact .inr ⟨.inr now_, lease⟩

theorem of_same (same : Same s s' e.id) : Awards rules now e s s' := by
  rintro ⟨claim, shown, held⟩
  exact .inl ⟨⟨claim, shown, same.claim ▸ held⟩, same.expiry⟩

/-- A cell without a claim. -/
theorem of_free (free : s'.active.get? e.id = none) : Awards rules now e s s' := by
  rintro ⟨claim, _, held⟩
  rw [free] at held
  cases held

end Awards

/-- No move lets anyone hold a claim but by claiming now, nor starts a lease but now. -/
theorem Move.awards (consistent : Consistent s) (m : Move rules now request G s s') : Awards rules now e s s' := by
  -- what a move does to another identifier does not matter
  have other {id : String} (same : id ≠ e.id → Same s s' e.id) (own : id = e.id → Awards rules now e s s') :
      Awards rules now e s s' := by
    by_cases ne : id = e.id
    · exact own ne
    · exact .of_same (same ne)
  cases m with
  | @addSingle key _ payload fireAt _ _ free =>
    refine other (fun ne => same_addPending ne _ _) fun own => .of_free ?_
    exact own ▸ (at_addPending (e := .single key fireAt payload) free fireAt.millis).claim
  | addInstance _ _ free =>
    exact other (fun ne => same_addPending ne _ _) fun own => .of_free (own ▸ (at_addPending free _).claim)
  | dropSingle _ held => exact other same_dropPending fun own => .of_free (own ▸ (at_dropPending held).claim)
  | dropInstance _ held => exact other same_dropPending fun own => .of_free (own ▸ (at_dropPending held).claim)
  | @claim id d stored score expiry held _ read inTime =>
    refine other (fun ne => same_addClaim ne _ _) fun own => ?_
    rintro ⟨claim, shown, text⟩
    refine .inr ⟨.inr ⟨stored.key, ?_⟩, expiry, inTime, by simp [Keyspace.addClaim, own]⟩
    rw [← own, Keyspace.addClaim, Table.get?_set, if_pos rfl, Option.some.injEq] at text
    rw [shown, ActiveClaim.text_injective text]
  | stamp held read =>
    refine other (fun ne => same_setEntry ne _) fun _ => ?_
    rintro ⟨claim, shown, text⟩
    exact .inl ⟨⟨claim, shown, text⟩, rfl⟩
  | @renew id d a expiry expiry' held inTime =>
    refine other (fun ne => same_extendLease ne _) fun own => ?_
    rintro ⟨claim, shown, text⟩
    exact .inr ⟨.inl ⟨claim, shown, text⟩, expiry', inTime, by simp [Keyspace.extendLease, own]⟩
  | finish _ _ _ _ held => exact other same_dropClaimed fun own => .of_free (own ▸ (at_dropClaimed held).claim)
  | skip held _ => exact other same_dropClaimed fun own => .of_free (own ▸ (at_dropClaimed held).claim)
  | recover =>
    obtain ⟨c, hc⟩ := consistent.cell e.id
    have after := at_recover hc now.millis
    cases c with
    | claimed d a expiry =>
      by_cases passed : expiry ≤ now.millis
      · rw [Cell.recovered, if_pos passed] at after
        exact .of_free after.claim
      · rw [Cell.recovered, if_neg passed] at after
        rintro ⟨claim, shown, text⟩
        exact .inl ⟨⟨claim, shown, by rw [hc.claim, ← after.claim, text]⟩, after.expiry.trans hc.expiry.symm⟩
    | _ => exact .of_free after.claim
  | saveRecord _ => exact .of_same ⟨rfl, rfl, rfl, rfl⟩
  | eraseRecord field => exact .of_same ⟨rfl, rfl, rfl, rfl⟩

/-- An entry that shows another millisecond is not made a holder. -/
theorem preserved_not_claims (request : QueueRequest) (stamped : e.processedOn = some t) (later : t.millis < now.millis) :
    Preserved rules now request (fun _ => True) fun s => ¬ Claims e s where
  move consistent lost m held := by
    rcases m.awards consistent held with ⟨before, _⟩ | ⟨before | ⟨key, shown⟩, _⟩
    · exact lost before
    · exact lost before
    · rw [ActiveClaim.ofEntry?, stamped, Option.map_some, Option.some.injEq, ActiveClaim.mk.injEq] at shown
      exact absurd later (shown.2 ▸ lt_irrefl _)
  read _ _ := trivial

theorem ask_awards {link : Link} (consistent : Consistent link.keys) (whole : faults.Whole) (request : QueueRequest) :
    Awards rules now e link.keys (((workQueue rules faults).ask now request).on link).2.keys := by
  have preserved : Preserved rules now request (fun _ => True) (Awards rules now e link.keys) :=
    ⟨fun consistent before m => before.trans (m.awards consistent), fun _ _ => trivial⟩
  exact (Kept.ask ⟨consistent, .refl _⟩ preserved whole).holds

theorem Consistent.orderly (h : Consistent s) : Orderly s where
  named {id text} stored := by
    obtain ⟨c, hc⟩ := h.cell id
    rw [hc.entry, Option.map_eq_some_iff] at stored
    obtain ⟨d, held, rfl⟩ := stored
    exact ⟨d, rfl, hc.ownId held⟩
  waiting {id} waits := (h.represented.held id).mpr (.inl waits)
  claimed {id} active := by
    refine ⟨(h.represented.held id).mpr (.inr active), Bool.eq_false_iff.mpr fun waits => ?_⟩
    rw [h.represented.disjoint id waits] at active
    cases active

theorem Claims.cell (h : Claims e s) (consistent : Consistent s) :
    ∃ d claim expiry, ActiveClaim.ofEntry? e = some claim ∧ At s e.id (.claimed d claim expiry) := by
  obtain ⟨claim, shown, text⟩ := h
  obtain ⟨c, hc⟩ := consistent.cell e.id
  obtain ⟨d, a, expiry, rfl, same⟩ := hc.claimed_of_active text
  rw [ActiveClaim.text_injective same] at shown
  exact ⟨d, a, expiry, shown, hc⟩

/-- A claim is held until it is finished, or given up when its lease is over. -/
theorem ask_held {link : Link} (consistent : Consistent link.keys) (held : Claims e link.keys)
    (unfinished : ∀ f, SameClaim e f → request ≠ .finish f) (running : request.GivesUp → ¬ Late now link.keys e.id) :
    Claims e (((workQueue rules faults).ask now request).on link).2.keys := by
  obtain ⟨d, claim, expiry, shown, hc⟩ := held.cell consistent
  have before : Held link.keys e.id claim.text expiry := ⟨hc.claim, hc.expiry⟩
  have stays {keys : Keyspace} (stays : Stays link.keys keys e.id) : Claims e keys :=
    ⟨claim, shown, (stays _ _ before).claim⟩
  have same {f : StoredEntry} {named : ActiveClaim} (own : f.id = e.id) (shown' : ActiveClaim.ofEntry? f = some named)
      (active : link.keys.active.get? f.id = some named.text) : SameClaim e f := by
    rw [own, before.claim, Option.some.injEq] at active
    exact ⟨own, by rw [shown, shown', ActiveClaim.text_injective active]⟩
  by_cases ends : MayEnd now link.keys e.id request
  · cases request with
    | claimDue | recoverStalled => exact absurd (SortedSet.mem_upTo.mp ends) (running trivial)
    | finish f =>
      obtain ⟨own, named, shown', active⟩ := ends
      exact absurd rfl (unfinished f (same own shown' active))
    | renewLease f =>
      obtain ⟨own, named, shown', active⟩ := ends
      have renewal : (renewLease rules f now).Weathers _ _ link.keys := renewLease_leaves consistent.orderly
      obtain ⟨ok, error⟩ := renewal.ends faults rfl
      cases result : (((workQueue rules faults).ask now (.renewLease f)).on link).1 with
      | error failure => exact stays ((error failure result).stays trivial)
      | ok renewed =>
        obtain ⟨left, extended⟩ := ok renewed result
        cases renewed with
        | false => exact stays (left.stays fun yes => by cases yes)
        | true =>
          obtain ⟨claim', _, shown'', _, _, held'⟩ := extended rfl
          exact ⟨claim', by rw [← shown'', (same own shown' active).2], own ▸ held'.claim⟩
    | _ => exact ends.elim
  · exact stays ((ask_leaves consistent.orderly request).stays ends)

/-- What is recovered is not held. -/
theorem Late.not_claims (h : Late now s e.id) (consistent : Consistent s) :
    ¬ Claims e ((s.leases.upTo now.millis).foldl (·.giveUp now.millis) s) := by
  obtain ⟨n, lease, passed⟩ := h
  obtain ⟨c, hc⟩ := consistent.cell e.id
  have after := at_recover hc now.millis
  rintro ⟨claim, _, text⟩
  rw [after.claim] at text
  cases c with
  | claimed d a expiry =>
    rw [hc.expiry, Cell.expiry?, Option.some.injEq] at lease
    rw [Cell.recovered, if_pos (lease ▸ passed)] at text
    cases text
  | _ => cases text

/-- Once a late claim is given up, a claim of due entries does not bring its holder back. -/
theorem safe_claimDue_of_late (consistent : Consistent s) (stamped : e.processedOn = some t)
    (later : t.millis < now.millis) (late : Late now s e.id) (limit : Nat) :
    (claimDue rules now limit).Safe (fun _ _ => True) (fun _ s' => ¬ Claims e s') (fun _ _ => True) s := by
  have kept : Kept (fun s => ¬ Claims e s) ((s.leases.upTo now.millis).foldl (·.giveUp now.millis) s) :=
    ⟨consistent.recover now.millis, late.not_claims consistent⟩
  unfold claimDue
  refine Safe.bind (Q := fun _ s' => s' = (s.leases.upTo now.millis).foldl (·.giveUp now.millis) s)
    (Safe.discard (.send trivial (.done rfl))) ?_
  rintro ⟨⟩ _ rfl
  exact (safe_claimWaiting (preserved_not_claims (.claimDue limit) stamped later) kept limit).mono
    (fun _ _ _ => trivial) (fun _ _ h => h.1.holds) fun _ _ _ => trivial

theorem lt_leaseExpiry {expiry : Int} (lease : Instant.nanosPerMilli ≤ rules.lease) (ordinary : ¬ now.InLeapSecond)
    (inTime : leaseExpiry rules now = .ok expiry) : now.millis < expiry := by
  obtain ⟨u, hu, rfl⟩ := leaseExpiry_eq_ok.mp inTime
  obtain ⟨rfl, _⟩ := Instant.add?_eq_some_iff.mp hu
  exact Instant.millis_lt_plus ordinary lease

theorem fence (lease : Instant.nanosPerMilli ≤ rules.lease) (whole : faults.Whole) :
    WorkQueue.Fence (workQueue rules faults) (¬ ·.InLeapSecond) (Consistent ·.keys) signs
      (fun u t => t.millis < u.millis) where
  step request consistent := (Kept.ask ⟨consistent, trivial⟩ (preserved_true ..) whole).consistent
  claim {now link limit out link' e} consistent ordinary on mem := by
    have claims : (claimDue rules now limit).Weathers _ _ link.keys := claimDue_leaves consistent.orderly limit
    obtain ⟨_, _, claimed⟩ := (Act.ends_of_on_ok on).mp (claims.ends faults rfl)
    obtain ⟨time, expiry, inTime, held⟩ := (claimed e mem).1
    refine ⟨time, ⟨⟨e.key, now.millis⟩, by simp [ActiveClaim.ofEntry?, time], held.claim⟩, ?_⟩
    rintro u ⟨expiry', ends', passed⟩
    obtain rfl : expiry = expiry' := Option.some.inj (held.lease.symm.trans ends')
    exact lt_of_lt_of_le (lt_leaseExpiry lease ordinary inTime) passed
  keep request consistent held unfinished running := ask_held consistent held unfinished running
  lease {now link e t} request consistent ordinary _ held u late := by
    obtain ⟨expiry, ends, passed⟩ := late
    rcases ask_awards consistent whole request held with ⟨before, same⟩ | ⟨_, expiry', inTime, ends'⟩
    · exact .inr ⟨before, expiry, same ▸ ends, passed⟩
    · obtain rfl : expiry = expiry' := Option.some.inj (ends.symm.trans ends')
      exact .inl (lt_of_lt_of_le (lt_leaseExpiry lease ordinary inTime) passed)
  won {now link e t} request consistent stamped later held := by
    by_contra lost
    exact (Kept.ask ⟨consistent, lost⟩ (preserved_not_claims request stamped later) whole).holds held
  release {now link e t request answer link'} consistent stamped later gives late on := by
    have lost {α : Type} {p : Program α} {a : α}
        (safe : p.Safe (fun _ _ => True) (fun _ s' => ¬ Claims e s') (fun _ _ => True) link.keys)
        (on : (p.run faults).on link = (.ok a, link')) : ¬ Claims e link'.keys :=
      (Act.ends_of_on_ok on).mp (safe.ends whole rfl)
    rw [ask_eq_run] at on
    cases request with
    | claimDue limit => exact lost (safe_claimDue_of_late consistent stamped later late limit) on
    | recoverStalled =>
      have left : ¬ Claims e (Command.outcome (.recover now.millis) link.keys).2 := late.not_claims consistent
      exact lost (.send trivial (.done left)) on
    | _ => exact gives.elim
  mono _ ordinary later le := lt_of_lt_of_le later (Instant.millis_mono ordinary le)
  trans ordinary le later := lt_of_le_of_lt (Instant.millis_mono ordinary le) later

/-! ## Who is heard -/

/-- A call with an entry renews its lease, and finishing with it takes the entry, its mark and its lease out. -/
structure Heard (rules : ClaimRules) (e : StoredEntry) (link : Link) : Prop where
  renew : ∀ now expiry, now.add? rules.lease = some expiry →
    let out := ((workQueue rules .none).renewLease e now).on link
    out.1 = .ok true ∧ out.2.keys = { link.keys with leases := link.keys.leases.set e.id expiry.millis }
  finish :
    let out := ((workQueue rules .none).finish e).on link
    out.1 = .ok () ∧ out.2.keys = { link.keys with
      entries := link.keys.entries.erase e.id
      active := link.keys.active.erase e.id
      leases := link.keys.leases.erase e.id }

/-- Calls with an entry change nothing, and its lease is not renewed. -/
structure Ignored (rules : ClaimRules) (e : StoredEntry) (link : Link) : Prop where
  unchanged : ∀ now, (((workQueue rules .none).renewLease e now).on link).2.keys = link.keys
  renew : ∀ now expiry, now.add? rules.lease = some expiry →
    (((workQueue rules .none).renewLease e now).on link).1 = .ok false
  finish :
    let out := ((workQueue rules .none).finish e).on link
    out.1 = .ok () ∧ out.2.keys = link.keys

/-- A command that nothing makes fail has its outcome. -/
theorem run_send_calm {α : Type} (link : Link) (c : Command) (next : c.Answer → Program α) :
    ((send c next).run .none).on link =
      ((next (c.outcome link.keys).1).run .none).on ⟨(c.outcome link.keys).2, link.sent + 1⟩ := by
  rw [run_send, Command.effect_on (fun _ => rfl : ∀ v, CommandFaults.none.fails link.sent v = false)]

section

variable {claim : ActiveClaim} {link : Link} {expiry : Instant}

theorem renewLease_on (shown : ActiveClaim.ofEntry? e = some claim) (inTime : now.add? rules.lease = some expiry) :
    ((workQueue rules .none).renewLease e now).on link =
      if link.keys.active.get? e.id = some claim.text then
        (.ok true, ⟨{ link.keys with leases := link.keys.leases.set e.id expiry.millis }, link.sent + 1⟩)
      else (.ok false, ⟨link.keys, link.sent + 1⟩) := by
  have asks : renewLease rules e now = send (.renew e.id claim.text expiry.millis) .done := by
    simp only [renewLease, shown, leaseExpiry, inTime]
    rfl
  show ((renewLease rules e now).run .none).on link = _
  rw [asks, run_send_calm, Command.outcome]
  split <;> rfl

theorem renewLease_out_of_time (shown : ActiveClaim.ofEntry? e = some claim) (late : now.add? rules.lease = none) :
    ((workQueue rules .none).renewLease e now).on link = (.error .outOfRange, link) := by
  show ((renewLease rules e now).run .none).on link = _
  simp only [renewLease, shown, leaseExpiry, late]
  rfl

theorem finish_on (shown : ActiveClaim.ofEntry? e = some claim) :
    ((workQueue rules .none).finish e).on link =
      if link.keys.active.get? e.id = some claim.text then
        (.ok (), ⟨link.keys.dropClaimed e.id, link.sent + 1⟩)
      else (.ok (), ⟨link.keys, link.sent + 1⟩) := by
  have asks : finish e = send (.release e.id claim.text) fun _ => .done () := by
    simp only [finish, shown]
    rfl
  show ((finish e).run .none).on link = _
  rw [asks, run_send_calm, Command.outcome]
  split <;> rfl

end

/-- The queue in a shared keyspace fences off whoever shows a claim that was given up. -/
theorem fences (lease : Instant.nanosPerMilli ≤ rules.lease) (whole : faults.Whole) :
    WorkQueue.Fences (workQueue rules faults) (¬ ·.InLeapSecond) {} signs (Heard rules) (Ignored rules) := by
  refine .of_fence (fence lease whole) .empty (fun {e _ link} _ _ held => ?_) fun {e t link} _ stamped lost => ?_
  · obtain ⟨claim, shown, text⟩ := held
    refine ⟨fun now expiry inTime => ?_, ?_⟩
    · rw [renewLease_on shown inTime, if_pos text]
      exact ⟨rfl, rfl⟩
    · rw [finish_on shown, if_pos text]
      exact ⟨rfl, rfl⟩
  · have shown : ActiveClaim.ofEntry? e = some ⟨e.key, t.millis⟩ := by rw [ActiveClaim.ofEntry?, stamped, Option.map_some]
    have free : ¬ link.keys.active.get? e.id = some (ActiveClaim.text ⟨e.key, t.millis⟩) :=
      fun text => lost ⟨_, shown, text⟩
    refine ⟨fun now => ?_, fun now expiry inTime => by rw [renewLease_on shown inTime, if_neg free], ?_⟩
    · cases inTime : now.add? rules.lease with
      | none => rw [renewLease_out_of_time shown inTime]
      | some expiry => rw [renewLease_on shown inTime, if_neg free]
    · rw [finish_on shown, if_neg free]
      exact ⟨rfl, rfl⟩

end SharedQueue

end Timetable
