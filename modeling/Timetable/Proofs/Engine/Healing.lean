import Timetable.Proofs.Engine.Orphans
import Timetable.Proofs.Queue.SharedFiring

/-!
# Reconciliation heals chains

In a shared keyspace a fault may leave a record without its entry, or an entry whose record has moved on, and claims
may be abandoned. Once all leases are over one pass without faults mends every chain of an accepted schedule: its record
is there, and the entry for its next fire waits. A claim that is late enough takes that entry up, and the record moves
on (`Engine.chains_heal`).
-/

namespace Timetable

namespace SharedQueue

variable {rules : ClaimRules} {now : Instant} {s : Keyspace} {key id : String} {spec : RepeatSpec} {t : Instant}

/-- The record of a chain is there, and the entry for its next fire waits. -/
def Healed (s : Keyspace) (key : String) (spec : RepeatSpec) : Prop :=
  ∃ r, (contents s).record (repeatField key spec) = some r ∧ r.key = key ∧ r.spec = spec ∧
    ∀ t, r.next = some t → s.entries.contains (instanceId key spec t) = true ∧
      s.delayed.contains (instanceId key spec t) = true

/-- Whatever is stored waits, if nothing is claimed. -/
theorem Kept.delayed (h : Kept (Readable now) s) (idle : (contents s).claimed id = false)
    (stored : ((contents s).entry id).isSome) :
    s.entries.contains id = true ∧ s.delayed.contains id = true := by
  rw [h.holds.isSome_entry] at stored
  obtain ⟨c, hc, _⟩ := h.holds.cell id
  have idle : s.active.contains id = false := idle
  cases c with
  | absent =>
    rw [Table.contains, hc.entry] at stored
    cases stored
  | waiting e score => exact ⟨stored, Table.contains_iff.mpr ⟨score, hc.score⟩⟩
  | claimed e a expiry =>
    rw [Table.contains, hc.claim] at idle
    cases idle

theorem Healed.claimDue {link : Link} (h : Healed link.keys key spec) (kept : Kept (Readable now) link.keys)
    {limit : Nat} (time : Timely rules now) (awaits : Awaits link.keys key spec t) (due : t ≤ now)
    (enough : link.keys.entries.size ≤ limit) :
    ((workQueue rules .none).claimDue now limit).Ends link
      (fun out link' => MovedOn now link'.keys key spec ∧ Fired rules now key spec t out link'.keys)
      fun _ _ => False := by
  obtain ⟨r, hr, _, _, fires⟩ := h
  obtain ⟨r', hr', _, _, next⟩ := id awaits
  obtain rfl := Option.some.inj (hr.symm.trans hr')
  obtain ⟨stored, delayed⟩ := fires t next
  obtain ⟨c, hc⟩ := kept.consistent.cell (instanceId key spec t)
  obtain ⟨e, score, rfl⟩ := hc.waiting_of_delayed delayed
  have free : link.keys.leases.get? (instanceId key spec t) = none := hc.expiry
  rw [← kept.holds.isSome_entry] at stored
  have claims := claimDue_fires time kept enough awaits due stored fun n lease => by cases free.symm.trans lease
  exact (claims.ends_calm rfl).mono (fun _ _ h => h.2) fun _ _ h => h

end SharedQueue

namespace Engine

open SharedQueue

variable {ρ τ β : Type} {rules : ClaimRules} {S : CalmStore ρ τ β} {g : Engine Link ρ τ} {w : World Link ρ}
  {jobs : List Job}

/-- Whatever failed before, a pass without faults when all leases are over leaves every chain of an accepted schedule
healed. A claim at some later time takes up the fire that the record waits for: the record moves on, and the fire is
handed out unless another entry of its key is at work and they are not to overlap. -/
theorem chains_heal (hS : S.Implemented) (hg : g.queue = workQueue rules .none) (hs : g.store = S.store)
    (clock : w.now.Storable) (reached : (CalmQueue.shared rules).Reached w.now w.queue.keys)
    (listed : S.enabled (S.rows w.store) = .ok jobs) (takes : ∀ job ∈ jobs, (CalmQueue.shared rules).Takes job)
    (ended : ∀ id n, w.queue.keys.leases.get? id = some n → n ≤ w.now.millis) :
    g.reconcile.Ends w
      (fun _ w' => ∀ job ∈ jobs, job.schedule.Accepted → ∀ spec, job.schedule.spec? = some spec →
        Healed w'.queue.keys job.queueKey spec ∧
        ∀ t now limit, Awaits w'.queue.keys job.queueKey spec t → w.now ≤ now → t ≤ now → Timely rules now →
          w'.queue.keys.entries.size ≤ limit →
          (g.queue.claimDue now limit).Ends w'.queue
            (fun out link =>
              MovedOn now link.keys job.queueKey spec ∧ Fired rules now job.queueKey spec t out link.keys)
            fun _ _ => False)
      fun _ _ => ∃ job ∈ jobs, ¬ job.schedule.InReach w.now := by
  have lawful := CalmQueue.lawful_shared rules clock
  have kept := CalmQueue.kept_of_reached reached
  refine (reconcile_restores lawful hS.lawful hg hs reached clock listed takes).mono ?_ fun _ _ ⟨_, late, _⟩ => late
  rintro _ w' ⟨_, _, q, settled, recovered, restored, answered⟩ job mem accepted spec hs
  have settled' : SharedQueue.Settled w.now w'.queue.keys := restored.settled
  -- every lease is over, so every claim was given up, and a pass starts none
  have idle (id : String) : (contents w'.queue.keys).claimed id = false := by
    refine Bool.eq_false_iff.mpr fun claimed => ?_
    have claimed : (contents q.keys).claimed id = true := congrFun restored.restores.grows.claimed id ▸ claimed
    obtain ⟨before, inTime⟩ := (recovered.claimed id).mp claimed
    obtain ⟨text, active⟩ := Table.contains_iff.mp before
    obtain ⟨c, hc⟩ := kept.consistent.cell id
    obtain ⟨e, a, expiry, rfl, _⟩ := hc.claimed_of_active active
    exact inTime ⟨expiry, hc.expiry, ended id expiry hc.expiry⟩
  have healed : Healed w'.queue.keys job.queueKey spec := by
    have done := answered job mem (recovered.owns (lawful.tidy settled) accepted)
    obtain ⟨f, r, hr, key, same, live⟩ := done.hasLive accepted hs
    have field : r.field = f := (record_eq_some settled'.kept hr).2.1
    refine ⟨r, by rw [← key, ← same]; exact (congrArg _ field).trans hr, key, same, fun t next => ?_⟩
    rw [← key, ← same]
    rcases live t next with stored | ⟨id, _, _, claimed, _⟩
    · exact settled'.kept.delayed (idle _) stored
    · cases (idle id).symm.trans claimed
  refine ⟨healed, fun t now limit awaits le due time enough => ?_⟩
  rw [hg]
  exact healed.claimDue ⟨settled'.kept.consistent, settled'.kept.holds.mono le⟩ time awaits due enough

/-! ## A record whose entry was never stored -/

def obligingShared : Engine Link (StoreState LocalStore) (Transaction LocalStore) where
  queue := workQueue {} .none
  store := LocalStore.jobStore noStoreFaults
  invoker := .obliging

/-- The third command of adding a chain failed. -/
def tornChain : Link :=
  (((workQueue {} (.single 2 "")).ask (.ofMillis 0)
    (.addRepeating (jobOn 1 (.interval 5)).queueKey (.every 300000) .null)).on {}).2

def tornWorld : World Link (StoreState LocalStore) := worldOf (.ofMillis 0) tornChain [jobOn 1 (.interval 5)]

theorem torn_chain_is_healed :
    let key := (jobOn 1 (.interval 5)).queueKey
    let w' := (obligingShared.reconcile.on tornWorld).2
    tornChain.keys.repeats.size = 1 ∧ tornChain.keys.entries.size = 0 ∧
      (obligingShared.reconcile.on tornWorld).1 = .ok ⟨1, 0, 0⟩ ∧ Healed w'.queue.keys key (.every 300000) ∧
      (obligingShared.queue.claimDue (.ofMillis 300000) w'.queue.keys.entries.size).Ends w'.queue
        (fun out link => MovedOn (.ofMillis 300000) link.keys key (.every 300000) ∧
          Fired {} (.ofMillis 300000) key (.every 300000) (.ofMillis 300000) out link.keys)
        fun _ _ => False := by
  intro key w'
  have takes : ∀ job ∈ [jobOn 1 (.interval 5)], (CalmQueue.shared {}).Takes job := by
    simp only [List.forall_mem_cons]
    exact ⟨CalmQueue.Implemented.takes (.shared {}) (show 5 < 4294967296 by decide) nofun, nofun⟩
  have clock : tornWorld.now.Storable := by decide
  have reached : (CalmQueue.shared {}).Reached tornWorld.now tornWorld.queue.keys :=
    ⟨clock, .single 2 "", .ofMillis 0, .ofMillis 0, tornChain, CommandFaults.whole_single 2 "", le_rfl,
      .step (r := .addRepeating key (.every 300000) .null) .start
        ⟨le_rfl, clock, show 300000 < Json.wordLimit by decide, trivial, by decide⟩, rfl⟩
  have listed : CalmStore.memory.enabled (CalmStore.memory.rows tornWorld.store) = .ok [jobOn 1 (.interval 5)] := by
    decide +kernel
  have unclaimed : tornWorld.queue.keys.leases = .empty := by decide +kernel
  have report : (obligingShared.reconcile.on tornWorld).1 = .ok ⟨1, 0, 0⟩ := by decide +kernel
  have passes := chains_heal (g := obligingShared) .memory rfl rfl clock reached listed takes fun id n lease => by
    rw [unclaimed] at lease
    cases lease
  obtain ⟨healed, later⟩ := passes.1 _ report _ (List.mem_singleton_self _) ⟨by decide, by decide⟩ (.every 300000) rfl
  have awaits : Awaits w'.queue.keys key (.every 300000) (.ofMillis 300000) := by
    have waited : (contents tornWorld.queue.keys).record (repeatField key (.every 300000)) =
        some ⟨key, .every 300000, .null, some (.ofMillis 300000)⟩ := by decide +kernel
    have keeps : obligingShared.reconcile.Ends tornWorld
        (fun _ w' => Awaits w'.queue.keys key (.every 300000) (.ofMillis 300000)) fun _ _ => True := by
      refine (reconcile_restores (CalmQueue.lawful_shared {} clock) CalmStore.Implemented.memory.lawful rfl rfl reached
        clock listed takes).mono ?_ fun _ _ _ => trivial
      rintro _ w' ⟨_, _, q, _, recovered, restored, _⟩
      exact restored.restores.grows.record (recovered.record ▸ waited)
    exact keeps.1 _ report
  refine ⟨by decide +kernel, by decide +kernel, report, healed, ?_⟩
  exact later _ _ _ awaits (by decide) le_rfl ⟨by decide, by decide⟩ le_rfl

/-! ## Chains that are not healed -/

/-- The chain of a job, as it was added at some time. -/
def chainSince (now : Instant) : Link :=
  (((workQueue {} .none).ask now (.addRepeating (jobOn 1 (.interval 5)).queueKey (.every 300000) .null)).on {}).2

/-- The chain of a job, and the single entry that it left behind. -/
def leftBehind : Link :=
  (((workQueue {} .none).ask (.ofMillis 0) (.addDelayed (jobOn 1 (.interval 5)).queueKey 200000 .null)).on
    (chainSince (.ofMillis 0))).2

theorem run_chainSince {now : Instant} (clock : now.Storable) :
    (workQueue {} .none).Run WorkQueue.writable now {} now (chainSince now) :=
  .step (r := .addRepeating (jobOn 1 (.interval 5)).queueKey (.every 300000) .null) .start
    ⟨le_rfl, clock, show 300000 < Json.wordLimit by decide, trivial, by decide⟩

theorem reached_chainSince {now : Instant} (clock : now.Storable) :
    (CalmQueue.shared {}).Reached now (chainSince now).keys :=
  ⟨clock, .none, _, _, chainSince now, CommandFaults.whole_none, le_rfl, run_chainSince clock, rfl⟩

theorem reached_leftBehind : (CalmQueue.shared {}).Reached (.ofMillis 0) leftBehind.keys := by
  have clock : (Instant.ofMillis 0).Storable := by decide
  have both : (workQueue {} .none).Run WorkQueue.writable (.ofMillis 0) {} (.ofMillis 0) leftBehind :=
    .step (r := .addDelayed (jobOn 1 (.interval 5)).queueKey 200000 .null) (run_chainSince clock)
      ⟨le_rfl, clock, trivial, by decide⟩
  exact ⟨clock, .none, _, _, leftBehind, CommandFaults.whole_none, le_rfl, both, rfl⟩

/-- A pass that finds the chain of its one job leaves the keyspace as it is. -/
theorem reconcile_rests_on_chain {now t : Instant} {link : Link}
    (reached : (CalmQueue.shared {}).Reached now link.keys) (unclaimed : link.keys.leases = .empty)
    (awaits : Awaits link.keys (jobOn 1 (.interval 5)).queueKey (.every 300000) t)
    (stored : link.keys.entries.contains (instanceId (jobOn 1 (.interval 5)).queueKey (.every 300000) t) = true) :
    obligingShared.reconcile.Ends (worldOf now link [jobOn 1 (.interval 5)])
      (fun report w' => report = ⟨0, 0, 0⟩ ∧ w'.queue.keys = link.keys) fun _ _ => False := by
  have kept := CalmQueue.kept_of_reached reached
  have live : (contents link.keys).HasLive (jobOn 1 (.interval 5)).queueKey (.every 300000) := by
    obtain ⟨r, hr, key, spec, next⟩ := awaits
    refine ⟨_, r, hr, key, spec, fun u fire => .inl ?_⟩
    obtain rfl := Option.some.inj (next.symm.trans fire)
    rw [key, spec, kept.holds.isSome_entry]
    exact stored
  have settled : SharedQueue.Settled now link.keys := ⟨kept, fun held => by rw [unclaimed] at held; cases held⟩
  have takes : (CalmQueue.shared {}).Takes (jobOn 1 (.interval 5)) :=
    CalmQueue.Implemented.takes (.shared {}) (show 5 < 4294967296 by decide) nofun
  have listed : (worldOf (.ofMillis 0) () [jobOn 1 (.interval 5)]).store.rows.enabledJobs =
      [jobOn 1 (.interval 5)] := by decide +kernel
  have answered : ∀ job ∈ [jobOn 1 (.interval 5)],
      QueueContents.Answered now (contents link.keys) (contents link.keys) job :=
    List.forall_mem_singleton.mpr (.inl live)
  have rests := reconcile_rests (g := obligingShared) (w := worldOf now link [jobOn 1 (.interval 5)]) (S := .memory)
    (CalmQueue.lawful_shared {} reached.1) CalmStore.Implemented.memory.lawful rfl rfl settled
    (congrArg Except.ok listed) (List.forall_mem_singleton.mpr takes) answered
  exact rests.mono (fun _ _ ⟨nothing, _, _, held⟩ => ⟨nothing, held⟩) fun _ _ h => h

/-- No exception can be left out. In the last second of the calendar a pass breaks off and leaves no record for the job.
A fire is dropped while the single entry that the job left behind is at work. A claim whose lease would end beyond the
calendar breaks off. -/
theorem chains_not_healed :
    (∃ w, (CalmQueue.shared {}).Reached w.now w.queue.keys ∧ w.queue.keys.leases = .empty ∧
      (obligingShared.reconcile.on w).1 = .error (.queue .outOfRange) ∧
      (obligingShared.reconcile.on w).2.queue.keys.repeats.size = 0) ∧
    (∃ w, (CalmQueue.shared {}).Reached w.now w.queue.keys ∧ w.queue.keys.leases = .empty ∧
      obligingShared.reconcile.Ends w (fun report w' => report = ⟨0, 0, 0⟩ ∧ w'.queue.keys = w.queue.keys)
        (fun _ _ => False) ∧
      Awaits w.queue.keys (jobOn 1 (.interval 5)).queueKey (.every 300000) (.ofMillis 300000) ∧
      ((obligingShared.queue.claimDue (.ofMillis 300000) 10).on
        ((obligingShared.queue.claimDue (.ofMillis 200000) 10).on w.queue).2).1 = .ok []) ∧
    ∃ w t, (CalmQueue.shared {}).Reached w.now w.queue.keys ∧ w.queue.keys.leases = .empty ∧
      obligingShared.reconcile.Ends w (fun report w' => report = ⟨0, 0, 0⟩ ∧ w'.queue.keys = w.queue.keys)
        (fun _ _ => False) ∧
      Awaits w.queue.keys (jobOn 1 (.interval 5)).queueKey (.every 300000) t ∧ t.Storable ∧
      ((obligingShared.queue.claimDue t 10).on w.queue).1 = .error .outOfRange := by
  refine ⟨?_, ?_, ?_⟩
  · refine ⟨worldOf ⟨8210266876799, 0⟩ {} [jobOn 1 (.periodical "0 0 * * * *")],
      ⟨by decide, .none, _, _, {}, CommandFaults.whole_none, le_rfl, .start, rfl⟩, ?_, ?_, ?_⟩
    · decide +kernel
    · decide +kernel
    · decide +kernel
  · have unclaimed : leftBehind.keys.leases = .empty := by decide +kernel
    have record : (contents leftBehind.keys).record (repeatField (jobOn 1 (.interval 5)).queueKey (.every 300000)) =
        some ⟨(jobOn 1 (.interval 5)).queueKey, .every 300000, .null, some (.ofMillis 300000)⟩ := by decide +kernel
    have awaits : Awaits leftBehind.keys (jobOn 1 (.interval 5)).queueKey (.every 300000) (.ofMillis 300000) :=
      ⟨_, record, rfl, rfl, rfl⟩
    have rests := reconcile_rests_on_chain reached_leftBehind unclaimed awaits (by decide +kernel)
    refine ⟨worldOf (.ofMillis 0) leftBehind [jobOn 1 (.interval 5)], reached_leftBehind, unclaimed, rests, awaits, ?_⟩
    decide +kernel
  · have clock : (⟨8210266876200, 0⟩ : Instant).Storable := by decide
    have unclaimed : (chainSince ⟨8210266876200, 0⟩).keys.leases = .empty := by decide +kernel
    have record : (contents (chainSince ⟨8210266876200, 0⟩).keys).record
          (repeatField (jobOn 1 (.interval 5)).queueKey (.every 300000)) =
        some ⟨(jobOn 1 (.interval 5)).queueKey, .every 300000, .null, some ⟨8210266876500, 0⟩⟩ := by decide +kernel
    have awaits : Awaits (chainSince ⟨8210266876200, 0⟩).keys (jobOn 1 (.interval 5)).queueKey (.every 300000)
        ⟨8210266876500, 0⟩ := ⟨_, record, rfl, rfl, rfl⟩
    have rests := reconcile_rests_on_chain (reached_chainSince clock) unclaimed awaits (by decide +kernel)
    refine ⟨worldOf ⟨8210266876200, 0⟩ (chainSince ⟨8210266876200, 0⟩) [jobOn 1 (.interval 5)], ⟨8210266876500, 0⟩,
      reached_chainSince clock, unclaimed, rests, awaits, by decide, ?_⟩
    decide +kernel

end Engine

end Timetable
