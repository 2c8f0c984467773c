import Timetable.Proofs.Engine.HandedOut

/-!
# Environments are isolated from each other

In every state of an engine in memory that a run reaches (`Engine.calls_are_isolated`):

1. no call touches jobs of another environment, their executions, or what is queued of them (`Untouched`);
2. a call that names a job of another environment is told that there is none, and changes nothing;
3. in two states that agree on the jobs of its environment, their executions and what is queued of them (`Agree`), a
   call has the same result and leaves states that agree on them again, whatever else is stored or queued there.

A new job must not get an identifier that was handed out before: it would find what a deleted job left in the queue, of
whatever environment that was.

Jobs of an environment are listed newest first. How those lie that were created at the same time is the table's choice,
so two lists are the same up to that (`Call.SameAnswer`), and the very same if the tables keep the jobs in one order.
-/

namespace Timetable

open World LocalQueue Act

namespace Call

/-- The same answer, where jobs that were created at the same time may be listed in any order. -/
def SameAnswer : (c : Call) → c.Answer → c.Answer → Prop
  | list, a, b => a.Perm b ∧ a.map (·.createdAt) = b.map (·.createdAt)
  | _, a, b => a = b

/-- The same answer, or the same error. -/
def SameResult (c : Call) : Except EngineError c.Answer → Except EngineError c.Answer → Prop
  | .ok a, .ok b => c.SameAnswer a b
  | .error e, .error f => e = f
  | _, _ => False

theorem SameResult.of_eq {c : Call} {a b : Except EngineError c.Answer} (same : a = b) : c.SameResult a b := by
  subst same
  cases a with
  | error e => rfl
  | ok a =>
    cases c with
    | list => exact ⟨.refl a, rfl⟩
    | _ => rfl

/-- Only lists may differ. -/
theorem SameResult.eq {c : Call} {a b : Except EngineError c.Answer} (same : c.SameResult a b) (single : c ≠ .list) :
    a = b := by
  cases a with
  | error e =>
    cases b with
    | error f => exact congrArg Except.error same
    | ok b => exact same.elim
  | ok a =>
    cases b with
    | error f => exact same.elim
    | ok b =>
      cases c with
      | list => exact absurd rfl single
      | _ => exact congrArg Except.ok same

end Call

/-! ## What is left alone, and what is agreed on -/

/-- Jobs of other environments are those that there were, with all that is held under their identifiers. -/
structure Untouched (environment : String) (w w' : Memory) : Prop where
  kept : ∀ id job, w.jobs.get? id = some job → job.environment ≠ environment → w'.share id = w.share id
  gained : ∀ id job, w'.jobs.get? id = some job → job.environment ≠ environment → w.jobs.get? id = some job

/-- Two worlds show the same time, will hand out the same identifier next, and hold the same under the identifiers of an
environment's jobs. -/
structure Agree (environment : String) (w v : Memory) : Prop where
  now : w.now = v.now
  issued : w.store.issued = v.store.issued
  shares : ∀ id, w.Owns environment id ∨ v.Owns environment id → w.share id = v.share id

section

variable {environment : String} {id : Identifier} {w w' v : Memory} {ε α : Type} {x : Act ε Memory α}

theorem World.Owns.of_share (same : w.share id = v.share id) (own : w.Owns environment id) : v.Owns environment id := by
  obtain ⟨job, stored, own⟩ := own
  exact ⟨job, (congrArg JobShare.job same).symm.trans stored, own⟩

theorem Agree.symm (h : Agree environment w v) : Agree environment v w where
  now := h.now.symm
  issued := h.issued.symm
  shares id mine := (h.shares id mine.symm).symm

theorem Untouched.of_within (hx : Within (Engine.ofJob False environment id) x)
    (h : (Engine.ofJob False environment id).inv w) : Untouched environment w (x.on w).2 := by
  obtain ⟨-, others⟩ := hx.frame h
  refine ⟨fun other job stored foreign => ?_, fun other job stored foreign => ?_⟩
  · by_cases same : other = id
    · subst same
      exact absurd (h.2 job stored) foreign
    · exact others other same
  · by_cases same : other = id
    · subst same
      exact absurd ((hx.inv h).2 job stored) foreign
    · exact (congrArg JobShare.job (others other same)).symm.trans stored

/-- What is held of an environment, if only another one was touched. -/
theorem Untouched.share_eq {other : String} (h : Untouched environment w w') (foreign : other ≠ environment)
    (mine : w.Owns other id ∨ w'.Owns other id) : w'.share id = w.share id := by
  rcases mine with ⟨job, stored, rfl⟩ | ⟨job, stored, rfl⟩
  · exact h.kept id job stored foreign
  · exact h.kept id job (h.gained id job stored foreign) foreign

/-- What stays within the share of a job comes to the same where that share is the same. -/
theorem Agree.after (hx : ∀ ordered, Within (Engine.ofJob ordered environment id) x)
    (h : (Engine.ofJob False environment id).inv w) (h' : (Engine.ofJob False environment id).inv v)
    (agree : Agree environment w v) (shared : w.share id = v.share id) :
    (x.on w).1 = (x.on v).1 ∧ Agree environment (x.on w).2 (x.on v).2 ∧
      (∀ id, w.Owns environment id → (x.on w).2.share id = (x.on v).2.share id) ∧
      (w.jobsIn environment = v.jobsIn environment → (x.on w).2.jobsIn environment = (x.on v).2.jobsIn environment) := by
  obtain ⟨-, others⟩ := (hx False).frame h
  obtain ⟨-, others'⟩ := (hx False).frame h'
  obtain ⟨result, like⟩ := (hx False).alike h h' ⟨agree.now, agree.issued, shared, False.elim⟩
  have same (other : Identifier) (mine : other ≠ id → w.share other = v.share other) :
      (x.on w).2.share other = (x.on v).2.share other := by
    by_cases own : other = id
    · subst own
      exact like.share
    · rw [others other own, others' other own, mine own]
  refine ⟨result, ⟨like.now, like.issued, fun other mine => ?_⟩, fun other mine => ?_, fun order => ?_⟩
  · refine same other fun ne => agree.shares other ?_
    exact mine.imp (.of_share (others other ne)) (.of_share (others' other ne))
  · exact same other fun _ => agree.shares other (.inl mine)
  · exact ((hx True).alike h h' ⟨agree.now, agree.issued, shared, fun _ => order⟩).2.order trivial

end

/-- A call comes to the same in two worlds, as far as its environment goes. -/
structure Call.SameCourse (c : Call) (environment : String) (w v : Memory) (p q : Except EngineError c.Answer × Memory) :
    Prop where
  result : c.SameResult p.1 q.1
  after : Agree environment p.2 q.2
  /-- Under the identifiers of jobs that are gone since, too. -/
  left : ∀ id, w.Owns environment id → p.2.share id = q.2.share id
  order : w.jobsIn environment = v.jobsIn environment → p.1 = q.1 ∧ p.2.jobsIn environment = q.2.jobsIn environment

/-! ## Isolation -/

namespace Engine

variable {rules : ClaimRules} {policy : SchedulePolicy} {threshold : Nat} {t₀ : Instant} {s : Site}
  {environment : String} {g : Engine LocalQueue (StoreState LocalStore) (Transaction LocalStore)} {w v : Memory}
  {id : Identifier}

/-! ### Lists -/

def newestFirst (jobs : List Job) : List Job := jobs.mergeSort fun a b => decide (b.createdAt ≤ a.createdAt)

theorem listJobs_on (hs : g.store = LocalStore.jobStore noStoreFaults) (environment : String) (w : Memory) :
    (g.listJobs environment).on w = (.ok (newestFirst (w.jobsIn environment).values), w.sentOne) := by
  have values : (w.jobsIn environment).values = w.jobs.values.filter (·.environment == environment) := by
    rw [Table.values, Table.values, List.filter_map]
    rfl
  rw [values, listJobs, hs]
  rfl

theorem perm_jobsIn (agree : Agree environment w v) :
    (w.jobsIn environment).values.Perm (v.jobsIn environment).values := by
  have found {w v : Memory} (agree : Agree environment w v) {id : Identifier} {job : Job}
      (mine : (w.jobsIn environment).get? id = some job) : (v.jobsIn environment).get? id = some job := by
    rw [jobsIn, Table.get?_filter, Option.filter_eq_some_iff] at mine ⊢
    have same := agree.shares id (.inl ⟨job, mine.1, beq_iff_eq.mp mine.2⟩)
    exact ⟨(congrArg JobShare.job same).symm.trans mine.1, mine.2⟩
  have same (id : Identifier) : (w.jobsIn environment).get? id = ((v.jobsIn environment).get? id).map fun job => job := by
    rw [Option.map_id']
    exact Option.ext fun job => ⟨found agree, found agree.symm⟩
  exact (Table.perm_values same).trans (by rw [List.map_id'])

/-- Lists of the same jobs, newest first, differ at most in the order of those that were created at the same time. -/
theorem sameAnswer_newestFirst {js ks : List Job} (perm : js.Perm ks) :
    Call.SameAnswer .list (newestFirst js) (newestFirst ks) := by
  have sorted (l : List Job) : ((newestFirst l).map (·.createdAt)).Pairwise fun t u => u ≤ t := by
    refine List.pairwise_map.mpr ((List.pairwise_mergeSort (fun a b c h h' => ?_) (fun a b => ?_) l).imp fun h => ?_)
    · exact decide_eq_true ((of_decide_eq_true h').trans (of_decide_eq_true h))
    · simpa using le_total b.createdAt a.createdAt
    · exact of_decide_eq_true h
  have same : (newestFirst js).Perm (newestFirst ks) :=
    ((List.mergeSort_perm js _).trans perm).trans (List.mergeSort_perm ks _).symm
  refine ⟨same, ?_⟩
  exact (same.map _).eq_of_pairwise (fun _ _ _ _ h h' => le_antisymm h' h) (sorted js) (sorted ks)

/-! ### All calls -/

theorem ready_of_found {job : Job} (h : w.InStep) (stored : w.jobs.get? id = some job)
    (own : job.environment = environment) : (ofJob False environment id).inv w := by
  refine ⟨h.sound.tidy, fun job' found => ?_⟩
  cases stored.symm.trans found
  exact own

/-- Nothing is held under the identifier of a new job. -/
theorem ready_of_new (h : w.InStep) (new : w.share id = {}) : (ofJob False environment id).inv w := by
  refine ⟨h.sound.tidy, fun job found => ?_⟩
  cases (congrArg JobShare.job new).symm.trans found

theorem untouched_of_call (hg : g.queue = workQueue rules) (hs : g.store = LocalStore.jobStore noStoreFaults)
    (h : w.InStep) (c : Call) (new : c.Creates → w.share (.generated (w.store.issued + 1)) = {}) :
    Untouched environment w ((c.ask g environment).on w).2 := by
  have sent : Untouched environment w w.sentOne := ⟨fun _ _ _ _ => rfl, fun _ _ stored _ => stored⟩
  cases c with
  | create r =>
    rw [Call.ask, createJob_eq hs]
    exact .of_within (within_createAt hg r) (ready_of_new h (new trivial))
  | list =>
    rw [Call.ask, listJobs_on hs]
    exact sent
  | ofJob id call =>
    by_cases mine : w.Owns environment id
    · obtain ⟨job, stored, own⟩ := mine
      obtain rfl : job.id = id := h.ownId stored
      have ready : (ofJob False environment job.id).inv w.sentOne := ready_of_found h stored own
      have served := Untouched.of_within (call.within_serve hg hs own (h.accepted stored)) ready
      rw [Call.ask, call.ask_found hs stored own rfl]
      exact ⟨served.kept, served.gained⟩
    · rw [Call.ask, call.ask_missing hs mine]
      exact sent

theorem sameCourse_of_call (hg : g.queue = workQueue rules) (hs : g.store = LocalStore.jobStore noStoreFaults)
    (h : w.InStep) (h' : v.InStep) (c : Call)
    (new : c.Creates → w.share (.generated (w.store.issued + 1)) = {})
    (new' : c.Creates → v.share (.generated (v.store.issued + 1)) = {}) (agree : Agree environment w v) :
    c.SameCourse environment w v ((c.ask g environment).on w) ((c.ask g environment).on v) := by
  have sent : Agree environment w.sentOne v.sentOne := ⟨agree.now, agree.issued, agree.shares⟩
  have kept (id : Identifier) (mine : w.Owns environment id) : w.sentOne.share id = v.sentOne.share id :=
    agree.shares id (.inl mine)
  cases c with
  | create r =>
    have shared : w.share (.generated (w.store.issued + 1)) = v.share (.generated (w.store.issued + 1)) := by
      rw [new trivial, agree.issued, new' trivial]
    have ready' : (ofJob False environment (.generated (w.store.issued + 1))).inv v :=
      ready_of_new h' (agree.issued ▸ new' trivial)
    rw [Call.ask, createJob_eq hs, createJob_eq hs, ← agree.issued]
    obtain ⟨result, after, left, order⟩ :=
      agree.after (fun _ => within_createAt hg r) (ready_of_new h (new trivial)) ready' shared
    exact ⟨.of_eq result, after, left, fun same => ⟨result, order same⟩⟩
  | list =>
    rw [Call.ask, listJobs_on hs, listJobs_on hs]
    refine ⟨sameAnswer_newestFirst (perm_jobsIn agree), sent, kept, fun same => ⟨?_, same⟩⟩
    rw [same]
  | ofJob id call =>
    by_cases mine : w.Owns environment id
    · have shared := agree.shares id (.inl mine)
      obtain ⟨job, stored, own⟩ := mine
      have stored' := (congrArg JobShare.job shared).symm.trans stored
      obtain rfl : job.id = id := h.ownId stored
      have ready : (ofJob False environment job.id).inv w.sentOne := ready_of_found h stored own
      have ready' : (ofJob False environment job.id).inv v.sentOne := ready_of_found h' stored' own
      rw [Call.ask, call.ask_found hs stored own rfl, call.ask_found hs stored' own rfl]
      obtain ⟨result, after, left, order⟩ :=
        sent.after (fun _ => call.within_serve hg hs own (h.accepted stored)) ready ready' shared
      exact ⟨.of_eq result, after, left, fun same => ⟨result, order same⟩⟩
    · have missing : ¬ v.Owns environment id := fun own => mine (own.of_share (agree.shares id (.inr own)).symm)
      rw [Call.ask, call.ask_missing hs mine, call.ask_missing hs missing]
      exact ⟨.of_eq rfl, sent, kept, fun same => ⟨rfl, same⟩⟩

/-- Calls in one environment and whatever belongs to others leave each other alone. -/
theorem calls_are_isolated (visited : Site.Visited rules policy threshold t₀ s) (environment : String) (c : Call)
    (new : c.Creates → s.world.NextIsNew) (invoker : Invoker) :
    let x := c.ask (inMemory rules policy threshold invoker) environment
    Untouched environment s.world (x.on s.world).2 ∧
      (∀ id call, c = .ofJob id call → ¬ s.world.Owns environment id →
        x.on s.world = (.error (.jobNotFound id.text), s.world.sentOne)) ∧
      ∀ t₁ s', Site.Visited rules policy threshold t₁ s' → Agree environment s.world s'.world →
        c.SameCourse environment s.world s'.world (x.on s.world) (x.on s'.world) := by
  have inStep := (Site.InStep.of_visited visited).world
  have free (creates : c.Creates) := Site.nothing_held visited _ (new creates)
  refine ⟨untouched_of_call rfl rfl inStep c free, ?_, fun t₁ s' visited' agree => ?_⟩
  · rintro id call rfl missing
    exact call.ask_missing rfl missing
  · have new' (creates : c.Creates) : s'.world.NextIsNew := by
      rw [NextIsNew, ← agree.issued]
      exact new creates
    have free' (creates : c.Creates) := Site.nothing_held visited' _ (new' creates)
    exact sameCourse_of_call rfl rfl inStep (Site.InStep.of_visited visited').world c free free' agree

/-! ### Three environments (used by the theorem below) -/

/-- The first fire of a job is at work when a second job is created in another environment. -/
def sharedSite (environment : String) (schedule : Schedule) : Site :=
  claimedSite.after (.create environment { everyFiveMinutes with schedule := schedule })

theorem after_create (s : Site) (r : CreateJobRequest) : (s.after (.create environment r)).world =
    (((Call.create r).ask (inMemory {} {} 3 .obliging) environment).on s.world).2 := by
  rw [Site.after, Operation.act, Operation.silent, on_bind, on_discard, engaging, on_mapError, Call.ask]
  cases ((inMemory {} {} 3 .obliging).createJob environment r).on s.world with
  | mk result w => cases result <;> rfl

/-- A job runs every ten minutes from now on, whatever the second job is, and leaves that as it is. -/
theorem second_job_makes_no_difference :
    let x := fun environment => (Call.ofJob (.generated 1) (.update { schedule := some (.interval 10) })).ask
      (inMemory {} {} 3 .obliging) environment
    let w := (sharedSite "f" (.interval 5)).world
    let v := (sharedSite "g" (.onTime (.ofMillis 400000))).world
    w.jobs ≠ v.jobs ∧ ((x "e").on w).1.isOk = true ∧ ((x "e").on w).1 = ((x "e").on v).1 ∧
      ((x "e").on w).2.share (.generated 2) = w.share (.generated 2) ∧
      (x "f").on w = (.error (.jobNotFound (Identifier.generated 1).text), w.sentOne) := by
  have visited : Site.Visited {} {} 3 (.ofMillis 0) claimedSite := reached_claimedSite.visited
  have new : claimedSite.world.NextIsNew := by
    have issued : claimedSite.world.store.issued = 1 := by decide +kernel
    rw [NextIsNew, issued]
    rintro ⟨k, after, upTo, own⟩
    obtain rfl : k = 1 := by omega
    exact absurd own (by decide)
  have added (environment : String) (schedule : Schedule) :
      Untouched environment claimedSite.world (sharedSite environment schedule).world := by
    rw [sharedSite, after_create]
    exact (calls_are_isolated visited environment (.create _) (fun _ => new) .obliging).1
  have agree : Agree "e" (sharedSite "f" (.interval 5)).world (sharedSite "g" (.onTime (.ofMillis 400000))).world := by
    have first := added "f" (.interval 5)
    have other := added "g" (.onTime (.ofMillis 400000))
    refine ⟨by decide +kernel, by decide +kernel, fun id mine => ?_⟩
    have mine : claimedSite.world.Owns "e" id := by
      rcases mine with mine | mine
      · exact mine.of_share (first.share_eq (by decide) (.inr mine))
      · exact mine.of_share (other.share_eq (by decide) (.inr mine))
    rw [first.share_eq (by decide) (.inl mine), other.share_eq (by decide) (.inl mine)]
  have visited₁ : Site.Visited {} {} 3 (.ofMillis 0) (sharedSite "f" (.interval 5)) :=
    visited.tail (.step (Site.step_after ⟨by decide +kernel, fun _ _ mem => by cases mem⟩ (by decide +kernel)))
  have visited₂ : Site.Visited {} {} 3 (.ofMillis 0) (sharedSite "g" (.onTime (.ofMillis 400000))) :=
    visited.tail (.step (Site.step_after ⟨by decide +kernel, fun _ _ mem => by cases mem⟩ (by decide +kernel)))
  have isolated (environment : String) := calls_are_isolated visited₁ environment
    (.ofJob (.generated 1) (.update { schedule := some (.interval 10) })) False.elim .obliging
  obtain ⟨untouched, -, twice⟩ := isolated "e"
  have same := (twice _ _ visited₂ agree).result
  obtain ⟨-, missing, -⟩ := isolated "f"
  refine ⟨by decide +kernel, by decide +kernel, same.eq nofun, ?_, missing _ _ rfl ?_⟩
  · have second : ((sharedSite "f" (.interval 5)).world.jobs.get? (.generated 2)).map (·.environment) = some "f" := by
      decide +kernel
    obtain ⟨job, stored, own⟩ := Option.map_eq_some_iff.mp second
    exact untouched.kept _ job stored (by rw [own]; decide)
  · rintro ⟨job, stored, own⟩
    have first : ((sharedSite "f" (.interval 5)).world.jobs.get? (.generated 1)).map (·.environment) = some "e" := by
      decide +kernel
    rw [stored, Option.map_some, own] at first
    exact absurd first (by decide)

end Engine

end Timetable
