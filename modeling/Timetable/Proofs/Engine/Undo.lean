import Timetable.Proofs.Engine.Requests
import Timetable.Proofs.Engine.World
import Timetable.Proofs.Queue.SharedFaulty

/-!
# Changes that fail are undone

A change of a job takes the old definition out of the queue, puts the new one in, and commits. Any of these may
fail, and then the engine undoes the ones before. `Stages` says what has to be shown about the contents of the queue
for each of these steps; `Engine.applyUpdate_fails` draws the conclusion for a change that fails, and
`Engine.updateJob_fails` for the request that asked for it. They hold for a `FaultyQueue` and a `FaultyStore` of which
one fails.
-/

namespace Timetable

open World Placement

/-! ## A job in the queue -/

/-- What the schedule of a job asks of the queue. -/
def Job.placement (j : Job) : Placement := ⟨j.queueKey, j.schedule.spec?⟩

namespace Schedule

/-- Whether an entry that is queued now for a single execution can be for an instant. -/
def Fires (s : Schedule) (now t : Instant) : Prop :=
  ∀ millis, queuePlan s now = .delayed millis → now.addMillis? (signedWord millis) = some t

/-- Whether a schedule that is queued now has an entry. -/
structure FiresAhead (s : Schedule) (now : Instant) : Prop where
  single : queuePlan s now ≠ .expired
  repeating : ∀ spec, s.spec? = some spec → spec.nextAfter now ≠ .ok none

theorem eq_of_spec?_eq {s s' : Schedule} (h : s.spec? = s'.spec?) (repeats : s.spec? ≠ none) : s = s' := by
  cases s with
  | interval minutes =>
    cases s' with
    | interval minutes' =>
      have same := RepeatSpec.every.inj (Option.some.inj h)
      rw [show minutes = minutes' by omega]
    | _ => cases h
  | periodical expression =>
    cases s' with
    | periodical expression' => rw [RepeatSpec.cron.inj (Option.some.inj h)]
    | _ => cases h
  | onTime => exact absurd rfl repeats

end Schedule

namespace Job

variable {j : Job} {now : Instant} {c c' : QueueContents}

theorem placement_of_spec {spec : RepeatSpec} (h : j.schedule.spec? = some spec) :
    j.placement = ⟨j.queueKey, some spec⟩ := congrArg (Placement.mk j.queueKey) h

theorem placement_of_none (h : j.schedule.spec? = none) : j.placement = ⟨j.queueKey, none⟩ :=
  congrArg (Placement.mk j.queueKey) h

/-- A job was put into the queue; one whose instant has passed stays out. -/
def Put (j : Job) (now : Instant) (c c' : QueueContents) : Prop :=
  queuePlan j.schedule now = .expired ∧ c' = c ∨ j.placement.Entered now (j.schedule.Fires now) c c'

/-- A job was put back into the queue, unless it was there. -/
def Restored (j : Job) (now : Instant) (c c' : QueueContents) : Prop :=
  j.placement.Held c ∧ c' = c ∨ ¬ j.placement.Held c ∧ j.Put now c c'

/-- What is put in for a schedule with an entry is there. -/
theorem Put.queued (h : j.Put now c c') (ahead : j.schedule.FiresAhead now) (out : ¬ j.placement.Held c) :
    j.placement.Queued c' := by
  have entered := h.resolve_left fun expired => ahead.single expired.1
  cases hs : j.schedule.spec? with
  | none =>
    rw [j.placement_of_none hs] at entered ⊢
    exact ⟨_, rfl, entered.stored _ rfl⟩
  | some spec =>
    rw [j.placement_of_spec hs] at entered out ⊢
    have absent : c.record (repeatField j.queueKey spec) = none := Option.not_isSome_iff_eq_none.mp out
    obtain ⟨r, hr, fires⟩ := entered.anew spec rfl absent
    cases next : r.next with
    | none => exact absurd (next ▸ fires) (ahead.repeating spec hs)
    | some t =>
      have current : current? ⟨j.queueKey, some spec⟩ c' = some (instanceId j.queueKey spec t) := by
        simp only [current?, hr, Option.bind_some, next, Option.map_some]
      exact ⟨_, current, entered.stored _ current⟩

end Job

namespace Engine

variable {σ ρ τ : Type} {Q : FaultyQueue σ} {Inv : σ → Prop} {g : Engine σ ρ τ} {w : World σ ρ} {job old new : Job}

section

variable (law : Q.Lawful w.now Inv) (hg : g.queue = Q.queue) (inv : Inv w.queue)

include law hg inv

theorem ends_enqueue (accepted : job.schedule.Accepted) (storable : job.Storable) {P : Unit → World σ ρ → Prop}
    {E : QueueError → World σ ρ → Prop}
    (puts : ∀ s, Q.Went Inv w.queue s → job.Put w.now (Q.contents w.queue) (Q.contents s) → P () (w.putQueue s))
    (breaks : ∀ e s, Q.Broke Inv w.queue (fun c => c = Q.contents w.queue ∨
      Q.Cuts w.queue ∧ job.placement.RecordOnly (Q.contents w.queue) c) e s → E e (w.putQueue s)) :
    (g.enqueue job).Ends w P E := by
  unfold enqueue
  simp only [Act.ends_bind, ends_time, hg]
  cases plan : queuePlan job.schedule w.now with
  | repeating spec =>
    have hs := queuePlan_eq_repeating_iff.mp plan
    have own := job.placement_of_spec hs
    rw [own] at breaks
    refine ends_onQueue.mpr ((law.addRepeating _ _ _ inv (accepted.usable hs) (storable.keepable accepted)).mono ?_
      breaks)
    rintro _ s ⟨went, entered⟩
    refine puts s went (.inr (own ▸ entered.mono fun t _ millis single => ?_))
    rw [plan] at single
    cases single
  | delayed millis =>
    have hs : job.schedule.spec? = none := spec?_eq_none w.now (by simp [plan])
    have own := job.placement_of_none hs
    refine ends_onQueue.mpr ((law.addDelayed _ _ _ inv (storable.keepable accepted)).mono ?_ ?_)
    · rintro _ s ⟨went, entered⟩
      refine puts s went (.inr (own ▸ entered.mono fun t reached millis' single => ?_))
      rw [plan] at single
      cases single
      exact reached
    · exact fun e s broke => breaks e s (broke.imp_right fun ⟨before, after, inv', same⟩ =>
        ⟨before, after, inv', .inl same⟩)
  | expired => exact Act.ends_pure.mpr (puts w.queue ⟨inv, id⟩ (.inl ⟨plan, rfl⟩))

theorem ends_dequeue (accepted : job.schedule.Accepted) {P : Bool → World σ ρ → Prop}
    {E : QueueError → World σ ρ → Prop}
    (leaves : ∀ found s, Q.Went Inv w.queue s → job.placement.Left (Q.contents w.queue) (Q.contents s) →
      P found (w.putQueue s))
    (breaks : ∀ e s, Q.Broke Inv w.queue (fun c => c = Q.contents w.queue ∨ Q.Cuts w.queue ∧
      job.placement.RecordOnly (Q.contents w.queue) c ∧ ¬ job.placement.Held c) e s → E e (w.putQueue s)) :
    (g.dequeue job).Ends w P E := by
  unfold dequeue
  simp only [Act.ends_bind, ends_time, hg]
  have single (hs : job.schedule.spec? = none) : (onQueue (Q.queue.removeDelayed job.queueKey)).Ends w P E := by
    refine ends_onQueue.mpr ((law.removeDelayed _ inv).mono ?_ ?_)
    · rintro found s ⟨went, left⟩
      exact leaves found s went (job.placement_of_none hs ▸ left)
    · exact fun e s broke => breaks e s (broke.imp_right fun ⟨before, after, inv', same⟩ =>
        ⟨before, after, inv', .inl same⟩)
  cases plan : queuePlan job.schedule w.now with
  | repeating spec =>
    have hs := queuePlan_eq_repeating_iff.mp plan
    have own := job.placement_of_spec hs
    refine ends_onQueue.mpr ((law.removeRepeating _ _ inv (accepted.usable hs)).mono ?_ ?_)
    · rintro found s ⟨went, left⟩
      exact leaves found s went (own ▸ left)
    · refine fun e s broke => breaks e s (broke.imp_right fun ⟨before, after, inv', left⟩ =>
        ⟨before, after, inv', left.imp_right ?_⟩)
      rintro ⟨cuts, only, absent⟩
      refine ⟨cuts, own ▸ only, ?_⟩
      rw [own]
      exact Option.not_isSome_iff_eq_none.mpr absent
  | delayed millis => exact single (spec?_eq_none w.now (by simp [plan]))
  | expired => exact single (spec?_eq_none w.now (by simp [plan]))

theorem ends_isQueued (accepted : job.schedule.Accepted) {P : Bool → World σ ρ → Prop}
    {E : QueueError → World σ ρ → Prop}
    (answers : ∀ held s, Q.Went Inv w.queue s → Q.contents s = Q.contents w.queue →
      (held = true ↔ job.placement.Held (Q.contents w.queue)) → P held (w.putQueue s))
    (breaks : ∀ e s, Q.Broke Inv w.queue (· = Q.contents w.queue) e s → E e (w.putQueue s)) :
    (g.isQueued job).Ends w P E := by
  unfold isQueued
  simp only [Act.ends_bind, ends_time, hg]
  have single (hs : job.schedule.spec? = none) : (do
      return (← onQueue (Q.queue.getEntry w.now job.queueKey)).isSome : Act QueueError (World σ ρ) Bool).Ends w P E := by
    refine Act.ends_bind.mpr (ends_onQueue.mpr ((law.getEntry _ inv).mono ?_ breaks))
    rintro entry s ⟨went, same, found⟩
    refine Act.ends_pure.mpr (answers _ s went same ?_)
    rw [found, job.placement_of_none hs]
    rfl
  cases plan : queuePlan job.schedule w.now with
  | repeating spec =>
    have hs := queuePlan_eq_repeating_iff.mp plan
    refine Act.ends_bind.mpr (ends_onQueue.mpr ((law.listRepeating inv).mono ?_ breaks))
    rintro records s ⟨went, same, mem⟩
    refine Act.ends_pure.mpr (answers _ s went same ?_)
    rw [job.placement_of_spec hs, held_iff (law.filed inv) (accepted.usable hs)]
    simp only [List.any_eq_true, mem, isRecordOf, Bool.and_eq_true, beq_iff_eq]
    exact ⟨fun ⟨r, ⟨f, hr⟩, hk, hs⟩ => ⟨r, f, hr, hk, hs⟩, fun ⟨r, f, hr, hk, hs⟩ => ⟨r, ⟨f, hr⟩, hk, hs⟩⟩
  | delayed millis => exact single (spec?_eq_none w.now (by simp [plan]))
  | expired => exact single (spec?_eq_none w.now (by simp [plan]))

/-- Where nothing fails any more, the old definition is back. -/
theorem ends_restore (calm : Q.Calm w.queue) (accepted : old.schedule.Accepted) (storable : old.Storable)
    {P : Unit → World σ ρ → Prop} {E : QueueError → World σ ρ → Prop}
    (restores : ∀ s, Q.Went Inv w.queue s → old.Restored w.now (Q.contents w.queue) (Q.contents s) →
      P () (w.putQueue s))
    (late : ∀ w', E .outOfRange w') : (g.restore old).Ends w P E := by
  -- nothing fails any more, so only the end of the calendar can break a call off
  have broken {s s' : σ} {R : QueueContents → Prop} {e : QueueError} (broke : Q.Broke Inv s R e s')
      (calm : Q.Calm s) (w' : World σ ρ) : E e w' := by
    rw [broke.late calm]
    exact late w'
  unfold restore
  refine Act.ends_bind.mpr (ends_isQueued law hg inv accepted (fun held s went same own => ?_)
    fun e s broke => broken broke calm _)
  cases held with
  | true => exact Act.ends_pure.mpr (restores s went (.inl ⟨own.mp rfl, same⟩))
  | false =>
    have out : ¬ old.placement.Held (Q.contents w.queue) := fun h => nomatch own.mpr h
    refine ends_enqueue (w := w.putQueue s) law hg went.inv accepted storable (fun s' went' put => ?_)
      fun e s' broke => broken broke (went.calm calm) _
    refine restores s' ⟨went'.inv, fun calm => went'.calm (went.calm calm)⟩ (.inr ⟨out, ?_⟩)
    rw [← same]
    exact put

end

end Engine

/-! ## Stages of a change -/

/-- What holds of the contents of the queue on the way of a change that fails: `A` without the new definition, `B` with
it, and `F` in the end. The new definition is placed at `p`, and only some changes add it, and only some may be cut short
there. -/
structure Stages (old : Job) (p : Placement) (now : Instant) (adds cut : Prop) (c₀ : QueueContents)
    (A B F : QueueContents → Prop) : Prop where
  start : A c₀
  left : ∀ {c}, old.isEnabled = true → old.placement.Left c₀ c → A c
  partly_left : ∀ {c}, old.isEnabled = true → old.placement.RecordOnly c₀ c → ¬ old.placement.Held c → A c
  skipped : ∀ {c}, A c → B c
  entered : ∀ {c c'} (fires : Instant → Prop), adds → A c → p.Entered now fires c c' → B c'
  partly_entered : ∀ {c c'}, adds → cut → A c → p.RecordOnly c c' → A c'
  withdrawn : ∀ {c c'}, adds → B c → p.Left c c' → A c'
  restored : ∀ {c c'}, old.isEnabled = true → A c → c'.Filed → old.Restored now c c' → F c'
  kept : ∀ {c}, old.isEnabled = false → A c → F c

namespace ChangePlan

variable {old new : Job}

theorem isEnabled_of_removeOld (h : (between old new).removeOld = true) : old.isEnabled = true := by
  unfold between at h
  split at h
  all_goals first | assumption | cases h

/-- The new definition is added after the old one was taken out, if that was queued. -/
theorem removeOld_of_addNew (h : (between old new).addNew = true) : (between old new).removeOld = old.isEnabled := by
  unfold between at h ⊢
  split at h
  · next enabled _ =>
    split at h
    · cases h
    · next ne => simp [enabled, ne]
  · cases h
  · next disabled _ => simp [disabled]
  · cases h

theorem ne_of_addNew (h : (between old new).addNew = true) (enabled : old.isEnabled = true) :
    old.schedule ≠ new.schedule := by
  intro same
  unfold between at h
  split at h
  · rw [if_pos same] at h
    cases h
  · cases h
  · next disabled _ =>
    rw [enabled] at disabled
    cases disabled
  · cases h

end ChangePlan

namespace Engine

variable {σ ρ τ : Type} {Q : FaultyQueue σ} {Inv : σ → Prop} {g : Engine σ ρ τ} {w : World σ ρ} {old new : Job}
  {p : Placement} {adds cut : Prop} {c₀ : QueueContents} {A B F : QueueContents → Prop}

/-- The queue when the new definition of a job is about to be added. -/
def cleared (g : Engine σ ρ τ) (old : Job) (w : World σ ρ) : σ :=
  if old.isEnabled then ((g.dequeue old).on w).2.queue else w.queue

/-- What is taken out of the queue does not depend on the store. -/
theorem cleared_putStore (store : ρ) : g.cleared old (w.putStore store) = g.cleared old w := by
  unfold cleared dequeue
  simp only [time, Act.on_bind, Act.on_get, Act.on_pure]
  show ite _ _ w.queue = ite _ _ w.queue
  have clock : (w.putStore store).now = w.now := rfl
  rw [clock]
  congr 1
  cases queuePlan old.schedule w.now <;> rfl

section

variable (law : Q.Lawful w.now Inv) (hg : g.queue = Q.queue) (inv : Inv w.queue)
  (stages : Stages old p w.now adds cut c₀ A B F)

include law hg inv stages

theorem ends_move {plan : ChangePlan} (start : Q.contents w.queue = c₀)
    (enabled : plan.removeOld = true → old.isEnabled = true)
    (ordered : plan.addNew = true → plan.removeOld = old.isEnabled) (hadds : plan.addNew = true → adds)
    (hcut : Q.Cuts (g.cleared old w) → cut) (accepted : old.schedule.Accepted) (accepted' : new.schedule.Accepted)
    (storable : new.Storable) (own : new.placement = p) {P : Unit → World σ ρ → Prop}
    {E : QueueError → World σ ρ → Prop}
    (moves : ∀ s, Q.Went Inv w.queue s → (if plan.addNew then B (Q.contents s) else A (Q.contents s)) →
      P () (w.putQueue s))
    (breaks : ∀ e s, Q.Broke Inv w.queue A e s → E e (w.putQueue s)) : (g.move plan old new).Ends w P E := by
  subst start own
  obtain ⟨removeOld, addNew⟩ := plan
  -- the new definition is put in once the old one is out of the way
  have add (hn : addNew = true) {s : σ} (went : Q.Went Inv w.queue s) (a : A (Q.contents s))
      (here : g.cleared old w = s) : (g.enqueue new).Ends (w.putQueue s) P E := by
    refine ends_enqueue (w := w.putQueue s) law hg went.inv accepted' storable (fun s' went' put => ?_)
      fun e s' broke => ?_
    · refine moves s' ⟨went'.inv, fun calm => went'.calm (went.calm calm)⟩ ?_
      rw [if_pos hn]
      rcases put with ⟨-, same⟩ | entered
      · rw [same]
        exact stages.skipped a
      · exact stages.entered _ (hadds hn) a entered
    · refine breaks e s' (broke.imp_right fun ⟨before, after, inv', left⟩ =>
        ⟨fun calm => before (went.calm calm), after, inv', ?_⟩)
      rcases left with same | ⟨cuts, only⟩
      · rw [same]
        exact a
      · exact stages.partly_entered (hadds hn) (hcut (here ▸ cuts)) a only
  unfold move
  cases removeOld with
  | false =>
    cases addNew with
    | false => exact Act.ends_pure.mpr (moves w.queue ⟨inv, id⟩ stages.start)
    | true =>
      have disabled : old.isEnabled = false := (ordered rfl).symm
      refine add rfl ⟨inv, id⟩ stages.start ?_
      rw [cleared, disabled]
      rfl
  | true =>
    have he := enabled rfl
    -- where the one command that fails may hit depends on the queue after this removal
    have state : (g.dequeue old).Ends w (fun _ w' => ((g.dequeue old).on w).2 = w') fun _ _ => True :=
      ⟨fun _ _ => rfl, fun _ _ => trivial⟩
    have dequeued := (ends_dequeue law hg inv accepted
      (P := fun _ w' => ∃ s, w' = w.putQueue s ∧ Q.Went Inv w.queue s ∧ A (Q.contents s)) (E := E)
      (fun _ s went left => ⟨s, rfl, went, stages.left he left⟩) (fun e s broke => ?_)).and state
    · refine Act.ends_bind.mpr (Act.ends_discard.mpr (dequeued.mono ?_ fun _ _ both => both.1))
      rintro _ _ ⟨⟨s, rfl, went, a⟩, here⟩
      cases addNew with
      | false => exact Act.ends_pure.mpr (moves s went a)
      | true =>
        refine add rfl went a ?_
        rw [cleared, if_pos he, here]
        rfl
    · refine breaks e s (broke.imp_right fun ⟨before, after, inv', left⟩ => ⟨before, after, inv', ?_⟩)
      rcases left with same | ⟨-, only, out⟩
      · rw [same]
        exact stages.start
      · exact stages.partly_left he only out

/-- Where nothing fails any more, a change is undone to the end. -/
theorem ends_undo (calm : Q.Calm w.queue) {added : Bool} (hadds : added = true → adds)
    (start : if added then B (Q.contents w.queue) else A (Q.contents w.queue)) (accepted : old.schedule.Accepted)
    (accepted' : new.schedule.Accepted) (storable : old.Storable) (own : new.placement = p)
    {P : Unit → World σ ρ → Prop} {E : EngineError → World σ ρ → Prop}
    (undoes : ∀ s, Inv s → F (Q.contents s) → P () (w.putQueue s))
    (late : ∀ w', E (.queue .outOfRange) w') : (g.undo old new added).Ends w P E := by
  subst own
  -- the last step is the same whether or not the new definition was taken out before
  have back {s : σ} (went : Q.Went Inv w.queue s) (a : A (Q.contents s)) :
      (if old.isEnabled then discard (attempting (queueing (g.restore old))) else pure () :
        Act EngineError (World σ ρ) Unit).Ends (w.putQueue s) P E := by
    cases he : old.isEnabled with
    | false => exact Act.ends_pure.mpr (undoes s went.inv (stages.kept he a))
    | true =>
      refine Act.ends_discard.mpr (Act.ends_attemptUnless.mpr (Act.ends_mapError.mpr ?_))
      refine ends_restore (w := w.putQueue s) law hg went.inv (went.calm calm) accepted storable
        (fun s' went' restored => ?_) late
      exact undoes s' went'.inv (stages.restored he a (law.filed went'.inv) restored)
  unfold undo
  cases added with
  | false => exact back ⟨inv, id⟩ start
  | true =>
    refine Act.ends_bind.mpr (Act.ends_discard.mpr (Act.ends_attemptUnless.mpr (Act.ends_mapError.mpr ?_)))
    refine ends_dequeue law hg inv accepted' (fun _ s went left => ?_) fun e s broke => ?_
    · exact back went (stages.withdrawn (hadds rfl) start left)
    · rw [broke.late calm]
      exact late _

end

end Engine

/-! ## An update that fails -/

namespace Engine

variable {σ ρ : Type} {Q : FaultyQueue σ} {S : FaultyStore ρ} {g : Engine σ (StoreState ρ) (Transaction ρ)}
  {w : World σ (StoreState ρ)} {environment : String} {old : Job}

/-- A stored job is to be changed in a world where one thing fails: something of the queue, or statements of the
store. -/
structure Attempt (Q : FaultyQueue σ) (S : FaultyStore ρ) (g : Engine σ (StoreState ρ) (Transaction ρ))
    (w : World σ (StoreState ρ)) (environment : String) (old : Job) : Prop where
  queue : g.queue = Q.queue
  store : g.store = S.store
  reached : Q.Reached w.now w.queue
  once : Q.Calm w.queue ∨ S.Commits
  found : S.find w.store.rows environment old.id = .ok (some old)
  accepted : old.schedule.Accepted
  storable : old.Storable

/-- An operation failed: it met the end of the calendar, or the rows are as before, and the queue is, or holds something
of some kind. -/
def Failed (Q : FaultyQueue σ) (Inv : σ → Prop) (w : World σ (StoreState ρ)) (F : QueueContents → Prop)
    (e : EngineError) (w' : World σ (StoreState ρ)) : Prop :=
  e.isOutOfRange = true ∨ w'.now = w.now ∧ w'.store.rows = w.store.rows ∧ Inv w'.queue ∧
    (Q.contents w'.queue = Q.contents w.queue ∨ F (Q.contents w'.queue))

/-- Where the store was all that took part, it has kept its rows. -/
theorem Failed.of_store {Inv : σ → Prop} {F : QueueContents → Prop} (inv : Inv w.queue) {store : StoreState ρ}
    (rows : store.rows = w.store.rows) (e : EngineError) : Failed Q Inv w F e (w.putStore store) :=
  .inr ⟨rfl, rows, inv, .inl rfl⟩

variable {Inv : σ → Prop} {adds cut : Prop} {A B F : QueueContents → Prop}

theorem applyUpdate_fails (law : Q.Lawful w.now Inv) (lawful : S.Lawful) (h : Attempt Q S g w environment old)
    {changes : JobChanges} (storable : changes.Storable) (accepted : (changes.applyTo old).schedule.Accepted)
    (hadds : (ChangePlan.between old (changes.applyTo old)).addNew = true → adds)
    (hcut : Q.Cuts (g.cleared old w) → cut)
    (stages : Stages old (changes.applyTo old).placement w.now adds cut (Q.contents w.queue) A B F) :
    (g.applyUpdate old changes).Ends w (fun _ _ => True) (Failed Q Inv w F) := by
  have inv := law.reached h.reached
  simp only [applyUpdate, Act.ends_bind, ends_time, h.store, storing, queueing, attempting, Act.ends_mapError,
    Act.ends_attemptUnless]
  refine ends_onStore.mpr ((lawful.openTransaction _).mono ?_ fun e s rows => .of_store inv rows _)
  rintro t s₁ ⟨rows₁, working⟩
  have found : S.find t.working environment old.id = .ok (some old) := working ▸ h.found
  refine ends_inTransaction.mpr ((lawful.updateJob _ found h.storable storable).mono ?_ fun e s rows =>
    .of_store inv (rows.trans rows₁) _)
  rintro new ⟨t, s₂⟩ ⟨rows₂, made⟩
  have rows : s₂.rows = w.store.rows := rows₂.trans rows₁
  have own : new.placement = (changes.applyTo old).placement :=
    congrArg₂ Placement.mk (congrArg Identifier.text made.id) made.schedule.spec?
  have accepted' := made.schedule.accepted accepted
  -- what is left once everything is undone
  have undone (added : Bool) (hn : added = true → adds) {s : σ} {store : StoreState ρ} (e : EngineError)
      (kept : store.rows = w.store.rows) (inv' : Inv s) (calm : Q.Calm s)
      (start : if added then B (Q.contents s) else A (Q.contents s)) :
      (g.undo old new added).Ends ((w.putQueue s).putStore store)
        (fun _ w' => (throw e : Act EngineError _ Job).Ends w' (fun _ _ => True) (Failed Q Inv w F))
        (Failed Q Inv w F) := by
    refine ends_undo (w := (w.putQueue s).putStore store) law h.queue inv' stages calm hn start h.accepted accepted'
      h.storable own (fun s' inv'' final => ?_) fun w' => .inl rfl
    exact Act.ends_throw.mpr (.inr ⟨rfl, kept, inv'', .inr final⟩)
  refine ends_move (w := (w.putStore s₁).putStore s₂) law h.queue inv stages rfl ChangePlan.isEnabled_of_removeOld
    ChangePlan.removeOld_of_addNew hadds (fun cuts => hcut ?_) h.accepted accepted' made.storable own
    (fun s went moved => ?_) fun e s broke => ?_
  · rwa [cleared_putStore, cleared_putStore] at cuts
  · refine ends_onStore.mpr ((lawful.commit t).mono (fun _ _ _ => Act.ends_pure.mpr trivial) ?_)
    rintro e store ⟨kept, fails⟩
    refine (if_neg (show ¬ (EngineError.store e).isOutOfRange = true by simp [EngineError.isOutOfRange])) ▸ ?_
    exact undone _ hadds _ (kept.trans rows) went.inv (went.calm (h.once.resolve_right fails)) moved
  · rcases broke with rfl | ⟨_, calm, inv', a⟩
    · exact .inl rfl
    · split
      · next late => exact .inl late
      · exact undone false nofun _ rows inv' calm a

/-- A request that fails is undone as the change it asks for. -/
theorem updateJob_fails (law : Q.Lawful w.now Inv) (lawful : S.Lawful) (h : Attempt Q S g w environment old)
    {r : UpdateJobRequest} (hr : r.Storable) {B : JobChanges → QueueContents → Prop}
    (stages : ∀ changes, g.changes r w.now = .ok changes → (changes.applyTo old).schedule.Accepted →
      Stages old (changes.applyTo old).placement w.now ((ChangePlan.between old (changes.applyTo old)).addNew = true)
        (Q.Cuts (g.cleared old w)) (Q.contents w.queue) A (B changes) F) :
    (g.updateJob environment old.id r).Ends w (fun _ _ => True) (Failed Q Inv w F) := by
  have inv := law.reached h.reached
  simp only [updateJob, getJob, Act.ends_bind, h.store, storing, Act.ends_mapError]
  refine ends_onStore.mpr ((lawful.findJob environment old.id).mono ?_ fun e s rows => .of_store inv rows _)
  rintro job s ⟨rows, found⟩
  rw [h.found] at found
  cases found
  refine Act.ends_pure.mpr (ends_time.mpr (Act.ends_ofExcept.mpr ⟨fun changes checked => ?_, fun e _ =>
    .of_store inv rows e⟩))
  have accepted : (changes.applyTo old).schedule.Accepted := by
    show (changes.schedule.getD old.schedule).Accepted
    cases asked : changes.schedule with
    | none => exact h.accepted
    | some s => exact accepted_of_changes checked asked
  have attempt : Attempt Q S g (w.putStore s) environment old :=
    { h with found := (congrArg (S.find · environment old.id) rows).trans h.found }
  refine (applyUpdate_fails (w := w.putStore s) law lawful attempt (storable_of_changes checked hr) accepted id
    (fun cuts => ?_) (stages changes checked accepted)).mono (fun _ _ _ => trivial) ?_
  · rwa [cleared_putStore] at cuts
  · rintro e w' (late | ⟨now, rows', inv', final⟩)
    · exact .inl late
    · exact .inr ⟨now, rows'.trans rows, inv', final⟩

end Engine

/-! ## One job (used by the theorems about single failures) -/

/-- An engine with a queue and a store. -/
def Engine.backedBy {σ ρ : Type} (Q : FaultyQueue σ) (S : FaultyStore ρ) : Engine σ (StoreState ρ) (Transaction ρ) where
  queue := Q.queue
  store := S.store
  invoker := .obliging

/-- The job that is created first. -/
def firstJob (schedule : Schedule) (status : JobStatus) : Job where
  id := .generated 1
  environment := "e"
  name := "a"
  schedule
  functions := [{ functionId := "f" }]
  executionType := .sequential
  status
  createdAt := .ofMillis 0
  updatedAt := .ofMillis 0

theorem storable_firstJob (schedule : Schedule) (status : JobStatus) : (firstJob schedule status).Storable := by
  intro f mem
  obtain rfl := List.mem_singleton.mp mem
  exact ⟨Json.storable_empty, Json.storable_empty, Json.storable_empty⟩

/-- A world in which nothing is stored but one job. -/
def World.holding {σ : Type} (job : Job) (now : Instant) (queue : σ) : World σ (StoreState LocalStore) where
  now
  queue
  store := { rows := { jobs := Table.empty.set job.id job }, issued := 1, sent := 1 }

theorem Engine.attempt_firstJob {σ : Type} {Q : FaultyQueue σ} {faults : StoreFaults} {schedule : Schedule}
    {status : JobStatus} {now : Instant} {queue : σ} (reached : Q.Reached now queue)
    (once : Q.Calm queue ∨ (FaultyStore.memory faults).Commits) (accepted : schedule.Accepted) :
    Attempt Q (.memory faults) (.backedBy Q (.memory faults)) (.holding (firstJob schedule status) now queue) "e"
      (firstJob schedule status) where
  queue := rfl
  store := rfl
  reached := reached
  once := once
  found := by simp [FaultyStore.memory, World.holding, LocalStore.jobIn?, Table.get?_set, firstJob]
  accepted := accepted
  storable := storable_firstJob schedule status

/-- No transaction is committed. -/
def failingCommits : StoreFaults := .named ["commit"] LocalStore.commitRejected

/-- A job that was put into the queue in memory, which fails no more. -/
def World.queueing (job : Job) (request : QueueRequest) (since now : Instant) :
    World (Metered LocalQueue) (StoreState LocalStore) :=
  .holding job now ⟨(((LocalQueue.workQueue {}).ask since request).on {}).2, 1⟩

/-- An engine in memory, no transaction of which is committed. -/
def Engine.uncommitting : Engine (Metered LocalQueue) (StoreState LocalStore) (Transaction LocalStore) :=
  .backedBy (.memory {} 0 .outOfRange) (.memory failingCommits)

theorem Engine.attempt_queueing {schedule : Schedule} {status : JobStatus} {request : QueueRequest} {since now : Instant}
    (usable : request.Usable) (le : since ≤ now) (accepted : schedule.Accepted) :
    Attempt (.memory {} 0 .outOfRange) (.memory failingCommits) uncommitting
      (.queueing (firstJob schedule status) request since now) "e" (firstJob schedule status) :=
  attempt_firstJob ⟨since, since, le, .step .start ⟨le_rfl, usable⟩⟩ (.inl Nat.zero_lt_one) accepted

end Timetable
